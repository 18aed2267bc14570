/-
# The sequences of a batch

The kernels of the recurrence see the rows of a batch one after another, so a
sequence goes on in the state that the sequence before it left; and the product
at the end takes one row where there is one token a sequence. So the sequences
of a batch are on their own when there is one of them, and a model that answers
whether it has read a token before shows the difference for every larger batch.

Key definitions: `RowsAlone`, `echo`.
Key theorems: `forward_row`, `modelStep_echo`, `rowsAlone_iff`.
-/
import Siphon.Rwkv.Pass
import Mathlib.Analysis.Complex.Trigonometric
import Mathlib.Analysis.Real.Sqrt

namespace Siphon
namespace Rwkv

open Finset Mealy Fallible Rounding

/-! ### One sequence of a batch -/

section Alone

variable {F : Type} [Field F] [LinearOrder F] (fn : Functions F)

/-- Each row of the logits is what a call on that row alone gives. -/
def RowsAlone (env : Env) (m : Model F) {T : ℕ} (ids : List (Row ℤ T)) (st : List (LayerState F)) (out : StateOut F) :
    Prop :=
  ∀ (b : ℕ) (row : Row ℤ T), ids[b]? = some row →
    (forward fn env m ids st out).map (fun r => (r.1.drop (b * T)).take T) =
      (forward fn env m [row] st out).map Prod.fst

omit [Field F] [LinearOrder F] in
/-- A row of a buffer. -/
theorem take_drop_flatten {α : Type} {T b : ℕ} {l : List (List α)} {x : List α} (h : ∀ y ∈ l, y.length = T)
    (hb : l[b]? = some x) : (l.flatten.drop (b * T)).take T = x := by
  have hrows := congrArg (fun l => l[b]?) (rows_flatten h)
  obtain ⟨hlt, -⟩ := List.getElem?_eq_some_iff.mp hb
  rw [List.getElem?_map, List.getElem?_range hlt, hb] at hrows
  exact Option.some.inj hrows

/-! How many rows there are. -/

theorem length_attention_le {cfg : Config F} {call : Call} {i : ℕ} {lp : LayerParams F cfg.hiddenSize} {slot : Slot F}
    {x : List (List F)} {vFirst : Option (List (List F))} {r : List F × List F × List (List F) × List (List F)}
    (h : attention fn call i lp slot x vFirst = some r) : r.2.2.1.length ≤ x.length := by
  unfold attention at h
  simp only [Option.bind_eq_bind, Option.bind_eq_some_iff, Option.some.injEq] at h
  obtain ⟨_, -, _, -, _, -, _, -, _, -, _, -, _, -, _, -, _, -, _, -, rfl⟩ := h
  exact (List.length_zipWith ..).trans_le (Nat.min_le_left _ _)

theorem length_ffn_le {cfg : Config F} {call : Call} {lp : LayerParams F cfg.hiddenSize} {slot : Slot F}
    {x : List (List F)} {r : List F × List (List F)} (h : ffn fn call lp slot x = some r) : r.2.length ≤ x.length := by
  unfold ffn at h
  simp only [Option.bind_eq_bind, Option.bind_eq_some_iff, Option.some.injEq] at h
  obtain ⟨_, -, _, -, _, -, rfl⟩ := h
  exact (List.length_zipWith ..).trans_le (Nat.min_le_left _ _)

theorem length_layersForward_le {cfg : Config F} {call : Call} : ∀ {i : ℕ}
    {layers : List (LayerParams F cfg.hiddenSize)} {slots : List (Slot F)} {x : List (List F)}
    {vFirst : Option (List (List F))} {r : List (LayerState F) × List (List F)},
    layersForward fn call i layers slots x vFirst = some r → r.2.length ≤ x.length
  | _, [], _, _, _, _, h => by
    cases h
    exact Nat.le_refl _
  | _, _ :: _, [], _, _, _, h => by cases h
  | _, lp :: layers, slot :: slots, x, vFirst, r, h => by
    rw [layersForward] at h
    simp only [Option.bind_eq_bind, Option.bind_eq_some_iff, Option.some.injEq] at h
    obtain ⟨r1, hatt, r2, hffn, r3, hrest, rfl⟩ := h
    calc r3.2.length ≤ r2.2.length := length_layersForward_le hrest
      _ ≤ r1.2.2.1.length := length_ffn_le fn hffn
      _ ≤ x.length := length_attention_le fn hatt

/-- There is at most one row for each token, and only one where there is one token a sequence. -/
theorem length_forward_le {env : Env} {m : Model F} {T : ℕ} {ids : List (Row ℤ T)} {st : List (LayerState F)}
    {out : StateOut F} {r : List (List F) × List (LayerState F)} (h : forward fn env m ids st out = some r) :
    r.1.length ≤ if 1 < T then ids.length * T else 1 := by
  unfold forward at h
  simp only [Option.bind_eq_bind, Option.bind_eq_some_iff, Option.some.injEq] at h
  obtain ⟨x, hx, r1, hlayers, logits, hhead, rfl⟩ := h
  unfold head at hhead
  split_ifs at hhead ⊢ with hT
  · have hlen : x.length = ids.length * T := by
      have hrows : ∀ y ∈ ids.map fun row => row.1, y.length = T := by
        intro y hy
        obtain ⟨row, -, rfl⟩ := List.mem_map.mp hy
        exact row.2
      rw [length_mapM hx, length_flatten_rows hrows, List.length_map]
    obtain rfl := Option.some.inj hhead
    have hle := length_layersForward_le fn hlayers
    rw [matmul, List.length_map, List.length_map, ← hlen]
    split_ifs at hle with hfirst
    · rwa [List.length_map] at hle
    · exact hle
  · obtain ⟨y, -, rfl⟩ := Option.map_eq_some_iff.mp hhead
    exact Nat.le_refl 1

/-- A batch of one is the call on its sequence. -/
theorem rowsAlone_one {env : Env} {m : Model F} {T : ℕ} {ids : List (Row ℤ T)} {st : List (LayerState F)}
    {out : StateOut F} (hT : 0 < T) (h1 : ids.length = 1) : RowsAlone fn env m ids st out := by
  obtain ⟨row, rfl⟩ := List.length_eq_one_iff.mp h1
  intro b row' hb
  obtain ⟨hlt, rfl⟩ := List.getElem?_eq_some_iff.mp hb
  obtain rfl : b = 0 := by
    rw [List.length_singleton] at hlt
    omega
  cases hr : forward fn env m [row] st out with
  | none =>
    rw [List.getElem_cons_zero, hr]
    rfl
  | some r =>
    have hle := length_forward_le fn hr
    have hrow : (r.1.drop (0 * T)).take T = r.1 := by
      rw [Nat.zero_mul, List.drop_zero]
      apply List.take_of_length_le
      split_ifs at hle with hT1
      · rwa [List.length_singleton, Nat.one_mul] at hle
      · omega
    rw [List.getElem_cons_zero, hr, Option.map_some, Option.map_some, hrow]

/-- With one token a sequence there is no second row. -/
theorem not_rowsAlone_of_one {env : Env} {m : Model F} {ids : List (Row ℤ 1)} {st : List (LayerState F)}
    {out : StateOut F} {row : Row ℤ 1} {r : List (List F) × List (LayerState F)} (h1 : ids[1]? = some row)
    (hr : forward fn env m [row] st out = some r) (hne : r.1 ≠ []) : ¬ RowsAlone fn env m ids st out := by
  intro h
  have hsame := h 1 row h1
  rw [hr, Option.map_some] at hsame
  obtain ⟨r', hr', hrow⟩ := Option.map_eq_some_iff.mp hsame
  have hle : r'.1.length ≤ 1 := length_forward_le fn hr'
  rw [List.drop_eq_nil_of_le (by omega), List.take_nil] at hrow
  exact hne hrow.symm

variable [IsStrictOrderedRing F]

/-- **One row of a batch**: the token machine on the row, in the recurrence that the rows before it have left. -/
theorem forward_row {env : Env} {m : Model F} {T : ℕ} {ids : List (Row ℤ T)} {st : List (LayerState F)}
    {out : StateOut F} (hm : m.Runs ⟨env, ids.length, T⟩) (hT : 0 < T) (hhead : 1 < T ∨ ids.length = 1)
    (hst : m.Holds st) (hout : out.Fits m) {xs : List (List (List F))}
    (hxs : ids.mapM (fun row : Row ℤ T => row.1.mapM m.embedRow) = some xs) {b : ℕ} {x : List (List F)}
    (hb : xs[b]? = some x) :
    (forward fn env m ids st out).map (fun r => (r.1.drop (b * T)).take T) =
      some ((run (modelStep fn m)
        (List.zipWith LayerState.resume st (modelRows fn m st st ((xs.take b).map (List.map (m.token fn)))).1)
        (x.map (m.token fn))).2.map (m.logits fn)) := by
  have hne : ids ≠ [] := by
    rintro rfl
    cases hxs
    cases hb
  have hwidth : ∀ y ∈ (modelRows fn m st st (xs.map (List.map (m.token fn)))).2.map (List.map (m.logits fn)),
      y.length = T := by
    have hlen : (modelRows fn m st st (xs.map (List.map (m.token fn)))).2.map List.length = _ := length_restart _ _ _ _
    intro y hy
    obtain ⟨toks, htoks, rfl⟩ := List.mem_map.mp hy
    have hmem := hlen ▸ List.mem_map_of_mem (f := List.length) htoks
    rw [List.map_map] at hmem
    obtain ⟨y, hy, hylen⟩ := List.mem_map.mp hmem
    obtain ⟨row, -, hrow⟩ := exists_of_mapM hxs y hy
    rw [Function.comp_apply, List.length_map, length_mapM hrow, row.2] at hylen
    rw [List.length_map, hylen]
  have hget : (modelRows fn m st st (xs.map (List.map (m.token fn)))).2[b]? = _ := getElem?_run _ _ _ b
  rw [List.getElem?_map, hb, Option.map_some, Option.map_some, ← List.map_take] at hget
  rw [forward_rows fn hm hT hne hhead hst hout, hxs, Option.map_some, Option.map_some, List.map_flatten]
  refine congrArg some (take_drop_flatten hwidth ?_)
  rw [List.getElem?_map, hget]
  rfl

/-- A call on one sequence. -/
theorem forward_alone {env : Env} {m : Model F} {T : ℕ} {row : Row ℤ T} {st : List (LayerState F)} {out : StateOut F}
    (hm : m.Runs ⟨env, 1, T⟩) (hT : 0 < T) (hst : m.Holds st) (hout : out.Fits m) {x : List (List F)}
    (hx : row.1.mapM m.embedRow = some x) :
    (forward fn env m [row] st out).map Prod.fst =
      some ((run (modelStep fn m) st (x.map (m.token fn))).2.map (m.logits fn)) := by
  have hxs : [row].mapM (fun row : Row ℤ T => row.1.mapM m.embedRow) = some [x] := by
    rw [List.mapM_cons, hx]
    rfl
  have hrow := forward_row fn hm hT (.inr rfl) hst hout hxs (b := 0) rfl
  have hstart : List.zipWith LayerState.resume st
      (modelRows fn m st st (([x].take 0).map (List.map (m.token fn)))).1 = st := zipWith_resume_self st
  rw [hstart] at hrow
  exact (rowsAlone_one fn hT rfl 0 row rfl).symm.trans hrow

end Alone

/-! ### Rows with one entry -/

section Spike

variable {F : Type} [Field F]

/-- One entry in a row of zeros. -/
def spike (n : ℕ) (y : F) : List F := tab n fun i => if i = 0 then y else 0

theorem length_spike (n : ℕ) (y : F) : (spike n y).length = n := length_tab _ _

theorem entry_spike {n : ℕ} (hn : 0 < n) (y : F) (i : ℕ) : entry (spike n y) i = if i = 0 then y else 0 := by
  by_cases hi : i < n
  · exact entry_tab _ hi
  · have hnone : (spike n y)[i]? = none := List.getElem?_eq_none (by rw [length_spike]; omega)
    rw [entry, List.getD_eq_getElem?_getD, hnone, if_neg (by omega)]
    rfl

theorem entry_spike_self {n : ℕ} (hn : 0 < n) (y : F) : entry (spike n y) 0 = y :=
  (entry_spike hn y 0).trans (if_pos rfl)

/-- A row of zeros. -/
theorem entry_spike_zero (n i : ℕ) : entry (spike n (0 : F)) i = 0 := by
  cases n with
  | zero => rfl
  | succ n => exact (entry_spike (Nat.succ_pos n) 0 i).trans (ite_self 0)

theorem spike_eq {n : ℕ} {y : F} {f : ℕ → F} (h0 : f 0 = y) (h : ∀ i < n, i ≠ 0 → f i = 0) : tab n f = spike n y := by
  refine tab_congr fun i hi => ?_
  split_ifs with hi0
  · rw [hi0, h0]
  · exact h i hi hi0

theorem vecMat_spike {K N : ℕ} (hK : 0 < K) (hN : 0 < N) (y : F) (x : List F) :
    vecMat (spike (K * N) y) K N x = spike N (entry x 0 * y) := by
  have hterm : ∀ k n, k * N + n ≠ 0 → entry x k * entry (spike (K * N) y) (k * N + n) = 0 := by
    intro k n hkn
    rw [entry_spike (Nat.mul_pos hK hN), if_neg hkn, mul_zero]
  have hk : ∀ k n, k ≠ 0 → k * N + n ≠ 0 := fun k n hk => by
    have hpos := Nat.mul_pos (Nat.pos_of_ne_zero hk) hN
    omega
  refine spike_eq ?_ fun n _ hn => sum_eq_zero fun k _ => hterm k n (by omega)
  rw [sum_eq_single_of_mem 0 (mem_range.mpr hK) fun k _ hk0 => hterm k 0 (hk k 0 hk0), Nat.zero_mul,
    entry_spike_self (Nat.mul_pos hK hN)]

theorem vzip_add_spike (n : ℕ) (y z : F) : vzip n (· + ·) (spike n y) (spike n z) = spike n (y + z) := by
  cases n with
  | zero => rfl
  | succ n =>
    have hn : 0 < n + 1 := Nat.succ_pos n
    refine spike_eq ?_ fun i _ hi => ?_
    · rw [entry_spike_self hn, entry_spike_self hn]
    · rw [entry_spike hn, entry_spike hn, if_neg hi, if_neg hi]
      exact add_zero 0

/-! The recurrence with one entry in the state. -/

theorem serialStep_zero (exp : F → F) (s : Shared F) (hv : s.v = 0) :
    serialStep exp (spike 64 0) s = (spike 64 0, 0) := by
  have hdot : ∑ j ∈ range 64, entry s.a j * entry (spike 64 (0 : F)) j = 0 :=
    sum_eq_zero fun j _ => by rw [entry_spike_zero, mul_zero]
  have hnext : (serialStep exp (spike 64 0) s).1 = spike 64 0 := by
    refine tab_congr fun j _ => ?_
    rw [hdot, entry_spike_zero, hv, ite_self]
    ring
  refine Prod.ext hnext ?_
  have hout : (serialStep exp (spike 64 0) s).2 =
      ∑ j ∈ range 64, entry (serialStep exp (spike 64 0) s).1 j * entry s.r j := rfl
  rw [hout, hnext]
  exact sum_eq_zero fun j _ => by rw [entry_spike_zero, zero_mul]

theorem serialStep_spike (exp : F → F) (y : F) {s : Shared F} (hr : s.r = spike 64 1) (hk : s.k = spike 64 1)
    (ha : s.a = spike 64 0) :
    serialStep exp (spike 64 y) s =
      (spike 64 (y * exp (entry s.w 0) + s.v), y * exp (entry s.w 0) + s.v) := by
  have hpos : 0 < 64 := by decide
  have hdot : ∑ j ∈ range 64, entry s.a j * entry (spike 64 y) j = 0 :=
    sum_eq_zero fun j _ => by rw [ha, entry_spike_zero, zero_mul]
  have hnext : (serialStep exp (spike 64 y) s).1 = spike 64 (y * exp (entry s.w 0) + s.v) := by
    refine spike_eq ?_ fun j _ hj => ?_
    · rw [hdot, hk, entry_spike_self hpos, entry_spike_self hpos]
      ring
    · rw [hdot, hk, entry_spike hpos, entry_spike hpos, if_neg hj, if_neg hj]
      ring
  refine Prod.ext hnext ?_
  have hout : (serialStep exp (spike 64 y) s).2 =
      ∑ j ∈ range 64, entry (serialStep exp (spike 64 y) s).1 j * entry s.r j := rfl
  rw [hout, hnext, sum_eq_single_of_mem 0 (mem_range.mpr hpos), hr, entry_spike_self hpos, entry_spike_self hpos,
    mul_one]
  intro j _ hj
  rw [entry_spike hpos, if_neg hj, zero_mul]

theorem stateRow_spike {C : ℕ} (hC : 0 < C) (y : F) (c : ℕ) :
    stateRow (spike (C * 64) y) c = if c = 0 then spike 64 y else spike 64 0 := by
  have hpos : 0 < C * 64 := by omega
  split_ifs with hc
  · refine spike_eq ?_ fun j _ hj => ?_
    · rw [hc, entry_spike hpos, if_pos rfl]
    · rw [entry_spike hpos, if_neg (by omega)]
  · refine spike_eq ?_ fun j _ hj => ?_
    · rw [entry_spike hpos, if_neg (by omega)]
    · rw [entry_spike hpos, if_neg (by omega)]

/-- What a token adds to the one entry of the state, and what it gets. -/
theorem wkvStep_spike (exp : F → F) {C : ℕ} (hC : 64 ≤ C) {y p : F} {x : WkvInputs F} (hr : x.r = spike C 1)
    (hk : x.k = spike C 1) (hv : x.v = spike C p) (ha : x.a = spike C 0) :
    wkvStep exp C (spike (C * 64) y) x =
      (spike (C * 64) (y * exp (entry x.w 0) + p), spike C (y * exp (entry x.w 0) + p)) := by
  have hpos : 0 < C := by omega
  have hrow : ∀ c, serialStep exp (stateRow (spike (C * 64) y) c) (rowShared x c) =
      if c = 0 then (spike 64 (y * exp (entry x.w 0) + p), y * exp (entry x.w 0) + p) else (spike 64 0, 0) := by
    intro c
    rw [stateRow_spike hpos]
    split_ifs with hc
    · have hhead : ∀ {l : List F} {z : F}, l = spike C z →
          (tab 64 fun j => entry l (c / 64 * 64 + j)) = spike 64 z := by
        rintro _ z rfl
        refine spike_eq ?_ fun j _ hj => ?_
        · rw [hc, entry_spike hpos, if_pos rfl]
        · rw [entry_spike hpos, if_neg (by omega)]
      have hstep := serialStep_spike exp y (s := rowShared x c) (hhead hr) (hhead hk) (hhead ha)
      have hv0 : (rowShared x c).v = p := by rw [rowShared, hv, hc, entry_spike_self hpos]
      have hw0 : entry (rowShared x c).w 0 = entry x.w 0 := by rw [rowShared, entry_tab _ (by decide), hc]
      rw [hstep, hv0, hw0]
    · apply serialStep_zero
      rw [rowShared, hv, entry_spike hpos, if_neg hc]
  unfold wkvStep
  simp only [hrow]
  refine Prod.ext (spike_eq ?_ fun q _ hq => ?_) (spike_eq ?_ fun c _ hc => ?_)
  · rw [if_pos rfl, entry_spike_self (by decide)]
  · by_cases hdiv : q / 64 = 0
    · rw [if_pos hdiv, entry_spike (by decide), if_neg (by omega)]
    · rw [if_neg hdiv, entry_spike_zero]
  · rw [if_pos rfl]
  · rw [if_neg hc]

end Spike

/-! ### A model that answers whether it has read a token before -/

/-- `exp` and `sqrt` as far as the echo needs them. -/
structure Functions.Positive {F : Type} [Field F] [LinearOrder F] (fn : Functions F) : Prop where
  exp : ∀ x, 0 < fn.exp x
  sqrt : ∀ x, 0 < x → 0 < fn.sqrt x

section Norm

variable {F : Type} [Field F] [LinearOrder F] [IsStrictOrderedRing F] {fn : Functions F}

/-- A norm over several entries leaves the sign of the only one that is not zero. -/
theorem norm_spike (hfn : fn.Positive) {n D : ℕ} (hD : 1 < D) (hn : 0 < n) {eps : F} (heps : 0 < eps) (y : F) :
    ∃ c, 0 < c ∧ (y - (∑ d ∈ range D, entry (spike n y) d) / D) * (1 / fn.sqrt
      ((∑ d ∈ range D, (entry (spike n y) d - (∑ d ∈ range D, entry (spike n y) d) / D) *
        (entry (spike n y) d - (∑ d ∈ range D, entry (spike n y) d) / D)) / D + eps)) = c * y := by
  have hsum : ∑ d ∈ range D, entry (spike n y) d = y := by
    rw [sum_eq_single_of_mem 0 (mem_range.mpr (by omega)), entry_spike_self hn]
    intro d _ hd
    rw [entry_spike hn, if_neg hd]
  have hcast : (1 : F) < D := Nat.one_lt_cast.mpr hD
  have hDpos : (0 : F) < D := zero_lt_one.trans hcast
  rw [hsum]
  have hvar : 0 ≤ (∑ d ∈ range D, (entry (spike n y) d - y / D) * (entry (spike n y) d - y / D)) / (D : F) :=
    div_nonneg (sum_nonneg fun d _ => mul_self_nonneg _) hDpos.le
  have hsqrt := hfn.sqrt _ (add_pos_of_nonneg_of_pos hvar heps)
  generalize fn.sqrt _ = s at hsqrt ⊢
  refine ⟨(1 - 1 / D) * (1 / s), mul_pos ?_ (one_div_pos.mpr hsqrt), by ring⟩
  exact sub_pos.mpr ((div_lt_one hDpos).mpr hcast)

theorem layerNorm_spike (hfn : fn.Positive) {C : ℕ} (hC : 1 < C) {eps : F} (heps : 0 < eps) {w b : List F}
    (hw : entry w 0 = 1) (hb : entry b 0 = 0) (y : F) :
    ∃ c, 0 < c ∧ entry (layerNorm fn C w b eps (spike C y)) 0 = c * y := by
  have hpos : 0 < C := by omega
  obtain ⟨c, hc, hnorm⟩ := norm_spike hfn hC hpos heps y
  refine ⟨c, hc, ?_⟩
  rw [layerNorm, entry_tab _ hpos, hw, hb, mul_one, add_zero, entry_spike_self hpos, hnorm]

theorem groupNorm_spike (hfn : fn.Positive) {H D : ℕ} (hH : 0 < H) (hD : 1 < D) {eps : F} (heps : 0 < eps)
    {w b : List F} (hw : entry w 0 = 1) (hb : entry b 0 = 0) (y : F) :
    ∃ c, 0 < c ∧ entry (groupNorm fn H D w b eps (spike (H * D) y)) 0 = c * y := by
  have hpos : 0 < H * D := Nat.mul_pos hH (by omega)
  obtain ⟨c, hc, hnorm⟩ := norm_spike hfn hD hpos heps y
  refine ⟨c, hc, ?_⟩
  rw [groupNorm, entry_tab _ hpos]
  simp only [Nat.zero_div, Nat.zero_mul, Nat.zero_add]
  rw [hw, hb, mul_one, add_zero, entry_spike_self hpos, hnorm]

omit [LinearOrder F] [IsStrictOrderedRing F] in
theorem entry_bonus_zero {H D i : ℕ} (hi : i < H * D) {rK : List F} (h : ∀ j, entry rK j = 0) (k r v : List F) :
    entry (bonus H D k r rK v) i = 0 := by
  rw [bonus, entry_tab _ hi, sum_eq_zero fun d _ => by rw [h, mul_zero], zero_mul]

end Norm

section Echo

variable {F : Type} [Field F] [LinearOrder F]

def spikeRow (n : ℕ) (y : F) : Row F n := ⟨spike n y, length_spike _ _⟩

omit [LinearOrder F] in
@[simp]
theorem spikeRow_val (n : ℕ) (y : F) : (spikeRow n y).1 = spike n y := rfl

def onesRow (n : ℕ) : Row F n := ⟨tab n fun _ => 1, length_tab _ _⟩

/-- The value of a token is the normed row of the one before it. -/
def echoLayer (C : ℕ) : LayerParams F C where
  attnNormW := spikeRow C 0
  attnNormB := spikeRow C 1
  xR := spikeRow C 0
  xW := spikeRow C 0
  xK := spikeRow C 0
  xV := onesRow C
  xA := spikeRow C 0
  xG := spikeRow C 0
  rW := spikeRow _ 1
  kW := spikeRow _ 1
  vW := spikeRow _ 1
  oW := spikeRow _ 1
  wL := ⟨8, spikeRow _ 0, spikeRow _ 0⟩
  wLb := spikeRow C 0
  aL := ⟨8, spikeRow _ 0, spikeRow _ 0⟩
  aLb := spikeRow C 0
  vL := none
  gL := ⟨8, spikeRow _ 0, spikeRow _ 1⟩
  kK := spikeRow C 0
  kA := spikeRow C 0
  rK := spikeRow C 0
  gnW := onesRow C
  gnB := spikeRow C 0
  ffnNormW := spikeRow C 0
  ffnNormB := spikeRow C 0
  ffnXK := spikeRow C 0
  inter := C
  ffnKey := spikeRow _ 0
  ffnValue := spikeRow _ 0

section Token

variable {fn : Functions F} {cfg : Config F}

omit [LinearOrder F] in
theorem attnHidden_echo (x : List F) : attnHidden fn (echoLayer cfg.hiddenSize) x = spike cfg.hiddenSize 1 := by
  refine tab_congr fun i hi => ?_
  have hb : entry (spike cfg.hiddenSize (1 : F)) i = if i = 0 then 1 else 0 := entry_spike (by omega) 1 i
  have hw : entry (spike cfg.hiddenSize (0 : F)) i = 0 := entry_spike_zero _ i
  exact (congrArg₂ (fun w b => _ * w + b) hw hb).trans (by ring)

variable (hC : 0 < cfg.hiddenSize)

include hC

omit [LinearOrder F] in
/-- Most products see the token's own row, -/
theorem entry_attnMix_own (q : Token F × List F) :
    entry (attnMix fn (echoLayer cfg.hiddenSize) (spikeRow _ 0) q) 0 = 1 := by
  rw [attnMix, mix, entry_tab _ hC, attnHidden_echo, entry_spike_self hC, spikeRow, entry_spike_self hC]
  ring

omit [LinearOrder F] in
/-- and the one for `v` sees the row before. -/
theorem entry_attnMix_prev (q : Token F × List F) :
    entry (attnMix fn (echoLayer cfg.hiddenSize) (onesRow _) q) 0 = entry q.2 0 := by
  rw [attnMix, mix, entry_tab _ hC, attnHidden_echo, entry_spike_self hC, onesRow, entry_tab _ hC]
  ring

omit [LinearOrder F] in
theorem tokenR_echo (q : Token F × List F) : tokenR fn (echoLayer cfg.hiddenSize) q = spike cfg.hiddenSize 1 := by
  have h := vecMat_spike hC hC 1 (attnMix fn (echoLayer cfg.hiddenSize) (spikeRow _ 0) q)
  rw [entry_attnMix_own hC, one_mul] at h
  exact h

omit [LinearOrder F] in
theorem tokenK_echo (q : Token F × List F) : tokenK fn (echoLayer cfg.hiddenSize) q = spike cfg.hiddenSize 1 :=
  tokenR_echo hC q

omit [LinearOrder F] in
theorem tokenV_echo (q : Token F × List F) :
    tokenV fn (echoLayer cfg.hiddenSize) q = spike cfg.hiddenSize (entry q.2 0) := by
  have h := vecMat_spike hC hC 1 (attnMix fn (echoLayer cfg.hiddenSize) (onesRow _) q)
  rw [entry_attnMix_prev hC, mul_one] at h
  exact h

omit [LinearOrder F] in
theorem tokenKey_echo (q : Token F × List F) : tokenKey fn (echoLayer cfg.hiddenSize) q = spike cfg.hiddenSize 1 := by
  unfold tokenKey scaleKey
  rw [tokenK_echo hC]
  refine tab_congr fun i hi => ?_
  have hkA : entry (echoLayer cfg.hiddenSize : LayerParams F cfg.hiddenSize).kA.1 i = 0 := entry_spike_zero _ i
  rw [hkA, entry_spike hC]
  ring

theorem tokenKK_echo (q : Token F × List F) : tokenKK fn (echoLayer cfg.hiddenSize) q = spike cfg.hiddenSize 0 := by
  have hzero : ∀ i < cfg.hiddenSize, entry (vzip cfg.hiddenSize (· * ·) (tokenK fn (echoLayer cfg.hiddenSize) q)
      (echoLayer cfg.hiddenSize : LayerParams F cfg.hiddenSize).kK.1) i = 0 := by
    intro i hi
    have hkK : entry (echoLayer cfg.hiddenSize : LayerParams F cfg.hiddenSize).kK.1 i = 0 := entry_spike_zero _ i
    rw [entry_vzip _ _ _ hi, hkK, mul_zero]
  refine spike_eq ?_ fun i hi _ => ?_
  · rw [hzero 0 hC, zero_div]
  · rw [hzero i hi, zero_div]

/-- What the recurrence reads of a token. -/
theorem tokenInputs_echo (q : Token F × List F) :
    (tokenInputs fn 0 (echoLayer cfg.hiddenSize) q).r = spike cfg.hiddenSize 1 ∧
      (tokenInputs fn 0 (echoLayer cfg.hiddenSize) q).k = spike cfg.hiddenSize 1 ∧
      (tokenInputs fn 0 (echoLayer cfg.hiddenSize) q).v = spike cfg.hiddenSize (entry q.2 0) ∧
      (tokenInputs fn 0 (echoLayer cfg.hiddenSize) q).a = spike cfg.hiddenSize 0 := by
  refine ⟨tokenR_echo hC q, tokenKey_echo hC q, tokenV_echo hC q, ?_⟩
  have hneg : ∀ i, -entry (spike cfg.hiddenSize (0 : F)) i = 0 := fun i => by rw [entry_spike_zero, neg_zero]
  unfold tokenInputs
  dsimp only
  rw [tokenKK_echo hC]
  exact spike_eq (hneg 0) fun i _ _ => hneg i

omit [LinearOrder F] in
theorem entry_gateG_echo (x : List F) : entry (gateG fn (echoLayer cfg.hiddenSize) x) 0 = sigmoid fn 0 := by
  have hdown : entry (vecMat (spike (cfg.hiddenSize * 8) (0 : F)) cfg.hiddenSize 8 x) 0 = 0 := by
    rw [vecMat_spike hC (by decide), mul_zero, entry_spike_zero]
  have hup := vecMat_spike (K := 8) (by decide) hC 1
    (vmap 8 (sigmoid fn) (vecMat (spike (cfg.hiddenSize * 8) (0 : F)) cfg.hiddenSize 8 x))
  rw [vmap, entry_tab _ (by decide), hdown, mul_one] at hup
  have hgate : entry (gateG fn (echoLayer cfg.hiddenSize) x) 0 = _ := entry_tab _ hC
  exact hgate.trans ((congrArg (fun l => entry l 0) hup).trans (entry_spike_self hC _))

/-- The second half leaves the token as it is. -/
theorem ffnOut_echo (z : F) (prev : List F) :
    ffnOut fn (echoLayer cfg.hiddenSize) (spike cfg.hiddenSize z, prev) = spike cfg.hiddenSize z := by
  have hvalue := vecMat_spike hC hC 0
    (vmap cfg.hiddenSize sqrelu (ffnKey fn (echoLayer cfg.hiddenSize) (spike cfg.hiddenSize z, prev)))
  rw [mul_zero] at hvalue
  exact (congrArg (vzip _ (· + ·) _) hvalue).trans ((vzip_add_spike _ z 0).trans (congrArg _ (add_zero z)))

variable [IsStrictOrderedRing F] (hfn : fn.Positive) (hD : 1 < cfg.headDim) (heps : 0 < cfg.normEps)

include hfn hD heps

/-- What goes to the last product has the sign of what the recurrence gave. -/
theorem entry_epilogue_echo (q : Token F × List F) (y : F) :
    ∃ c, 0 < c ∧ entry (epilogue fn 0 (echoLayer cfg.hiddenSize) q (spike cfg.hiddenSize y)) 0 = c * y := by
  have hH : 0 < cfg.numHeads := Nat.pos_of_mul_pos_right hC
  have heps' : 0 < cfg.groupNormEps := mul_pos (Nat.cast_pos.mpr (by omega)) heps
  have hw : entry (echoLayer cfg.hiddenSize : LayerParams F cfg.hiddenSize).gnW.1 0 = 1 := entry_tab _ hC
  have hb : entry (echoLayer cfg.hiddenSize : LayerParams F cfg.hiddenSize).gnB.1 0 = 0 := entry_spike_zero _ 0
  have hrK : ∀ i, entry (echoLayer cfg.hiddenSize : LayerParams F cfg.hiddenSize).rK.1 i = 0 := entry_spike_zero _
  have hbonus := entry_bonus_zero hC hrK (tokenKey fn (echoLayer cfg.hiddenSize) q)
    (tokenR fn (echoLayer cfg.hiddenSize) q) (tokenValue fn 0 (echoLayer cfg.hiddenSize) q)
  obtain ⟨c, hc, hnorm⟩ := groupNorm_spike hfn hH hD heps' hw hb y
  have hsig : 0 < sigmoid fn 0 := one_div_pos.mpr (add_pos zero_lt_one (hfn.exp _))
  refine ⟨c * sigmoid fn 0, mul_pos hc hsig, ?_⟩
  rw [epilogue, entry_vzip _ _ _ hC, entry_vzip _ _ _ hC, entry_gateG_echo hC]
  refine (congrArg₂ (fun a b => (a + b) * _) hnorm hbonus).trans ?_
  ring

/-- The token after the first half of the layer. -/
theorem attnOut_echo {q : Token F × List F} (hq : q.1.x = spike cfg.hiddenSize 0) (y : F) :
    ∃ c, 0 < c ∧
      (attnOut fn 0 (echoLayer cfg.hiddenSize) q (spike cfg.hiddenSize y)).x = spike cfg.hiddenSize (c * y) := by
  obtain ⟨c, hc, hepi⟩ := entry_epilogue_echo hC hfn hD heps q y
  have hout := vecMat_spike hC hC 1 (epilogue fn 0 (echoLayer cfg.hiddenSize) q (spike cfg.hiddenSize y))
  rw [hepi, mul_one] at hout
  refine ⟨c, hc, (congrArg₂ (vzip _ (· + ·)) hq hout).trans ?_⟩
  rw [vzip_add_spike, zero_add]

/-- **A token in the layer**: the state remembers the row before it, and the token gets what the state has. -/
theorem layerStep_echo (hC64 : 64 ≤ cfg.hiddenSize) {st : LayerState F} {y : F}
    (hst : st.wkv = spike (cfg.hiddenSize * 64) y) (tok : Token F) :
    ∃ d, 0 < d ∧
      (layerStep fn 0 (echoLayer cfg.hiddenSize) st tok).1.wkv =
        spike (cfg.hiddenSize * 64) (y * d + entry st.attnPrev 0) ∧
      (layerStep fn 0 (echoLayer cfg.hiddenSize) st tok).1.attnPrev = spike cfg.hiddenSize 1 ∧
      (tok.x = spike cfg.hiddenSize 0 → ∃ c, 0 < c ∧ (layerStep fn 0 (echoLayer cfg.hiddenSize) st tok).2.x =
        spike cfg.hiddenSize (c * (y * d + entry st.attnPrev 0))) := by
  have hreads : (tokenInputs fn 0 (echoLayer cfg.hiddenSize) (tok, st.attnPrev)).r = spike cfg.hiddenSize 1 ∧ _ :=
    tokenInputs_echo hC (tok, st.attnPrev)
  obtain ⟨hr, hk, hv, ha⟩ := hreads
  have hstep := wkvStep_spike fn.exp hC64 (y := y) hr hk hv ha
  rw [← hst] at hstep
  refine ⟨_, hfn.exp _, congrArg Prod.fst hstep, attnHidden_echo tok.x, fun hx => ?_⟩
  obtain ⟨c, hc, hout⟩ := attnOut_echo hC hfn hD heps (q := (tok, st.attnPrev)) hx _
  refine ⟨c, hc, ?_⟩
  have hhalf := (congrArg (fun o => (attnOut fn 0 (echoLayer cfg.hiddenSize) (tok, st.attnPrev) o).x)
    (congrArg Prod.snd hstep)).trans hout
  exact (congrArg (fun x => ffnOut fn (echoLayer cfg.hiddenSize) (x, st.ffnPrev)) hhalf).trans
    (ffnOut_echo hC _ st.ffnPrev)

end Token

/-! ### The echo -/

/-- One head of `WKV_D`. -/
def echoConfig : Config F := ⟨1, 64, false, 1, 1⟩

/-- The layer alone, with one row in the embedding. -/
def echo : Model F where
  config := echoConfig
  vocab := 8
  embed := [spikeRow _ 0]
  preNormW := spikeRow _ 0
  preNormB := spikeRow _ 0
  finalNormW := onesRow _
  finalNormB := spikeRow _ 0
  lmHead := spikeRow _ 1
  layers := [echoLayer _]
  vL i lp h := by
    cases i with
    | zero =>
      obtain rfl := Option.some.inj h
      exact iff_of_false Bool.false_ne_true (absurd rfl)
    | succ i => cases h

omit [LinearOrder F] in
theorem echo_lmHead : (echo : Model F).lmHead = spikeRow _ 1 := rfl

/-- `y` says what has been read, `p` what the next token finds. -/
structure Echoes (y p : F) (st : List (LayerState F)) : Prop where
  holds : (echo : Model F).Holds st
  wkv : ∀ s ∈ st, s.wkv = spike (64 * 64) y
  attnPrev : ∀ s ∈ st, entry s.attnPrev 0 = p

variable [IsStrictOrderedRing F] {fn : Functions F}

/-- **A token of the echo**: it gets the sign of what has been read. -/
theorem modelStep_echo (hfn : fn.Positive) {y p : F} {st : List (LayerState F)} (hst : Echoes y p st) (tok : Token F) :
    ∃ d, 0 < d ∧ Echoes (y * d + p) 1 (modelStep fn echo st tok).1 ∧
      (tok.x = spike 64 0 → ∃ c, 0 < c ∧
        (echo : Model F).logits fn (modelStep fn echo st tok).2 = spike (echo : Model F).vocab (c * (y * d + p))) := by
  obtain ⟨s, rfl⟩ : ∃ s, st = [s] := List.length_eq_one_iff.mp hst.holds.length
  have hwkv := hst.wkv s List.mem_cons_self
  have hp := hst.attnPrev s List.mem_cons_self
  have hC : (echo : Model F).config.hiddenSize = 64 := rfl
  have h1 : 1 < (echo : Model F).config.headDim := show 1 < 64 by decide
  obtain ⟨d, hd, hw, ha, hx⟩ := layerStep_echo (by omega) hfn h1 zero_lt_one hC.ge hwkv tok
  rw [hp] at hw hx
  refine ⟨d, hd, ⟨modelStep_holds fn hst.holds tok, List.forall_mem_singleton.mpr hw, List.forall_mem_singleton.mpr ?_⟩,
    fun htok => ?_⟩
  · exact (congrArg (fun l => entry l 0) ha).trans (entry_spike_self (by omega) 1)
  · obtain ⟨c, hc, hout⟩ := hx htok
    have hpos : 0 < (echo : Model F).config.hiddenSize := by omega
    have hw1 : entry (echo : Model F).finalNormW.1 0 = 1 := entry_tab _ hpos
    have hb0 : entry (echo : Model F).finalNormB.1 0 = 0 := entry_spike_zero _ 0
    have heps : 0 < (echo : Model F).config.normEps := zero_lt_one
    obtain ⟨c', hc', hnorm⟩ := layerNorm_spike hfn (by omega : 1 < (echo : Model F).config.hiddenSize) heps hw1 hb0
      (c * (y * d + p))
    have hvocab : 0 < (echo : Model F).vocab := show 0 < 8 by decide
    have hlogits := vecMat_spike hpos hvocab 1 (layerNorm fn (echo : Model F).config.hiddenSize
      (echo : Model F).finalNormW.1 (echo : Model F).finalNormB.1 (echo : Model F).config.normEps
      (spike (echo : Model F).config.hiddenSize (c * (y * d + p))))
    have hx : (modelStep fn echo [s] tok).2.x = spike (echo : Model F).config.hiddenSize (c * (y * d + p)) := hout
    rw [hnorm, mul_one, ← mul_assoc] at hlogits
    refine ⟨c' * c, mul_pos hc' hc, ?_⟩
    rw [Model.logits, hx, echo_lmHead, spikeRow_val, hlogits]

/-- Some token has followed another. -/
def Heard (st : List (LayerState F)) : Prop := ∃ y p, 0 < y ∧ 0 ≤ p ∧ Echoes y p st

theorem heard_step (hfn : fn.Positive) {st : List (LayerState F)} (hst : Heard st) (tok : Token F) :
    Heard (modelStep fn echo st tok).1 := by
  obtain ⟨y, p, hy, hp, hst⟩ := hst
  obtain ⟨d, hd, hnext, -⟩ := modelStep_echo hfn hst tok
  exact ⟨y * d + p, 1, add_pos_of_pos_of_nonneg (mul_pos hy hd) hp, zero_le_one, hnext⟩

/-- A sequence of two tokens or more is heard. -/
theorem heard_of_two (hfn : fn.Positive) {st : List (LayerState F)} (hst : Echoes 0 0 st) {toks : List (Token F)}
    (htoks : 1 < toks.length) : Heard (run (modelStep fn echo) st toks).1 := by
  obtain ⟨tok, toks, rfl⟩ := List.exists_cons_of_length_pos (by omega : 0 < toks.length)
  obtain ⟨tok', toks, rfl⟩ := List.exists_cons_of_length_pos (Nat.lt_of_succ_lt_succ htoks)
  obtain ⟨d, -, hnext, -⟩ := modelStep_echo hfn hst tok
  obtain ⟨d', -, hnext', -⟩ := modelStep_echo hfn hnext tok'
  rw [zero_mul, zero_add, zero_mul, zero_add] at hnext'
  have hkept : ∀ (s : List (LayerState F)) tok, Heard s → Heard (modelStep fn echo s tok).1 := fun _ tok hs =>
    heard_step hfn hs tok
  rw [run_cons, run_cons]
  exact run_state hkept toks ⟨1, 1, zero_lt_one, zero_le_one, hnext'⟩

omit [LinearOrder F] [IsStrictOrderedRing F] in
/-- The next sequence does not find the last token, but the recurrence has. -/
theorem echoes_resume {y y' p p' : F} {st st' : List (LayerState F)} (hst : Echoes y p st) (hst' : Echoes y' p' st') :
    Echoes y' p (List.zipWith LayerState.resume st st') := by
  obtain ⟨s, rfl⟩ : ∃ s, st = [s] := List.length_eq_one_iff.mp hst.holds.length
  obtain ⟨s', rfl⟩ : ∃ s', st' = [s'] := List.length_eq_one_iff.mp hst'.holds.length
  have hs := hst.holds.sized s List.mem_cons_self
  have hs' := hst'.holds.sized s' List.mem_cons_self
  exact ⟨⟨rfl, List.forall_mem_singleton.mpr ⟨hs'.wkv, hs.attnPrev, hs.ffnPrev⟩⟩,
    List.forall_mem_singleton.mpr (hst'.wkv s' List.mem_cons_self),
    List.forall_mem_singleton.mpr (hst.attnPrev s List.mem_cons_self)⟩

/-! ### The rows are not on their own -/

omit [LinearOrder F] [IsStrictOrderedRing F] in
theorem spikes_echoes (y p : F) : Echoes y p [⟨spike (64 * 64) y, spike 64 p, spike 64 0⟩] := by
  have hC : (echo : Model F).config.hiddenSize = 64 := rfl
  have hp : entry (spike 64 p) 0 = p := entry_spike_self (by decide) p
  refine ⟨⟨rfl, List.forall_mem_singleton.mpr ⟨?_, ?_, ?_⟩⟩, List.forall_mem_singleton.mpr ?_,
    List.forall_mem_singleton.mpr hp⟩
  · rw [hC, length_spike]
  · rw [hC, length_spike]
  · rw [hC, length_spike]
  · dsimp only

/-- Nothing has been read. -/
def silence : List (LayerState F) := [⟨spike (64 * 64) 0, spike 64 0, spike 64 0⟩]

omit [LinearOrder F] [IsStrictOrderedRing F] in
theorem silence_echoes : Echoes (0 : F) 0 silence := spikes_echoes 0 0

/-- `B` sequences of `T` times token 0. -/
def zeroIds (B T : ℕ) : List (Row ℤ T) := List.replicate B ⟨List.replicate T 0, List.length_replicate⟩

omit [LinearOrder F] [IsStrictOrderedRing F] in
theorem echo_supported : (echo : Model F).Supported where
  heads := Nat.one_pos
  headDim := rfl
  layers := List.forall_mem_singleton.mpr {
    w := ⟨Nat.succ_pos 7, Nat.mod_self 8, show 8 ≤ loraRmax by decide⟩
    a := ⟨Nat.succ_pos 7, Nat.mod_self 8, show 8 ≤ loraRmax by decide⟩
    g := ⟨Nat.succ_pos 7, Nat.mod_self 8, show 8 ≤ loraRmax by decide⟩
    v := fun _ hv => by cases hv
    room := show 3 * divCeil 64 (divCeil 64 loraPhases) * loraRmax ≤ gateWs 64 by decide }

omit [LinearOrder F] [IsStrictOrderedRing F] in
theorem echo_embed {T : ℕ} {row : Row ℤ T} (h : row.1 = List.replicate T 0) :
    row.1.mapM (echo : Model F).embedRow = some (List.replicate T (spike 64 0)) := by
  have hid : ∀ id ∈ List.replicate T (0 : ℤ), (echo : Model F).embedRow id = some (spike 64 0) := by
    intro id hid
    rw [List.eq_of_mem_replicate hid]
    rfl
  rw [h, mapM_eq_map _ hid, List.map_replicate]

omit [LinearOrder F] [IsStrictOrderedRing F] in
theorem mapM_zeroIds (B T : ℕ) : (zeroIds B T).mapM (fun row : Row ℤ T => row.1.mapM (echo : Model F).embedRow) =
    some (List.replicate B (List.replicate T (spike 64 0))) := by
  have hrow : ∀ row ∈ zeroIds B T, row.1.mapM (echo : Model F).embedRow = some (List.replicate T (spike 64 0)) := by
    intro row hrow
    rw [zeroIds] at hrow
    rw [List.eq_of_mem_replicate hrow]
    exact echo_embed rfl
  rw [mapM_eq_map _ hrow, zeroIds, List.map_replicate]

/-- What a sequence of zeros gets first has the sign of what the recurrence has read before it. -/
theorem echo_first (hfn : fn.Positive) {y : F} {st : List (LayerState F)} (hst : Echoes y 0 st) {T : ℕ} (hT : 0 < T) :
    ∃ c l, 0 < c ∧
      (run (modelStep fn echo) st ((List.replicate T (spike 64 0)).map ((echo : Model F).token fn))).2.map
        ((echo : Model F).logits fn) = spike (echo : Model F).vocab (c * y) :: l := by
  obtain ⟨T, rfl⟩ := Nat.exists_eq_add_one_of_ne_zero (by omega : T ≠ 0)
  obtain ⟨d, hd, -, hlogits⟩ := modelStep_echo hfn hst ((echo : Model F).token fn (spike 64 0))
  obtain ⟨c, hc, hlogits⟩ := hlogits rfl
  rw [List.replicate_succ, List.map_cons, run_cons, List.map_cons, hlogits, add_zero, mul_comm y d, ← mul_assoc]
  exact ⟨c * d, _, mul_pos hc hd, rfl⟩

/-- The second sequence of a batch finds what the first has left, or has no row of its own. -/
theorem echo_leaks (hfn : fn.Positive) (env : Env) {B T : ℕ} (hB : 1 < B) (hT : 0 < T) :
    ¬ RowsAlone fn env (echo : Model F) (zeroIds B T) silence .same := by
  have hholds := (silence_echoes (F := F)).holds
  have hfits : StateOut.Fits (echo : Model F) .same := trivial
  have hzero : (⟨List.replicate T 0, List.length_replicate⟩ : Row ℤ T).1 = List.replicate T 0 := rfl
  have hone : (zeroIds B T)[1]? = some ⟨List.replicate T 0, List.length_replicate⟩ := by
    rw [zeroIds, List.getElem?_replicate, if_pos hB]
  -- alone, the first token of the sequence gets nothing
  have halone := forward_alone fn (echo_supported.runs ⟨env, 1, T⟩) hT hholds hfits (echo_embed hzero)
  obtain ⟨c, l, -, hfirst⟩ := echo_first hfn silence_echoes hT
  rw [hfirst, mul_zero] at halone
  by_cases hT1 : 1 < T
  · -- in the batch it gets what the first sequence has left
    have hx : (List.replicate B (List.replicate T (spike 64 (0 : F))))[1]? = some (List.replicate T (spike 64 0)) := by
      rw [List.getElem?_replicate, if_pos hB]
    have htake : (List.replicate B (List.replicate T (spike 64 (0 : F)))).take 1 = [List.replicate T (spike 64 0)] := by
      rw [List.take_replicate, Nat.min_eq_left (by omega)]
      rfl
    have htoks : ((List.replicate T (spike 64 (0 : F))).map ((echo : Model F).token fn)).length = T := by
      rw [List.length_map, List.length_replicate]
    have hbatch := forward_row fn (echo_supported.runs ⟨env, (zeroIds B T).length, T⟩) hT (.inl hT1) hholds hfits
      (mapM_zeroIds B T) hx
    obtain ⟨y, p, hy, -, hheard⟩ := heard_of_two hfn silence_echoes (htoks.symm ▸ hT1)
    obtain ⟨c', l', hc', hsecond⟩ := echo_first hfn (echoes_resume silence_echoes hheard) hT
    rw [htake, List.map_singleton, modelRows_singleton, hsecond] at hbatch
    intro h
    have hsame := Option.some.inj (hbatch.symm.trans ((h 1 _ hone).trans halone))
    have hentry := congrArg (fun l => entry (l.getD 0 []) 0) hsame
    have hpos : 0 < (echo : Model F).vocab := Nat.succ_pos 7
    rw [List.getD_cons_zero, List.getD_cons_zero, entry_spike_self hpos, entry_spike_self hpos] at hentry
    exact (mul_pos hc' hy).ne' hentry
  · obtain rfl : T = 1 := by omega
    obtain ⟨r, hr, hfst⟩ := Option.map_eq_some_iff.mp halone
    exact not_rowsAlone_of_one fn hone hr (by rw [hfst]; exact List.cons_ne_nil _ _)

/-- **When the rows of a batch are on their own**: for every model and every state only where there is one row. -/
theorem rowsAlone_iff (hfn : fn.Positive) (env : Env) {B T : ℕ} (hB : 0 < B) (hT : 0 < T) :
    (∀ (m : Model F) (ids : List (Row ℤ T)) (st : List (LayerState F)) (out : StateOut F), ids.length = B →
      m.Holds st → out.Fits m → RowsAlone fn env m ids st out) ↔ B = 1 := by
  refine ⟨fun h => ?_, fun h1 m ids st out hids _ _ => rowsAlone_one fn hT (hids.trans h1)⟩
  by_contra hne
  exact echo_leaks hfn env (by omega) hT
    (h echo (zeroIds B T) silence .same List.length_replicate silence_echoes.holds trivial)

end Echo

/-! ### The real functions -/

noncomputable def realFunctions : Functions ℝ := ⟨Real.exp, Real.tanh, Real.sqrt⟩

theorem realFunctions_positive : realFunctions.Positive := ⟨Real.exp_pos, fun _ => Real.sqrt_pos.mpr⟩

/-- Two sequences of two tokens are too many. -/
theorem rowsAlone_iff_two :
    (∀ (m : Model ℝ) (ids : List (Row ℤ 2)) (st : List (LayerState ℝ)) (out : StateOut ℝ), ids.length = 2 →
      m.Holds st → out.Fits m → RowsAlone realFunctions ⟨true, false⟩ m ids st out) ↔ 2 = 1 :=
  rowsAlone_iff realFunctions_positive ⟨true, false⟩ (by decide) (by decide)

theorem not_rowsAlone_echo : ¬ ∀ (m : Model ℝ) (ids : List (Row ℤ 2)) (st : List (LayerState ℝ)) (out : StateOut ℝ),
    m.Holds st → out.Fits m → RowsAlone realFunctions ⟨true, false⟩ m ids st out := by
  intro h
  exact echo_leaks realFunctions_positive ⟨true, false⟩ (by decide : 1 < 2) (by decide)
    (h echo (zeroIds 2 2) silence .same silence_echoes.holds trivial)

end Rwkv
end Siphon
