/-
# Batches in the gated delta net

A batch is read in five layouts: `[B, T, C]` by the projections, `[B, C, T]`
by the convolution, `[B, T, H, D]` by the norms and the gates, `[B, H, K, V]`
by the delta rule's state and `[B, C, K-1]` by the convolution's. In each of
them the sequence is the outermost index, so that a batch is the buffers of
its sequences one after another (`Rows.rows`), and every stage of the mixer
does to each sequence what it does to that one alone.

Key theorem: `forwardImpl_batch`.
-/
import Siphon.Qwen.Gdn

namespace Siphon
namespace Qwen

open Rows Fallible

variable {F D : Type} (a : Arith F D)

/-! ### The delta rule -/

namespace Delta

/-- The operands of `b` sequences. -/
def Operands.batch (b : ℕ) (os : ℕ → Operands F) : Operands F where
  q := rows b fun i => (os i).q
  k := rows b fun i => (os i).k
  v := rows b fun i => (os i).v
  g := rows b fun i => (os i).g
  beta := rows b fun i => (os i).beta

section Batch

variable {b h k v t : ℕ} {os : ℕ → Operands F} (ho : ∀ i < b, (os i).Fits (one h k v t))
include ho

theorem batch_fits : (Operands.batch b os).Fits ⟨b, t, h, k, v⟩ := by
  have hone : 1 * t * h = t * h := by rw [Nat.one_mul]
  have hlen {f : Operands F → List F} {n : ℕ} (hf : ∀ i < b, (f (os i)).length = 1 * t * h * n) :
      (rows b fun i => f (os i)).length = b * t * h * n := by
    rw [length_rows hf, hone, Nat.mul_assoc b t, ← Nat.mul_assoc b]
  constructor
  · exact hlen (f := (·.q)) fun i hi => (ho i hi).q
  · exact hlen (f := (·.k)) fun i hi => (ho i hi).k
  · exact hlen (f := (·.v)) fun i hi => (ho i hi).v
  · have := hlen (f := (·.g)) (n := 1) fun i hi => (ho i hi).g.trans (Nat.mul_one _).symm
    rwa [Nat.mul_one] at this
  · have := hlen (f := (·.beta)) (n := 1) fun i hi => (ho i hi).beta.trans (Nat.mul_one _).symm
    rwa [Nat.mul_one] at this

theorem prepareQk_batch : prepareQk a ⟨b, t, h, k, v⟩ (Operands.batch b os) =
    Operands.batch b fun i => prepareQk a (one h k v t) (os i) := by
  have hrows : b * t * h = b * (1 * t * h) := by rw [Nat.one_mul, Nat.mul_assoc]
  have hq : ∀ i < b, (os i).q.length = 1 * t * h * k := fun i hi => (ho i hi).q
  have hk : ∀ i < b, (os i).k.length = 1 * t * h * k := fun i hi => (ho i hi).k
  unfold prepareQk Operands.batch
  simp only [hrows]
  rw [mapRows_rows hq, mapRows_rows hk, map_rows]
  rfl

theorem head_batch {bi ti hi : ℕ} (hbi : bi < b) (hti : ti < t) (hhi : hi < h) :
    (Operands.batch b os).head a ⟨b, t, h, k, v⟩ ((bi * t + ti) * h + hi) =
      (os bi).head a (one h k v t) ((0 * t + ti) * h + hi) := by
  have hplace : (bi * t + ti) * h + hi = bi * (1 * t * h) + (ti * h + hi) := by
    rw [Nat.one_mul, Nat.add_mul, Nat.mul_assoc, Nat.add_assoc]
  have hzero : (0 * t + ti) * h + hi = ti * h + hi := by rw [Nat.zero_mul, Nat.zero_add]
  have hin : ti * h + hi < 1 * t * h := by
    rw [Nat.one_mul]
    exact index_lt hti hhi
  have hentry {f : Operands F → List F} (hf : ∀ i < b, (f (os i)).length = 1 * t * h) :
      at' a (rows b fun i => f (os i)) (bi * (1 * t * h) + (ti * h + hi)) = at' a (f (os bi)) (ti * h + hi) :=
    getD_rows a.zero hf hbi hin
  rw [hplace, hzero]
  unfold Operands.head Operands.batch
  congr 1
  · exact row_blocks (fun i hi => (ho i hi).q) hbi hin
  · exact row_blocks (fun i hi => (ho i hi).k) hbi hin
  · exact row_blocks (fun i hi => (ho i hi).v) hbi hin
  · exact hentry (f := (·.g)) fun i hi => (ho i hi).g
  · exact hentry (f := (·.beta)) fun i hi => (ho i hi).beta

theorem position_batch {bi ti : ℕ} (hbi : bi < b) (hti : ti < t) (state : List F) :
    position a ⟨b, t, h, k, v⟩ (Operands.batch b os) bi state ti = position a (one h k v t) (os bi) 0 state ti := by
  unfold position
  refine Prod.ext (rows_congr fun hi hhi => ?_) (rows_congr fun hi hhi => ?_)
  · exact congrArg (fun x => (headStep a (one h k v t) _ x).1) (head_batch a ho hbi hti hhi)
  · exact congrArg (fun x => (headStep a (one h k v t) _ x).2) (head_batch a ho hbi hti hhi)

/-- **The rule on a batch** is the rule on each of its sequences. -/
theorem forwardPreparedInto_batch {ss : ℕ → List F} (hs : ∀ i < b, (ss i).length = h * k * v) :
    forwardPreparedInto a ⟨b, t, h, k, v⟩ (Operands.batch b os) (rows b ss) =
      .ok (rows b fun i => (recur a h k v t (os i) (ss i)).2, rows b fun i => (recur a h k v t (os i) (ss i)).1) := by
  have hp : ∀ i < b, (prepareQk a (one h k v t) (os i)).Fits (one h k v t) := fun i hi => prepareQk_fits a (ho i hi)
  have hlen : (rows b ss).length = b * h * k * v := by
    rw [length_rows hs, Nat.mul_assoc b h k, Nat.mul_assoc b]
  have hrun : ∀ bi < b, scan (position a ⟨b, t, h, k, v⟩ (Operands.batch b fun i => prepareQk a (one h k v t) (os i)) bi)
      (row (rows b ss) (h * k * v) bi) t = recur a h k v t (os bi) (ss bi) := by
    intro bi hbi
    rw [row_rows hs hbi]
    exact scan_congr fun ti hti st => position_batch a hp hbi hti st
  unfold forwardPreparedInto forward
  rw [validateOperands_ok (batch_fits ho), require_ok hlen, prepareQk_batch a ho]
  rw [validateOperands_ok (batch_fits hp)]
  simp only [ok_bind]
  refine congrArg Except.ok (Prod.ext (rows_congr fun bi hbi => ?_) (rows_congr fun bi hbi => ?_))
  · exact congrArg Prod.snd (hrun bi hbi)
  · exact congrArg Prod.fst (hrun bi hbi)

end Batch

end Delta

/-! ### The convolution -/

namespace Gdn

section Conv

variable {b t k cN : ℕ} {ms cs : ℕ → List F}

/-- An entry of row `(bi, ti)` of a batch. -/
theorem at'_batch (hm : ∀ i < b, (ms i).length = t * cN) {bi ti ci : ℕ} (hbi : bi < b) (hti : ti < t) (hci : ci < cN) :
    at' a (rows b ms) ((bi * t + ti) * cN + ci) = at' a (ms bi) (ti * cN + ci) := by
  have hplace : (bi * t + ti) * cN + ci = bi * (t * cN) + (ti * cN + ci) := by
    rw [Nat.add_mul, Nat.mul_assoc, Nat.add_assoc]
  rw [hplace]
  exact getD_rows a.zero hm hbi (index_lt hti hci)

theorem btcToBct_batch (hm : ∀ i < b, (ms i).length = t * cN) :
    btcToBct a (rows b ms) b t cN = .ok (rows b fun i => rows cN (channel a cN t (ms i))) := by
  have hsize : (rows b ms).length = b * t * cN := by rw [length_rows hm, Nat.mul_assoc]
  unfold btcToBct
  rw [require_ok hsize, ok_bind]
  refine congrArg Except.ok (rows_congr fun bi hbi => rows_congr fun ci hci => List.map_congr_left fun ti hti => ?_)
  exact at'_batch a hm hbi (List.mem_range.mp hti) hci

theorem convForward_batch {w : List F} (hw : w.length = cN * k) (hcs : ∀ i < b, (cs i).length = cN * (k - 1)) :
    convForward a w none (rows b fun i => rows cN (channel a cN t (ms i))) b cN t k (some (rows b cs)) =
      .ok (rows b fun i => rows cN fun c => (List.range t).map (convAt a w none k c (window a (k - 1) cN t (cs i) (ms i) c)),
        rows b fun i => convContext a k cN t (cs i) (ms i)) := by
  have hchan : ∀ i < b, ∀ c < cN, (channel a cN t (ms i) c).length = t := fun i _ c _ => length_channel a cN t (ms i) c
  have hx : (rows b fun i => rows cN (channel a cN t (ms i))).length = b * cN * t := by
    rw [length_rows fun i hi => length_rows (hchan i hi), Nat.mul_assoc]
  have hst : ∀ st ∈ some (rows b cs), st.length = b * cN * (k - 1) := by
    intro st hst
    rw [← Option.mem_some.mp hst, length_rows hcs, Nat.mul_assoc]
  have hfull : ∀ bi < b, ∀ c < cN, row (rows b cs) (k - 1) (bi * cN + c) ++
      row (rows b fun i => rows cN (channel a cN t (ms i))) t (bi * cN + c) = window a (k - 1) cN t (cs bi) (ms bi) c := by
    intro bi hbi c hc
    rw [row_blocks hcs hbi hc, row_rows_rows hchan hbi hc]
    rfl
  unfold convForward
  rw [require_ok hw, ok_bind, require_ok hx, ok_bind]
  dsimp only
  rw [require_ok hst, ok_bind]
  refine congrArg Except.ok (Prod.ext (rows_congr fun bi hbi => rows_congr fun c hc => ?_)
    (rows_congr fun bi hbi => rows_congr fun c hc => ?_))
  · simp only [hfull bi hbi c hc]
  · simp only [hfull bi hbi c hc]

theorem bctToBtc_batch {g : ℕ → ℕ → ℕ → F} :
    bctToBtc a (rows b fun i => rows cN fun c => (List.range t).map (g i c)) b cN t =
      .ok (rows b fun i => rows t fun ti => (List.range cN).map fun c => g i c ti) := by
  have hlen : ∀ i < b, ∀ c < cN, ((List.range t).map (g i c)).length = t := by
    intro i _ c _
    rw [List.length_map, List.length_range]
  have hx : (rows b fun i => rows cN fun c => (List.range t).map (g i c)).length = b * cN * t := by
    rw [length_rows fun i hi => length_rows (hlen i hi), Nat.mul_assoc]
  unfold bctToBtc
  rw [require_ok hx, ok_bind]
  refine congrArg Except.ok (rows_congr fun bi hbi => rows_congr fun ti hti => List.map_congr_left fun c hc => ?_)
  unfold at'
  rw [← getD_row a.zero hti, row_rows_rows hlen hbi (List.mem_range.mp hc)]
  exact at'_map_range a (g bi c) hti

theorem convBlock_batch {cfg : GdnConfig F} {w : GdnWeights F} (hw : Shaped cfg w)
    (hm : ∀ i < b, (ms i).length = t * cfg.convDim) (hcs : ∀ i < b, (cs i).length = cfg.convDim * (cfg.convKernel - 1)) :
    convBlock a cfg w (rows b ms) b t (some (rows b cs)) =
      .ok (rows b fun i => convRows a w.conv1d cfg.convKernel cfg.convDim t (cs i) (ms i),
        rows b fun i => convContext a cfg.convKernel cfg.convDim t (cs i) (ms i)) := by
  unfold convBlock
  rw [btcToBct_batch a hm, ok_bind, convForward_batch a hw.conv1d hcs]
  simp only [ok_bind]
  rw [bctToBtc_batch]
  rfl

end Conv

/-! ### The operands -/

section Operands

variable {b t : ℕ} {cfg : GdnConfig F} {xs as : ℕ → List F}

theorem repeatInterleaveHeads_batch {h d ratio : ℕ} (hx : ∀ i < b, (xs i).length = t * (h * d)) :
    repeatInterleaveHeads (rows b xs) b t h d ratio = rows b fun i => repeatInterleaveHeads (xs i) 1 t h d ratio := by
  have hrow : ∀ i < b, (xs i).length = t * h * d := fun i hi => by rw [hx i hi, Nat.mul_assoc]
  unfold repeatInterleaveHeads
  split
  · rfl
  · rw [rows_mul, Nat.one_mul]
    refine rows_congr fun bi hbi => rows_congr fun ti hti => rows_congr fun hi hhi => rows_congr fun _ _ => ?_
    rw [Nat.add_mul, Nat.mul_assoc, Nat.add_assoc]
    exact row_blocks hrow hbi (index_lt hti hhi)

theorem operands_batch (bs : ℕ → List F) (w : GdnWeights F) (hx : ∀ i < b, (xs i).length = t * cfg.convDim)
    (ha : ∀ i < b, (as i).length = t * cfg.numVHeads) :
    operands a cfg w b t (rows b xs) (rows b bs) (rows b as) =
      Delta.Operands.batch b fun i => operands a cfg w 1 t (xs i) (bs i) (as i) := by
  have hdim : cfg.convDim = cfg.keyDim * 2 + cfg.valueDim := rfl
  have hkeys : t * cfg.keyDim = t * (cfg.numKHeads * cfg.headKDim) := by rw [GdnConfig.keyDim, Nat.mul_comm cfg.headKDim]
  have hq : ∀ i < b, (mapRows (fun src => src.take cfg.keyDim) cfg.convDim t (xs i)).length =
      t * (cfg.numKHeads * cfg.headKDim) := by
    intro i hi
    rw [← hkeys]
    refine length_mapRows_of_length (hx i hi) fun v hv => ?_
    rw [List.length_take]
    omega
  have hk : ∀ i < b, (mapRows (fun src => (src.drop cfg.keyDim).take cfg.keyDim) cfg.convDim t (xs i)).length =
      t * (cfg.numKHeads * cfg.headKDim) := by
    intro i hi
    rw [← hkeys]
    refine length_mapRows_of_length (hx i hi) fun v hv => ?_
    rw [List.length_take, List.length_drop]
    omega
  unfold operands Delta.Operands.batch
  simp only [Nat.one_mul, mapRows_rows hx, repeatInterleaveHeads_batch hq, repeatInterleaveHeads_batch hk, map_rows]
  congr 1
  rw [rows_mul]
  refine rows_congr fun bi hbi => rows_congr fun ti hti => List.map_congr_left fun hh hhh => ?_
  rw [at'_batch a ha hbi hti (List.mem_range.mp hhh)]

end Operands

/-! ### The mixer -/

/-- The states of `b` sequences. -/
def GdnState.batch (b : ℕ) (ss : ℕ → GdnState F) : GdnState F :=
  ⟨rows b fun i => (ss i).conv, rows b fun i => (ss i).ssm⟩

/-- **The mixer on a batch** is the mixer on each of its sequences. -/
theorem forwardImpl_batch {cfg : GdnConfig F} {w : GdnWeights F} {b t : ℕ} {ss : ℕ → GdnState F} {xs : ℕ → List F}
    (hw : Shaped cfg w) (hst : ∀ i < b, (ss i).Fits cfg) (hx : ∀ i < b, (xs i).length = t * cfg.hidden) :
    forwardImpl a cfg w (rows b xs) b t (some (GdnState.batch b ss)) =
      .ok (rows b fun i => (mix a cfg w t (ss i) (xs i)).1,
        some (GdnState.batch b fun i => (mix a cfg w t (ss i) (xs i)).2)) := by
  have hsize : (rows b xs).length = b * t * cfg.hidden := by rw [length_rows hx, Nat.mul_assoc]
  have hconv := convBlock_batch a hw (fun i _ => length_projected a cfg t (xs i) w.inProjQkv cfg.convDim) fun i hi => (hst i hi).conv
  have hops := operands_batch a (fun i => mapRows (linearRow a w.inProjB none cfg.hidden cfg.numVHeads) cfg.hidden t (xs i))
    w (fun i (_ : i < b) => length_convRows a w.conv1d cfg.convKernel cfg.convDim t (ss i).conv
      (mapRows (linearRow a w.inProjQkv none cfg.hidden cfg.convDim) cfg.hidden t (xs i)))
    fun i _ => length_projected a cfg t (xs i) w.inProjA cfg.numVHeads
  have hrule := Delta.forwardPreparedInto_batch a (fun i (_ : i < b) => operands_fits a
    (mapRows (linearRow a w.inProjA none cfg.hidden cfg.numVHeads) cfg.hidden t (xs i)) hw
    (length_convRows a w.conv1d cfg.convKernel cfg.convDim t (ss i).conv
      (mapRows (linearRow a w.inProjQkv none cfg.hidden cfg.convDim) cfg.hidden t (xs i)))
    (length_projected a cfg t (xs i) w.inProjB cfg.numVHeads)) fun i hi => (hst i hi).ssm
  have hout : ∀ i < b, (Delta.recur a cfg.numVHeads cfg.headKDim cfg.headVDim t (operands a cfg w 1 t
      (convRows a w.conv1d cfg.convKernel cfg.convDim t (ss i).conv
        (mapRows (linearRow a w.inProjQkv none cfg.hidden cfg.convDim) cfg.hidden t (xs i)))
      (mapRows (linearRow a w.inProjB none cfg.hidden cfg.numVHeads) cfg.hidden t (xs i))
      (mapRows (linearRow a w.inProjA none cfg.hidden cfg.numVHeads) cfg.hidden t (xs i))) (ss i).ssm).2.length =
      t * cfg.numVHeads * cfg.headVDim := fun i _ => by rw [Delta.length_recur, Nat.mul_assoc]
  have hn : b * t * cfg.numVHeads = b * (t * cfg.numVHeads) := Nat.mul_assoc _ _ _
  unfold forwardImpl
  simp only [require_ok hsize, linear_batch a hw.inProjQkv hx, linear_batch a hw.inProjZ hx, linear_batch a hw.inProjB hx,
    linear_batch a hw.inProjA hx, ok_bind, Option.map_some, GdnState.batch, hconv, require_ok (Or.inr hw.aLog),
    require_ok (Or.inr hw.dtBias), require_ok hw.numKHeads, hops, hrule]
  rw [hn, rmsnormGated_batch a hw.norm hout fun i _ => length_gates a, ok_bind,
    linear_batch a hw.outProj fun i _ => length_normed a _ _, ok_bind]
  rfl

end Gdn

end Qwen
end Siphon
