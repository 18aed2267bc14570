/-
# The Wkv recurrence

`wkv7_serial_kernel` and `wkv7_split_kernel` run the recurrence of one layer.
Each state row of a head is carried over the tokens by one thread, or by four
that own a quarter of it each and exchange their partial sums. `wkv7` picks
one of the two by the number of tokens. The state may be updated in place.

Key definitions: `serialStep`, `splitStep`, `wkv7`, and what they amount to on
the whole state, `wkvStep`.
Key theorems: `splitStep_eq`, `wkvKernel_eq`.
-/
import Siphon.Lib.Launch
import Siphon.Lib.Mealy
import Siphon.Lib.Reduce
import Siphon.Rwkv.Tensor

namespace Siphon
namespace Rwkv

open Finset Launch Fallible

variable {F : Type} [Field F]

/-! ### One state row -/

/-- What the threads of a block share for one token, and the row's own `v`. -/
structure Shared (F : Type) where
  r : List F
  w : List F
  k : List F
  a : List F
  b : List F
  v : F

/-- The body of the token loop of `wkv7_serial_kernel`, for one row of the state. -/
def serialStep (exp : F → F) (state : List F) (s : Shared F) : List F × F :=
  let sdot := ∑ j ∈ range 64, entry s.a j * entry state j
  let next := tab 64 fun j => entry state j * exp (entry s.w j) + entry s.k j * s.v + sdot * entry s.b j
  (next, ∑ j ∈ range 64, entry next j * entry s.r j)

/-- The body of the token loop of `wkv7_split_kernel`: lane `js` of four owns the entries `16 js`, ..., `16 js + 15`. -/
def splitStep (exp : F → F) (state : List F) (s : Shared F) : List F × F :=
  let dot js := ∑ i ∈ range 16, entry s.a (js * 16 + i) * entry state (js * 16 + i)
  let sdot := Reduce.exchange (Reduce.exchange dot 1) 2
  let next := tab 64 fun j => entry state j * exp (entry s.w j) + entry s.k j * s.v + sdot (j / 16) * entry s.b j
  let o js := ∑ i ∈ range 16, entry next (js * 16 + i) * entry s.r (js * 16 + i)
  (next, Reduce.exchange (Reduce.exchange o 1) 2 0)

/-- The four quarters of a sum. -/
theorem exchange_quarters (f : ℕ → F) {lane : ℕ} (h : lane < 4) :
    Reduce.exchange (Reduce.exchange (fun js => ∑ i ∈ range 16, f (js * 16 + i)) 1) 2 lane = ∑ j ∈ range 64, f j := by
  rw [Reduce.butterfly_eq _ h]
  have hblocks := Reduce.sum_blocks f 0 16 4
  simp only [Nat.zero_add] at hblocks
  rw [hblocks, range_eq_Ico]

/-- The four lanes of a row do what one thread does. -/
theorem splitStep_eq (exp : F → F) (state : List F) (s : Shared F) :
    splitStep exp state s = serialStep exp state s := by
  have hnext : (splitStep exp state s).1 = (serialStep exp state s).1 := by
    dsimp only [splitStep, serialStep]
    apply tab_congr
    intro j hj
    rw [exchange_quarters (fun j => entry s.a j * entry state j) (by omega)]
  apply Prod.ext hnext
  calc (splitStep exp state s).2
      = ∑ j ∈ range 64, entry (splitStep exp state s).1 j * entry s.r j :=
        exchange_quarters (fun j => entry (splitStep exp state s).1 j * entry s.r j) (by decide)
    _ = (serialStep exp state s).2 := by rw [hnext]; rfl

/-! ### The kernels -/

/-- The inputs of a launch: `r`, `w`, `k`, `v`, `a`, `b` `[T, H * 64]`. -/
structure WkvInputs (F : Type) where
  r : List F
  w : List F
  k : List F
  v : List F
  a : List F
  b : List F

/-- What the block of `head` loads for token `t`, and what the thread of `row` does. -/
def loadShared (x : WkvInputs F) (H : ℕ) (p : ℕ × ℕ) (t : ℕ) : Option (Shared F) := do
  let base := t * (H * 64) + p.1 * 64
  let r ← (List.range 64).mapM fun j => x.r[base + j]?
  let w ← (List.range 64).mapM fun j => x.w[base + j]?
  let k ← (List.range 64).mapM fun j => x.k[base + j]?
  let a ← (List.range 64).mapM fun j => x.a[base + j]?
  let b ← (List.range 64).mapM fun j => x.b[base + j]?
  let v ← x.v[base + p.2]?
  some { r := r, w := w, k := k, a := a, b := b, v := v }

/-- The state row a thread starts with: `s_in ? s_in[row_base + j] : 0`. -/
def loadRow (p : ℕ × ℕ) : Option (Cells F) → Option (List F)
  | none => some (tab 64 fun _ => 0)
  | some m => (List.range 64).mapM fun j => load m (p.1 * 64 * 64 + p.2 * 64 + j)

/-- The thread of row `p.2` of head `p.1`: what it stores to `s_out` and to `out`. -/
def wkvThread (step : List F → Shared F → List F × F) (x : WkvInputs F) (T H : ℕ) (sIn : Option (Cells F))
    (p : ℕ × ℕ) : Option (List (ℕ × F) × List (ℕ × F)) := do
  let row ← loadRow p sIn
  let tokens ← (List.range T).mapM (loadShared x H p)
  let res := Mealy.run step row tokens
  some ((List.range 64).map fun j => (p.1 * 64 * 64 + p.2 * 64 + j, entry res.1 j),
    (List.range T).map fun t => (t * (H * 64) + p.1 * 64 + p.2, entry res.2 t))

/-- `s_in` and `s_out`: two buffers, each of which may be absent, or one. -/
inductive WkvState (F : Type) where
  | separate (sIn sOut : Option (List F))
  | inPlace (s : List F)

/-- A launch of either kernel: what `out` and `s_out` hold then. -/
def wkvKernel (step : List F → Shared F → List F × F) (threads : List (ℕ × ℕ)) (x : WkvInputs F) (T H : ℕ)
    (out : Cells F) : WkvState F → Option (List F × Option (List F))
  | .separate sIn none => do
    let rs ← threads.mapM (wkvThread step x T H (sIn.map fun s => s.map some))
    let out ← stores out (rs.map Prod.snd).flatten
    some (← contents out, none)
  | .separate sIn (some sOut) => do
    let (s, outs) ← launchFrom (wkvThread step x T H) threads (sIn.map fun s => s.map some) (sOut.map some)
    let out ← stores out outs.flatten
    some (← contents out, some (← contents s))
  | .inPlace s => do
    let (s, outs) ← sweep (fun m => wkvThread step x T H (some m)) threads (s.map some)
    let out ← stores out outs.flatten
    some (← contents out, some (← contents s))

/-- `wkv7_serial_launch`: a block for each head, a thread for each row. -/
def serialThreads (H : ℕ) : List (ℕ × ℕ) := List.range H ×ˢ List.range 64

/-- `wkv7_split_launch`: two blocks for each head, with 32 rows of four lanes each. -/
def splitThreads (H : ℕ) : List (ℕ × ℕ) :=
  (List.range (H * 2) ×ˢ List.range 32).map fun q => (q.1 / 2, q.1 % 2 * 32 + q.2)

/-- `wkv7`: the rows of `out` and what `s_out` holds then. -/
def wkv7 (exp : F → F) (C : ℕ) (r w k v a b : List (List F)) (s : WkvState F) :
    Option (List (List F) × Option (List F)) := do
  let T := r.length
  let H := C / 64
  let x : WkvInputs F := { r := r.flatten, w := w.flatten, k := k.flatten, v := v.flatten, a := a.flatten, b := b.flatten }
  let (out, s) ←
    if T = 1 then wkvKernel (splitStep exp) (splitThreads H) x T H (alloc (T * C)) s
    else wkvKernel (serialStep exp) (serialThreads H) x T H (alloc (T * C)) s
  some ((List.range T).map fun t => (out.drop (t * C)).take C, s)

/-! ### The whole state -/

/-- Row `c` of the state, `[H * 64, 64]`. -/
def stateRow (S : List F) (c : ℕ) : List F := tab 64 fun j => entry S (c * 64 + j)

/-- What row `c` of the state reads of a token's rows. -/
def rowShared (x : WkvInputs F) (c : ℕ) : Shared F where
  r := tab 64 fun j => entry x.r (c / 64 * 64 + j)
  w := tab 64 fun j => entry x.w (c / 64 * 64 + j)
  k := tab 64 fun j => entry x.k (c / 64 * 64 + j)
  a := tab 64 fun j => entry x.a (c / 64 * 64 + j)
  b := tab 64 fun j => entry x.b (c / 64 * 64 + j)
  v := entry x.v c

/-- One token: each row of the state takes its step. -/
def wkvStep (exp : F → F) (C : ℕ) (S : List F) (x : WkvInputs F) : List F × List F :=
  (tab (C * 64) fun p => entry (serialStep exp (stateRow S (p / 64)) (rowShared x (p / 64))).1 (p % 64),
    tab C fun c => (serialStep exp (stateRow S c) (rowShared x c)).2)

theorem stateRow_wkvStep (exp : F → F) {C c : ℕ} (S : List F) (x : WkvInputs F) (hc : c < C) :
    stateRow (wkvStep exp C S x).1 c = (serialStep exp (stateRow S c) (rowShared x c)).1 := by
  refine eq_of_entry (length_tab _ _) (length_tab _ _) fun j hj => ?_
  have hp : c * 64 + j < C * 64 := by omega
  have hdiv : (c * 64 + j) / 64 = c := by omega
  have hmod : (c * 64 + j) % 64 = j := by omega
  rw [stateRow, entry_tab _ hj, wkvStep, entry_tab _ hp, hdiv, hmod]

/-- A thread sees its row of the recurrence. -/
theorem run_serialStep (exp : F → F) {C c : ℕ} (hc : c < C) : ∀ (S : List F) (toks : List (WkvInputs F)),
    Mealy.run (serialStep exp) (stateRow S c) (toks.map fun x => rowShared x c) =
      (stateRow (Mealy.run (wkvStep exp C) S toks).1 c, (Mealy.run (wkvStep exp C) S toks).2.map fun o => entry o c)
  | _, [] => rfl
  | S, x :: toks => by
    have ih := run_serialStep exp hc (wkvStep exp C S x).1 toks
    rw [stateRow_wkvStep exp S x hc] at ih
    have ho : entry (wkvStep exp C S x).2 c = (serialStep exp (stateRow S c) (rowShared x c)).2 := entry_tab _ hc
    simp only [List.map_cons, Mealy.run_cons, ih, ho]

theorem length_wkvStep (exp : F → F) (C : ℕ) (S : List F) (x : WkvInputs F) :
    (wkvStep exp C S x).1.length = C * 64 ∧ (wkvStep exp C S x).2.length = C := ⟨length_tab _ _, length_tab _ _⟩

/-! ### The kernels compute the recurrence -/

/-- The rows of a token have the width of the model. -/
def WkvInputs.Wide (C : ℕ) (x : WkvInputs F) : Prop :=
  x.r.length = C ∧ x.w.length = C ∧ x.k.length = C ∧ x.v.length = C ∧ x.a.length = C ∧ x.b.length = C

/-- The rows of all tokens in memory. -/
def WkvInputs.flat (toks : List (WkvInputs F)) : WkvInputs F where
  r := (toks.map (·.r)).flatten
  w := (toks.map (·.w)).flatten
  k := (toks.map (·.k)).flatten
  v := (toks.map (·.v)).flatten
  a := (toks.map (·.a)).flatten
  b := (toks.map (·.b)).flatten

/-- The state a launch starts with. -/
def WkvState.initial (C : ℕ) : WkvState F → List F
  | .separate sIn _ => sIn.getD (tab (C * 64) fun _ => 0)
  | .inPlace s => s

/-- Every buffer that is there has the size of the state. -/
def WkvState.Sized (C : ℕ) : WkvState F → Prop
  | .separate sIn sOut => (∀ s ∈ sIn, s.length = C * 64) ∧ ∀ s ∈ sOut, s.length = C * 64
  | .inPlace s => s.length = C * 64

theorem sized_initial {C : ℕ} {st : WkvState F} (hst : st.Sized C) : (st.initial C).length = C * 64 := by
  match st, hst with
  | .separate none _, _ => exact length_tab _ _
  | .separate (some s) _, h => exact h.1 s rfl
  | .inPlace s, h => exact h

/-- The final state is written if there is a buffer for it. -/
def WkvState.final (S : List F) : WkvState F → Option (List F)
  | .separate _ sOut => sOut.map fun _ => S
  | .inPlace _ => some S

section Kernel

variable {H : ℕ} {toks : List (WkvInputs F)} (hw : ∀ x ∈ toks, x.Wide (H * 64))
include hw

theorem load_tokens {f : WkvInputs F → List F} (hf : ∀ x : WkvInputs F, x.Wide (H * 64) → (f x).length = H * 64)
    {t i : ℕ} {x : WkvInputs F} (hx : toks[t]? = some x) (hi : i < H * 64) :
    (toks.map f).flatten[t * (H * 64) + i]? = some (entry (f x) i) := by
  have hrows : ∀ y ∈ toks.map f, y.length = H * 64 := by
    intro y hy
    obtain ⟨z, hz, rfl⟩ := List.mem_map.mp hy
    exact hf z (hw z hz)
  have hxlen : (f x).length = H * 64 := hf x (hw x (List.mem_of_getElem? hx))
  rw [getElem?_flatten hi t hrows, List.getElem?_map, hx, Option.map_some, Option.bind_some,
    getElem?_entry (by rw [hxlen]; exact hi)]

theorem loadShared_eq {h i t : ℕ} {x : WkvInputs F} (hx : toks[t]? = some x) (hh : h < H) (hi : i < 64) :
    loadShared (WkvInputs.flat toks) H (h, i) t = some (rowShared x (h * 64 + i)) := by
  have hdiv : (h * 64 + i) / 64 = h := by omega
  have hblock : ∀ (f : WkvInputs F → List F), (∀ x : WkvInputs F, x.Wide (H * 64) → (f x).length = H * 64) →
      ((List.range 64).mapM fun j => (toks.map f).flatten[t * (H * 64) + h * 64 + j]?) =
        some (tab 64 fun j => entry (f x) (h * 64 + j)) := by
    intro f hf
    refine mapM_eq_map _ fun j hj => ?_
    have hj := List.mem_range.mp hj
    rw [Nat.add_assoc, load_tokens hw hf hx (by omega)]
  have hv : (toks.map (·.v)).flatten[t * (H * 64) + h * 64 + i]? = some (entry x.v (h * 64 + i)) := by
    rw [Nat.add_assoc, load_tokens hw (fun x hx => hx.2.2.2.1) hx (by omega)]
  unfold loadShared WkvInputs.flat
  dsimp only
  rw [hblock (·.r) fun x hx => hx.1, hblock (·.w) fun x hx => hx.2.1, hblock (·.k) fun x hx => hx.2.2.1,
    hblock (·.a) fun x hx => hx.2.2.2.2.1, hblock (·.b) fun x hx => hx.2.2.2.2.2, hv]
  unfold rowShared
  rw [hdiv]
  rfl

/-- What the thread of row `p.2` of head `p.1` stores. -/
def rowStores (H : ℕ) (fin : List F × List (List F)) (p : ℕ × ℕ) : List (ℕ × F) × List (ℕ × F) :=
  ((List.range 64).map fun j => ((p.1 * 64 + p.2) * 64 + j, entry fin.1 ((p.1 * 64 + p.2) * 64 + j)),
    (List.range fin.2.length).map fun t =>
      (t * (H * 64) + (p.1 * 64 + p.2), entry fin.2.flatten (t * (H * 64) + (p.1 * 64 + p.2))))

theorem wkvThread_eq {exp : F → F} {S : List F} {sIn : Option (Cells F)} {h i : ℕ} (hh : h < H) (hi : i < 64)
    (hrow : loadRow (h, i) sIn = some (stateRow S (h * 64 + i))) :
    wkvThread (serialStep exp) (WkvInputs.flat toks) toks.length H sIn (h, i) =
      some (rowStores H (Mealy.run (wkvStep exp (H * 64)) S toks) (h, i)) := by
  have hc : h * 64 + i < H * 64 := by omega
  have htoks : (List.range toks.length).mapM (loadShared (WkvInputs.flat toks) H (h, i)) =
      some (toks.map fun x => rowShared x (h * 64 + i)) :=
    mapM_range_eq_map toks fun t x hx => loadShared_eq hw hx hh hi
  unfold wkvThread rowStores
  rw [hrow, htoks, Mealy.length_run]
  simp only [Option.bind_eq_bind, Option.bind_some, run_serialStep exp hc]
  have hwidth := Mealy.run_output (f := wkvStep exp (H * 64)) (P := fun _ => True) (Q := fun o => o.length = H * 64)
    (fun _ _ _ => trivial) (fun S x _ => (length_wkvStep exp (H * 64) S x).2) (s := S) toks trivial
  generalize Mealy.run (wkvStep exp (H * 64)) S toks = fin at hwidth ⊢
  refine congrArg some (congrArg₂ Prod.mk ?_ ?_)
  · refine List.map_congr_left fun j hj => ?_
    rw [stateRow, entry_tab _ (List.mem_range.mp hj), Nat.add_mul]
  · refine List.map_congr_left fun t _ => ?_
    rw [entry_flatten hwidth hc, Nat.add_assoc]

/-! A list of threads that has one for each row. -/

/-- The threads of a launch: the rows of `H` heads, each once. -/
structure Rows (H : ℕ) (threads : List (ℕ × ℕ)) : Prop where
  nodup : threads.Nodup
  mem : ∀ h i, (h, i) ∈ threads ↔ h < H ∧ i < 64

omit hw in
theorem loadRow_zero {H h i : ℕ} (hh : h < H) (hi : i < 64) :
    loadRow (h, i) none = some (stateRow (tab (H * 64 * 64) fun _ => (0 : F)) (h * 64 + i)) := by
  refine congrArg some (tab_congr fun j hj => ?_)
  rw [entry_tab _ (by omega)]

omit hw in
theorem loadRow_eq {S : List F} {H h i : ℕ} (hS : S.length = H * 64 * 64) (hh : h < H) (hi : i < 64) :
    loadRow (h, i) (some (S.map some)) = some (stateRow S (h * 64 + i)) := by
  unfold loadRow stateRow tab
  refine mapM_eq_map _ fun j hj => ?_
  have hj := List.mem_range.mp hj
  rw [load_map_some, getElem?_entry (by omega), Nat.add_mul]

variable {fin : List F × List (List F)}

omit hw in
/-- The rows' stores fill the state. -/
theorem stores_state {threads : List (ℕ × ℕ)} (ht : Rows H threads) {dst : Cells F} (hdst : dst.length = H * 64 * 64)
    (hfin : fin.1.length = H * 64 * 64) :
    stores dst ((threads.map (rowStores H fin)).map Prod.fst).flatten = some (fin.1.map some) := by
  rw [List.map_map, stores_contents (v := entry fin.1), hdst]
  · exact congrArg (fun l => some (List.map some l)) (tab_entry hfin)
  · intro p hp w hw
    obtain ⟨hp1, hp2⟩ := (ht.mem p.1 p.2).mp hp
    obtain ⟨j, hj, rfl⟩ := List.mem_map.mp hw
    have hj := List.mem_range.mp hj
    exact ⟨by rw [hdst]; dsimp only; omega, rfl⟩
  · intro a ha
    rw [hdst] at ha
    refine ⟨(a / 64 / 64, a / 64 % 64), (ht.mem _ _).mpr ⟨by omega, by omega⟩, (a, entry fin.1 a), ?_, rfl⟩
    refine List.mem_map.mpr ⟨a % 64, List.mem_range.mpr (by omega), ?_⟩
    have ha : (a / 64 / 64 * 64 + a / 64 % 64) * 64 + a % 64 = a := by omega
    rw [ha]

omit hw in
/-- The rows' stores fill the output. -/
theorem stores_out {threads : List (ℕ × ℕ)} (ht : Rows H threads) (hwidth : ∀ o ∈ fin.2, o.length = H * 64) :
    stores (alloc (fin.2.length * (H * 64))) ((threads.map (rowStores H fin)).map Prod.snd).flatten =
      some (fin.2.flatten.map some) := by
  rw [List.map_map, stores_contents (v := entry fin.2.flatten), length_alloc]
  · exact congrArg (fun l => some (List.map some l)) (tab_entry (length_flatten_rows hwidth))
  · intro p hp w hw
    obtain ⟨hp1, hp2⟩ := (ht.mem p.1 p.2).mp hp
    obtain ⟨t, htl, rfl⟩ := List.mem_map.mp hw
    have htl := List.mem_range.mp htl
    have hle : (t + 1) * (H * 64) ≤ fin.2.length * (H * 64) := Nat.mul_le_mul_right _ htl
    rw [Nat.succ_mul] at hle
    exact ⟨by rw [length_alloc]; dsimp only; omega, rfl⟩
  · intro a ha
    rw [length_alloc] at ha
    have hpos : 0 < H * 64 := Nat.pos_of_ne_zero fun h0 => by rw [h0] at ha; omega
    have hmod := Nat.mod_lt a hpos
    have hdiv : a / (H * 64) < fin.2.length := Nat.div_lt_of_lt_mul (by rw [Nat.mul_comm]; exact ha)
    refine ⟨(a % (H * 64) / 64, a % (H * 64) % 64), (ht.mem _ _).mpr ⟨by omega, by omega⟩,
      (a, entry fin.2.flatten a), ?_, rfl⟩
    refine List.mem_map.mpr ⟨a / (H * 64), List.mem_range.mpr hdiv, ?_⟩
    have h1 : a % (H * 64) / 64 * 64 + a % (H * 64) % 64 = a % (H * 64) := by omega
    have h2 : a / (H * 64) * (H * 64) + a % (H * 64) = a := Nat.div_add_mod' a (H * 64)
    rw [h1, h2]

omit [Field F] hw in
/-- The threads of different rows keep to different cells. -/
theorem Rows.disjoint {threads : List (ℕ × ℕ)} (ht : Rows H threads) :
    threads.Pairwise fun p q => ∀ a, a / 64 = p.1 * 64 + p.2 → ¬ a / 64 = q.1 * 64 + q.2 := by
  refine List.Pairwise.imp_of_mem ?_ ht.nodup
  intro p q hp hq hne a ha hb
  have h1 := (ht.mem p.1 p.2).mp hp
  have h2 := (ht.mem q.1 q.2).mp hq
  exact hne (Prod.ext (by omega) (by omega))

omit hw in
/-- The row a thread starts with, from a buffer or from none. -/
theorem loadRow_initial {sIn : Option (List F)} (hs : ∀ s ∈ sIn, s.length = H * 64 * 64) {h i : ℕ} (hh : h < H)
    (hi : i < 64) :
    loadRow (h, i) (sIn.map fun s => s.map some) =
      some (stateRow (sIn.getD (tab (H * 64 * 64) fun _ => 0)) (h * 64 + i)) := by
  cases sIn with
  | none => exact loadRow_zero hh hi
  | some s => exact loadRow_eq (hs s rfl) hh hi

/-- All threads of a launch that starts with the state `S`. -/
theorem threads_eq (exp : F → F) {threads : List (ℕ × ℕ)} (ht : Rows H threads) {S : List F} {sIn : Option (Cells F)}
    (hrow : ∀ h < H, ∀ i < 64, loadRow (h, i) sIn = some (stateRow S (h * 64 + i))) :
    threads.mapM (wkvThread (serialStep exp) (WkvInputs.flat toks) toks.length H sIn) =
      some (threads.map (rowStores H (Mealy.run (wkvStep exp (H * 64)) S toks))) := by
  refine mapM_eq_map threads fun p hp => ?_
  obtain ⟨hh, hi⟩ := (ht.mem p.1 p.2).mp hp
  exact wkvThread_eq hw hh hi (hrow p.1 hh p.2 hi)

/-- In one buffer the threads do what they do in two. -/
theorem sweep_threads {exp : F → F} {threads : List (ℕ × ℕ)} (ht : Rows H threads) {S : List F}
    (hS : S.length = H * 64 * 64) :
    sweep (fun m => wkvThread (serialStep exp) (WkvInputs.flat toks) toks.length H (some m)) threads (S.map some) =
      launchFrom (fun m => wkvThread (serialStep exp) (WkvInputs.flat toks) toks.length H (some m)) threads
        (S.map some) (S.map some) := by
  have hlocal : ∀ (p : ℕ × ℕ) (m : Cells F), m.length = (S.map some).length →
      (∀ a, a / 64 = p.1 * 64 + p.2 → load m a = load (S.map some) a) →
      wkvThread (serialStep exp) (WkvInputs.flat toks) toks.length H (some m) p =
        wkvThread (serialStep exp) (WkvInputs.flat toks) toks.length H (some (S.map some)) p := by
    intro p m _ hload
    have hrow : loadRow p (some m) = loadRow p (some (S.map some)) := by
      unfold loadRow
      refine mapM_congr fun j hj => ?_
      have hj := List.mem_range.mp hj
      exact hload _ (by omega)
    unfold wkvThread
    rw [hrow]
  have hown : ∀ p ∈ threads, ∀ ws b,
      wkvThread (serialStep exp) (WkvInputs.flat toks) toks.length H (some (S.map some)) p = some (ws, b) →
      ∀ w ∈ ws, w.1 / 64 = p.1 * 64 + p.2 ∧ w.1 < (S.map some).length := by
    intro p hp ws b hb w hmem
    obtain ⟨hh, hi⟩ := (ht.mem p.1 p.2).mp hp
    rw [wkvThread_eq hw hh hi (loadRow_eq hS hh hi)] at hb
    obtain ⟨j, hj, rfl⟩ := List.mem_map.mp ((Prod.mk.inj (Option.some.inj hb)).1 ▸ hmem)
    have hj := List.mem_range.mp hj
    rw [List.length_map]
    constructor
    · dsimp only; omega
    · dsimp only; omega
  have h := @sweep_eq_launchFrom F _ (ℕ × ℕ)
    (fun m => wkvThread (serialStep exp) (WkvInputs.flat toks) toks.length H (some m))
    (fun p a => a / 64 = p.1 * 64 + p.2) (S.map some) hlocal threads (S.map some) rfl hown
  exact h ht.disjoint fun _ _ _ _ => rfl

/-- **What a launch computes**: the recurrence over the whole state, with two buffers or one. -/
theorem wkvKernel_eq (exp : F → F) {threads : List (ℕ × ℕ)} (ht : Rows H threads) {st : WkvState F}
    (hst : st.Sized (H * 64)) :
    wkvKernel (serialStep exp) threads (WkvInputs.flat toks) toks.length H (alloc (toks.length * (H * 64))) st =
      some ((Mealy.run (wkvStep exp (H * 64)) (st.initial (H * 64)) toks).2.flatten,
        st.final (Mealy.run (wkvStep exp (H * 64)) (st.initial (H * 64)) toks).1) := by
  have hfin := Mealy.run_state (f := wkvStep exp (H * 64)) (P := fun S => S.length = H * 64 * 64)
    (fun S x _ => (length_wkvStep exp (H * 64) S x).1) toks (sized_initial hst)
  have hwidth := Mealy.run_output (f := wkvStep exp (H * 64)) (P := fun _ => True) (Q := fun o => o.length = H * 64)
    (fun _ _ _ => trivial) (fun S x _ => (length_wkvStep exp (H * 64) S x).2) (s := st.initial (H * 64)) toks trivial
  have hout := stores_out ht hwidth
  rw [Mealy.length_run] at hout
  match st, hst with
  | .separate sIn none, h =>
    have hthreads := threads_eq hw exp ht fun i hi j hj => loadRow_initial h.1 hi hj
    simp only [WkvState.initial] at hout
    simp only [wkvKernel, hthreads, Option.bind_eq_bind, Option.bind_some, hout, contents_map_some]
    rfl
  | .separate sIn (some d), h =>
    have hthreads := threads_eq hw exp ht fun i hi j hj => loadRow_initial h.1 hi hj
    have hd : (d.map some).length = H * 64 * 64 := by rw [List.length_map]; exact h.2 d rfl
    have hstate := stores_state ht hd hfin
    simp only [WkvState.initial] at hout hstate
    simp only [wkvKernel, launchFrom, hthreads, Option.bind_eq_bind, Option.bind_some, Option.map_some, hout, hstate,
      contents_map_some]
    rfl
  | .inPlace s, h =>
    have hthreads := threads_eq hw exp ht fun i hi j hj => loadRow_eq h hi hj
    have hs : (s.map some).length = H * 64 * 64 := by rw [List.length_map]; exact h
    have hstate := stores_state ht hs hfin
    simp only [WkvState.initial] at hout hstate
    simp only [wkvKernel, sweep_threads hw ht h, launchFrom, hthreads, Option.bind_eq_bind, Option.bind_some,
      Option.map_some, hout, hstate, contents_map_some]
    rfl

end Kernel

/-! ### The two launches -/

theorem serialThreads_rows (H : ℕ) : Rows H (serialThreads H) where
  nodup := List.nodup_range.product List.nodup_range
  mem h i := by
    unfold serialThreads
    rw [List.mem_product, List.mem_range, List.mem_range]

theorem splitThreads_rows (H : ℕ) : Rows H (splitThreads H) where
  nodup := by
    unfold splitThreads
    refine (List.nodup_range.product List.nodup_range).map_on ?_
    intro p hp q hq h
    have hp := List.mem_range.mp (List.mem_product.mp hp).2
    have hq := List.mem_range.mp (List.mem_product.mp hq).2
    obtain ⟨h1, h2⟩ := Prod.mk.inj h
    exact Prod.ext (by omega) (by omega)
  mem h i := by
    constructor
    · intro hmem
      obtain ⟨q, hq, he⟩ := List.mem_map.mp hmem
      have h1 := List.mem_range.mp (List.mem_product.mp hq).1
      have h2 := List.mem_range.mp (List.mem_product.mp hq).2
      obtain ⟨rfl, rfl⟩ := Prod.mk.inj he
      omega
    · intro hmem
      refine List.mem_map.mpr ⟨(h * 2 + i / 32, i % 32), List.mem_product.mpr ⟨?_, ?_⟩, Prod.ext ?_ ?_⟩
      · exact List.mem_range.mpr (by omega)
      · exact List.mem_range.mpr (by omega)
      · dsimp only; omega
      · dsimp only; omega

/-- `wkv7` is the recurrence, whichever kernel it launches. -/
theorem wkv7_eq (exp : F → F) {H : ℕ} {toks : List (WkvInputs F)} (hw : ∀ x ∈ toks, x.Wide (H * 64)) {st : WkvState F}
    (hst : st.Sized (H * 64)) :
    wkv7 exp (H * 64) (toks.map (·.r)) (toks.map (·.w)) (toks.map (·.k)) (toks.map (·.v)) (toks.map (·.a))
        (toks.map (·.b)) st =
      some ((Mealy.run (wkvStep exp (H * 64)) (st.initial (H * 64)) toks).2,
        st.final (Mealy.run (wkvStep exp (H * 64)) (st.initial (H * 64)) toks).1) := by
  have hH : H * 64 / 64 = H := Nat.mul_div_cancel H (by decide)
  have hstep : (splitStep exp : List F → Shared F → List F × F) = serialStep exp := by
    funext state s
    exact splitStep_eq exp state s
  have hsplit := wkvKernel_eq hw exp (splitThreads_rows H) hst
  have hserial := wkvKernel_eq hw exp (serialThreads_rows H) hst
  have hwidth := Mealy.run_output (f := wkvStep exp (H * 64)) (P := fun _ => True) (Q := fun o => o.length = H * 64)
    (fun _ _ _ => trivial) (fun S x _ => (length_wkvStep exp (H * 64) S x).2) (s := st.initial (H * 64)) toks trivial
  have hrows := rows_flatten hwidth
  rw [Mealy.length_run] at hrows
  unfold WkvInputs.flat at hsplit hserial
  unfold wkv7
  simp only [List.length_map, hH, hstep, hsplit, hserial, ite_self, Option.bind_eq_bind, Option.bind_some, hrows]

end Rwkv
end Siphon
