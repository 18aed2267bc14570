/-
# The threads of `linear`

A large matrix product is cut into pieces of the flattened output, which start
and end anywhere in a row; each thread walks its piece with a row and a column
that it counts on, and takes the next row of the input when the column wraps.
Here each access is checked against its buffer, so that a computation without
a result is one that panics.

The walk is the entries of the piece in order (`walk_eq`), the pieces are the
output in order, and so every element is stored once, by whichever thread, and
has the value that the loop over the rows gives it.

Key definitions: `linearElement`, `linearSerial`, `linearThreaded`, `linearOn`.
Key theorems: `linear_threads`, `linearOn_eq`.
-/
import Siphon.Lib.Launch
import Siphon.Lib.Pieces
import Siphon.Lib.Rounding
import Siphon.Lib.U64
import Siphon.Qwen.Tensor

namespace Siphon
namespace Qwen

open Rows Fallible Launch Rounding

variable {F D : Type} (a : Arith F D)

/-! ### The two branches -/

/-- `&xs[lo..hi]` -/
def slice (xs : List F) (lo hi : ℕ) : Option (List F) :=
  if lo ≤ hi ∧ hi ≤ xs.length then some ((xs.drop lo).take (hi - lo)) else none

section Branches

variable (w : List F) (bias : Option (List F)) (x : List F) (rows inDim outDim : ℕ)

/-- One output element, from a row of the input. -/
def linearElement (xr : List F) (o : ℕ) : Option F := do
  let wo ← slice w (o * inDim) ((o + 1) * inDim)
  let acc ← (List.range inDim).foldlM (fun acc i => do
    let wi ← wo[i]?
    let xi ← xr[i]?
    some (a.addD acc (a.mulD (a.widen wi) (a.widen xi)))) a.zeroD
  let acc ← match bias with
    | some b => b[o]?.map fun bo => a.addD acc (a.widen bo)
    | none => some acc
  some (a.narrow acc)

/-- `row`: the stores to the row `r` of the output. -/
def serialRow (r : ℕ) : Option (List (ℕ × F)) := do
  let xr ← slice x (r * inDim) ((r + 1) * inDim)
  (List.range outDim).mapM fun o => (linearElement a w bias inDim xr o).map fun v => (r * outDim + o, v)

/-- Behind an element: the row and the column of the next one, and its row of
the input. -/
def advance (r o : ℕ) (xr : List F) : Option (ℕ × ℕ × List F) :=
  if o + 1 = outDim then
    if r + 1 < rows then (slice x ((r + 1) * inDim) ((r + 1 + 1) * inDim)).map fun xr => (r + 1, 0, xr)
    else some (r + 1, 0, xr)
  else some (r, o + 1, xr)

/-- The stores of a thread to the `n` elements from `k` on. -/
def walk : ℕ → ℕ → ℕ → ℕ → List F → Option (List (ℕ × F))
  | 0, _, _, _, _ => some []
  | n + 1, k, r, o, xr => do
    let v ← linearElement a w bias inDim xr o
    let next ← advance x rows inDim outDim r o xr
    let rest ← walk n (k + 1) next.1 next.2.1 next.2.2
    some ((k, v) :: rest)

/-- The closure of a thread, for its piece of the output. -/
def linearThread (p : ℕ × ℕ) : Option (List (ℕ × F)) := do
  let xr ← slice x (p.1 / outDim * inDim) ((p.1 / outDim + 1) * inDim)
  walk a w bias x rows inDim outDim p.2 p.1 (p.1 / outDim) (p.1 % outDim) xr

/-- `y.chunks_mut(chunk)` -/
def threadPieces (nthreads : ℕ) : List (ℕ × ℕ) :=
  Pieces.pieces (max (divCeil (rows * outDim) nthreads) 1) (rows * outDim)

/-- `vec![0f32; rows * out_dim]` -/
def zeros : Cells F := (List.replicate (rows * outDim) a.zero).map some

/-- The loop over the rows. -/
def linearSerial : Option (List F) :=
  (launch (List.range rows) (serialRow a w bias x inDim outDim) (zeros a rows outDim)).bind contents

/-- The threads. -/
def linearThreaded (nthreads : ℕ) : Option (List F) :=
  (launch (threadPieces rows outDim nthreads) (linearThread a w bias x rows inDim outDim)
    (zeros a rows outDim)).bind contents

/-- `WORK_PER_THREAD` -/
def workPerThread : ℕ := 2 ^ 18

/-- `MAX_THREADS` -/
def maxThreads : ℕ := 16

/-- `linear` on a machine with `hw` cores. -/
def linearOn (hw : ℕ) : Option (List F) :=
  if w.length = outDim * inDim ∧ x.length = rows * inDim then
    if rows = 0 ∨ outDim = 0 then some (List.replicate (rows * outDim) a.zero)
    else
      let work := U64.saturatingMul (U64.saturatingMul rows inDim) outDim
      let nthreads := min (min (work / workPerThread) hw) maxThreads
      if nthreads ≤ 1 then linearSerial a w bias x rows inDim outDim
      else linearThreaded a w bias x rows inDim outDim nthreads
  else none

/-- The accumulation of the entry `(r, o)`, from left to right, and the bias. -/
def linearEntry (r o : ℕ) : F :=
  let acc := (List.range inDim).foldl (fun acc i =>
    a.addD acc (a.mulD (a.widen (at' a w (o * inDim + i))) (a.widen (at' a x (r * inDim + i))))) a.zeroD
  a.narrow (match bias with
    | some b => a.addD acc (a.widen (at' a b o))
    | none => acc)

end Branches

/-! ### Elements -/

section Elements

variable {a} {w : List F} {bias : Option (List F)} {x : List F} {rows inDim outDim : ℕ}

theorem slice_row {r n : ℕ} (hx : x.length = n * inDim) (hr : r < n) :
    slice x (r * inDim) ((r + 1) * inDim) = some (row x inDim r) := by
  have hle : (r + 1) * inDim ≤ x.length := hx ▸ Nat.mul_le_mul_right inDim hr
  unfold slice row
  rw [if_pos ⟨Nat.mul_le_mul_right inDim (Nat.le_succ r), hle⟩, Nat.succ_mul, Nat.add_sub_cancel_left]

/-- A loop whose rounds all have a result. -/
theorem foldlM_eq_foldl {σ τ : Type} {f : σ → τ → Option σ} {g : σ → τ → σ} : ∀ (l : List τ) (s : σ),
    (∀ t ∈ l, ∀ s, f s t = some (g s t)) → l.foldlM f s = some (l.foldl g s)
  | [], _, _ => rfl
  | t :: l, s, h => by
    obtain ⟨ht, hl⟩ := List.forall_mem_cons.mp h
    rw [List.foldlM_cons, ht]
    exact foldlM_eq_foldl l (g s t) hl

theorem getElem?_row {r i n : ℕ} (hx : x.length = n * inDim) (hr : r < n) (hi : i < inDim) :
    (row x inDim r)[i]? = some (at' a x (r * inDim + i)) := by
  have hlen := length_row_of_lt hx hr
  rw [List.getElem?_eq_getElem (by omega), ← List.getD_eq_getElem _ a.zero (by omega), getD_row a.zero hi]
  rfl

/-- An element in range has its value. -/
theorem linearElement_eq (hw : w.length = outDim * inDim) (hx : x.length = rows * inDim)
    (hb : ∀ b ∈ bias, outDim ≤ b.length) {r o : ℕ} (hr : r < rows) (ho : o < outDim) :
    linearElement a w bias inDim (row x inDim r) o = some (linearEntry a w bias x inDim r o) := by
  have hfold : (List.range inDim).foldlM (fun acc i => do
      let wi ← (row w inDim o)[i]?
      let xi ← (row x inDim r)[i]?
      some (a.addD acc (a.mulD (a.widen wi) (a.widen xi)))) a.zeroD =
      some ((List.range inDim).foldl (fun acc i =>
        a.addD acc (a.mulD (a.widen (at' a w (o * inDim + i))) (a.widen (at' a x (r * inDim + i))))) a.zeroD) := by
    apply foldlM_eq_foldl
    intro i hi acc
    have hi := List.mem_range.mp hi
    rw [getElem?_row hw ho hi, getElem?_row hx hr hi]
    rfl
  unfold linearElement linearEntry
  rw [slice_row hw ho]
  simp only [Option.bind_eq_bind, Option.bind_some] at hfold ⊢
  rw [hfold, Option.bind_some]
  cases bias with
  | none => rfl
  | some b =>
    have hlt : o < b.length := ho.trans_le (hb b rfl)
    have hget : b[o]? = some (at' a b o) := by
      rw [List.getElem?_eq_getElem hlt, ← List.getD_eq_getElem _ a.zero hlt]
      rfl
    dsimp only
    rw [hget]
    rfl

/-- Behind the end of the bias there is no element. -/
theorem linearElement_eq_none {b : List F} {o : ℕ} (ho : b.length ≤ o) (xr : List F) :
    linearElement a w (some b) inDim xr o = none := by
  unfold linearElement
  dsimp only
  rw [List.getElem?_eq_none ho]
  cases slice w (o * inDim) ((o + 1) * inDim) with
  | none => rfl
  | some wo =>
    dsimp only [Option.bind_eq_bind, Option.bind_some]
    cases List.foldlM (fun acc i => (wo[i]?).bind fun wi => (xr[i]?).bind fun xi =>
      some (a.addD acc (a.mulD (a.widen wi) (a.widen xi)))) a.zeroD (List.range inDim) <;> rfl

/-! ### The walk of a thread -/

/-- The store of the element `j` of the flattened output. -/
def elementStore (a : Arith F D) (w : List F) (bias : Option (List F)) (x : List F) (inDim outDim j : ℕ) : ℕ × F :=
  (j, linearEntry a w bias x inDim (j / outDim) (j % outDim))

/-- The element behind the last one of a row is the first one of the next. -/
theorem succ_of_wrap (ho : 0 < outDim) {k : ℕ} (h : k % outDim + 1 = outDim) :
    (k + 1) / outDim = k / outDim + 1 ∧ (k + 1) % outDim = 0 := by
  have hdecomp := Nat.div_add_mod' k outDim
  have hnext : k + 1 = (k / outDim + 1) * outDim := by
    rw [Nat.succ_mul]
    omega
  constructor
  · rw [hnext, Nat.mul_div_cancel _ ho]
  · rw [hnext, Nat.mul_mod_left]

theorem succ_of_not_wrap (ho : 0 < outDim) {k : ℕ} (h : k % outDim + 1 ≠ outDim) :
    (k + 1) / outDim = k / outDim ∧ (k + 1) % outDim = k % outDim + 1 := by
  have hcol : k % outDim < outDim := Nat.mod_lt k ho
  have hlt : k % outDim + 1 < outDim := by omega
  have hnext : k + 1 = outDim * (k / outDim) + (k % outDim + 1) := by
    rw [← Nat.add_assoc, Nat.div_add_mod]
  constructor
  · rw [hnext, Nat.mul_add_div ho, Nat.div_eq_of_lt hlt, Nat.add_zero]
  · rw [hnext, Nat.mul_add_mod, Nat.mod_eq_of_lt hlt]

/-- The row and the column that are counted on are those of the next element. -/
theorem advance_index (ho : 0 < outDim) {k : ℕ} {xr : List F} {next : ℕ × ℕ × List F}
    (h : advance x rows inDim outDim (k / outDim) (k % outDim) xr = some next) :
    next.1 = (k + 1) / outDim ∧ next.2.1 = (k + 1) % outDim := by
  unfold advance at h
  by_cases hwrap : k % outDim + 1 = outDim
  · obtain ⟨hdiv, hmod⟩ := succ_of_wrap ho hwrap
    rw [if_pos hwrap] at h
    rw [hdiv, hmod]
    split_ifs at h
    · obtain ⟨xr', -, rfl⟩ := Option.map_eq_some_iff.mp h
      exact ⟨rfl, rfl⟩
    · rw [← Option.some.inj h]
      exact ⟨rfl, rfl⟩
  · obtain ⟨hdiv, hmod⟩ := succ_of_not_wrap ho hwrap
    rw [if_neg hwrap] at h
    rw [hdiv, hmod, ← Option.some.inj h]
    exact ⟨rfl, rfl⟩

/-- The row of the input is the one of the next element. -/
theorem advance_row (hx : x.length = rows * inDim) (ho : 0 < outDim) {k : ℕ} :
    ∃ next, advance x rows inDim outDim (k / outDim) (k % outDim) (row x inDim (k / outDim)) = some next ∧
      (k + 1 < rows * outDim → next.2.2 = row x inDim ((k + 1) / outDim)) := by
  unfold advance
  by_cases hwrap : k % outDim + 1 = outDim
  · obtain ⟨hdiv, -⟩ := succ_of_wrap ho hwrap
    rw [if_pos hwrap, hdiv]
    by_cases hmore : k / outDim + 1 < rows
    · rw [if_pos hmore, slice_row hx hmore]
      exact ⟨_, rfl, fun _ => rfl⟩
    · rw [if_neg hmore]
      refine ⟨_, rfl, fun hlt => ?_⟩
      have hrow : (k + 1) / outDim < rows := (Nat.div_lt_iff_lt_mul ho).mpr hlt
      omega
  · obtain ⟨hdiv, -⟩ := succ_of_not_wrap ho hwrap
    rw [if_neg hwrap, hdiv]
    exact ⟨_, rfl, fun _ => rfl⟩

/-- The walk stores the elements of its piece in order; its row is that of the
next element, if there is one. -/
theorem walk_eq (hw : w.length = outDim * inDim) (hx : x.length = rows * inDim) (hb : ∀ b ∈ bias, outDim ≤ b.length)
    (ho : 0 < outDim) : ∀ (n k : ℕ) (xr : List F), k + n ≤ rows * outDim → (n ≠ 0 → xr = row x inDim (k / outDim)) →
      walk a w bias x rows inDim outDim n k (k / outDim) (k % outDim) xr =
        some ((List.range' k n).map (elementStore a w bias x inDim outDim))
  | 0, _, _, _, _ => rfl
  | n + 1, k, xr, hle, hxr => by
    have hcol : k % outDim < outDim := Nat.mod_lt k ho
    have hrow : k / outDim < rows := (Nat.div_lt_iff_lt_mul ho).mpr (by omega)
    obtain ⟨next, hadvance, hnext⟩ := advance_row (k := k) hx ho
    obtain ⟨hdiv, hmod⟩ := advance_index ho hadvance
    have hrest := walk_eq hw hx hb ho n (k + 1) next.2.2 (by omega) fun hn => hnext (by omega)
    rw [walk, hxr (Nat.succ_ne_zero n), linearElement_eq hw hx hb hrow hcol, hadvance]
    simp only [Option.bind_eq_bind, Option.bind_some, hdiv, hmod, hrest]
    rw [List.range'_succ, List.map_cons]
    rfl

/-- A walk to an element behind the end of the bias has no result. -/
theorem walk_eq_none {b : List F} (ho : 0 < outDim) {j : ℕ} (hj : b.length ≤ j % outDim) : ∀ (n k : ℕ) (xr : List F),
    k ≤ j → j < k + n → walk a w (some b) x rows inDim outDim n k (k / outDim) (k % outDim) xr = none
  | 0, _, _, _, _ => by omega
  | n + 1, k, xr, hk, hlt => by
    rw [walk]
    rcases Nat.eq_or_lt_of_le hk with rfl | hk
    · rw [linearElement_eq_none hj]
      rfl
    · cases linearElement a w (some b) inDim xr (k % outDim) with
      | none => rfl
      | some v =>
        cases hadvance : advance x rows inDim outDim (k / outDim) (k % outDim) xr with
        | none => rfl
        | some next =>
          obtain ⟨hdiv, hmod⟩ := advance_index ho hadvance
          have hrest := walk_eq_none ho hj n (k + 1) next.2.2 hk (by omega)
          simp only [Option.bind_eq_bind, Option.bind_some, hdiv, hmod, hrest]
          rfl

/-! ### The branches store the same -/

/-- A thread stores the elements of its piece. -/
theorem linearThread_eq (hw : w.length = outDim * inDim) (hx : x.length = rows * inDim)
    (hb : ∀ b ∈ bias, outDim ≤ b.length) (ho : 0 < outDim) {p : ℕ × ℕ} (hp : 0 < p.2)
    (hle : p.1 + p.2 ≤ rows * outDim) : linearThread a w bias x rows inDim outDim p =
      some ((List.range' p.1 p.2).map (elementStore a w bias x inDim outDim)) := by
  have hrow : p.1 / outDim < rows := (Nat.div_lt_iff_lt_mul ho).mpr (by omega)
  unfold linearThread
  rw [slice_row hx hrow, Option.bind_eq_bind, Option.bind_some]
  exact walk_eq hw hx hb ho p.2 p.1 _ hle fun _ => rfl

theorem serialRow_eq (hw : w.length = outDim * inDim) (hx : x.length = rows * inDim)
    (hb : ∀ b ∈ bias, outDim ≤ b.length) {r : ℕ} (hr : r < rows) : serialRow a w bias x inDim outDim r =
      some ((List.range' (r * outDim) outDim).map (elementStore a w bias x inDim outDim)) := by
  have hcell : ∀ o ∈ List.range outDim,
      ((linearElement a w bias inDim (row x inDim r) o).map fun v => (r * outDim + o, v)) =
        some (elementStore a w bias x inDim outDim (r * outDim + o)) := by
    intro o ho
    have ho := List.mem_range.mp ho
    rw [linearElement_eq hw hx hb hr ho, elementStore, index_div ho, index_mod ho]
    rfl
  unfold serialRow
  rw [slice_row hx hr, Option.bind_eq_bind, Option.bind_some, mapM_eq_map _ hcell, List.range'_eq_map_range,
    List.map_map]
  rfl

/-- The parts of the threads are the output. -/
theorem flatMap_threadPieces (nthreads : ℕ) :
    (threadPieces rows outDim nthreads).flatMap (fun p => List.range' p.1 p.2) = List.range (rows * outDim) :=
  Pieces.flatMap_pieces _ _

/-- So are the rows. -/
theorem flatMap_rows : ∀ rows : ℕ,
    (List.range rows).flatMap (fun r => List.range' (r * outDim) outDim) = List.range (rows * outDim)
  | 0 => by
    rw [Nat.zero_mul]
    rfl
  | n + 1 => by
    rw [List.range_succ, List.flatMap_append, flatMap_rows n, List.flatMap_singleton, Nat.succ_mul,
      List.range_eq_range', List.range_eq_range', ← List.range'_append_1, Nat.zero_add]

theorem mem_threadPieces {nthreads : ℕ} {p : ℕ × ℕ} (hp : p ∈ threadPieces rows outDim nthreads) :
    0 < p.2 ∧ p.1 + p.2 ≤ rows * outDim := by
  obtain ⟨hpos, -, hle, -⟩ := Pieces.mem_pieces (Nat.lt_of_lt_of_le Nat.one_pos (Nat.le_max_right _ 1)) hp
  exact ⟨hpos, hle⟩

theorem length_zeros : (zeros a rows outDim).length = rows * outDim := by
  unfold zeros
  rw [List.length_map, List.length_replicate]

/-- The output, entry by entry. -/
def linearEntries (a : Arith F D) (w : List F) (bias : Option (List F)) (x : List F) (rows inDim outDim : ℕ) : List F :=
  (List.range (rows * outDim)).map fun j => linearEntry a w bias x inDim (j / outDim) (j % outDim)

theorem linearThreaded_eq (hw : w.length = outDim * inDim) (hx : x.length = rows * inDim)
    (hb : ∀ b ∈ bias, outDim ≤ b.length) (ho : 0 < outDim) (nthreads : ℕ) :
    linearThreaded a w bias x rows inDim outDim nthreads = some (linearEntries a w bias x rows inDim outDim) := by
  have hbody : ∀ p ∈ threadPieces rows outDim nthreads, linearThread a w bias x rows inDim outDim p =
      some ((List.range' p.1 p.2).map (elementStore a w bias x inDim outDim)) := by
    intro p hp
    obtain ⟨hpos, hle⟩ := mem_threadPieces hp
    exact linearThread_eq hw hx hb ho hpos hle
  unfold linearThreaded
  rw [launch_parts hbody (by rw [length_zeros]; exact flatMap_threadPieces nthreads), Option.bind_some,
    contents_map_some, length_zeros]
  rfl

theorem linearSerial_eq (hw : w.length = outDim * inDim) (hx : x.length = rows * inDim)
    (hb : ∀ b ∈ bias, outDim ≤ b.length) :
    linearSerial a w bias x rows inDim outDim = some (linearEntries a w bias x rows inDim outDim) := by
  have hbody : ∀ r ∈ List.range rows, serialRow a w bias x inDim outDim r =
      some ((List.range' (r * outDim) outDim).map (elementStore a w bias x inDim outDim)) :=
    fun r hr => serialRow_eq hw hx hb (List.mem_range.mp hr)
  unfold linearSerial
  rw [launch_parts hbody (by rw [length_zeros]; exact flatMap_rows rows), Option.bind_some, contents_map_some,
    length_zeros]
  rfl

/-- With a bias that is too short both branches panic. -/
theorem linear_panics {b : List F} (hx : x.length = rows * inDim) (hr : 0 < rows) (hb : b.length < outDim)
    (nthreads : ℕ) : linearThreaded a w (some b) x rows inDim outDim nthreads = none ∧
      linearSerial a w (some b) x rows inDim outDim = none := by
  have ho : 0 < outDim := Nat.zero_lt_of_lt hb
  have hcol : b.length ≤ b.length % outDim := (Nat.mod_eq_of_lt hb).ge
  constructor
  · have hmem : b.length ∈ List.range (rows * outDim) := by
      apply List.mem_range.mpr
      calc b.length < outDim := hb
        _ ≤ rows * outDim := Nat.le_mul_of_pos_left outDim hr
    rw [← flatMap_threadPieces nthreads] at hmem
    obtain ⟨p, hp, hin⟩ := List.mem_flatMap.mp hmem
    obtain ⟨hlo, hhi⟩ := List.mem_range'_1.mp hin
    have hthread : linearThread a w (some b) x rows inDim outDim p = none := by
      unfold linearThread
      cases slice x (p.1 / outDim * inDim) ((p.1 / outDim + 1) * inDim) with
      | none => rfl
      | some xr => exact walk_eq_none ho hcol p.2 p.1 xr hlo hhi
    unfold linearThreaded
    rw [launch_eq_none hp hthread, Option.bind_none]
  · have hrow : serialRow a w (some b) x inDim outDim 0 = none := by
      unfold serialRow
      rw [slice_row hx hr, Option.bind_eq_bind, Option.bind_some]
      apply mapM_eq_none _ (List.mem_range.mpr hb)
      rw [linearElement_eq_none le_rfl]
      rfl
    unfold linearSerial
    rw [launch_eq_none (List.mem_range.mpr hr) hrow, Option.bind_none]

end Elements

/-- One row of `linear`, entry by entry. -/
theorem linearRow_eq {w x : List F} {bias : Option (List F)} {inDim outDim r : ℕ} :
    linearRow a w bias inDim outDim (row x inDim r) =
      (List.range' (r * outDim) outDim).map fun j => linearEntry a w bias x inDim (j / outDim) (j % outDim) := by
  unfold linearRow
  rw [List.range'_eq_map_range, List.map_map]
  apply List.map_congr_left
  intro o ho
  have ho := List.mem_range.mp ho
  have hfold : (List.range inDim).foldl (fun acc i =>
      a.addD acc (a.mulD (a.widen (at' a (row w inDim o) i)) (a.widen (at' a (row x inDim r) i)))) a.zeroD =
      (List.range inDim).foldl (fun acc i =>
        a.addD acc (a.mulD (a.widen (at' a w (o * inDim + i))) (a.widen (at' a x (r * inDim + i))))) a.zeroD := by
    apply List.foldl_ext
    intro acc i hi
    have hi := List.mem_range.mp hi
    unfold at'
    rw [getD_row a.zero hi, getD_row a.zero hi]
  cases bias with
  | none =>
    simp only [Function.comp_apply, linearEntry]
    rw [index_div ho, index_mod ho, hfold]
  | some b =>
    simp only [Function.comp_apply, linearEntry]
    rw [index_div ho, index_mod ho, hfold]

theorem linearEntries_eq {w x : List F} {bias : Option (List F)} {rows inDim outDim : ℕ} :
    linearEntries a w bias x rows inDim outDim = mapRows (linearRow a w bias inDim outDim) inDim rows x := by
  unfold linearEntries mapRows Rows.rows
  rw [← flatMap_rows rows, List.map_flatMap]
  simp only [linearRow_eq]

/-- What `linear` returns does not depend on the cores of the machine. -/
theorem linearOn_eq {w x y : List F} {bias : Option (List F)} {rows inDim outDim : ℕ}
    (hb : ∀ b ∈ bias, outDim ≤ b.length) (h : linear a w bias x rows inDim outDim = .ok y) (hw : ℕ) :
    linearOn a w bias x rows inDim outDim hw = some y := by
  unfold linear at h
  obtain ⟨_, h1, h⟩ := bind_eq_ok h
  obtain ⟨_, h2, h⟩ := bind_eq_ok h
  obtain rfl := Except.ok.inj h
  have hwlen : w.length = outDim * inDim := of_require h1
  have hxlen : x.length = rows * inDim := of_require h2
  unfold linearOn
  rw [if_pos ⟨hwlen, hxlen⟩, ← linearEntries_eq]
  by_cases hempty : rows = 0 ∨ outDim = 0
  · have hzero : rows * outDim = 0 := Nat.mul_eq_zero.mpr hempty
    rw [if_pos hempty, linearEntries, hzero]
    rfl
  · rw [if_neg hempty]
    dsimp only
    split_ifs
    · exact linearSerial_eq hwlen hxlen hb
    · exact linearThreaded_eq hwlen hxlen hb (by omega) _

/-- **The threads of `linear` compute what the loop over the rows computes.**
Where the bias is long enough nothing panics, every element of the output is
stored once and it is the accumulation of its row and its column. -/
theorem linear_threads {w x : List F} {bias : Option (List F)} {rows inDim outDim : ℕ} (hw : w.length = outDim * inDim)
    (hx : x.length = rows * inDim) (hr : rows ≠ 0) (ho : outDim ≠ 0) (nthreads : ℕ) :
    linearThreaded a w bias x rows inDim outDim nthreads = linearSerial a w bias x rows inDim outDim ∧
    ((∀ b ∈ bias, outDim ≤ b.length) →
      (∃ ws, (threadPieces rows outDim nthreads).mapM (linearThread a w bias x rows inDim outDim) = some ws ∧
        ws.flatten.map Prod.fst = List.range (rows * outDim)) ∧
      ∃ y, linearThreaded a w bias x rows inDim outDim nthreads = some y ∧ y.length = rows * outDim ∧
        ∀ r < rows, ∀ o < outDim, y[r * outDim + o]? = some (linearEntry a w bias x inDim r o)) := by
  have hpos : 0 < outDim := Nat.pos_of_ne_zero ho
  refine ⟨?_, fun hb => ⟨?_, ?_⟩⟩
  · by_cases hb : ∀ b ∈ bias, outDim ≤ b.length
    · rw [linearThreaded_eq hw hx hb hpos, linearSerial_eq hw hx hb]
    · push Not at hb
      obtain ⟨b, rfl, hlt⟩ := hb
      obtain ⟨h1, h2⟩ := linear_panics (a := a) (w := w) hx (Nat.pos_of_ne_zero hr) hlt nthreads
      rw [h1, h2]
  · have hbody : ∀ p ∈ threadPieces rows outDim nthreads, linearThread a w bias x rows inDim outDim p =
        some ((List.range' p.1 p.2).map (elementStore a w bias x inDim outDim)) := by
      intro p hp
      obtain ⟨hp2, hle⟩ := mem_threadPieces hp
      exact linearThread_eq hw hx hb hpos hp2 hle
    refine ⟨_, mapM_eq_map _ hbody, ?_⟩
    rw [← flatMap_threadPieces nthreads]
    simp [List.flatMap_def, List.map_flatten, elementStore, Function.comp_def]
  · refine ⟨_, linearThreaded_eq hw hx hb hpos nthreads, ?_, fun r hr o ho => ?_⟩
    · simp [linearEntries]
    · unfold linearEntries
      rw [List.getElem?_map, List.getElem?_range (index_lt hr ho), Option.map_some, index_div ho, index_mod ho]

/-- Three threads on two rows of three: the second one crosses the rows. -/
theorem linear_threads_two : linearThreaded intArith [1, 2, 3] (some [1, 1, 1]) [10, 20] 2 1 3 3 =
      some [11, 21, 31, 21, 41, 61] ∧
    linearThreaded intArith [1, 2, 3] (some [1, 1, 1]) [10, 20] 2 1 3 3 =
      linearSerial intArith [1, 2, 3] (some [1, 1, 1]) [10, 20] 2 1 3 :=
  ⟨by decide +kernel, (linear_threads intArith rfl rfl (by decide) (by decide) 3).1⟩

end Qwen
end Siphon
