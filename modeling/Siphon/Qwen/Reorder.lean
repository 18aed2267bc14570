/-
# The canonical ordering, in place

Step 2 of `nfc` goes over the characters once. Each mark sinks by swaps while
the neighbour before it is a mark of a higher class. Behind the character at
`i` the loop has not been yet, and what lies before it is sorted: a sink from
there puts the mark where `Runs.insert` puts it among them (`sink_append`),
so a round of the loop is one step of the sort (`reorderAt_append`), and the
loop is the sort (`reorder_eq_order`).

Key definitions: `sink`, `reorder`.
Key theorems: `reorder_eq`, `reorder_stableSort`.
-/
import Siphon.Qwen.Canonical

namespace Siphon
namespace Qwen

variable (ccc : Char → ℕ)

/-- `d.swap`; an index out of range is a panic. -/
def swap (d : List Char) (i j : ℕ) : Option (List Char) := do
  let a ← d[i]?
  let b ← d[j]?
  some ((d.set i b).set j a)

/-- The `while` loop, on a mark of class `cc` at the index. -/
def sink (cc : ℕ) : ℕ → List Char → Option (List Char)
  | 0, d => some d
  | j + 1, d => do
    let prev := ccc (← d[j]?)
    if prev = 0 ∨ prev ≤ cc then some d else sink cc j (← swap d j (j + 1))

/-- A round of the `for` loop. -/
def reorderAt (d : List Char) (i : ℕ) : Option (List Char) := do
  let cc := ccc (← d[i]?)
  if cc = 0 then some d else sink ccc cc i d

/-- The `for` loop. -/
def reorder (d : List Char) : Option (List Char) := (List.range' 1 (d.length - 1)).foldlM (reorderAt ccc) d

/-- The marks of a text between two characters that are none, or an end of it. -/
structure MarkRun (before run after : List Char) : Prop where
  marks : ∀ c ∈ run, ccc c ≠ 0
  starts : ∀ c ∈ before.getLast?, ccc c = 0
  ends : ∀ c ∈ after.head?, ccc c = 0

variable {ccc}

/-! ### One round -/

/-- Two neighbours change places. -/
theorem swap_append (x y : List Char) (a c : Char) :
    swap (x ++ a :: c :: y) x.length (x.length + 1) = some (x ++ c :: a :: y) := by
  simp [swap]

/-- A mark behind a sorted part, here in reverse, sinks to its place there. -/
theorem sink_append (c : Char) : ∀ s y : List Char,
    sink ccc (ccc c) s.length (s.reverse ++ c :: y) = some ((Runs.insert ccc c s).reverse ++ y)
  | [], y => rfl
  | p :: s, y => by
    have hlist : (p :: s).reverse ++ c :: y = s.reverse ++ p :: c :: y := by simp
    have hprev : (s.reverse ++ p :: c :: y)[s.length]? = some p := by
      rw [List.getElem?_append_right (by simp)]
      simp
    have hswap : swap (s.reverse ++ p :: c :: y) s.length (s.length + 1) = some (s.reverse ++ c :: p :: y) := by
      simpa using swap_append s.reverse y p c
    rw [hlist, List.length_cons, sink, Runs.insert]
    simp only [hprev, Option.bind_eq_bind, Option.bind_some]
    split
    · simp
    · rw [hswap, Option.bind_some, sink_append c s]
      simp

theorem reorderAt_append (c : Char) (d y : List Char) :
    reorderAt ccc (Runs.order ccc d ++ c :: y) d.length = some (Runs.order ccc (d ++ [c]) ++ y) := by
  have hlen : (Runs.order ccc d).length = d.length := Runs.order_perm d |>.length_eq
  have hget : (Runs.order ccc d ++ c :: y)[d.length]? = some c := by
    rw [List.getElem?_append_right hlen.le, hlen]
    simp
  have hsink := @sink_append ccc c (Runs.order ccc d).reverse y
  rw [List.reverse_reverse, List.length_reverse, hlen] at hsink
  rw [reorderAt, hget, Runs.order_append_singleton, Runs.push]
  simp only [Option.bind_eq_bind, Option.bind_some]
  split
  · simp
  · exact hsink

/-! ### The loop -/

/-- The rounds from an index on, with the part before it sorted. -/
theorem foldlM_reorderAt : ∀ y d : List Char,
    (List.range' d.length y.length).foldlM (reorderAt ccc) (Runs.order ccc d ++ y) = some (Runs.order ccc (d ++ y))
  | [], d => by simp
  | c :: y, d => by
    have ih := foldlM_reorderAt y (d ++ [c])
    rw [List.length_append, List.length_singleton, List.append_assoc, List.singleton_append] at ih
    rw [List.length_cons, List.range'_succ, List.foldlM_cons, reorderAt_append]
    exact ih

theorem reorder_eq_order (d : List Char) : reorder ccc d = some (Runs.order ccc d) := by
  rcases d with - | ⟨c, d⟩
  · rfl
  · have hone : Runs.order ccc [c] = [c] := Runs.order_of_ordered (.singleton c)
    have hrun := @foldlM_reorderAt ccc d [c]
    rw [hone] at hrun
    exact hrun

/-- The loop is the ordering of `nfc`. -/
theorem reorder_eq (t : Tables) (d : List Char) : reorder t.ccc d = some (canonicalOrder t d) := by
  rw [reorder_eq_order, canonicalOrder_eq]

/-- **The canonical ordering sorts the runs of marks.** The loop ends without a
panic, with the characters it had. One of class 0 stays at its index, and a run
of marks between two such is replaced by its stable sort. -/
theorem reorder_stableSort (ccc : Char → ℕ) (d : List Char) :
    ∃ r, reorder ccc d = some r ∧ r.Perm d ∧
      (∀ (i : ℕ) (c : Char), d[i]? = some c → ccc c = 0 → r[i]? = some c) ∧
      ∀ before run after, d = before ++ run ++ after → MarkRun ccc before run after →
        Runs.StableSort ccc run ((r.drop before.length).take run.length) := by
  refine ⟨Runs.order ccc d, reorder_eq_order d, Runs.order_perm d, ?_, ?_⟩
  · intro i c hi hc
    obtain ⟨hlt, hget⟩ := List.getElem?_eq_some_iff.mp hi
    have hd : d = d.take i ++ c :: d.drop (i + 1) := by simp [← hget]
    have hlen : (Runs.order ccc (d.take i)).length = i := by
      rw [(Runs.order_perm _).length_eq, List.length_take]
      omega
    rw [hd, Runs.order_append_zero hc, List.getElem?_append_right hlen.le, hlen]
    simp
  · rintro before run after rfl hrun
    have hbefore : (Runs.order ccc before).length = before.length := (Runs.order_perm before).length_eq
    have hlen : (Runs.order ccc run).length = run.length := (Runs.order_perm run).length_eq
    have hsides : Runs.order ccc (before ++ run ++ after) =
        Runs.order ccc before ++ (Runs.order ccc run ++ Runs.order ccc after) := by
      rw [Runs.order_append (.inr hrun.ends), Runs.order_append (.inl hrun.starts), List.append_assoc]
    rw [hsides, List.drop_left' hbefore, List.take_left' hlen]
    exact Runs.stableSort_order hrun.marks

end Qwen
end Siphon
