/-
# A pool of slots

Numbered things are started in order, each in a slot of a pool, and end in any
order; a slot is free again when its thing has ended. `Sound` says where the
slots are: the free ones and those in use are all slots, each once. `Ledger`
says where the things are: ended and running, each once. Both are kept by
starting and by ending a thing, in whatever order the running ones are listed.

Key definitions: `Slots.Sound`, `Slots.Ledger`.
Key theorems: `Slots.Sound.take`, `Slots.Sound.put`, `Slots.Ledger.start`, `Slots.Ledger.finish`.
-/
import Mathlib.Data.List.Perm.Basic
import Mathlib.Data.List.Range

namespace Slots

variable {n next slot thing : ℕ} {free ended : List ℕ} {used used' : List (ℕ × ℕ)}

/-- The free slots and those that things use are the slots below `n`. -/
def Sound (n : ℕ) (free : List ℕ) (used : List (ℕ × ℕ)) : Prop :=
  (free ++ used.map Prod.snd).Perm (List.range n)

/-- The things that have ended and those that use a slot are the ones below
`next`. -/
def Ledger (next : ℕ) (ended : List ℕ) (used : List (ℕ × ℕ)) : Prop :=
  (ended ++ used.map Prod.fst).Perm (List.range next)

theorem Sound.init (n : ℕ) : Sound n (List.range n) [] := by
  unfold Sound
  rw [List.map_nil, List.append_nil]

theorem Ledger.init : Ledger 0 [] [] := List.Perm.refl []

/-! ### Slots -/

theorem Sound.congr (h : Sound n free used) (hp : used'.Perm used) : Sound n free used' :=
  ((hp.map Prod.snd).append_left free).trans h

/-- A free slot is given to a thing. -/
theorem Sound.take (h : Sound n (slot :: free) used) (thing : ℕ) : Sound n free ((thing, slot) :: used) := by
  unfold Sound at h ⊢
  rw [List.map_cons]
  exact List.perm_middle.trans h

/-- A thing gives its slot back. -/
theorem Sound.put (h : Sound n free ((thing, slot) :: used)) : Sound n (slot :: free) used := by
  unfold Sound at h ⊢
  rw [List.map_cons] at h
  exact List.perm_middle.symm.trans h

theorem Sound.nodup (h : Sound n free used) : (free ++ used.map Prod.snd).Nodup :=
  h.nodup_iff.mpr List.nodup_range

theorem Sound.nodup_free (h : Sound n free used) : free.Nodup := (List.nodup_append.mp h.nodup).1

theorem Sound.length (h : Sound n free used) : free.length + used.length = n := by
  have hlen := h.length_eq
  rwa [List.length_append, List.length_map, List.length_range] at hlen

theorem Sound.free_lt (h : Sound n free used) (hs : slot ∈ free) : slot < n :=
  List.mem_range.mp (h.subset (List.mem_append_left _ hs))

/-- A free slot is in nobody's use. -/
theorem Sound.ne_of_free (h : Sound n (slot :: free) used) {p : ℕ × ℕ} (hp : p ∈ used) : p.2 ≠ slot := by
  have hno := (List.nodup_cons.mp h.nodup).1
  intro he
  apply hno
  rw [← he]
  exact List.mem_append_right _ (List.mem_map_of_mem hp)

/-! ### Things -/

theorem Ledger.congr (h : Ledger next ended used) (hp : used'.Perm used) : Ledger next ended used' :=
  ((hp.map Prod.fst).append_left ended).trans h

/-- The next thing starts. -/
theorem Ledger.start (h : Ledger next ended used) (slot : ℕ) : Ledger (next + 1) ended ((next, slot) :: used) := by
  unfold Ledger at h ⊢
  rw [List.map_cons, List.range_succ]
  calc List.Perm (ended ++ next :: used.map Prod.fst) (next :: (ended ++ used.map Prod.fst)) := List.perm_middle
    List.Perm _ (next :: List.range next) := h.cons next
    List.Perm _ (List.range next ++ [next]) := (List.perm_append_singleton next _).symm

/-- A thing ends. -/
theorem Ledger.finish (h : Ledger next ended ((thing, slot) :: used)) : Ledger next (ended ++ [thing]) used := by
  unfold Ledger at h ⊢
  rw [List.map_cons] at h
  rw [List.append_assoc]
  exact h

/-- When nothing runs, every thing that has started has ended once. -/
theorem Ledger.ended_perm (h : Ledger next ended []) : ended.Perm (List.range next) := by
  unfold Ledger at h
  rwa [List.map_nil, List.append_nil] at h

end Slots
