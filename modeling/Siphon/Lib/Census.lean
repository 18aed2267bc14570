/-
# Counting what a list of holders holds

Some threads each hold at most one thing, a list says who holds what, and a
step of a thread replaces its entry. These lemmas say how the number of
holders of a thing changes, so that "nothing is lost and nothing doubled"
becomes linear arithmetic over the places a thing can be in.
-/
import Mathlib.Data.List.Basic

namespace Census

variable {α β : Type}

/-- The things that the holders of a list hold. -/
def held (f : α → Option β) (l : List α) : List β := l.filterMap f

@[simp]
theorem held_nil (f : α → Option β) : held f [] = [] := rfl

@[simp]
theorem held_cons (f : α → Option β) (a : α) (l : List α) : held f (a :: l) = (f a).toList ++ held f l := by
  cases h : f a <;> simp [held, h]

@[simp]
theorem held_append (f : α → Option β) (l l' : List α) : held f (l ++ l') = held f l ++ held f l' :=
  List.filterMap_append

section Count

variable [DecidableEq β]

@[simp]
theorem count_toList_none (b : β) : (none : Option β).toList.count b = 0 := rfl

@[simp]
theorem count_toList_some (a b : β) : (some a).toList.count b = if a = b then 1 else 0 := by
  simp [List.count_singleton]

theorem count_held_cons (f : α → Option β) (a : α) (l : List α) (b : β) :
    (held f (a :: l)).count b = (f a).toList.count b + (held f l).count b := by
  rw [held_cons, List.count_append]

theorem count_held_snoc (f : α → Option β) (l : List α) (a : α) (b : β) :
    (held f (l ++ [a])).count b = (held f l).count b + (f a).toList.count b := by
  rw [held_append, List.count_append, count_held_cons]
  rfl

/-- A holder changes what it holds. -/
theorem count_held_set (f : α → Option β) (x : α) (b : β) : ∀ (l : List α) (i : ℕ) (y : α),
    l[i]? = some y →
    (held f (l.set i x)).count b + (f y).toList.count b = (held f l).count b + (f x).toList.count b
  | [], _, _, h => by simp at h
  | a :: l, 0, y, h => by
    simp only [List.getElem?_cons_zero, Option.some.injEq] at h
    subst h
    simp only [List.set_cons_zero, count_held_cons]
    omega
  | a :: l, i + 1, y, h => by
    have ih := count_held_set f x b l i y (by simpa using h)
    simp only [List.set_cons_succ, count_held_cons]
    omega

/-- Who holds by `f` also holds by `g`. -/
theorem count_held_le {f g : α → Option β} (h : ∀ a b, f a = some b → g a = some b) (l : List α) (b : β) :
    (held f l).count b ≤ (held g l).count b := by
  induction l with
  | nil => exact Nat.le_refl 0
  | cons a l ih =>
    have ha : (f a).toList.count b ≤ (g a).toList.count b := by
      cases hf : f a with
      | none => exact Nat.zero_le _
      | some c => simp [h a c hf]
    rw [count_held_cons, count_held_cons]
    exact Nat.add_le_add ha ih

variable (f : α → β)

theorem count_map_cons (a : α) (l : List α) (b : β) :
    ((a :: l).map f).count b = (l.map f).count b + (if f a = b then 1 else 0) := by
  simp [List.count_cons]

theorem count_map_snoc (l : List α) (a : α) (b : β) :
    ((l ++ [a]).map f).count b = (l.map f).count b + (if f a = b then 1 else 0) := by
  simp [List.count_append, List.count_singleton]

theorem count_map_pos {l : List α} {a : α} (h : a ∈ l) : 0 < (l.map f).count (f a) :=
  List.count_pos_iff.mpr (List.mem_map_of_mem h)

end Count

/-- The first entry that satisfies `p`, and the list without it. -/
theorem find?_eraseP {p : α → Bool} {l : List α} {a : α} (h : l.find? p = some a) :
    ∃ l1 l2, l = l1 ++ a :: l2 ∧ l.eraseP p = l1 ++ l2 := by
  obtain ⟨hp, l1, l2, rfl, hno⟩ := List.find?_eq_some_iff_append.mp h
  refine ⟨l1, l2, rfl, ?_⟩
  have h1 : ∀ b ∈ l1, ¬ p b = true := fun b hb => by simpa using hno b hb
  rw [List.eraseP_append_right _ h1, List.eraseP_cons_of_pos hp]

end Census
