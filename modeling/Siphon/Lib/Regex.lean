/-
# Regular expressions as a backtracking matcher reads them

`Re.rests` lists what a matcher leaves of a text, in the order in which it
would try: the left side of an alternative before the right one, a further
round of a loop before its end. The first entry is the leftmost-first match
(`Re.first`), and the entries behind it are where the matcher comes back to.
`Re.findAll` takes matches from the left, one after another.

The lemmas compute the first match of a sequence, an alternative and a loop
over one class; `first_star_seq` is the rule for a greedy loop that something
has to follow.
-/
import Mathlib.Data.List.Basic

namespace Regex

/-- A regular expression with a negative look ahead. -/
inductive Re (α : Type) where
  | eps
  | one (p : α → Bool)
  | seq (r q : Re α)
  | alt (r q : Re α)
  | star (r : Re α)
  | notAhead (r : Re α)

namespace Re

variable {α : Type}

/-- `r+` -/
def plus (r : Re α) : Re α := .seq r (.star r)

/-- `r?` -/
def opt (r : Re α) : Re α := .alt r .eps

/-- The rounds of a greedy loop. A round that takes nothing ends it. -/
def rounds (step : List α → List (List α)) : ℕ → List α → List (List α)
  | 0, s => [s]
  | n + 1, s => ((step s).filter fun t => t.length < s.length).flatMap (rounds step n) ++ [s]

/-- What the matches of a text leave of it, in the order of the matcher. -/
def rests : Re α → List α → List (List α)
  | eps, s => [s]
  | one _, [] => []
  | one p, a :: s => if p a then [s] else []
  | seq r q, s => (rests r s).flatMap (rests q)
  | alt r q, s => rests r s ++ rests q s
  | star r, s => rounds (rests r) s.length s
  | notAhead r, s => if (rests r s).isEmpty then [s] else []

/-- What the leftmost-first match at the start of a text leaves of it. -/
def first (r : Re α) (s : List α) : Option (List α) := (r.rests s).head?

/-- The matches from the left. Where none begins the search goes on with the
next character, and so it does behind an empty one. -/
def findFrom (r : Re α) : ℕ → List α → List (List α)
  | 0, _ => []
  | _ + 1, [] => if (r.first []).isSome then [[]] else []
  | n + 1, a :: s =>
    match r.first (a :: s) with
    | none => findFrom r n s
    | some rest =>
      if rest.length ≤ s.length then (a :: s).take (s.length + 1 - rest.length) :: findFrom r n rest
      else [] :: findFrom r n s

/-- All matches in a text. -/
def findAll (r : Re α) (s : List α) : List (List α) := findFrom r (s.length + 1) s

/-! ### What is left, by the form of the expression -/

variable {p : α → Bool} {r q : Re α} {a : α} {s : List α}

theorem rests_eps : (eps : Re α).rests s = [s] := rfl

theorem rests_one_cons : (one p).rests (a :: s) = if p a then [s] else [] := rfl

theorem rests_seq : (seq r q).rests s = (r.rests s).flatMap q.rests := rfl

theorem rests_alt : (alt r q).rests s = r.rests s ++ q.rests s := rfl

theorem rests_star : (star r).rests s = rounds r.rests s.length s := rfl

theorem rests_notAhead : (notAhead r).rests s = if (r.rests s).isEmpty then [s] else [] := rfl

/-! ### The first match -/

@[simp] theorem first_one_cons : (one p).first (a :: s) = if p a then some s else none := by
  unfold first
  rw [rests_one_cons]
  split_ifs <;> rfl

theorem first_seq : (seq r q).first s = (r.rests s).findSome? q.first := by
  unfold first
  rw [rests_seq, List.head?_flatMap]

@[simp] theorem first_alt : (alt r q).first s = (r.first s).or (q.first s) := List.head?_append

theorem first_notAhead : (notAhead r).first s = if r.first s = none then some s else none := by
  have h : (r.rests s).isEmpty ↔ r.first s = none := by
    unfold first
    rw [List.isEmpty_iff, List.head?_eq_none_iff]
  unfold first at h ⊢
  rw [rests_notAhead]
  by_cases hr : (r.rests s).head? = none
  · rw [if_pos hr, if_pos (h.mpr hr)]
    rfl
  · rw [if_neg hr, if_neg fun he => hr (h.mp he)]
    rfl

@[simp] theorem first_one_seq_cons : (seq (one p) q).first (a :: s) = if p a then q.first s else none := by
  rw [first_seq, rests_one_cons]
  split_ifs
  · rw [List.findSome?_singleton]
  · rfl

/-- A sequence whose left side is an option: the option is taken if the rest
then matches. -/
theorem first_opt_seq : (seq (opt r) q).first s = ((seq r q).first s).or (q.first s) := by
  rw [first_seq, first_seq, opt, rests_alt, rests_eps, List.findSome?_append, List.findSome?_singleton]

/-! ### Loops over a class -/

theorem rests_star_one_nil : (star (one p)).rests [] = [[]] := rfl

theorem rests_star_one_cons :
    (star (one p)).rests (a :: s) = if p a then (star (one p)).rests s ++ [a :: s] else [a :: s] := by
  rw [rests_star, List.length_cons, rounds, rests_one_cons]
  by_cases h : p a
  · rw [if_pos h, if_pos h, List.filter_cons_of_pos (by simp), List.filter_nil, List.flatMap_singleton, rests_star]
  · rw [if_neg h, if_neg h]
    rfl

@[simp] theorem first_star_seq_nil : (seq (star (one p)) q).first [] = q.first [] := by
  rw [first_seq, rests_star_one_nil, List.findSome?_singleton]

/-- A greedy loop goes on as long as what follows matches behind it. -/
theorem first_star_seq : (seq (star (one p)) q).first (a :: s) =
    if p a then ((seq (star (one p)) q).first s).or (q.first (a :: s)) else q.first (a :: s) := by
  rw [first_seq, rests_star_one_cons]
  by_cases h : p a
  · rw [if_pos h, if_pos h, List.findSome?_append, List.findSome?_singleton, ← first_seq]
  · rw [if_neg h, if_neg h, List.findSome?_singleton]

@[simp] theorem first_star_one : ∀ s : List α, (star (one p)).first s = some (s.dropWhile p)
  | [] => rfl
  | a :: s => by
    have ih := first_star_one s
    unfold first at ih ⊢
    rw [rests_star_one_cons]
    by_cases h : p a
    · rw [if_pos h, List.head?_append, ih, List.dropWhile_cons_of_pos h]
      rfl
    · rw [if_neg h, List.dropWhile_cons_of_neg h]
      rfl

@[simp] theorem first_plus_one_cons :
    (plus (one p)).first (a :: s) = if p a then some (s.dropWhile p) else none := by
  unfold plus
  rw [first_one_seq_cons, first_star_one]

/-- A loop of at least one round that something has to follow. -/
theorem first_plus_seq :
    (seq (plus (one p)) q).first (a :: s) = if p a then (seq (star (one p)) q).first s else none := by
  have hstep : (plus (one p)).rests (a :: s) = if p a then (star (one p)).rests s else [] := by
    unfold plus
    rw [rests_seq, rests_one_cons]
    split_ifs
    · rw [List.flatMap_singleton]
    · rfl
  rw [first_seq, hstep]
  split_ifs
  · rw [first_seq]
  · rfl

/-- Two loops, one behind the other: the second one matches wherever the first
one ends, so nothing is given back. -/
theorem first_star_star {p' : α → Bool} : ∀ s : List α,
    (seq (star (one p)) (star (one p'))).first s = some ((s.dropWhile p).dropWhile p')
  | [] => by simp
  | a :: s => by
    rw [first_star_seq]
    by_cases h : p a
    · rw [if_pos h, first_star_star s, List.dropWhile_cons_of_pos h]
      rfl
    · rw [if_neg h, first_star_one, List.dropWhile_cons_of_neg h]

/-! ### All matches -/

/-- A match that takes something is found, and the search goes on behind it. -/
theorem findFrom_cons {n : ℕ} {rest : List α} (h : r.first (a :: s) = some rest) (hlt : rest.length ≤ s.length) :
    r.findFrom (n + 1) (a :: s) = (a :: s).take (s.length + 1 - rest.length) :: r.findFrom n rest := by
  rw [findFrom, h]
  exact if_pos hlt

end Re
end Regex
