/-
# Ranking by a key

A stable sort of the numbers below `n` by a key puts equal keys in the order of
the numbers, so what it gives is strictly increasing in the key and then the
number (`pairwise_rank`). A cut of such a ranking has above it every number
that some number above it comes before (`mem_drop_of_before`), and where each
number has a weight, the sums of the first so many grow (`weight_mono`).

Key definitions: `Ranking.Before`, `Ranking.rank`, `Ranking.weight`.
Key theorems: `Ranking.pairwise_mergeSort_key`, `Ranking.pairwise_rank`, `Ranking.eq_rank`,
`Ranking.mem_drop_of_before`.
-/
import Mathlib.Algebra.BigOperators.Group.List.Basic
import Mathlib.Algebra.BigOperators.Intervals
import Mathlib.Algebra.Order.BigOperators.Group.List
import Mathlib.Data.List.Perm.Basic
import Mathlib.Data.List.Range
import Mathlib.Order.Basic

namespace Ranking

/-! ### Pairs in a list without repetitions -/

theorem not_pair_swap {α : Type*} {a b : α} : ∀ {l : List α}, l.Nodup → [a, b].Sublist l → ¬ [b, a].Sublist l
  | [], _, h, _ => absurd h (by simp)
  | x :: l, hl, h, h' => by
    obtain ⟨hx, hl⟩ := List.nodup_cons.mp hl
    have hmem : ∀ {y z : α}, [y, z].Sublist (x :: l) → [y, z].Sublist l ∨ y = x ∧ z ∈ l := by
      intro y z hs
      rcases List.sublist_cons_iff.mp hs with hs | ⟨r, hr, hs⟩
      · exact .inl hs
      · obtain ⟨rfl, rfl⟩ := List.cons.inj hr
        exact .inr ⟨rfl, List.singleton_sublist.mp hs⟩
    rcases hmem h with hs | ⟨rfl, hb⟩
    · rcases hmem h' with hs' | ⟨rfl, -⟩
      · exact not_pair_swap hl hs hs'
      · exact hx (hs.subset (by simp))
    · rcases hmem h' with hs' | ⟨rfl, -⟩
      · exact hx (hs'.subset (by simp))
      · exact hx hb

/-- What an order puts before what stands before it in a list that the order sorts. -/
theorem pair_sublist {α : Type*} {R : α → α → Prop} (hasymm : ∀ {x y}, R x y → ¬ R y x) {a b : α} (hab : R a b)
    {l : List α} (hl : l.Pairwise R) (ha : a ∈ l) (hb : b ∈ l) : [a, b].Sublist l := by
  obtain ⟨s, t, rfl⟩ := List.append_of_mem hb
  rw [List.pairwise_append, List.pairwise_cons] at hl
  obtain ⟨-, ⟨ht, -⟩, -⟩ := hl
  rcases List.mem_append.mp ha with hs | hs
  · exact (List.singleton_sublist.mpr hs).append (List.singleton_sublist.mpr List.mem_cons_self)
  · rcases List.mem_cons.mp hs with rfl | hs
    · exact absurd hab (hasymm hab)
    · exact absurd hab (hasymm (ht a hs))

/-- A comparison that is that of a key on the members of a list sorts them by the key. -/
theorem pairwise_mergeSort_key {α K : Type*} [LinearOrder K] {le : α → α → Bool} {key : α → K} {l : List α}
    (h : ∀ a ∈ l, ∀ b ∈ l, le a b = decide (key a ≤ key b)) :
    (l.mergeSort le).Pairwise fun a b => key a ≤ key b := by
  have htrans : ∀ a b c : α, decide (key a ≤ key b) = true → decide (key b ≤ key c) = true →
      decide (key a ≤ key c) = true := by
    intro a b c hab hbc
    exact decide_eq_true ((of_decide_eq_true hab).trans (of_decide_eq_true hbc))
  have htotal : ∀ a b : α, (decide (key a ≤ key b) || decide (key b ≤ key a)) = true := by
    intro a b
    simpa using le_total (key a) (key b)
  have heq : l.mergeSort le = l.mergeSort fun a b => decide (key a ≤ key b) := by
    have := List.map_mergeSort (r := le) (s := fun a b => decide (key a ≤ key b)) (f := id) h
    rwa [List.map_id, List.map_id] at this
  rw [heq]
  exact (List.pairwise_mergeSort htrans htotal l).imp of_decide_eq_true

/-! ### The ranking -/

section Rank

variable {K : Type*} [LinearOrder K] (key : ℕ → K)

/-- The key of `a` is smaller, or they are equal and `a` is. -/
def Before (a b : ℕ) : Prop := key a < key b ∨ key a = key b ∧ a < b

/-- The numbers below `n`, by their keys. -/
def rank (n : ℕ) : List ℕ := (List.range n).mergeSort fun a b => key a ≤ key b

variable {key} {n : ℕ}

theorem Before.asymm {a b : ℕ} (h : Before key a b) : ¬ Before key b a := by
  rintro (h' | ⟨h', hlt'⟩)
  · rcases h with h | ⟨h, -⟩
    · exact lt_asymm h h'
    · exact absurd h' h.not_gt
  · rcases h with h | ⟨-, hlt⟩
    · exact absurd h h'.not_gt
    · exact lt_asymm hlt hlt'

theorem Before.le {a b : ℕ} (h : Before key a b) : key a ≤ key b := by
  rcases h with h | ⟨h, -⟩
  · exact h.le
  · exact h.le

theorem Before.trans {a b c : ℕ} (h : Before key a b) (h' : Before key b c) : Before key a c := by
  rcases h with h | ⟨h, hlt⟩
  · exact .inl (h.trans_le h'.le)
  · rcases h' with h' | ⟨h', hlt'⟩
    · exact .inl (h.trans_lt h')
    · exact .inr ⟨h.trans h', hlt.trans hlt'⟩

theorem before_of_ne {a b : ℕ} (h : a ≠ b) : Before key a b ∨ Before key b a := by
  rcases lt_trichotomy (key a) (key b) with hk | hk | hk
  · exact .inl (.inl hk)
  · rcases Nat.lt_or_gt_of_ne h with hab | hab
    · exact .inl (.inr ⟨hk, hab⟩)
    · exact .inr (.inr ⟨hk.symm, hab⟩)
  · exact .inr (.inl hk)

theorem perm_rank : (rank key n).Perm (List.range n) := List.mergeSort_perm _ _

theorem mem_rank {i : ℕ} : i ∈ rank key n ↔ i < n := by rw [perm_rank.mem_iff, List.mem_range]

@[simp]
theorem length_rank : (rank key n).length = n := by rw [perm_rank.length_eq, List.length_range]

theorem nodup_rank : (rank key n).Nodup := perm_rank.symm.nodup List.nodup_range

theorem pairwise_rank : (rank key n).Pairwise (Before key) := by
  have htrans : ∀ a b c : ℕ, decide (key a ≤ key b) = true → decide (key b ≤ key c) = true →
      decide (key a ≤ key c) = true := by
    intro a b c hab hbc
    exact decide_eq_true ((of_decide_eq_true hab).trans (of_decide_eq_true hbc))
  have htotal : ∀ a b : ℕ, (decide (key a ≤ key b) || decide (key b ≤ key a)) = true := by
    intro a b
    simpa using le_total (key a) (key b)
  have hsorted := List.pairwise_mergeSort htrans htotal (List.range n)
  rw [List.pairwise_iff_forall_sublist] at hsorted ⊢
  intro a b hab
  rcases (of_decide_eq_true (hsorted hab) : key a ≤ key b).lt_or_eq with hlt | heq
  · exact .inl hlt
  · refine .inr ⟨heq, ?_⟩
    -- equal keys in the other order would have stayed in it
    by_contra hnot
    have hne : b ≠ a := fun h => by
      have := hab.nodup nodup_rank
      simp [h] at this
    have hba : b < a := lt_of_le_of_ne (not_lt.mp hnot) hne
    have hmem : ∀ x ∈ [a, b], x ∈ List.range n := fun x hx => perm_rank.mem_iff.mp (hab.subset hx)
    have hrange := pair_sublist (fun h => h.asymm) hba List.pairwise_lt_range (hmem b (by simp)) (hmem a (by simp))
    exact not_pair_swap nodup_rank hab
      (List.pair_sublist_mergeSort htrans htotal (decide_eq_true heq.ge) hrange)

/-- There is one ranking. -/
theorem eq_rank {order : List ℕ} (hperm : order.Perm (List.range n)) (ho : order.Pairwise (Before key)) :
    order = rank key n :=
  List.Perm.eq_of_pairwise (fun _ _ _ _ h h' => absurd h' h.asymm) ho pairwise_rank (hperm.trans perm_rank.symm)

/-- A sort that breaks the ties itself. -/
theorem mergeSort_eq_rank {le : ℕ → ℕ → Bool} (hle : ∀ a b, le a b = true ↔ Before key a b ∨ a = b) :
    (List.range n).mergeSort le = rank key n := by
  have htrans : ∀ a b c, le a b = true → le b c = true → le a c = true := by
    simp only [hle]
    rintro a b c (hab | rfl) (hbc | rfl)
    · exact .inl (hab.trans hbc)
    · exact .inl hab
    · exact .inl hbc
    · exact .inr rfl
  have htotal : ∀ a b, (le a b || le b a) = true := by
    intro a b
    rw [Bool.or_eq_true, hle, hle]
    by_cases hab : a = b
    · exact .inl (.inr hab)
    · exact (before_of_ne hab).imp .inl .inl
  have hperm := List.mergeSort_perm (List.range n) le
  have hsorted := List.pairwise_mergeSort htrans htotal (List.range n)
  refine eq_rank hperm ?_
  exact (hsorted.and (hperm.symm.nodup List.nodup_range)).imp fun h => ((hle _ _).mp h.1).resolve_right h.2

/-- Above a cut of a ranking there is all that something above it comes before. -/
theorem mem_drop_of_before {order : List ℕ} (ho : order.Pairwise (Before key)) {k i j : ℕ} (hi : i ∈ order.drop k)
    (hj : j ∈ order) (h : Before key i j) : j ∈ order.drop k := by
  rw [← List.take_append_drop k order, List.mem_append] at hj
  rcases hj with hj | hj
  · rw [← List.take_append_drop k order, List.pairwise_append] at ho
    exact absurd h (ho.2.2 j hj i hi).asymm
  · exact hj

end Rank

/-! ### The weight of the first so many -/

section Weight

variable {F : Type*} [AddCommMonoid F] (w : ℕ → F) {order : List ℕ}

/-- The weight of the first `k`. -/
def weight (order : List ℕ) (k : ℕ) : F := ((order.take k).map w).sum

variable {w}

@[simp]
theorem weight_zero : weight w order 0 = 0 := rfl

theorem weight_cons (i : ℕ) (k : ℕ) : weight w (i :: order) (k + 1) = w i + weight w order k := rfl

theorem weight_of_length_le {k : ℕ} (h : order.length ≤ k) : weight w order k = (order.map w).sum := by
  rw [weight, List.take_of_length_le h]

theorem weight_add_drop (k : ℕ) : weight w order k + ((order.drop k).map w).sum = (order.map w).sum := by
  rw [weight, ← List.sum_append, ← List.map_append, List.take_append_drop]

theorem weight_succ {k i : ℕ} (h : order[k]? = some i) : weight w order (k + 1) = weight w order k + w i := by
  rw [weight, weight, List.take_add_one, h, Option.toList_some, List.map_append, List.sum_append, List.map_singleton,
    List.sum_singleton]

theorem weight_mono [PartialOrder F] [IsOrderedAddMonoid F] (hw : ∀ i, 0 ≤ w i) {j k : ℕ} (h : j ≤ k) :
    weight w order j ≤ weight w order k := by
  have hsub := (List.take_sublist_take_left (l := order) h).map w
  refine List.Sublist.sum_le_sum hsub fun x hx => ?_
  obtain ⟨i, -, rfl⟩ := List.mem_map.mp hx
  exact hw i

theorem weight_append {k : ℕ} (h : k ≤ order.length) (rest : List ℕ) :
    weight w (order ++ rest) k = weight w order k := by
  rw [weight, weight, List.take_append_of_le_length h]

end Weight

end Ranking
