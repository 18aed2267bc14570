/-
# Runs of marks in the order of their classes

Each element has a class. An element of class 0 stays where it is; the
others, the marks, are put in the order of their classes between two such
elements, equal ones in the order they came: the sort puts one element after
another behind those it has sorted, which it keeps in reverse (`Runs.push`).

A list it leaves alone is one that is `Runs.Ordered`, so sorting a part first
changes nothing (`Runs.order_append_left`); two neighbouring marks of
different classes may change places before it (`Runs.order_move`), and the
elements of one class keep their order (`Runs.filter_order`). Nothing passes
an element of class 0, so the two sides of one are sorted apart
(`Runs.order_append`), and what becomes of a run of marks is its stable sort
(`Runs.stableSort_order`).
-/
import Mathlib.Data.List.Basic
import Mathlib.Data.List.Chain
import Mathlib.Data.List.Induction

namespace Runs

variable {α : Type*} (cls : α → ℕ)

/-- A mark behind sorted elements, which are in reverse: it goes before those
of a higher class, down to an element of class 0. -/
def insert (a : α) : List α → List α
  | [] => [a]
  | p :: ps => if cls p = 0 ∨ cls p ≤ cls a then a :: p :: ps else p :: insert a ps

def push (sorted : List α) (a : α) : List α := if cls a = 0 then a :: sorted else insert cls a sorted

/-- The elements with their runs sorted. -/
def order (d : List α) : List α := (d.foldl (push cls) []).reverse

/-- No mark stands behind one of a higher class. -/
def Ordered (d : List α) : Prop := d.IsChain fun a b => cls b = 0 ∨ cls a ≤ cls b

variable {cls}

/-! ### Where an element goes -/

theorem push_of_le {s : List α} {a : α} (h : ∀ p ∈ s.head?, cls a = 0 ∨ cls p ≤ cls a) : push cls s a = a :: s := by
  unfold push
  split
  · rfl
  · rename_i ha
    rcases s with - | ⟨p, ps⟩
    · rfl
    · exact if_pos (.inr ((h p rfl).resolve_left ha))

theorem insert_comm {a b : α} (hab : cls a ≠ cls b) :
    ∀ s : List α, insert cls b (insert cls a s) = insert cls a (insert cls b s)
  | [] => by
    simp only [insert]
    split_ifs <;> first | rfl | omega
  | p :: ps => by
    have ih := insert_comm hab ps
    by_cases hpa : cls p = 0 ∨ cls p ≤ cls a <;> by_cases hpb : cls p = 0 ∨ cls p ≤ cls b
    · simp only [insert, hpa, hpb, if_true]
      split_ifs <;> first | rfl | omega
    · simp only [insert, hpa, hpb, if_true, if_false]
      split_ifs <;> first | rfl | omega
    · simp only [insert, hpa, hpb, if_true, if_false]
      split_ifs <;> first | rfl | omega
    · simp only [insert, hpa, hpb, if_false, ih]

/-- Two marks of different classes may come in either order. -/
theorem push_comm (s : List α) {a b : α} (ha : cls a ≠ 0) (hb : cls b ≠ 0) (hab : cls a ≠ cls b) :
    push cls (push cls s a) b = push cls (push cls s b) a := by
  simpa [push, ha, hb] using insert_comm hab s

theorem filter_push (k : ℕ) (s : List α) (a : α) :
    (push cls s a).filter (fun b => cls b = k) = (a :: s).filter fun b => cls b = k := by
  unfold push
  split
  · rfl
  · induction s with
    | nil => rfl
    | cons p ps ih =>
      rw [insert]
      split
      · rfl
      · -- the mark passes an element of another class, so one of the two is not kept
        rename_i hp
        have hne : ¬ (cls p = k ∧ cls a = k) := by omega
        rw [List.filter_cons, ih]
        by_cases hpk : cls p = k <;> by_cases hak : cls a = k <;> simp_all

/-! ### The sorted list -/

theorem order_append_singleton (d : List α) (a : α) :
    order cls (d ++ [a]) = (push cls (order cls d).reverse a).reverse := by simp [order]

theorem order_of_ordered {d : List α} (h : Ordered cls d) : order cls d = d := by
  induction d using List.reverseRecOn with
  | nil => rfl
  | append_singleton d a ih =>
    obtain ⟨hd, -, hlast⟩ := List.isChain_append.mp h
    rw [order_append_singleton, ih hd, push_of_le]
    · simp
    · intro p hp
      exact hlast p (by simpa using hp) a rfl

theorem isChain_push {s : List α} (h : s.IsChain fun a b => cls a = 0 ∨ cls b ≤ cls a) (a : α) :
    (push cls s a).IsChain fun a b => cls a = 0 ∨ cls b ≤ cls a := by
  unfold push
  split
  · rename_i ha
    exact h.cons fun _ _ => .inl ha
  · induction s with
    | nil => simp [insert]
    | cons p ps ih =>
      rw [insert]
      split
      · rename_i hp
        refine h.cons fun b hb => ?_
        obtain rfl : p = b := by simpa using hb
        omega
      · rename_i hp
        refine (ih h.tail).cons fun b hb => ?_
        rcases ps with - | ⟨q, qs⟩
        · obtain rfl : a = b := by simpa [insert] using hb
          omega
        · have hpq := List.isChain_cons_cons.mp h |>.1
          rw [insert] at hb
          split at hb <;> simp at hb <;> subst hb <;> omega

theorem ordered_order (d : List α) : Ordered cls (order cls d) := by
  have hs : ∀ d : List α, (d.foldl (push cls) []).IsChain fun a b => cls a = 0 ∨ cls b ≤ cls a := by
    intro d
    induction d using List.reverseRecOn with
    | nil => exact .nil
    | append_singleton d a ih =>
      rw [List.foldl_concat]
      exact isChain_push ih a
  exact List.isChain_reverse.mpr (hs d)

/-- Sorting a part first changes nothing. -/
theorem order_append_left (x y : List α) : order cls (order cls x ++ y) = order cls (x ++ y) := by
  have hx : (order cls x).foldl (push cls) [] = x.foldl (push cls) [] := by
    have h : order cls (order cls x) = order cls x := order_of_ordered (ordered_order x)
    exact List.reverse_injective h
  rw [order, List.foldl_append, hx, ← List.foldl_append, order]

/-- A mark passes marks of other classes. -/
theorem order_move {c : α} {l : List α} (hc : l ≠ [] → cls c ≠ 0) (hl : ∀ m ∈ l, cls m ≠ 0 ∧ cls m ≠ cls c)
    (x : List α) : order cls (x ++ c :: l) = order cls (x ++ l ++ [c]) := by
  have hfold : ∀ (l : List α) (s : List α), (l ≠ [] → cls c ≠ 0) → (∀ m ∈ l, cls m ≠ 0 ∧ cls m ≠ cls c) →
      l.foldl (push cls) (push cls s c) = push cls (l.foldl (push cls) s) c := by
    intro l
    induction l with
    | nil => exact fun s _ _ => rfl
    | cons m l ih =>
      intro s hc hl
      have hm := hl m List.mem_cons_self
      rw [List.foldl_cons, List.foldl_cons, push_comm s (hc (by simp)) hm.1 hm.2.symm]
      exact ih _ (fun _ => hc (by simp)) fun m' hm' => hl m' (List.mem_cons_of_mem _ hm')
  simp only [order, List.foldl_append, List.foldl_cons, List.foldl_nil]
  rw [hfold l _ hc hl]

/-- The elements of one class stay, in their order. -/
theorem filter_order (k : ℕ) (d : List α) :
    (order cls d).filter (fun a => cls a = k) = d.filter fun a => cls a = k := by
  induction d using List.reverseRecOn with
  | nil => rfl
  | append_singleton d a ih =>
    rw [order_append_singleton, List.filter_reverse, filter_push, List.filter_append, ← ih, ← List.filter_reverse]
    simp

theorem mem_order {d : List α} {a : α} : a ∈ order cls d ↔ a ∈ d := by
  have hmem : ∀ l : List α, a ∈ l ↔ a ∈ l.filter fun b => cls b = cls a := fun l => by simp
  rw [hmem, filter_order, ← hmem]

/-! ### The runs -/

variable (cls) in
/-- What becomes of a run of marks. -/
structure StableSort (run sorted : List α) : Prop where
  perm : sorted.Perm run
  nondecreasing : sorted.Pairwise fun a b => cls a ≤ cls b
  stable : ∀ k, (sorted.filter fun a => cls a = k) = run.filter fun a => cls a = k

theorem insert_perm (a : α) : ∀ s : List α, (insert cls a s).Perm (a :: s)
  | [] => .refl _
  | p :: ps => by
    rw [insert]
    split
    · rfl
    · exact ((insert_perm a ps).cons p).trans (.swap a p ps)

theorem push_perm (s : List α) (a : α) : (push cls s a).Perm (a :: s) := by
  unfold push
  split
  · rfl
  · exact insert_perm a s

/-- Nothing is lost and nothing comes twice. -/
theorem order_perm (d : List α) : (order cls d).Perm d := by
  induction d using List.reverseRecOn with
  | nil => rfl
  | append_singleton d a ih =>
    have hpush : (order cls (d ++ [a])).Perm (a :: (order cls d).reverse) := by
      rw [order_append_singleton]
      exact (List.reverse_perm _).trans (push_perm _ _)
    have hrest : (a :: (order cls d).reverse).Perm (a :: d) := ((List.reverse_perm _).trans ih).cons a
    exact (hpush.trans hrest).trans (List.perm_append_singleton a d).symm

/-- What lies behind an element of class 0 is not reached. -/
theorem insert_append {a : α} {t : List α} (ht : ∀ b ∈ t.head?, cls b = 0) :
    ∀ s : List α, insert cls a (s ++ t) = insert cls a s ++ t
  | [] => by
    rcases t with - | ⟨b, t⟩
    · rfl
    · simp [insert, ht b rfl]
  | p :: ps => by
    rw [List.cons_append, insert, insert, insert_append ht ps]
    split <;> rfl

theorem foldl_push_append {t : List α} (ht : ∀ b ∈ t.head?, cls b = 0) :
    ∀ d s : List α, d.foldl (push cls) (s ++ t) = d.foldl (push cls) s ++ t
  | [], _ => rfl
  | a :: d, s => by
    have hpush : push cls (s ++ t) a = push cls s a ++ t := by
      unfold push
      split
      · rfl
      · exact insert_append ht s
    rw [List.foldl_cons, List.foldl_cons, hpush, foldl_push_append ht d]

theorem order_append_zero {c : α} (hc : cls c = 0) (x y : List α) :
    order cls (x ++ c :: y) = order cls x ++ c :: order cls y := by
  have hpush : ∀ s, push cls s c = c :: s := fun _ => if_pos hc
  have hfold := foldl_push_append (t := c :: x.foldl (push cls) []) (by simpa using hc) y []
  rw [List.nil_append] at hfold
  rw [order, List.foldl_append, List.foldl_cons, hpush, hfold]
  simp [order]

/-- The two sides of an element of class 0 are sorted apart. -/
theorem order_append {x y : List α} (h : (∀ b ∈ x.getLast?, cls b = 0) ∨ ∀ c ∈ y.head?, cls c = 0) :
    order cls (x ++ y) = order cls x ++ order cls y := by
  have hzero : ∀ {c : α}, cls c = 0 → ∀ y, order cls (c :: y) = c :: order cls y :=
    fun hc y => order_append_zero hc [] y
  rcases h with hx | hy
  · rcases x.eq_nil_or_concat' with rfl | ⟨x, b, rfl⟩
    · rfl
    · have hb : cls b = 0 := hx b (by simp)
      rw [List.append_assoc, List.singleton_append, order_append_zero hb, order_append_zero hb]
      simp [order]
  · rcases y with - | ⟨c, y⟩
    · simp [order]
    · have hc : cls c = 0 := hy c rfl
      rw [order_append_zero hc, hzero hc]

/-- A run of marks becomes its stable sort. -/
theorem stableSort_order {run : List α} (h : ∀ a ∈ run, cls a ≠ 0) : StableSort cls run (order cls run) where
  perm := order_perm run
  nondecreasing := by
    have hmarks : ∀ a ∈ order cls run, cls a ≠ 0 := fun a ha => h a (mem_order.mp ha)
    have hchain : (order cls run).IsChain fun a b => cls a ≤ cls b := by
      refine (ordered_order run).imp_of_mem_imp fun a b _ hb hab => ?_
      exact hab.resolve_left (hmarks b hb)
    exact List.isChain_iff_pairwise.mp hchain
  stable k := filter_order k run

end Runs
