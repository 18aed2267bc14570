/-
# Ranges that tile a buffer

Each element of a list stands for a range of bytes. When the ranges are sorted
by where they start, with a stable sort, each ends where the next one starts
for every order of the list exactly if the empty ranges are at the end of the
buffer: an empty range inside the buffer shares its start with the range
around it or behind it, and one of the two comes first by the order of the
list.

Key definitions: `Ranges.Tile`, `Ranges.Contiguous`, `Ranges.EmptyLast`.
Key theorems: `Ranges.contiguous_byStart`, `Ranges.exists_perm_not_contiguous`,
`Ranges.map_start_byStart`, `Ranges.stop_getLast_eq`.
-/
import Mathlib.Data.List.Sort
import Mathlib.Data.List.Chain
import Mathlib.Logic.ExistsUnique

namespace Ranges

variable {α : Type} (start stop : α → ℕ)

/-- The ranges lie in a buffer of `n` bytes, and each byte is in one of them. -/
structure Tile (n : ℕ) (l : List α) : Prop where
  start_le : ∀ a ∈ l, start a ≤ stop a
  stop_le : ∀ a ∈ l, stop a ≤ n
  covers : ∀ i < n, ∃! a, a ∈ l ∧ start a ≤ i ∧ i < stop a

/-- Each range ends where the next one starts. -/
def Contiguous (l : List α) : Prop := l.IsChain fun a b => stop a = start b

instance (l : List α) : Decidable (Contiguous start stop l) :=
  inferInstanceAs (Decidable (l.IsChain fun a b => stop a = start b))

/-- No range ends behind an empty one. -/
def EmptyLast (l : List α) : Prop := ∀ z ∈ l, start z = stop z → ∀ a ∈ l, stop a ≤ start z

/-- The ranges by where they start. -/
def byStart (l : List α) : List α := l.insertionSort fun a b => start a ≤ start b

variable {start stop} {n : ℕ} {l l' : List α}

theorem byStart_perm (l : List α) : (byStart start l).Perm l := List.perm_insertionSort _ l

theorem byStart_pairwise (l : List α) : (byStart start l).Pairwise fun a b => start a ≤ start b := by
  have : Std.Total fun a b : α => start a ≤ start b := ⟨fun a b => Nat.le_total _ _⟩
  have : IsTrans α fun a b => start a ≤ start b := ⟨fun a b c => Nat.le_trans⟩
  exact List.pairwise_insertionSort _ l

/-- The starts in order do not depend on the order of the list. -/
theorem map_start_byStart (h : l'.Perm l) : (byStart start l').map start = (byStart start l).map start := by
  have hsorted : ∀ l : List α, ((byStart start l).map start).Pairwise (· ≤ ·) := fun l =>
    List.pairwise_map.mpr (byStart_pairwise l)
  have hperm : ((byStart start l').map start).Perm ((byStart start l).map start) :=
    (((byStart_perm l').trans h).trans (byStart_perm l).symm).map start
  exact hperm.eq_of_pairwise (fun _ _ _ _ => Nat.le_antisymm) (hsorted l') (hsorted l)

/-! ### Contiguous ranges -/

/-- Of contiguous ranges, none starts before an earlier one has ended. -/
theorem Contiguous.pairwise (h : Contiguous start stop l) (hle : ∀ a ∈ l, start a ≤ stop a) :
    l.Pairwise fun a b => stop a ≤ start b := by
  induction l with
  | nil => exact .nil
  | cons a l ih =>
    have ih := ih h.tail fun b hb => hle b (List.mem_cons_of_mem a hb)
    refine List.pairwise_cons.mpr ⟨fun b hb => ?_, ih⟩
    cases l with
    | nil => cases hb
    | cons c l =>
      have hac : stop a = start c := (List.isChain_cons_cons.mp h).1
      rcases List.mem_cons.mp hb with rfl | hb
      · exact hac.le
      · calc stop a = start c := hac
          _ ≤ stop c := hle c (by simp)
          _ ≤ start b := (List.pairwise_cons.mp ih).1 b hb

theorem Contiguous.stop_le_getLast (h : Contiguous start stop l) (hle : ∀ a ∈ l, start a ≤ stop a) {a z : α}
    (ha : a ∈ l) (hz : l.getLast? = some z) : stop a ≤ stop z := by
  obtain ⟨l, rfl⟩ := List.getLast?_eq_some_iff.mp hz
  rcases List.mem_append.mp ha with hl | hz
  · have hp := h.pairwise hle
    exact ((List.pairwise_append.mp hp).2.2 a hl z (by simp)).trans (hle z (by simp))
  · rw [List.mem_singleton.mp hz]

/-- Two contiguous orders of the same ranges end in the same place. -/
theorem stop_getLast_eq (h : Contiguous start stop l) (h' : Contiguous start stop l') (hp : l'.Perm l)
    (hle : ∀ a ∈ l, start a ≤ stop a) {z z' : α} (hz : l.getLast? = some z) (hz' : l'.getLast? = some z') :
    stop z' = stop z := by
  have hle' : ∀ a ∈ l', start a ≤ stop a := fun a ha => hle a (hp.subset ha)
  apply Nat.le_antisymm
  · exact h.stop_le_getLast hle (hp.subset (List.mem_of_getLast? hz')) hz
  · exact h'.stop_le_getLast hle' (hp.symm.subset (List.mem_of_getLast? hz)) hz'

/-! ### Tiles -/

/-- Two ranges of a tiling with a byte in common are the same. -/
theorem Tile.eq_of_mem (h : Tile start stop n l) {a b : α} (ha : a ∈ l) (hb : b ∈ l) {i : ℕ}
    (hai : start a ≤ i ∧ i < stop a) (hbi : start b ≤ i ∧ i < stop b) : a = b :=
  (h.covers i (hai.2.trans_le (h.stop_le a ha))).unique ⟨ha, hai⟩ ⟨hb, hbi⟩

/-- Neighbours of a sorted tiling with the empty ranges at its end. -/
theorem Tile.stop_eq_start (h : Tile start stop n l) (he : EmptyLast start stop l) {pre post : List α} {a b : α}
    (hl : l = pre ++ a :: b :: post) (hs : l.Pairwise fun a b => start a ≤ start b) (hd : a ≠ b) :
    stop a = start b := by
  have ha : a ∈ l := by simp [hl]
  have hb : b ∈ l := by simp [hl]
  have hab : start a ≤ start b := by
    rw [hl] at hs
    have := (List.pairwise_append.mp hs).2.1
    exact (List.pairwise_cons.mp this).1 b (by simp)
  have ha1 := h.start_le a ha
  have hb1 := h.start_le b hb
  rcases Nat.eq_or_lt_of_le ha1 with hz | ha2
  · -- an empty range: nothing is behind it
    have := he a ha hz b hb
    omega
  · have hle : stop a ≤ start b := by
      rcases Nat.eq_or_lt_of_le hb1 with hz | hb2
      · exact he b hb hz a ha
      · by_contra hlt
        exact hd (h.eq_of_mem ha hb ⟨hab, by omega⟩ ⟨Nat.le_refl _, hb2⟩)
    by_contra hne
    -- the byte behind `a` would be in a range between the two
    have hn := h.stop_le b hb
    obtain ⟨c, ⟨hc, hc1, hc2⟩, -⟩ := h.covers (stop a) (by omega)
    have hplace : start c ≤ start a ∨ start b ≤ start c := by
      rw [hl] at hc hs
      obtain ⟨-, hs2, hs3⟩ := List.pairwise_append.mp hs
      rcases List.mem_append.mp hc with hc | hc
      · exact .inl (hs3 c hc a (by simp))
      · rcases List.mem_cons.mp hc with rfl | hc
        · exact .inl (Nat.le_refl _)
        · rcases List.mem_cons.mp hc with rfl | hc
          · exact .inr (Nat.le_refl _)
          · exact .inr ((List.pairwise_cons.mp (List.pairwise_cons.mp hs2).2).1 c hc)
    rcases hplace with hp | hp
    · have hca : c = a := h.eq_of_mem hc ha ⟨hp, by omega⟩ ⟨Nat.le_refl _, ha2⟩
      rw [hca] at hc2
      omega
    · omega

theorem Tile.perm (h : Tile start stop n l) (hp : l'.Perm l) : Tile start stop n l' := by
  refine ⟨fun a ha => h.start_le a (hp.subset ha), fun a ha => h.stop_le a (hp.subset ha), fun i hi => ?_⟩
  simpa only [hp.mem_iff] using h.covers i hi

/-- Every order of a tiling with the empty ranges at its end is accepted. -/
theorem contiguous_byStart (h : Tile start stop n l) (he : EmptyLast start stop l) (hd : l.Nodup) (hp : l'.Perm l) :
    Contiguous start stop (byStart start l') := by
  have hpl : (byStart start l').Perm l := (byStart_perm l').trans hp
  have ht : Tile start stop n (byStart start l') := h.perm hpl
  have hel : EmptyLast start stop (byStart start l') := fun z hz hzz a ha =>
    he z (hpl.subset hz) hzz a (hpl.subset ha)
  have hnd : (byStart start l').Nodup := hpl.nodup_iff.mpr hd
  refine List.isChain_iff_forall_rel_of_append_cons_cons.mpr fun a b pre post hl => ?_
  refine ht.stop_eq_start hel hl (byStart_pairwise l') ?_
  have hab : (a :: b :: post).Nodup := (List.nodup_append.mp (hl ▸ hnd)).2.1
  exact fun he => (List.nodup_cons.mp hab).1 (he ▸ List.mem_cons_self)

/-- Some order of another tiling is not. -/
theorem exists_perm_not_contiguous (h : Tile start stop n l) (he : ¬ EmptyLast start stop l) :
    ∃ l' : List α, l'.Perm l ∧ ¬ Contiguous start stop (byStart start l') := by
  unfold EmptyLast at he
  push Not at he
  obtain ⟨z, hz, hzz, a, ha, hza⟩ := he
  -- the range with the byte where the empty one lies
  obtain ⟨e, ⟨hmem, he1, he2⟩, -⟩ := h.covers (start z) (hza.trans_le (h.stop_le a ha))
  have hne : e ≠ z := by
    rintro rfl
    omega
  obtain ⟨l1, l2, rfl⟩ := List.append_of_mem hz
  refine ⟨l1 ++ l2 ++ [z], ?_, fun hc => ?_⟩
  · rw [List.append_assoc]
    exact (List.perm_append_comm).append_left l1
  · have hmem' : e ∈ l1 ++ l2 := by
      rcases List.mem_append.mp hmem with h1 | h2
      · exact List.mem_append_left l2 h1
      · exact List.mem_append_right l1 ((List.mem_cons.mp h2).resolve_left hne)
    have hsub : [e, z].Sublist (l1 ++ l2 ++ [z]) := (List.singleton_sublist.mpr hmem').append (List.Sublist.refl [z])
    have hsorted : [e, z].Sublist (byStart start (l1 ++ l2 ++ [z])) := List.pair_sublist_insertionSort he1 hsub
    have hle : ∀ a ∈ byStart start (l1 ++ l2 ++ [z]), start a ≤ stop a := by
      intro a ha
      refine h.start_le a ?_
      have := (byStart_perm _).subset ha
      simp only [List.mem_append, List.mem_cons, List.not_mem_nil, or_false] at this ⊢
      tauto
    have hpair := (hc.pairwise hle).sublist hsorted
    have := (List.pairwise_cons.mp hpair).1 z (by simp)
    omega

end Ranges
