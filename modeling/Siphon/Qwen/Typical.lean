/-
# The typical set of `typical_p`

`typical_p` orders the tokens by how far their surprise is from the entropy,
the masked ones behind all others, and keeps those that are no further from it
than the last token whose mass before it is below the given one. That token is
the last of the fewest first tokens that have the given mass
(`lastBelow_cut`).

Key definitions: `Masses.entropy`, `Masses.shift`, `Masses.typicalOrder`.
Key theorems: `sort_byShift`, `lastBelow_cut`, `typicalP_set`.
-/
import Siphon.Qwen.Exact

namespace Siphon
namespace Qwen
namespace Exact

open Ranking

variable {F : Type} [Field F] [LinearOrder F] (S : Masses F) (ln : F → F) (l : List (WithBot F))

/-! ### Surprise and entropy -/

/-- The entropy of the masses. -/
def Masses.entropy : F := -∑ i ∈ kept l, S.prob l i * ln (S.prob l i)

/-- How far the surprise of a token is from the entropy. -/
def Masses.shift (i : ℕ) : F := |-ln (S.prob l i) - S.entropy ln l|

/-- The unmasked tokens by their shifts, equal ones by their ids. -/
def Masses.typicalOrder : List ℕ := (rank (S.shift ln l) l.length).filter fun i => logit l i ≠ ⊥

/-- The shift of a token as the code has it. -/
def shifted (i : ℕ) : WithTop F := (shifts ln l (S.probs l)).getD i ⊤

variable {S ln l}

theorem zip_probs : l.zip (S.probs l) = (List.range l.length).map fun i => (logit l i, S.prob l i) := by
  have hlen := S.length_probs l
  apply List.ext_getElem
  · rw [List.length_zip, List.length_map, List.length_range, hlen, Nat.min_self]
  · intro i hi hi'
    rw [List.length_map, List.length_range] at hi'
    rw [List.getElem_zip, List.getElem_map, List.getElem_range, logit, Masses.prob, List.getD_eq_getElem _ _ hi',
      List.getD_eq_getElem _ _ (hlen.symm ▸ hi')]

/-- A loop that takes some terms away. -/
theorem foldl_sub {G α : Type*} [AddCommGroup G] (c : α → Prop) [DecidablePred c] (f : α → G) : ∀ (is : List α) (acc : G),
    is.foldl (fun acc i => if c i then acc - f i else acc) acc = acc - ((is.filter c).map f).sum
  | [], acc => by simp
  | i :: is, acc => by
    rw [List.foldl_cons, foldl_sub c f is]
    by_cases h : c i
    · simp [h, sub_sub]
    · simp [h]

theorem entropy_eq : (l.zip (S.probs l)).foldl (fun ent v => if 0 < v.2 ∧ v.1 ≠ ⊥ then ent - ln v.2 * v.2 else ent) 0 =
    S.entropy ln l := by
  rw [zip_probs, List.foldl_map]
  have hcond : ∀ i, (0 < S.prob l i ∧ logit l i ≠ ⊥) = (logit l i ≠ ⊥) := by
    intro i
    simp only [eq_iff_iff, and_iff_right_iff_imp]
    exact fun h => S.pos h
  simp only [hcond]
  have hset : ((List.range l.length).filter fun i => logit l i ≠ ⊥).toFinset = kept l := by
    ext i
    simp [kept]
  rw [foldl_sub (fun i => logit l i ≠ ⊥) (fun i => ln (S.prob l i) * S.prob l i), zero_sub, Masses.entropy,
    ← List.sum_toFinset _ (List.nodup_range.filter _), hset]
  simp only [mul_comm]

theorem shifted_eq (i : ℕ) : shifted S ln l i = if logit l i = ⊥ then ⊤ else (S.shift ln l i : WithTop F) := by
  have hlen := S.length_probs l
  unfold shifted shifts
  dsimp only
  rw [entropy_eq]
  by_cases hi : i < l.length
  · have hi' : i < (S.probs l).length := hlen.symm ▸ hi
    have hz : i < (l.zipWith (fun v q => if v = ⊥ ∨ ¬ 0 < q then (⊤ : WithTop F)
        else (|-ln q - S.entropy ln l| : F)) (S.probs l)).length := by
      rw [List.length_zipWith, hlen, Nat.min_self]
      exact hi
    have hl : l[i] = logit l i := (List.getD_eq_getElem _ _ hi).symm
    have hp : (S.probs l)[i] = S.prob l i := (List.getD_eq_getElem _ _ hi').symm
    rw [List.getD_eq_getElem _ _ hz, List.getElem_zipWith, hl, hp]
    by_cases hm : logit l i = ⊥
    · rw [if_pos (.inl hm), if_pos hm]
    · have hpos : 0 < S.prob l i := S.pos hm
      rw [if_neg (by simp [hm, hpos]), if_neg hm, Masses.shift]
  · have hm : logit l i = ⊥ := List.getD_eq_default _ _ (not_lt.mp hi)
    rw [if_pos hm, List.getD_eq_default]
    rw [List.length_zipWith, hlen, Nat.min_self]
    exact not_lt.mp hi

/-! ### The order -/

theorem byShift_iff (a b : ℕ) :
    byShift (shifts ln l (S.probs l)) a b = true ↔ Before (shifted S ln l) a b ∨ a = b := by
  have hdef : byShift (shifts ln l (S.probs l)) a b = if shifted S ln l a < shifted S ln l b then true
      else if shifted S ln l b < shifted S ln l a then false else decide (a ≤ b) := rfl
  rw [hdef, Before]
  rcases lt_trichotomy (shifted S ln l a) (shifted S ln l b) with h | h | h
  · simp [h]
  · simp [h, le_iff_lt_or_eq]
  · rw [if_neg h.not_gt, if_pos h]
    simp only [Bool.false_eq_true, h.not_gt, h.ne', false_and, or_self, false_or, false_iff]
    rintro rfl
    exact lt_irrefl _ h

theorem mem_typicalOrder {i : ℕ} : i ∈ S.typicalOrder ln l ↔ i ∈ kept l := by
  rw [Masses.typicalOrder, List.mem_filter, mem_rank, mem_kept, decide_eq_true_iff]
  exact ⟨fun h => h.2, fun h => ⟨lt_length_of_logit h, h⟩⟩

theorem pairwise_typicalOrder : (S.typicalOrder ln l).Pairwise (Before (S.shift ln l)) :=
  pairwise_rank.sublist List.filter_sublist

/-- The code's order: the unmasked tokens in their order, then the masked ones. -/
theorem sort_byShift : (List.range l.length).mergeSort (byShift (shifts ln l (S.probs l))) =
    S.typicalOrder ln l ++ (List.range l.length).filter fun i => logit l i = ⊥ := by
  rw [mergeSort_eq_rank byShift_iff]
  refine (eq_rank ?_ ?_).symm
  · have hsplit := List.filter_append_perm (fun i => decide (logit l i ≠ ⊥)) (List.range l.length)
    have hmasked : (List.range l.length).filter (fun i => decide (logit l i = ⊥)) =
        (List.range l.length).filter fun i => !decide (logit l i ≠ ⊥) := List.filter_congr fun i _ => by simp
    rw [hmasked]
    exact ((perm_rank.filter _).append_right _).trans hsplit
  · rw [List.pairwise_append]
    refine ⟨?_, ?_, fun i hi j hj => ?_⟩
    · refine pairwise_typicalOrder.imp_of_mem fun {i j} hi hj h => ?_
      have hi := mem_kept.mp (mem_typicalOrder.mp hi)
      have hj := mem_kept.mp (mem_typicalOrder.mp hj)
      unfold Before
      rw [shifted_eq, shifted_eq, if_neg hi, if_neg hj, WithTop.coe_lt_coe, WithTop.coe_inj]
      exact h
    · refine (List.pairwise_lt_range.sublist List.filter_sublist).imp_of_mem fun {i j} hi hj h => ?_
      have hi := of_decide_eq_true (List.mem_filter.mp hi).2
      have hj := of_decide_eq_true (List.mem_filter.mp hj).2
      refine .inr ⟨?_, h⟩
      rw [shifted_eq, shifted_eq, if_pos hi, if_pos hj]
    · have hi := mem_kept.mp (mem_typicalOrder.mp hi)
      have hj := of_decide_eq_true (List.mem_filter.mp hj).2
      left
      rw [shifted_eq, shifted_eq, if_neg hi, if_pos hj]
      exact WithTop.coe_lt_top _

/-! ### The cutoff -/

section Cutoff

variable [IsStrictOrderedRing F] {probs : List F} (hnonneg : ∀ i, 0 ≤ probs.getD i 0) {mass : F}

include hnonneg in
/-- Once the mass is reached, the position stays. -/
theorem lastBelow_of_le : ∀ (order : List ℕ) (k : ℕ) {acc : F} (last : ℕ), mass ≤ acc →
    lastBelow probs mass order k acc last = last
  | [], _, _, _, _ => rfl
  | i :: order, k, acc, last, h => by
    rw [lastBelow, if_neg (not_lt.mpr h)]
    exact lastBelow_of_le order (k + 1) last (h.trans (le_add_of_nonneg_right (hnonneg i)))

include hnonneg in
/-- The position it ends at: the mass before it is below the given one, and with it no more. -/
theorem lastBelow_cut : ∀ {order : List ℕ} (k : ℕ) {acc : F} (last : ℕ), order ≠ [] → acc < mass →
    ∃ j, j < order.length ∧ lastBelow probs mass order k acc last = k + j ∧
      acc + weight (probs.getD · 0) order j < mass ∧
      (j + 1 < order.length → mass ≤ acc + weight (probs.getD · 0) order (j + 1))
  | i :: order, k, acc, last, _, h => by
    rw [lastBelow, if_pos h]
    by_cases hnext : acc + probs.getD i 0 < mass ∧ order ≠ []
    · obtain ⟨hlt, hne⟩ := hnext
      obtain ⟨j, hj, hlast, hbelow, habove⟩ := lastBelow_cut (k + 1) k hne hlt
      refine ⟨j + 1, Nat.succ_lt_succ hj, by rw [hlast]; omega, ?_, fun hj' => ?_⟩
      · rw [weight_cons, ← add_assoc]
        exact hbelow
      · rw [weight_cons, ← add_assoc]
        exact habove (Nat.lt_of_succ_lt_succ hj')
    · refine ⟨0, Nat.zero_lt_succ _, ?_, by rwa [weight_zero, add_zero], fun hj => ?_⟩
      · match order with
        | [] => rfl
        | i' :: order =>
          have hle := not_lt.mp fun hlt => hnext ⟨hlt, List.cons_ne_nil _ _⟩
          exact lastBelow_of_le hnonneg _ _ _ hle
      · have hne : order ≠ [] := by
          rintro rfl
          exact absurd hj (by simp)
        rw [weight_cons, weight_zero, add_zero]
        exact not_lt.mp fun hlt => hnext ⟨hlt, hne⟩

end Cutoff

/-- The unmasked tokens have all the mass. -/
theorem sum_typicalOrder (hex : ∃ i, logit l i ≠ ⊥) : ((S.typicalOrder ln l).map (S.prob l)).sum = 1 := by
  have hall := S.sum_map_prob hex (List.mergeSort_perm (List.range l.length) (byShift (shifts ln l (S.probs l))))
  have hrest : (((List.range l.length).filter fun i => logit l i = ⊥).map (S.prob l)).sum = 0 := by
    refine List.sum_eq_zero fun x hx => ?_
    obtain ⟨i, hi, rfl⟩ := List.mem_map.mp hx
    exact S.zero (of_decide_eq_true (List.mem_filter.mp hi).2)
  rwa [sort_byShift, List.map_append, List.sum_append, hrest, add_zero] at hall

section Set

variable [IsStrictOrderedRing F] {mass : F}

/-- The position the code finds: there the fewest first tokens that have the mass end. -/
theorem exists_cutoff (hex : ∃ i, logit l i ≠ ⊥) (h0 : 0 < mass) (h1 : mass < 1) :
    ∃ k j, (S.typicalOrder ln l)[k]? = some j ∧
      lastBelow (S.probs l) mass ((List.range l.length).mergeSort (byShift (shifts ln l (S.probs l)))) 0 0 0 = k ∧
      IsLeast {n | mass ≤ weight (S.prob l) (S.typicalOrder ln l) n} (k + 1) := by
  have hsum : ((S.typicalOrder ln l).map (S.prob l)).sum = 1 := sum_typicalOrder hex
  rw [sort_byShift]
  generalize (List.range l.length).filter (fun i => decide (logit l i = ⊥)) = rest
  generalize S.typicalOrder ln l = order at hsum ⊢
  have hne : order ++ rest ≠ [] := by
    intro h
    rw [(List.append_eq_nil_iff.mp h).1, List.map_nil, List.sum_nil] at hsum
    exact zero_ne_one hsum
  obtain ⟨k, hk, hlast, hbelow, habove⟩ := lastBelow_cut (S.prob_nonneg l) 0 0 hne h0
  rw [zero_add] at hbelow habove hlast
  have hmono : ∀ {i j : ℕ}, i ≤ j → ∀ is, weight (S.prob l) is i ≤ weight (S.prob l) is j :=
    fun h _ => weight_mono (S.prob_nonneg l) h
  have hfull : weight (S.prob l) order order.length = 1 := (weight_of_length_le (le_refl _)).trans hsum
  -- behind the unmasked tokens the mass before a position is one
  have hlt : k < order.length := by
    by_contra hge
    have hle := hmono (not_lt.mp hge) (order ++ rest)
    rw [weight_append (le_refl _), hfull] at hle
    exact absurd (hle.trans_lt hbelow) h1.not_gt
  have hreach : mass ≤ weight (S.prob l) order (k + 1) := by
    by_cases hend : k + 1 = order.length
    · rw [hend, hfull]
      exact h1.le
    · have hshort : k + 1 < order.length := by omega
      have := habove (by rw [List.length_append]; omega)
      rwa [show (fun x => (S.probs l).getD x 0) = S.prob l from rfl, weight_append hshort.le] at this
  refine ⟨k, order[k], List.getElem?_eq_getElem hlt, hlast, hreach, fun n hn => ?_⟩
  by_contra hlow
  have hle := hmono (Nat.le_of_lt_succ (not_le.mp hlow)) order
  have hbelow : weight (S.prob l) (order ++ rest) k < mass := hbelow
  rw [weight_append hlt.le] at hbelow
  exact absurd (le_trans (show mass ≤ _ from hn) hle) hbelow.not_ge

omit [Field F] [LinearOrder F] [IsStrictOrderedRing F] in
/-- The loop of `typical_p`. -/
theorem logit_maskIf (c : ℕ → Prop) [DecidablePred c] : ∀ (is : List ℕ) {l : List (WithBot F)} (j : ℕ),
    logit (is.foldl (fun l i => if c i then l.set i ⊥ else l) l) j = if j ∈ is ∧ c j then ⊥ else logit l j
  | [], l, j => by simp
  | i :: is, l, j => by
    rw [List.foldl_cons, logit_maskIf c is]
    by_cases hj : j ∈ is ∧ c j
    · rw [if_pos hj, if_pos ⟨List.mem_cons_of_mem i hj.1, hj.2⟩]
    · rw [if_neg hj]
      by_cases hc : c i
      · rw [if_pos hc, logit_set_bot]
        by_cases hij : i = j
        · subst hij
          rw [if_pos rfl, if_pos ⟨List.mem_cons_self, hc⟩]
        · rw [if_neg hij, if_neg fun h => hj ⟨(List.mem_cons.mp h.1).resolve_left (Ne.symm hij), h.2⟩]
      · rw [if_neg hc]
        refine (if_neg fun h => ?_).symm
        rcases List.mem_cons.mp h.1 with rfl | hmem
        · exact hc h.2
        · exact hj ⟨hmem, h.2⟩

omit [Field F] [LinearOrder F] [IsStrictOrderedRing F] in
theorem length_maskIf (c : ℕ → Prop) [DecidablePred c] : ∀ (is : List ℕ) (l : List (WithBot F)),
    (is.foldl (fun l i => if c i then l.set i ⊥ else l) l).length = l.length
  | [], _ => rfl
  | i :: is, l => by
    rw [List.foldl_cons, length_maskIf c is]
    split
    · exact List.length_set
    · rfl

/-- `typical_p` where it is on. -/
theorem typicalP_eq (hex : ∃ i, logit l i ≠ ⊥) (h0 : 0 < mass) (h1 : mass < 1) {order : List ℕ}
    (ho : (List.range l.length).mergeSort (byShift (shifts ln l (S.probs l))) = order) {cutoff : WithTop F}
    (hc : shifted S ln l (order.getD (min (lastBelow (S.probs l) mass order 0 0 0) (order.length - 1)) 0) = cutoff)
    {left : List (WithBot F)}
    (hl : order.foldl (fun left i => if cutoff < shifted S ln l i then left.set i ⊥ else left) l = left) :
    typicalP S ln l mass =
      if logit left (order.headD 0) = ⊥ then left.set (order.headD 0) (logit l (order.headD 0)) else left := by
  subst ho hc hl
  unfold typicalP
  rw [if_neg (not_or.mpr ⟨not_le.mpr h0, not_le.mpr h1⟩), if_neg (not_not.mpr (S.sum_probs_pos hex))]
  rfl

/-- **What `typical_p` leaves**: each logit whose shift is at most the one at the cutoff. -/
theorem logit_typicalP (hex : ∃ i, logit l i ≠ ⊥) (h0 : 0 < mass) (h1 : mass < 1) {k j : ℕ}
    (hj : (S.typicalOrder ln l)[k]? = some j)
    (hk : lastBelow (S.probs l) mass ((List.range l.length).mergeSort (byShift (shifts ln l (S.probs l)))) 0 0 0 = k)
    (i : ℕ) : logit (typicalP S ln l mass) i = if S.shift ln l j < S.shift ln l i then ⊥ else logit l i := by
  have hunmasked : ∀ {i}, i ∈ S.typicalOrder ln l → shifted S ln l i = S.shift ln l i := by
    intro i hi
    rw [shifted_eq, if_neg (mem_kept.mp (mem_typicalOrder.mp hi))]
  have hsorted : (S.typicalOrder ln l).Pairwise (Before (S.shift ln l)) := pairwise_typicalOrder
  obtain ⟨first, rest, horder⟩ := List.exists_cons_of_ne_nil (List.ne_nil_of_mem (List.mem_of_getElem? hj))
  -- the first token is at the cutoff or before it
  have hfirst : S.shift ln l first ≤ S.shift ln l j := by
    rw [horder] at hsorted
    rcases List.mem_cons.mp (horder ▸ List.mem_of_getElem? hj) with rfl | hrest
    · exact le_refl _
    · exact (List.rel_of_pairwise_cons hsorted hrest).le
  have hlen : k < (S.typicalOrder ln l).length := (List.getElem?_eq_some_iff.mp hj).1
  obtain ⟨masked, hall⟩ : ∃ masked, (List.range l.length).mergeSort (byShift (shifts ln l (S.probs l))) =
      S.typicalOrder ln l ++ masked := ⟨_, sort_byShift⟩
  have hat : (S.typicalOrder ln l ++ masked).getD (min k ((S.typicalOrder ln l ++ masked).length - 1)) 0 = j := by
    rw [Nat.min_eq_left (by rw [List.length_append]; omega), List.getD_eq_getElem?_getD,
      List.getElem?_append_left hlen, hj, Option.getD_some]
  have hcutoff : shifted S ln l ((S.typicalOrder ln l ++ masked).getD (min (lastBelow (S.probs l) mass
      (S.typicalOrder ln l ++ masked) 0 0 0) ((S.typicalOrder ln l ++ masked).length - 1)) 0) = S.shift ln l j := by
    rw [← hall, hk, hall, hat, hunmasked (List.mem_of_getElem? hj)]
  have hhead : (S.typicalOrder ln l ++ masked).headD 0 = first := by rw [horder]; rfl
  have hmem : first ∈ S.typicalOrder ln l := horder ▸ List.mem_cons_self
  have hleft : ∀ i, logit ((S.typicalOrder ln l ++ masked).foldl (fun left i =>
      if (S.shift ln l j : WithTop F) < shifted S ln l i then left.set i ⊥ else left) l) i =
      if S.shift ln l j < S.shift ln l i then ⊥ else logit l i := by
    intro i
    rw [logit_maskIf fun i => (S.shift ln l j : WithTop F) < shifted S ln l i]
    by_cases hm : logit l i = ⊥
    · rw [hm, ite_self, ite_self]
    · have hi : i ∈ S.typicalOrder ln l := mem_typicalOrder.mpr (mem_kept.mpr hm)
      rw [hunmasked hi]
      exact if_congr ((and_iff_right (List.mem_append_left _ hi)).trans WithTop.coe_lt_coe) rfl rfl
  rw [typicalP_eq hex h0 h1 hall hcutoff rfl, hhead, hleft first, if_neg hfirst.not_gt,
    if_neg (mem_kept.mp (mem_typicalOrder.mp hmem)), hleft i]

/-- **`typical_p` keeps the smallest typical set**: of the unmasked tokens in the
order of their shifts and ids, the fewest first ones that have the given mass,
and those whose shift is that of the last of them. -/
theorem typicalP_set (hex : ∃ i, logit l i ≠ ⊥) (h0 : 0 < mass) (h1 : mass < 1) :
    (S.typicalOrder ln l).Pairwise (Before (S.shift ln l)) ∧ (∀ i, i ∈ S.typicalOrder ln l ↔ i ∈ kept l) ∧
    ∃ k j, IsLeast {n | mass ≤ weight (S.prob l) (S.typicalOrder ln l) n} (k + 1) ∧
      (S.typicalOrder ln l)[k]? = some j ∧
      (∀ i, i ∈ kept (typicalP S ln l mass) ↔ i ∈ kept l ∧ S.shift ln l i ≤ S.shift ln l j) ∧
      (∀ i ∈ kept (typicalP S ln l mass), logit (typicalP S ln l mass) i = logit l i) ∧
      mass ≤ ∑ i ∈ kept (typicalP S ln l mass), S.prob l i := by
  obtain ⟨k, j, hj, hk, hleast⟩ := @exists_cutoff F _ _ S ln l _ mass hex h0 h1
  have hleft := logit_typicalP hex h0 h1 hj hk
  have hkept : ∀ i, i ∈ kept (typicalP S ln l mass) ↔ i ∈ kept l ∧ S.shift ln l i ≤ S.shift ln l j := by
    intro i
    rw [mem_kept, mem_kept, hleft, ← not_lt]
    by_cases h : S.shift ln l j < S.shift ln l i
    · simp [h]
    · simp [h]
  have hsorted : (S.typicalOrder ln l).Pairwise (Before (S.shift ln l)) := pairwise_typicalOrder
  have hnodup : (S.typicalOrder ln l).Nodup := nodup_rank.sublist List.filter_sublist
  refine ⟨hsorted, fun i => mem_typicalOrder, k, j, hleast, hj, hkept, fun i hi => ?_, ?_⟩
  · rw [hleft, if_neg (not_lt.mpr ((hkept i).mp hi).2)]
  · -- the first ones up to the cutoff are all kept
    have hsub : ((S.typicalOrder ln l).take (k + 1)).toFinset ⊆ kept (typicalP S ln l mass) := by
      intro i hi
      rw [List.mem_toFinset, List.take_add_one, hj, Option.toList_some, List.mem_append, List.mem_singleton] at hi
      rw [hkept, ← show i ∈ S.typicalOrder ln l ↔ i ∈ kept l from mem_typicalOrder]
      rcases hi with hi | rfl
      · refine ⟨List.mem_of_mem_take hi, ?_⟩
        have hmem : j ∈ (S.typicalOrder ln l).drop k := by
          obtain ⟨hlt, rfl⟩ := List.getElem?_eq_some_iff.mp hj
          rw [List.drop_eq_getElem_cons hlt]
          exact List.mem_cons_self
        rw [← List.take_append_drop k (S.typicalOrder ln l), List.pairwise_append] at hsorted
        exact (hsorted.2.2 i hi j hmem).le
      · exact ⟨List.mem_of_getElem? hj, le_refl _⟩
    calc mass ≤ weight (S.prob l) (S.typicalOrder ln l) (k + 1) := hleast.1
      _ = ∑ i ∈ ((S.typicalOrder ln l).take (k + 1)).toFinset, S.prob l i :=
          (List.sum_toFinset _ (hnodup.sublist (List.take_sublist _ _))).symm
      _ ≤ ∑ i ∈ kept (typicalP S ln l mass), S.prob l i :=
          Finset.sum_le_sum_of_subset_of_nonneg hsub fun i _ _ => S.prob_nonneg l i

end Set

/-- Of two tokens with half of the mass each, one is enough for a half, and the other is as typical. -/
theorem typicalP_set_tied : ∃ j ∈ kept [(0 : WithBot ℚ), 0, ⊥],
    ∀ i, i ∈ kept (typicalP ratSoftmax.toMasses (fun x => x - 1) [0, 0, ⊥] (1 / 2)) ↔ i ∈ kept [(0 : WithBot ℚ), 0, ⊥] ∧
      ratSoftmax.shift (fun x => x - 1) [0, 0, ⊥] i ≤ ratSoftmax.shift (fun x => x - 1) [0, 0, ⊥] j := by
  have hex : ∃ i, logit [(0 : WithBot ℚ), 0, ⊥] i ≠ ⊥ := ⟨0, WithBot.coe_ne_bot⟩
  obtain ⟨-, hmem, k, j, -, hj, hkept, -⟩ := @typicalP_set ℚ _ _ ratSoftmax.toMasses (fun x => x - 1) [0, 0, ⊥] _
    (1 / 2) hex (by norm_num) (by norm_num)
  exact ⟨j, (hmem j).mp (List.mem_of_getElem? hj), hkept⟩

end Exact
end Qwen
end Siphon
