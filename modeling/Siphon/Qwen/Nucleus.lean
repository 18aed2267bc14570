/-
# The nucleus of `top_p`

`top_p` masks from the small end while the mass is at most `1 - p`. So what is
left is an end of the ascending order, its mass is at least `p`, and without its
smallest token the mass is below `p`: the mass up to that token is above
`1 - p`. Only where everything would go, for `p = 0`, the greatest token is put
back.

Key theorems: `topP_cut`, `topP_nucleus`.
-/
import Siphon.Qwen.Exact

namespace Siphon
namespace Qwen
namespace Exact

open Ranking

variable {F : Type} [Field F] [LinearOrder F]

/-! ### The loop -/

/-- The tokens in the ascending order of their logits. -/
def ascending (l : List (WithBot F)) : List ℕ := rank (logit l) l.length

omit [Field F] [LinearOrder F] in
theorem logit_maskAll : ∀ (is : List ℕ) {l : List (WithBot F)} (j : ℕ),
    logit (is.foldl (fun l i => l.set i ⊥) l) j = if j ∈ is then ⊥ else logit l j
  | [], l, j => by simp
  | i :: is, l, j => by
    rw [List.foldl_cons, logit_maskAll is, logit_set_bot]
    by_cases his : j ∈ is
    · simp [his]
    · by_cases hi : i = j
      · simp [his, hi]
      · simp [his, hi, Ne.symm hi]

/-- The loop masks the first so many tokens: their mass is at most the threshold, and with the next one above it. -/
theorem exists_maskTail (probs : List F) (t : F) : ∀ (order : List ℕ) (acc : F) (l : List (WithBot F)), ∃ k,
    k ≤ order.length ∧ maskTail probs t order acc l = (order.take k).foldl (fun l i => l.set i ⊥) l ∧
      (0 < k → acc + weight (probs.getD · 0) order k ≤ t) ∧
      ∀ i, order[k]? = some i → t < acc + weight (probs.getD · 0) order (k + 1)
  | [], acc, l => ⟨0, le_refl 0, rfl, fun h => absurd h (lt_irrefl 0), by simp⟩
  | i :: order, acc, l => by
    unfold maskTail
    dsimp only
    split
    · rename_i hle
      obtain ⟨k, hk, hmask, hsum, hnext⟩ := exists_maskTail probs t order (acc + probs.getD i 0) (l.set i ⊥)
      refine ⟨k + 1, Nat.succ_le_succ hk, hmask, fun _ => ?_, fun j hj => ?_⟩
      · rw [weight_cons, ← add_assoc]
        rcases Nat.eq_zero_or_pos k with rfl | h
        · rwa [weight_zero, add_zero]
        · exact hsum h
      · rw [weight_cons, ← add_assoc]
        exact hnext j hj
    · rename_i hlt
      refine ⟨0, Nat.zero_le _, rfl, fun h => absurd h (lt_irrefl 0), fun _ _ => ?_⟩
      rw [weight_cons, weight_zero, add_zero]
      exact not_le.mp hlt

variable (S : Masses F) {l : List (WithBot F)} {p : F}

omit [Field F] in
theorem perm_ascending : (ascending l).Perm (List.range l.length) := perm_rank

omit [Field F] in
theorem mem_ascending {j : ℕ} (h : logit l j ≠ ⊥) : j ∈ ascending l := mem_rank.mpr (lt_length_of_logit h)

omit [Field F] in
/-- The last of the ascending order is unmasked, comes before none, and is behind every cut. -/
theorem getLastD_ascending (hex : ∃ i, logit l i ≠ ⊥) :
    logit l ((ascending l).getLastD 0) ≠ ⊥ ∧ (ascending l).getLastD 0 ∈ ascending l ∧
      (∀ j ∈ ascending l, ¬ Before (logit l) ((ascending l).getLastD 0) j) ∧
      ∀ k < l.length, (ascending l).getLastD 0 ∉ (ascending l).take k := by
  obtain ⟨i, hi⟩ := hex
  have hmem : i ∈ ascending l := mem_ascending hi
  have hne : ascending l ≠ [] := List.ne_nil_of_mem hmem
  have hlast : (ascending l).getLastD 0 = (ascending l).getLast hne := by
    rw [List.getLastD_eq_getLast?, List.getLast?_eq_some_getLast hne, Option.getD_some]
  have hsplit := List.dropLast_append_getLast hne
  have hlen : (ascending l).length = l.length := length_rank
  have hnodup : (ascending l).Nodup := nodup_rank
  have hsorted : (ascending l).Pairwise (Before (logit l)) := pairwise_rank
  rw [← hlast] at hsplit
  generalize (ascending l).getLastD 0 = best at hsplit
  have hlater : ∀ j ∈ ascending l, j = best ∨ Before (logit l) j best := by
    intro j hj
    rw [← hsplit, List.pairwise_append] at hsorted
    rw [← hsplit, List.mem_append, List.mem_singleton] at hj
    rcases hj with hj | rfl
    · exact .inr (hsorted.2.2 j hj best (List.mem_singleton_self best))
    · exact .inl rfl
  refine ⟨?_, ?_, fun j hj hb => ?_, fun k hk hbest => ?_⟩
  · rcases hlater i hmem with rfl | hle
    · exact hi
    · exact fun h0 => hi (le_bot_iff.mp (h0 ▸ hle.le))
  · rw [← hsplit]
    exact List.mem_append_right _ (List.mem_singleton_self best)
  · rcases hlater j hj with rfl | h
    · exact hb.asymm hb
    · exact hb.asymm h
  · have hsub : (ascending l).take k ⊆ (ascending l).dropLast := by
      rw [List.dropLast_eq_take, hlen]
      exact (List.take_sublist_take_left (Nat.le_sub_one_of_lt hk)).subset
    rw [← hsplit, List.nodup_append] at hnodup
    exact hnodup.2.2 best (hsub hbest) best (List.mem_singleton_self best) rfl

omit [Field F] [LinearOrder F] in
theorem length_maskAll : ∀ (is : List ℕ) (l : List (WithBot F)),
    (is.foldl (fun l i => l.set i ⊥) l).length = l.length
  | [], _ => rfl
  | _ :: is, l => by rw [List.foldl_cons, length_maskAll is, List.length_set]

variable [IsStrictOrderedRing F]

/-- `top_p` where it is on. -/
theorem topP_eq (hex : ∃ i, logit l i ≠ ⊥) (h1 : p < 1) {left : List (WithBot F)}
    (hleft : maskTail (S.probs l) (1 - p) (ascending l) 0 l = left) :
    topP S l p = if logit left ((ascending l).getLastD 0) = ⊥ then
      left.set ((ascending l).getLastD 0) (logit l ((ascending l).getLastD 0)) else left := by
  subst hleft
  unfold topP
  rw [if_neg (not_le.mpr h1), if_neg (not_not.mpr (S.sum_probs_pos hex))]
  rfl

/-- **What `top_p` leaves**: the tokens behind a cut of the ascending order, or the greatest alone. -/
theorem topP_cut (hex : ∃ i, logit l i ≠ ⊥) (h1 : p < 1) :
    (∃ k, k < l.length ∧ (0 < k → weight (S.prob l) (ascending l) k ≤ 1 - p) ∧
      1 - p < weight (S.prob l) (ascending l) (k + 1) ∧
      ∀ j, logit (topP S l p) j = if j ∈ (ascending l).take k then ⊥ else logit l j) ∨
    (p ≤ 0 ∧ ∃ best, logit l best ≠ ⊥ ∧ (∀ j ∈ ascending l, ¬ Before (logit l) best j) ∧
      ∀ j, logit (topP S l p) j = if j = best then logit l j else ⊥) := by
  obtain ⟨hbest, hmem, hlater, hcut⟩ := getLastD_ascending hex
  obtain ⟨k, hk, hmask, hsum, hnext⟩ := exists_maskTail (S.probs l) (1 - p) (ascending l) 0 l
  have hlen : (ascending l).length = l.length := length_rank
  rw [hlen] at hk
  have htop := topP_eq S hex h1 hmask
  simp only [zero_add] at hsum hnext
  rcases hk.lt_or_eq with hlt | rfl
  · left
    refine ⟨k, hlt, hsum, hnext _ (List.getElem?_eq_getElem (hlen.symm ▸ hlt)), fun j => ?_⟩
    rw [htop, logit_maskAll, if_neg (hcut k hlt), if_neg hbest, logit_maskAll]
  · right
    have htake : (ascending l).take l.length = ascending l := List.take_of_length_le hlen.le
    have hlong : l.length ≠ 0 := fun h0 => absurd (lt_length_of_logit hbest) (by omega)
    have hall := hsum (Nat.pos_of_ne_zero hlong)
    have hone : weight (S.prob l) (ascending l) l.length = 1 := by
      rw [weight_of_length_le hlen.le, S.sum_map_prob hex perm_ascending]
    have hp : p ≤ 0 := by
      have : 1 ≤ 1 - p := hone ▸ hall
      linarith
    refine ⟨hp, _, hbest, hlater, fun j => ?_⟩
    rw [htop, htake, logit_maskAll, if_pos hmem, if_pos rfl, logit_set, logit_maskAll, length_maskAll]
    by_cases hj : j = (ascending l).getLastD 0
    · rw [if_pos ⟨hj.symm, hj ▸ lt_length_of_logit hbest⟩, if_pos hj, ← hj]
    · rw [if_neg fun h => hj h.1.symm, if_neg hj]
      by_cases hmask : j ∈ ascending l
      · exact if_pos hmask
      · rw [if_neg hmask]
        by_contra h0
        exact hmask (mem_ascending h0)

/-! ### The nucleus -/

section Cut

variable {l' : List (WithBot F)} {k : ℕ}

omit [Field F] [IsStrictOrderedRing F] in
/-- What is unmasked behind a cut of the ascending order. -/
theorem mem_kept_of_cut (hcut : ∀ j, logit l' j = if j ∈ (ascending l).take k then ⊥ else logit l j) (j : ℕ) :
    j ∈ kept l' ↔ j ∈ (ascending l).drop k ∧ logit l j ≠ ⊥ := by
  have hnodup : (ascending l).Nodup := nodup_rank
  have hdisj := List.disjoint_take_drop hnodup (le_refl k)
  rw [mem_kept, hcut]
  constructor
  · intro h
    have hj : j ∉ (ascending l).take k := fun hj => h (if_pos hj)
    rw [if_neg hj] at h
    have hmem := mem_ascending h
    rw [← List.take_append_drop k (ascending l), List.mem_append] at hmem
    exact ⟨hmem.resolve_left hj, h⟩
  · rintro ⟨hj, h⟩
    rwa [if_neg fun hj' => hdisj hj' hj]

omit [IsStrictOrderedRing F] in
/-- The mass in front of a cut and that of what is left are the whole. -/
theorem weight_add_kept (hex : ∃ i, logit l i ≠ ⊥)
    (hcut : ∀ j, logit l' j = if j ∈ (ascending l).take k then ⊥ else logit l j) :
    weight (S.prob l) (ascending l) k + ∑ i ∈ kept l', S.prob l i = 1 := by
  have hset : kept l' = ((ascending l).drop k).toFinset.filter fun i => logit l i ≠ ⊥ := by
    ext j
    rw [mem_kept_of_cut hcut, Finset.mem_filter, List.mem_toFinset]
  have hnodup : (ascending l).Nodup := nodup_rank
  rw [hset, S.sum_filter (hnodup.sublist (List.drop_sublist k _)), weight_add_drop, S.sum_map_prob hex perm_ascending]

omit [IsStrictOrderedRing F] in
/-- The token at the cut has mass, so it is the smallest that is left. -/
theorem exists_smallest_kept (hk : k < l.length)
    (hnext : weight (S.prob l) (ascending l) k < weight (S.prob l) (ascending l) (k + 1))
    (hcut : ∀ j, logit l' j = if j ∈ (ascending l).take k then ⊥ else logit l j) :
    ∃ first ∈ kept l', weight (S.prob l) (ascending l) (k + 1) = weight (S.prob l) (ascending l) k + S.prob l first ∧
      ∀ j ∈ kept l', j ≠ first → Before (logit l) first j := by
  have hlen : (ascending l).length = l.length := length_rank
  have hlt : k < (ascending l).length := hlen.symm ▸ hk
  have hat : (ascending l)[k]? = some (ascending l)[k] := List.getElem?_eq_getElem hlt
  have hdrop : (ascending l).drop k = (ascending l)[k] :: (ascending l).drop (k + 1) := List.drop_eq_getElem_cons hlt
  have hstep : weight (S.prob l) (ascending l) (k + 1) = weight (S.prob l) (ascending l) k + S.prob l (ascending l)[k] :=
    weight_succ hat
  generalize (ascending l)[k] = first at hat hdrop hstep
  have hfirst : logit l first ≠ ⊥ := by
    refine S.logit_ne_of_prob fun hzero => ?_
    rw [hstep, hzero, add_zero] at hnext
    exact lt_irrefl _ hnext
  refine ⟨first, (mem_kept_of_cut hcut first).mpr ⟨hdrop ▸ List.mem_cons_self, hfirst⟩, hstep, fun j hj hne => ?_⟩
  have hsorted : ((ascending l).drop k).Pairwise (Before (logit l)) := pairwise_rank.sublist (List.drop_sublist k _)
  have hj := ((mem_kept_of_cut hcut j).mp hj).1
  rw [hdrop] at hj hsorted
  exact List.rel_of_pairwise_cons hsorted ((List.mem_cons.mp hj).resolve_left hne)

end Cut

/-- **`top_p` keeps the smallest nucleus**: an end of the unmasked tokens in the
order of their logits and ids, of mass at least `p`, and of less without its
smallest token, if it has two. -/
theorem topP_nucleus (hex : ∃ i, logit l i ≠ ⊥) (h1 : p < 1) :
    (∀ i ∈ kept (topP S l p), logit (topP S l p) i = logit l i) ∧
    (∀ i ∈ kept (topP S l p), ∀ j ∈ kept l, Before (logit l) i j → j ∈ kept (topP S l p)) ∧
    p ≤ ∑ i ∈ kept (topP S l p), S.prob l i ∧
    (kept (topP S l p)).Nonempty ∧
    (1 < (kept (topP S l p)).card → ∀ m ∈ kept (topP S l p),
      (∀ j ∈ kept (topP S l p), j ≠ m → Before (logit l) m j) →
      ∑ i ∈ (kept (topP S l p)).erase m, S.prob l i < p) := by
  rcases topP_cut S hex h1 with ⟨k, hk, hsum, hnext, hcut⟩ | ⟨hp, best, hbest, hlater, hcut⟩
  · have hmem := mem_kept_of_cut hcut
    have htotal := weight_add_kept S hex hcut
    have hbelow : weight (S.prob l) (ascending l) k ≤ 1 - p := by
      rcases Nat.eq_zero_or_pos k with rfl | hpos
      · rw [weight_zero]
        linarith
      · exact hsum hpos
    obtain ⟨first, hhead, hstep, hsmallest⟩ := exists_smallest_kept S hk (hbelow.trans_lt hnext) hcut
    refine ⟨fun i hi => ?_, fun i hi j hj h => ?_, by linarith, ⟨first, hhead⟩, fun _ m hm hmin => ?_⟩
    · have hi := mem_kept.mp hi
      rw [hcut] at hi ⊢
      exact if_neg fun hmask => hi (if_pos hmask)
    · have hj := mem_kept.mp hj
      exact (hmem j).mpr ⟨mem_drop_of_before pairwise_rank ((hmem i).mp hi).1 (mem_ascending hj) h, hj⟩
    · obtain rfl : m = first := by
        by_contra hne
        exact (hsmallest m hm hne).asymm (hmin first hhead (Ne.symm hne))
      have herase := Finset.add_sum_erase (kept (topP S l p)) (S.prob l) hm
      rw [hstep] at hnext
      linarith
  · have hset : kept (topP S l p) = {best} := by
      ext j
      rw [mem_kept, hcut, Finset.mem_singleton]
      by_cases hj : j = best
      · simp [hj, hbest]
      · simp [hj]
    rw [hset]
    refine ⟨fun i hi => ?_, fun i hi j hj h => ?_, ?_, Finset.singleton_nonempty best, fun h => ?_⟩
    · rw [hcut, if_pos (Finset.mem_singleton.mp hi)]
    · rw [Finset.mem_singleton.mp hi] at h
      exact absurd h (hlater j (mem_ascending (mem_kept.mp hj)))
    · rw [Finset.sum_singleton]
      exact hp.trans (S.prob_nonneg l best)
    · rw [Finset.card_singleton] at h
      exact absurd h (lt_irrefl 1)

/-- Two equal tokens and a masked one: half of the mass is enough. -/
theorem topP_nucleus_half : (1 / 2 : ℚ) ≤ ∑ i ∈ kept (topP ratSoftmax.toMasses [0, 0, ⊥] (1 / 2)),
    ratSoftmax.prob [0, 0, ⊥] i ∧ (kept (topP ratSoftmax.toMasses [0, 0, ⊥] (1 / 2))).Nonempty := by
  have hex : ∃ i, logit [(0 : WithBot ℚ), 0, ⊥] i ≠ ⊥ := ⟨0, WithBot.coe_ne_bot⟩
  obtain ⟨-, -, hmass, hne, -⟩ := topP_nucleus ratSoftmax.toMasses hex (p := 1 / 2) (by norm_num)
  exact ⟨hmass, hne⟩

end Exact
end Qwen
end Siphon
