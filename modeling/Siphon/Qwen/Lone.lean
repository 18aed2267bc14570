/-
# One logit ahead

A greedy configuration does what its name says where one finite logit is ahead
of the others, nothing holds its token back, and no other has mass beside it.
The filters then keep the token, since the whole mass is its own, and the draw
has nothing else to take (`Ahead.greedyAt`). With `top_k = 1` it is enough that
the logit is the greatest. Otherwise a logit without mass is a masked one, or
one so far below that its exponential underflows.

Key definitions: `Faint`, `Lone`, `Ahead`.
Key theorem: `greedy_config`.
-/
import Siphon.Lib.Ranking
import Siphon.Qwen.Ngram

namespace Siphon
namespace Qwen

open Ieee

/-- A logit that has no mass beside `x`, or has none when one token is left. -/
def Faint (m : Libm) (single : Prop) (x v : F32) : Prop :=
  v < x ∧ (single ∨ v = filtered ∨ m.exp (sub v x) = zero)

/-- The logit of token `i` is the finite `x`, and the others are ones of `P`. -/
structure Lone (P : F32 → Prop) (l : List F32) (i : ℕ) (x : F32) : Prop where
  here : l[i]? = some x
  finite : x.isFinite
  behind : ∀ j < l.length, j ≠ i → At P l j

/-- Token `i` is ahead, and no penalty and no ban holds it back. -/
structure Ahead (m : Libm) (cfg : SamplerConfig) (logits : List F32) (history : List UInt32) (i : ℕ) : Prop where
  penalties : (Feq cfg.repetitionPenalty (ofNat 1) ∧ Feq cfg.presencePenalty zero ∧ Feq cfg.frequencyPenalty zero) ∨
    ∀ t ∈ history, logits.length ≤ t.toNat
  ngram : 2 ≤ cfg.noRepeatNgramSize →
    ¬ lastN (cfg.noRepeatNgramSize - 1) history ++ [UInt32.ofNat i] <:+: history
  lone : ∃ x, Lone (Faint m (cfg.topK = 1) x) logits i x

/-! ### The masses -/

section Masses

theorem feq_filtered_iff {v : F32} : Feq v filtered ↔ v = filtered := by
  constructor
  · rintro ⟨hv, -, hk⟩
    match v with
    | nan => exact absurd rfl hv
    | infinite true => rfl
    | infinite false => exact absurd hk (by decide)
    | finite neg b =>
      have hb := b.isLt
      have hkey : key (filtered : F32) = -(Format.magnitudes ⟨23, 127⟩ : ℤ) := rfl
      rw [hkey] at hk
      cases neg <;> simp only [key] at hk <;> omega
  · rintro rfl
    decide

theorem filtered_lt {x : F32} (h : x.isFinite) : filtered < x := by
  refine ⟨by decide, ne_nan_of_isFinite h, ?_⟩
  match x with
  | finite neg b =>
    have hb := b.isLt
    have hkey : key (filtered : F32) = -(Format.magnitudes ⟨23, 127⟩ : ℤ) := rfl
    rw [hkey]
    cases neg <;> simp only [key] <;> omega

theorem faint_filtered {m : Libm} {single : Prop} {x : F32} (h : x.isFinite) : Faint m single x filtered :=
  ⟨filtered_lt h, .inr (.inl rfl)⟩

theorem sub_self_eq {x : F32} (h : x.isFinite) : sub x x = zero := by
  match x with
  | finite n b =>
    have hq : toRat (finite n b) + toRat (finite (!n) b) = 0 := by
      cases n <;> simp [toRat]
    have hzero : (ofRat false 0 : F32) = zero := by decide +kernel
    show ofRat (if toRat (finite n b) + toRat (finite (!n) b) = 0 then n && !n else _)
      (toRat (finite n b) + toRat (finite (!n) b)) = zero
    rw [hq, if_pos rfl, Bool.and_not_self, hzero]

/-- The greatest of some numbers. -/
theorem foldl_max_eq {x : F32} (hx : x.isFinite) : ∀ {zs : List F32} {acc : F32}, acc = x ∨ acc < x →
    (∀ z ∈ zs, z = x ∨ z < x) → acc = x ∨ x ∈ zs → zs.foldl Ieee.max acc = x
  | [], acc, _, _, h => h.resolve_right List.not_mem_nil
  | z :: zs, acc, hacc, hz, h => by
    obtain ⟨hz0, hz⟩ := List.forall_mem_cons.mp hz
    have hnum : ∀ {y : F32}, y = x ∨ y < x → y ≠ nan := by
      rintro y (rfl | hy)
      · exact ne_nan_of_isFinite hx
      · exact hy.1
    have hmax : Ieee.max acc z = if acc < z then z else acc := by
      unfold Ieee.max
      rw [if_neg (hnum hacc), if_neg (hnum hz0)]
    rw [List.foldl_cons, hmax]
    by_cases hlt : acc < z
    · have hne : acc ≠ x := by
        rintro rfl
        rcases hz0 with rfl | hz0
        · exact absurd hlt.2.2 (lt_irrefl _)
        · exact absurd hlt.2.2 hz0.2.2.asymm
      rw [if_pos hlt]
      refine foldl_max_eq hx hz0 hz ?_
      rcases h with h | h
      · exact absurd h hne
      · rcases List.mem_cons.mp h with rfl | h
        · exact .inl rfl
        · exact .inr h
    · rw [if_neg hlt]
      refine foldl_max_eq hx hacc hz ?_
      rcases h with h | h
      · exact .inl h
      · rcases List.mem_cons.mp h with rfl | h
        · exact .inl (hacc.resolve_right hlt)
        · exact .inr h

/-- The whole mass at token `i`. -/
def oneHot (n i : ℕ) : List F32 := (List.replicate n zero).set i (ofNat 1)

theorem getElem?_oneHot {n i j : ℕ} (hj : j < n) : (oneHot n i)[j]? = some (if j = i then ofNat 1 else zero) := by
  unfold oneHot
  rw [List.getElem?_set]
  by_cases h : i = j
  · subst h
    simp [hj]
  · rw [if_neg h, if_neg (Ne.symm h), List.getElem?_replicate, if_pos hj]

/-- The sums and quotients behind the whole mass. -/
theorem oneHot_totals :
    add (zero : F32) zero = zero ∧ add (zero : F32) (ofNat 1) = ofNat 1 ∧ add (ofNat 1 : F32) zero = ofNat 1 ∧
      (zero : F32) < ofNat 1 ∧ div (ofNat 1 : F32) (ofNat 1) = ofNat 1 ∧ div (zero : F32) (ofNat 1) = zero ∧
      isPositive (ofNat 1) ∧ ¬ isPositive zero := by
  decide +kernel

theorem foldl_add_zero {acc : F32} (h : add acc zero = acc) : ∀ n : ℕ, (List.replicate n zero).foldl add acc = acc
  | 0 => rfl
  | n + 1 => by rw [List.replicate_succ, List.foldl_cons, h, foldl_add_zero h n]

theorem total_oneHot {n i : ℕ} (hi : i < n) : total (oneHot n i) = ofNat 1 := by
  obtain ⟨hzero, hone, hsum, -⟩ := oneHot_totals
  have hi' : i < (List.replicate n (zero : F32)).length := by rwa [List.length_replicate]
  unfold total oneHot
  rw [List.set_eq_take_append_cons_drop, if_pos hi', List.foldl_append, List.foldl_cons, List.take_replicate,
    List.drop_replicate, foldl_add_zero hzero, hone, foldl_add_zero hsum]

theorem isPositive_total_oneHot {n i : ℕ} (hi : i < n) : isPositive (total (oneHot n i)) := by
  rw [total_oneHot hi]
  exact oneHot_totals.2.2.2.2.2.2.1

/-- Only token `i` has mass. -/
theorem eq_of_oneHot {n i j : ℕ} {p : F32} (h : (oneHot n i)[j]? = some p) (hp : isPositive p) : j = i := by
  have hj : j < n := by
    have := (List.getElem?_eq_some_iff.mp h).1
    rwa [oneHot, List.length_set, List.length_replicate] at this
  rw [getElem?_oneHot hj] at h
  by_contra hne
  rw [if_neg hne] at h
  obtain rfl := Option.some.inj h
  exact oneHot_totals.2.2.2.2.2.2.2 hp

theorem alone_oneHot {n i : ℕ} (hi : i < n) : Alone (oneHot n i) i := by
  have hpos := oneHot_totals.2.2.2.2.2.2.1
  have hone : (ofNat 1 : F32) ≤ ofNat 1 := le_self (of_decide_eq_true hpos : zero < ofNat 1).2.1
  refine ⟨fun y hy hp => ?_, ofNat 1, by rw [getElem?_oneHot hi, if_pos rfl], hpos, .inl hone⟩
  obtain ⟨j, hj, rfl⟩ := List.getElem_of_mem hy
  rw [List.length_take] at hj
  have hget : (oneHot n i)[j]? = some ((oneHot n i).take i)[j] := by
    rw [List.getElem_take, List.getElem?_eq_getElem]
  have := eq_of_oneHot hget hp
  omega

end Masses

section Softmax

variable {m : Libm} {l : List F32} {i : ℕ} {x : F32}

theorem Lone.lt_length {P : F32 → Prop} (h : Lone P l i x) : i < l.length := (List.getElem?_eq_some_iff.mp h.here).1

/-- Every logit is `x`, or behind it. -/
theorem Lone.eq_or_lt {single : Prop} (h : Lone (Faint m single x) l i x) : ∀ v ∈ l, v = x ∨ v < x := by
  intro v hv
  obtain ⟨j, hj, rfl⟩ := List.getElem_of_mem hv
  by_cases hji : j = i
  · subst hji
    have := h.here
    rw [List.getElem?_eq_getElem hj] at this
    exact .inl (Option.some.inj this)
  · obtain ⟨w, hw, hlt, -⟩ := h.behind j hj hji
    rw [List.getElem?_eq_getElem hj] at hw
    exact .inr (Option.some.inj hw ▸ hlt)

theorem Lone.ne_nan {single : Prop} (h : Lone (Faint m single x) l i x) : ∀ v ∈ l, v ≠ nan := by
  intro v hv
  rcases h.eq_or_lt v hv with rfl | hlt
  · exact ne_nan_of_isFinite h.finite
  · exact hlt.1

theorem Lone.greatest_eq {single : Prop} (h : Lone (Faint m single x) l i x) : greatest l = x := by
  have hmem : x ∈ l.filter isFinite := List.mem_filter.mpr ⟨List.mem_of_getElem? h.here, h.finite⟩
  refine foldl_max_eq h.finite (.inr (filtered_lt h.finite)) (fun z hz => ?_) (.inr hmem)
  exact h.eq_or_lt z (List.mem_of_mem_filter hz)

/-- The whole mass is that of the token ahead. -/
theorem Lone.softmax_eq (hexp : m.exp zero = ofNat 1) (h : Lone (Faint m False x) l i x) :
    softmax m l = oneHot l.length i := by
  obtain ⟨-, -, -, hpos, hone, hzero, -⟩ := oneHot_totals
  have hfin : (!x.isFinite) = false := by rw [h.finite]; rfl
  have hout : l.map (fun v => if Feq v filtered then zero else m.exp (sub v x)) = oneHot l.length i := by
    apply List.ext_getElem?
    intro j
    by_cases hj : j < l.length
    · rw [List.getElem?_map, getElem?_oneHot hj]
      by_cases hji : j = i
      · subst hji
        have hf : ¬ Feq x filtered := by
          rw [feq_filtered_iff]
          rintro rfl
          exact Bool.noConfusion h.finite
        rw [h.here, Option.map_some, if_neg hf, sub_self_eq h.finite, hexp, if_pos rfl]
      · obtain ⟨v, hv, -, hf | rfl | hexp⟩ := h.behind j hj hji
        · exact hf.elim
        · rw [hv, Option.map_some, if_pos (feq_filtered_iff.mpr rfl), if_neg hji]
        · rw [hv, Option.map_some, hexp, ite_self, if_neg hji]
    · rw [List.getElem?_eq_none (by rw [List.length_map]; omega),
        List.getElem?_eq_none (by rw [oneHot, List.length_set, List.length_replicate]; omega)]
  have hdiv : (oneHot l.length i).map (fun v => div v (ofNat 1)) = oneHot l.length i := by
    unfold oneHot
    rw [List.map_set, List.map_replicate, hone, hzero]
  unfold softmax
  simp only [h.greatest_eq, hfin, hout, total_oneHot h.lt_length, if_pos hpos, hdiv]
  exact if_neg Bool.false_ne_true

end Softmax

/-! ### The filters -/

section Filters

variable {P : F32 → Prop} {m : Libm} {l : List F32} {i : ℕ} {x : F32}

/-- A filter keeps what it masks behind, if it leaves the token ahead. -/
theorem Lone.filter {l' : List F32} (h : Lone P l i x) (hlen : l'.length = l.length) (here : l'[i]? = some x)
    (hat : ∀ j, At P l j → At P l' j) : Lone P l' i x :=
  ⟨here, h.finite, fun j hj hji => hat j (h.behind j (hlen ▸ hj) hji)⟩

/-- A filter that is on or off. -/
theorem Lone.gate {l' : List F32} {c : Prop} [Decidable c] (h : Lone P l i x) (h' : c → Lone P l' i x) :
    Lone P (if c then l' else l) i x := by
  split
  · rename_i hc
    exact h' hc
  · exact h

theorem Lone.not_feq (h : Lone P l i x) : ¬ Feq x filtered := by
  rw [feq_filtered_iff]
  rintro rfl
  exact Bool.noConfusion h.finite

theorem Lone.noRepeatNgram (hP : P filtered) {history : List UInt32} {n : ℕ} (hn : 2 ≤ n) (h : Lone P l i x)
    (hban : ¬ lastN (n - 1) history ++ [UInt32.ofNat i] <:+: history) : Lone P (noRepeatNgram l history n) i x := by
  have hlen := length_noRepeatNgram l history n
  have htoken : ∀ {j}, j < 2 ^ 32 → (UInt32.ofNat j).toNat = j := by
    intro j hj
    rw [UInt32.toNat_ofNat', Nat.mod_eq_of_lt hj]
  have hnone : ∀ {j}, ¬ j < 2 ^ 32 → ∀ t : UInt32, t.toNat ≠ j := by
    rintro _ hj t rfl
    exact hj t.toNat_lt
  refine h.filter hlen ?_ fun j hj => ?_
  · by_cases hi : i < 2 ^ 32
    · have := @getElem?_noRepeatNgram l history n hn (UInt32.ofNat i) ((htoken hi).symm ▸ h.lt_length)
      rwa [if_neg hban, htoken hi, h.here] at this
    · rw [getElem?_noRepeatNgram_of_ne (hnone hi), h.here]
  · obtain ⟨v, hv, hp⟩ := hj
    have hjl := (List.getElem?_eq_some_iff.mp hv).1
    by_cases hj : j < 2 ^ 32
    · have := @getElem?_noRepeatNgram l history n hn (UInt32.ofNat j) ((htoken hj).symm ▸ hjl)
      rw [htoken hj, hv] at this
      split at this
      · exact ⟨_, this, hP⟩
      · exact ⟨_, this, hp⟩
    · exact ⟨v, by rw [getElem?_noRepeatNgram_of_ne (hnone hj), hv], hp⟩

/-- What `top_k` compares with is one of the logits. -/
theorem kth_mem {k : ℕ} (hk : 1 ≤ k) (hlen : k < l.length) (le : F32 → F32 → Bool) :
    (l.mergeSort le).getD (k - 1) nan ∈ l := by
  have hlt : k - 1 < (l.mergeSort le).length := by
    rw [List.length_mergeSort]
    omega
  rw [List.getD_eq_getElem _ _ hlt]
  exact List.mem_mergeSort.mp (List.getElem_mem hlt)

variable {single : Prop}

theorem Lone.topK {k : ℕ} (hk : 1 ≤ k) (h : Lone (Faint m single x) l i x) :
    Lone (Faint m single x) (topK l k) i x := by
  refine h.filter (length_topK l k) ?_ fun j hj => at_topK (faint_filtered h.finite) k hj
  unfold Qwen.topK
  by_cases hlen : k = 0 ∨ l.length ≤ k
  · rw [if_pos hlen, h.here]
  · rw [if_neg hlen]
    dsimp only
    have hnot : ¬ x < (l.mergeSort fun a b => ¬ a < b).getD (k - 1) nan := by
      rcases h.eq_or_lt _ (kth_mem hk (by omega) _) with heq | hlt
      · rw [heq]
        exact not_lt_of_le (le_self (ne_nan_of_isFinite h.finite))
      · exact not_lt_of_le (le_of_lt' hlt)
    rw [List.getElem?_map, h.here, Option.map_some, if_neg hnot]

/-- With `top_k = 1` the others are masked. -/
theorem Lone.topK_one (h : Lone (Faint m True x) l i x) : Lone (Faint m False x) (Qwen.topK l 1) i x := by
  have hkeep := h.topK (le_refl 1)
  refine ⟨hkeep.here, h.finite, fun j hj hji => ?_⟩
  rw [length_topK] at hj
  have hi := h.lt_length
  have hlen : ¬ (1 = 0 ∨ l.length ≤ 1) := by omega
  have hnum := h.ne_nan
  have hle : ∀ a ∈ l, ∀ b ∈ l, decide (¬ a < b) = decide (OrderDual.toDual (key a) ≤ OrderDual.toDual (key b)) := by
    intro a ha b hb
    rw [decide_eq_decide, OrderDual.toDual_le_toDual]
    exact ⟨fun hnot => (le_of_not_lt' (hnum b hb) (hnum a ha) hnot).2.2,
      fun hle => not_lt_of_le ⟨hnum b hb, hnum a ha, hle⟩⟩
  have hsorted := Ranking.pairwise_mergeSort_key hle
  have hx : x ∈ l.mergeSort fun a b => ¬ a < b := List.mem_mergeSort.mpr (List.mem_of_getElem? h.here)
  -- the first of the sorted logits is the one ahead
  have hfirst : (l.mergeSort fun a b => ¬ a < b).getD (1 - 1) nan = x := by
    have hmem := kth_mem (le_refl 1) (by omega) (fun a b => ¬ a < b) (l := l)
    revert hmem hx hsorted
    generalize (l.mergeSort fun a b => ¬ a < b) = order
    intro hsorted hx hmem
    match order with
    | y :: order =>
      rcases h.eq_or_lt _ hmem with heq | hlt
      · exact heq
      · rcases List.mem_cons.mp hx with rfl | hx
        · rfl
        · exact absurd hlt.2.2 (not_lt.mpr ((List.pairwise_cons.mp hsorted).1 x hx))
  obtain ⟨v, hv, hlt, -⟩ := h.behind j hj hji
  refine ⟨filtered, ?_, faint_filtered h.finite⟩
  unfold Qwen.topK
  rw [if_neg hlen]
  dsimp only
  rw [List.getElem?_map, hv, Option.map_some, hfirst, if_pos hlt]

/-- The last of the tokens in the order of their logits is the one ahead. -/
theorem Lone.best_eq (h : Lone (Faint m single x) l i x) :
    ((List.range l.length).mergeSort fun a b => ¬ l.getD b nan < l.getD a nan).getLastD 0 = i := by
  have hget : ∀ a ∈ List.range l.length, l.getD a nan ∈ l := by
    intro a ha
    rw [List.getD_eq_getElem _ _ (List.mem_range.mp ha)]
    exact List.getElem_mem _
  have hnum := h.ne_nan
  have hle : ∀ a ∈ List.range l.length, ∀ b ∈ List.range l.length,
      decide (¬ l.getD b nan < l.getD a nan) = decide (key (l.getD a nan) ≤ key (l.getD b nan)) := by
    intro a ha b hb
    have ha := hnum _ (hget a ha)
    have hb := hnum _ (hget b hb)
    rw [decide_eq_decide]
    exact ⟨fun hnot => (le_of_not_lt' ha hb hnot).2.2, fun hle => not_lt_of_le ⟨ha, hb, hle⟩⟩
  have hsorted := @Ranking.pairwise_mergeSort_key _ _ _ _ (fun a => key (l.getD a nan)) _ hle
  have hi : i ∈ (List.range l.length).mergeSort fun a b => ¬ l.getD b nan < l.getD a nan :=
    List.mem_mergeSort.mpr (List.mem_range.mpr h.lt_length)
  have hmem : ∀ j ∈ (List.range l.length).mergeSort fun a b => ¬ l.getD b nan < l.getD a nan, j < l.length :=
    fun j hj => List.mem_range.mp (List.mem_mergeSort.mp hj)
  revert hsorted hi hmem
  generalize ((List.range l.length).mergeSort fun a b => ¬ l.getD b nan < l.getD a nan) = order
  intro hsorted hi hmem
  rcases List.eq_nil_or_concat order with rfl | ⟨front, best, rfl⟩
  · exact absurd hi List.not_mem_nil
  rw [List.concat_eq_append] at hsorted hi hmem ⊢
  rw [List.getLastD_concat]
  rw [List.pairwise_append] at hsorted
  by_contra hne
  have hbest : best < l.length := hmem best (by simp)
  obtain ⟨v, hv, hlt, -⟩ := h.behind best hbest hne
  rcases List.mem_append.mp hi with hi | hi
  · have := hsorted.2.2 i hi best (by simp)
    rw [List.getD_eq_getElem?_getD, List.getD_eq_getElem?_getD, h.here, hv] at this
    exact absurd hlt.2.2 (not_lt.mpr this)
  · exact hne (List.mem_singleton.mp hi).symm

theorem Lone.topP (p : F64) (h : Lone (Faint m single x) l i x) : Lone (Faint m single x) (topP m l p) i x := by
  refine h.filter (length_topP m l p) ?_ fun j hj => at_topP m (faint_filtered h.finite) p hj
  unfold Qwen.topP
  by_cases hp : ofNat 1 ≤ p
  · rw [if_pos hp, h.here]
  rw [if_neg hp]
  dsimp only
  by_cases htot : (!isPositive (total (softmax m l))) = true
  · rw [if_pos htot, h.here]
  rw [if_neg htot, h.best_eq]
  -- the loop may mask it, and what it masked is put back
  obtain ⟨v, hv, hvx⟩ : At (fun v => v = x ∨ v = filtered) (maskTail (softmax m l) (topPThreshold p)
      ((List.range l.length).mergeSort fun a b => ¬ l.getD b nan < l.getD a nan) zero l) i :=
    at_maskTail (.inr rfl) _ _ _ _ ⟨x, h.here, .inl rfl⟩
  rw [List.getD_eq_getElem?_getD, hv, Option.getD_some, List.getD_eq_getElem?_getD, h.here, Option.getD_some]
  rcases hvx with rfl | rfl
  · rw [if_neg h.not_feq, hv]
  · rw [if_pos (feq_filtered_iff.mpr rfl), List.getElem?_set_self (List.getElem?_eq_some_iff.mp hv).1]

/-- The greatest mass is the whole one. -/
theorem foldl_max_oneHot {n : ℕ} (hi : i < n) : (oneHot n i).foldl Ieee.max zero = ofNat 1 := by
  have hlt : (zero : F32) < ofNat 1 := oneHot_totals.2.2.2.1
  refine foldl_max_eq tied_masses.2.2.2.2.1.1 (.inr hlt) (fun z hz => ?_) (.inr ?_)
  · obtain ⟨j, hj, rfl⟩ := List.getElem_of_mem hz
    have hj' : j < n := by rwa [oneHot, List.length_set, List.length_replicate] at hj
    have := getElem?_oneHot (i := i) hj'
    rw [List.getElem?_eq_getElem hj] at this
    rw [Option.some.inj this]
    split
    · exact .inl rfl
    · exact .inr hlt
  · exact List.mem_of_getElem? ((getElem?_oneHot hi).trans (congrArg some (if_pos rfl)))

theorem Lone.minP (hexp : m.exp zero = ofNat 1) {p : F64} (hp : p ≤ ofNat 1) (h : Lone (Faint m False x) l i x) :
    Lone (Faint m False x) (minP m l p) i x := by
  have hP := @faint_filtered m False x h.finite
  have hi := h.lt_length
  obtain ⟨hone, -, -, -, hunit, -⟩ := tied_masses
  have hle : convert _ p ≤ (ofNat 1 : F32) := hone ▸ convert_le_convert _ hp
  have hfloor := mul_le_of_le_one hle hunit.1 hunit.2.1 hunit.2.2
  have hgate : ∀ j, At (Faint m False x) l j → At (Faint m False x) (l.zipWith (fun v q =>
      if q < mul (convert _ p) (ofNat 1) then filtered else v) (oneHot l.length i)) j := by
    rintro j ⟨v, hv, hf⟩
    have hj := (List.getElem?_eq_some_iff.mp hv).1
    refine ⟨_, List.getElem?_zipWith_eq_some.mpr ⟨v, _, hv, getElem?_oneHot hj, rfl⟩, ?_⟩
    exact At.ite hP hf
  have hhere : (l.zipWith (fun v q => if q < mul (convert _ p) (ofNat 1) then filtered else v)
      (oneHot l.length i))[i]? = some x := by
    rw [List.getElem?_zipWith_eq_some]
    exact ⟨x, ofNat 1, h.here, by rw [getElem?_oneHot hi, if_pos rfl], if_neg hfloor⟩
  have hbest : argmaxFrom (oneHot l.length i) 0 0 (infinite true) = i := by
    have htot := isPositive_total_oneHot hi
    obtain ⟨q, hq, hqpos⟩ := argmaxFrom_mass (ne_nan_of_total htot) (exists_isPositive_of_total htot)
    exact eq_of_oneHot hq hqpos
  have hkeep : ¬ Feq ((l.zipWith (fun v q => if q < mul (convert _ p) (ofNat 1) then filtered else v)
      (oneHot l.length i)).getD i nan) filtered := by
    rw [List.getD_eq_getElem?_getD, hhere, Option.getD_some]
    exact h.not_feq
  have hout : Qwen.minP m l p = l ∨ Qwen.minP m l p = l.zipWith (fun v q =>
      if q < mul (convert _ p) (ofNat 1) then filtered else v) (oneHot l.length i) := by
    unfold Qwen.minP
    by_cases hp0 : p ≤ zero
    · exact .inl (if_pos hp0)
    · rw [if_neg hp0]
      dsimp only
      rw [h.softmax_eq hexp, if_neg (by simpa using isPositive_total_oneHot hi), foldl_max_oneHot hi, hbest,
        if_neg hkeep]
      exact .inr rfl
  rcases hout with hout | hout
  · rw [hout]
    exact h
  · refine h.filter (length_minP m l p) ?_ ?_
    · rw [hout, hhere]
    · rw [hout]
      exact hgate

/-- What the loop of `typical_p` is not to mask stays. -/
theorem getElem?_maskIf (c : ℕ → Prop) [DecidablePred c] (hc : ¬ c i) : ∀ (order : List ℕ) (l : List F32),
    (order.foldl (fun l j => if c j then l.set j filtered else l) l)[i]? = l[i]?
  | [], _ => rfl
  | j :: order, l => by
    rw [List.foldl_cons, getElem?_maskIf c hc order]
    split
    · rename_i hj
      have hne : j ≠ i := by
        rintro rfl
        exact hc hj
      rw [List.getElem?_set_ne hne]
    · rfl

theorem Lone.typicalP (hexp : m.exp zero = ofNat 1) (p : F64) (h : Lone (Faint m False x) l i x) :
    Lone (Faint m False x) (typicalP m l p) i x := by
  refine h.filter (length_typicalP m l p) ?_ fun j hj => at_typicalP m (faint_filtered h.finite) p hj
  have hi := h.lt_length
  have hzero : ¬ isPositive zero := oneHot_totals.2.2.2.2.2.2.2
  unfold Qwen.typicalP
  by_cases hp : p ≤ zero ∨ ofNat 1 ≤ p
  · rw [if_pos hp, h.here]
  rw [if_neg hp]
  dsimp only
  rw [h.softmax_eq hexp, if_neg (by simpa using isPositive_total_oneHot hi)]
  generalize List.foldl _ zero (l.zip (oneHot l.length i)) = ent
  generalize hshift : l.zipWith (fun v q => if Feq v filtered ∨ ¬ isPositive q then infinite false
    else abs (sub (neg (m.ln q)) ent)) (oneHot l.length i) = shifted
  generalize (List.range l.length).mergeSort (byShift shifted) = order
  -- every other surprise is infinite, and so no cutoff is below that of the token ahead
  have hnot : ∀ k, ¬ shifted.getD k nan < shifted.getD i nan := by
    rintro k hlt
    rw [List.getD_eq_getElem?_getD] at hlt
    cases hv : shifted[k]? with
    | none =>
      rw [hv] at hlt
      exact hlt.1 rfl
    | some v =>
      rw [hv, Option.getD_some] at hlt
      by_cases hki : k = i
      · subst hki
        rw [List.getD_eq_getElem?_getD, hv, Option.getD_some] at hlt
        exact absurd hlt.2.2 (lt_irrefl _)
      · rw [← hshift, List.getElem?_zipWith_eq_some] at hv
        obtain ⟨w, q, hw, hq, rfl⟩ := hv
        rw [getElem?_oneHot (List.getElem?_eq_some_iff.mp hw).1, if_neg hki] at hq
        obtain rfl := Option.some.inj hq
        rw [if_pos (.inr hzero)] at hlt
        exact absurd hlt (not_lt_of_le (le_infinite hlt.2.1))
  generalize order.getD (Min.min (lastBelow (oneHot l.length i) (convert _ p) order 0 zero 0) (order.length - 1)) 0 = k
  have hkept := getElem?_maskIf (fun j => shifted.getD k nan < shifted.getD j nan) (hnot k) order l
  have hhere : At (· = x) l i := ⟨x, h.here, rfl⟩
  obtain ⟨v, hv, rfl⟩ := hhere.restore ⟨x, hkept.trans h.here, rfl⟩ (order.headD 0)
  exact hv

end Filters

/-! ### Greedy steps -/

section Ahead

variable {m : Libm} {cfg : SamplerConfig} {logits : List F32} {history : List UInt32} {i : ℕ}

/-- A history of other vocabularies has no tokens here. -/
theorem distinctTokens_eq_nil {n : ℕ} : ∀ {history : List UInt32}, (∀ t ∈ history, n ≤ t.toNat) →
    distinctTokens history n = [] := by
  intro history h
  unfold distinctTokens
  induction history with
  | nil => rfl
  | cons t history ih =>
    obtain ⟨ht, h⟩ := List.forall_mem_cons.mp h
    rw [List.foldl_cons, if_neg (by omega)]
    exact ih h

theorem countTokens_eq_nil {n : ℕ} : ∀ {history : List UInt32}, (∀ t ∈ history, n ≤ t.toNat) →
    countTokens history n = [] := by
  intro history h
  unfold countTokens
  induction history with
  | nil => rfl
  | cons t history ih =>
    obtain ⟨ht, h⟩ := List.forall_mem_cons.mp h
    rw [List.foldl_cons, if_pos ht]
    exact ih h

theorem Ahead.penalized_eq (h : Ahead m cfg logits history i) : penalized cfg logits history = logits := by
  unfold penalized
  dsimp only
  rcases h.penalties with ⟨hrep, hpres, hfreq⟩ | hout
  · rw [if_neg (not_not.mpr hrep), if_neg (not_not.mpr hpres), if_neg (not_not.mpr hfreq)]
  · have hrep : ∀ p, repetitionPenalty logits history p = logits := by
      intro p
      unfold repetitionPenalty
      rw [distinctTokens_eq_nil hout]
      exact ite_self _
    have hpres : ∀ p, presencePenalty logits history p = logits := by
      intro p
      unfold presencePenalty
      rw [distinctTokens_eq_nil hout]
      rfl
    have hfreq : ∀ p, frequencyPenalty logits history p = logits := by
      intro p
      unfold frequencyPenalty
      rw [countTokens_eq_nil hout]
      rfl
    simp only [hrep, hpres, hfreq, ite_self]

/-- The filters leave the token ahead. -/
theorem Ahead.lone_applyFilters (hexp : m.exp zero = ofNat 1) (hmin : cfg.minP ≤ ofNat 1) (hg : cfg.isGreedy)
    (h : Ahead m cfg logits history i) : ∃ x, Lone (Faint m False x) (applyFilters m cfg logits history) i x := by
  obtain ⟨x, hx⟩ := h.lone
  have htemp : ¬ (zero < cfg.temperature ∧ ¬ Feq cfg.temperature (ofNat 1)) := by
    rintro ⟨hlt, -⟩
    exact not_lt_of_le (of_decide_eq_true hg) hlt
  have hngram := hx.gate fun hn => hx.noRepeatNgram (faint_filtered hx.finite) hn (h.ngram hn)
  have htopk : Lone (Faint m False x) (if 1 ≤ cfg.topK then
      topK (if 2 ≤ cfg.noRepeatNgramSize then noRepeatNgram logits history cfg.noRepeatNgramSize else logits) cfg.topK
      else if 2 ≤ cfg.noRepeatNgramSize then noRepeatNgram logits history cfg.noRepeatNgramSize else logits) i x := by
    by_cases hk : cfg.topK = 1
    · rw [hk, if_pos (le_refl 1)]
      rw [eq_true hk] at hngram
      exact hngram.topK_one
    · rw [eq_false hk] at hngram
      exact hngram.gate fun h1 => hngram.topK h1
  have htopp := htopk.gate fun (_ : cfg.topP < ofNat 1) => htopk.topP cfg.topP
  have hminp := htopp.gate fun (_ : zero < cfg.minP) => htopp.minP hexp hmin
  refine ⟨x, ?_⟩
  have hpen := h.penalized_eq
  unfold penalized at hpen
  dsimp only at hpen
  unfold applyFilters
  dsimp only
  rw [hpen, if_neg htemp]
  exact hminp.gate fun _ => hminp.typicalP hexp cfg.typicalP

/-- The token ahead is the argmax. -/
theorem Lone.argmax_eq {single : Prop} {l : List F32} {x : F32} (h : Lone (Faint m single x) l i x) : argmax l = i := by
  have hfirst : IsFirstMax l i := by
    refine ⟨x, h.here, fun v hv => ?_, fun v hv => ?_⟩
    · rcases h.eq_or_lt v hv with rfl | hlt
      · exact le_self (ne_nan_of_isFinite h.finite)
      · exact le_of_lt' hlt
    · obtain ⟨j, hj, rfl⟩ := List.getElem_of_mem hv
      rw [List.length_take] at hj
      obtain ⟨w, hw, hlt, -⟩ := h.behind j (by omega) (by omega)
      rw [List.getElem_take]
      rw [List.getElem?_eq_getElem (by omega)] at hw
      exact Option.some.inj hw ▸ hlt
  exact (isFirstMax_argmax (List.ne_nil_of_mem (List.mem_of_getElem? h.here)) h.ne_nan).unique hfirst

theorem Ahead.greedyAt (hexp : m.exp zero = ofNat 1) (hmin : cfg.minP ≤ ofNat 1) (hg : cfg.isGreedy)
    (h : Ahead m cfg logits history i) : argmax logits = i ∧ GreedyAt m cfg logits history := by
  obtain ⟨x, hx⟩ := h.lone
  obtain ⟨y, hy⟩ := h.lone_applyFilters hexp hmin hg
  have hmasses := hy.softmax_eq hexp
  have harg := hx.argmax_eq
  refine ⟨harg, greedyAt_of_settled ⟨hy.argmax_eq.trans harg.symm, ?_, ?_⟩⟩
  · rw [hmasses]
    exact isPositive_total_oneHot hy.lt_length
  · rw [hmasses, harg]
    exact alone_oneHot hy.lt_length

end Ahead

/-! ### Greedy configurations -/

/-- **No greedy configuration makes the sampler greedy**: on some logits the
filters move the argmax or the draw leaves it. Where one token is `Ahead`, the
step is the argmax step, and where one is at every step of the greedy run, the
two decode loops agree. -/
theorem greedy_config (m : Libm) (hexp : m.exp zero = ofNat 1) (cfg : SamplerConfig) (hv : cfg.validate = .ok ())
    (hg : cfg.isGreedy) :
    (¬ ∀ logits history, (∃ x ∈ logits, x.isFinite) → GreedyAt m cfg logits history) ∧
    (∀ logits history i, Ahead m cfg logits history i → argmax logits = i ∧ GreedyAt m cfg logits history) ∧
    ∀ (a : Arith F32 F64) (mcfg : ModelConfig F32) (w : ModelWeights F32) (prompt : List UInt32) (steps : ℕ)
      (stop : List UInt32) (rng : SplitMix64),
      (∀ q ∈ greedyInputs a mcfg w stop prompt steps, q.1.all isFinite ∧ ∃ i, Ahead m cfg q.1 q.2 i) →
      sampleStopping a mcfg w stop m prompt steps ⟨cfg, rng⟩ = greedyCachedStopping a mcfg w stop prompt steps := by
  have hmin := minP_le_one hv
  refine ⟨fun h => ?_, fun logits history i h => h.greedyAt hexp hmin hg, fun a mcfg w prompt steps stop rng h => ?_⟩
  · have htied := h tied [] ⟨zero, List.mem_cons_self, rfl⟩
    exact tied_not_settled hexp cfg hv hg ((greedyAt_iff (by decide) (by decide)).mp htied)
  · refine sampleStopping_eq rng fun q hq => ?_
    obtain ⟨hfin, i, hi⟩ := h q hq
    exact ⟨hfin, (hi.greedyAt hexp hmin hg).2⟩

/-- With `top_k = 1` the greater of two logits is drawn, and one of two equal ones need not be. -/
theorem greedy_config_topOne : GreedyAt seriesLibm { SamplerConfig.default with topK := 1 } [ofNat 1, zero] [] ∧
    ¬ ∀ logits history, (∃ x ∈ logits, x.isFinite) →
      GreedyAt seriesLibm { SamplerConfig.default with topK := 1 } logits history := by
  have hexp : seriesLibm.exp zero = ofNat 1 := by decide +kernel
  obtain ⟨hnever, hahead, -⟩ := greedy_config seriesLibm hexp { SamplerConfig.default with topK := 1 }
    (by decide +kernel) (by decide +kernel)
  have hlone : Lone (Faint seriesLibm (1 = 1) (ofNat 1)) [ofNat 1, zero] 0 (ofNat 1) := by
    refine ⟨rfl, tied_masses.2.2.2.2.1.1, fun j hj hj0 => ?_⟩
    have hlt : j < 2 := hj
    obtain rfl : j = 1 := by omega
    exact ⟨zero, rfl, oneHot_totals.2.2.2.1, .inl rfl⟩
  refine ⟨(hahead [ofNat 1, zero] [] 0 ⟨.inr fun t ht => absurd ht List.not_mem_nil, fun h => ?_, ofNat 1, hlone⟩).2,
    hnever⟩
  exact absurd h (by decide)

/-- The default configuration does not draw the first of two equal tokens from every state. -/
theorem default_draws : ¬ ∀ (m : Libm), m.exp zero = ofNat 1 → ∀ cfg : SamplerConfig, cfg.validate = .ok () →
    cfg.isGreedy → ∀ logits history, (∃ x ∈ logits, x.isFinite) → GreedyAt m cfg logits history := by
  intro h
  have hexp : seriesLibm.exp zero = ofNat 1 := by decide +kernel
  have htied := h seriesLibm hexp .default (by decide +kernel) (by decide +kernel) tied []
    ⟨zero, List.mem_cons_self .., rfl⟩
  have hsame := htied.next ⟨0x31628AF67B2131AB⟩
  have hdrawn : (Sampler.next seriesLibm ⟨.default, ⟨0x31628AF67B2131AB⟩⟩ tied []).1 = .ok 1 := by decide +kernel
  rw [hdrawn] at hsame
  exact absurd (Except.ok.inj hsame) (by decide)

end Qwen
end Siphon
