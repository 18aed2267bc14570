/-
# What a step of the sampler draws

The masses decide what a step can draw: always token `b` exactly where no token
before it has any mass and, unless its own is one, none behind it
(`select_of_alone`, `alone_of_select`). So a step is the argmax step where the
filters and the masses are so (`greedyAt_iff`).

Key definitions: `Alone`, `GreedyAt`, `Settled`.
Key theorem: `greedyAt_iff`.
-/
import Siphon.Qwen.Sample

namespace Siphon
namespace Qwen

open Ieee

/-! ### The walk over the masses -/

/-- Tokens without mass are passed over. -/
theorem selectFrom_append (u : F64) : ∀ {zs : List F32} (ps : List F32) (i : ℕ) (acc : F64) (last : Option ℕ),
    (∀ z ∈ zs, ¬ isPositive z) → selectFrom u (zs ++ ps) i acc last = selectFrom u ps (i + zs.length) acc last
  | [], ps, i, acc, last, _ => rfl
  | z :: zs, ps, i, acc, last, h => by
    obtain ⟨hz, hzs⟩ := List.forall_mem_cons.mp h
    rw [List.cons_append, selectFrom, if_pos (by simpa using hz), selectFrom_append u ps (i + 1) acc last hzs,
      List.length_cons, Nat.add_right_comm, Nat.add_assoc]

theorem selectFrom_of_none (u : F64) {zs : List F32} (i : ℕ) (acc : F64) (last : Option ℕ)
    (h : ∀ z ∈ zs, ¬ isPositive z) : selectFrom u zs i acc last = last := by
  have := selectFrom_append u [] i acc last h
  rwa [List.append_nil] at this

/-- The walk ends at one of the tokens ahead, if one of them has mass. -/
theorem selectFrom_ge (u : F64) : ∀ {ps : List F32} (i : ℕ) (acc : F64) (last : Option ℕ),
    (∀ j, last = some j → j < i) → (∃ p ∈ ps, isPositive p) →
    ∃ j, selectFrom u ps i acc last = some j ∧ i ≤ j ∧ j < i + ps.length
  | [], _, _, _, _, h => by
    obtain ⟨p, hp, -⟩ := h
    cases hp
  | p :: ps, i, acc, last, hl, h => by
    rw [selectFrom, List.length_cons]
    by_cases hp : isPositive p
    · rw [if_neg (by simpa using hp)]
      dsimp only
      by_cases hu : u < add acc (convert _ p)
      · rw [if_pos hu]
        exact ⟨i, rfl, Nat.le_refl i, by omega⟩
      · rw [if_neg hu]
        by_cases hrest : ∃ q ∈ ps, isPositive q
        · obtain ⟨j, hj, hij, hjl⟩ := selectFrom_ge u (i + 1) (add acc (convert _ p)) (some i)
            (fun j hj => by rw [← Option.some.inj hj]; omega) hrest
          exact ⟨j, hj, by omega, by omega⟩
        · rw [selectFrom_of_none u _ _ _ fun z hz hp => hrest ⟨z, hz, hp⟩]
          exact ⟨i, rfl, Nat.le_refl i, by omega⟩
    · rw [if_pos (by simpa using hp)]
      have hrest : ∃ q ∈ ps, isPositive q := by
        obtain ⟨q, hq, hpos⟩ := h
        rcases List.mem_cons.mp hq with rfl | hq
        · exact absurd hpos hp
        · exact ⟨q, hq, hpos⟩
      obtain ⟨j, hj, hij, hjl⟩ := selectFrom_ge u (i + 1) acc last (fun j hj => Nat.lt_succ_of_lt (hl j hj)) hrest
      exact ⟨j, hj, by omega, by omega⟩

theorem select_lt {probs : List F32} {u : F64} {i : ℕ} (h : select probs u = some i) : i < probs.length := by
  by_cases hpos : ∃ p ∈ probs, isPositive p
  · obtain ⟨j, hj, -, hjl⟩ := selectFrom_ge u 0 zero none nofun hpos
    rw [select, hj] at h
    obtain rfl := Option.some.inj h
    omega
  · rw [select, selectFrom_of_none u 0 zero none fun z hz hp => hpos ⟨z, hz, hp⟩] at h
    cases h

/-! ### The uniform number -/

/-- The greatest number the generator gives. -/
def uMax : F64 := unitInterval (2 ^ 53 - 1)

/-- The unit of the generator, and the masses its ends are compared with. -/
theorem range_ends :
    ((div (ofNat 1) (ofNat 9007199254740992) : F64).isFinite ∧
        0 < key (div (ofNat 1) (ofNat 9007199254740992) : F64)) ∧
      unitInterval 0 < add zero (convert _ (ofBits false 1 : F32)) ∧
      uMax < add zero (convert _ (ofNat 1 : F32)) ∧
      add zero (convert _ (ofBits false 1065353215 : F32)) ≤ uMax ∧
      (ofNat 1 : F32) ≠ nan ∧ key (ofNat 1 : F32) = 1065353216 := by
  decide +kernel

theorem unitInterval_le {n : ℕ} (h : n < 2 ^ 53) : unitInterval n ≤ uMax := by
  obtain ⟨hpos, -⟩ := range_ends
  unfold uMax unitInterval
  generalize div (ofNat 1) (ofNat 9007199254740992) = c at hpos ⊢
  exact mul_le_mul_right hpos.1 hpos.2 (ofNat_le_ofNat (Nat.le_sub_one_of_lt h))

theorem nextF64_range (r : SplitMix64) : ∃ n < 2 ^ 53, r.nextF64.1 = unitInterval n :=
  ⟨_, shift_lt _, rfl⟩

/-- Both ends of the range are reached. -/
theorem nextF64_zero : (SplitMix64.nextF64 ⟨0x61C8864680B583EB⟩).1 = unitInterval 0 := by decide +kernel

theorem nextF64_max : (SplitMix64.nextF64 ⟨0x31628AF67B2131AB⟩).1 = uMax := by decide +kernel

theorem addMass_le {p q : F32} (h : p ≤ q) : add (zero : F64) (convert _ p) ≤ add zero (convert _ q) :=
  add_le_add_left (c := zero) rfl (convert_le_convert _ h)

/-- Any mass is above the least number. -/
theorem zero_lt_mass {p : F32} (h : isPositive p) : unitInterval 0 < add zero (convert _ p) := by
  have hp : zero < p := of_decide_eq_true h
  obtain ⟨-, hleast, -⟩ := range_ends
  have hn : (ofBits false 1 : F32) ≠ nan := by decide
  have hk : key (ofBits false 1 : F32) = 1 := by decide
  have hle : ofBits false 1 ≤ p := ⟨hn, hp.2.1, hk.trans_le hp.2.2⟩
  exact lt_of_lt_of_le' hleast (addMass_le hle)

/-- A mass of one is above every number. -/
theorem lt_one_mass {p : F32} (h : ofNat 1 ≤ p) {u : F64} (hu : u ≤ uMax) : u < add zero (convert _ p) := by
  obtain ⟨-, -, hone, -⟩ := range_ends
  exact lt_of_le_of_lt' hu (lt_of_lt_of_le' hone (addMass_le h))

/-- A mass below one is not above the greatest number. -/
theorem not_lt_mass {p : F32} (hp : isPositive p) (h : ¬ ofNat 1 ≤ p) : ¬ uMax < add zero (convert _ p) := by
  have hpos : zero < p := of_decide_eq_true hp
  obtain ⟨-, -, -, htop, hone⟩ := range_ends
  have hbelow : (ofBits false 1065353215 : F32) ≠ nan ∧ key (ofBits false 1065353215 : F32) = 1065353215 := by
    decide
  have hlt : key p < 1065353216 := by
    by_contra hc
    exact h ⟨hone.1, hpos.2.1, hone.2.trans_le (not_lt.mp hc)⟩
  have hle : p ≤ ofBits false 1065353215 := ⟨hpos.2.1, hbelow.1, (Int.le_sub_one_of_lt hlt).trans_eq hbelow.2.symm⟩
  exact not_lt_of_le (le_chain (addMass_le hle) htop)

/-! ### What a step draws -/

/-- The masses leave nothing to draw but token `b`. -/
structure Alone (probs : List F32) (b : ℕ) : Prop where
  before : ∀ x ∈ probs.take b, ¬ isPositive x
  here : ∃ p, probs[b]? = some p ∧ isPositive p ∧ (ofNat 1 ≤ p ∨ ∀ x ∈ probs.drop (b + 1), ¬ isPositive x)

/-- The list at its entry `b`. -/
theorem eq_take_cons_drop {α : Type*} {l : List α} {b : ℕ} {p : α} (h : l[b]? = some p) :
    l = l.take b ++ p :: l.drop (b + 1) := by
  obtain ⟨hb, rfl⟩ := List.getElem?_eq_some_iff.mp h
  rw [List.getElem_cons_drop, List.take_append_drop]

/-- The walk at the first token with mass. -/
theorem select_first {probs : List F32} {b : ℕ} {p : F32} (u : F64) (hp : probs[b]? = some p)
    (hpos : isPositive p) (h : ∀ x ∈ probs.take b, ¬ isPositive x) :
    select probs u = if u < add zero (convert _ p) then some b
      else selectFrom u (probs.drop (b + 1)) (b + 1) (add zero (convert _ p)) (some b) := by
  have hb : b < probs.length := (List.getElem?_eq_some_iff.mp hp).1
  conv_lhs => rw [select, eq_take_cons_drop hp]
  rw [selectFrom_append u _ _ _ _ h, selectFrom, if_neg (by simpa using hpos), List.length_take,
    Nat.min_eq_left hb.le, Nat.zero_add]

theorem select_of_alone {probs : List F32} {b : ℕ} (h : Alone probs b) {u : F64} (hu : u ≤ uMax) :
    select probs u = some b := by
  obtain ⟨p, hp, hpos, hbehind⟩ := h.here
  rw [select_first u hp hpos h.before]
  by_cases hlt : u < add zero (convert _ p)
  · rw [if_pos hlt]
  · rw [if_neg hlt]
    rcases hbehind with hone | hnone
    · exact absurd (lt_one_mass hone hu) hlt
    · exact selectFrom_of_none u _ _ _ hnone

theorem alone_of_select {probs : List F32} {b : ℕ} (h0 : select probs (unitInterval 0) = some b)
    (h1 : select probs uMax = some b) : Alone probs b := by
  obtain ⟨zs, p, rest, hsplit, hzs, hpos⟩ : ∃ zs p rest, probs = zs ++ p :: rest ∧
      (∀ z ∈ zs, ¬ isPositive z) ∧ isPositive p := by
    cases hf : probs.find? isPositive with
    | none =>
      rw [select, selectFrom_of_none _ _ _ _ (List.find?_eq_none.mp hf)] at h0
      cases h0
    | some p =>
      obtain ⟨hpos, zs, rest, hsplit, hzs⟩ := List.find?_eq_some_iff_append.mp hf
      exact ⟨zs, p, rest, hsplit, fun z hz => by simpa using hzs z hz, hpos⟩
  have hp : probs[zs.length]? = some p := by rw [hsplit]; simp
  have htake : probs.take zs.length = zs := by rw [hsplit]; simp
  have hbefore : ∀ x ∈ probs.take zs.length, ¬ isPositive x := by
    rw [htake]
    exact hzs
  -- the least number draws the first token with mass
  rw [select_first _ hp hpos hbefore, if_pos (zero_lt_mass hpos)] at h0
  obtain rfl := Option.some.inj h0
  refine ⟨hbefore, p, hp, hpos, ?_⟩
  by_contra hc
  obtain ⟨hone, hnone⟩ := not_or.mp hc
  -- the greatest one draws a token behind it
  rw [select_first _ hp hpos hbefore, if_neg (not_lt_mass hpos hone)] at h1
  have hrest : ∃ q ∈ probs.drop (zs.length + 1), isPositive q := by
    by_contra hn
    exact hnone fun x hx hpos => hn ⟨x, hx, hpos⟩
  obtain ⟨j, hj, hle, -⟩ := selectFrom_ge uMax (zs.length + 1) (add zero (convert _ p)) (some zs.length)
    (fun j hj => by rw [← Option.some.inj hj]; omega) hrest
  rw [hj] at h1
  have := Option.some.inj h1
  omega

/-! ### The lengths of what the filters leave -/

section Lengths

variable (m : Libm)

/-- A loop that keeps the length in every round keeps it. -/
theorem length_foldl {α : Type*} {f : List F32 → α → List F32} (h : ∀ l a, (f l a).length = l.length) :
    ∀ (as : List α) (l : List F32), (as.foldl f l).length = l.length
  | [], _ => rfl
  | a :: as, l => by rw [List.foldl_cons, length_foldl h as, h]

theorem length_ite_set (c : Prop) [Decidable c] (l : List F32) (i : ℕ) (x : F32) :
    (if c then l.set i x else l).length = l.length := by
  split
  · exact List.length_set
  · rfl

theorem length_adjust (change : ℕ → F32 → F32) (tokens : List ℕ) (l : List F32) :
    (adjust change tokens l).length = l.length := by
  refine length_foldl (fun l i => ?_) tokens l
  rw [← ite_not]
  exact length_ite_set _ l i _

theorem length_repetitionPenalty (l : List F32) (history : List UInt32) (p : F32) :
    (repetitionPenalty l history p).length = l.length := by
  unfold repetitionPenalty
  split
  · rfl
  · exact length_adjust _ _ l

theorem length_presencePenalty (l : List F32) (history : List UInt32) (p : F32) :
    (presencePenalty l history p).length = l.length := length_adjust _ _ l

theorem length_frequencyPenalty (l : List F32) (history : List UInt32) (p : F32) :
    (frequencyPenalty l history p).length = l.length := by
  refine length_foldl (fun l q => ?_) _ l
  rw [← ite_not]
  exact length_ite_set _ l _ _

theorem length_noRepeatNgram (l : List F32) (history : List UInt32) (n : ℕ) :
    (noRepeatNgram l history n).length = l.length := by
  unfold noRepeatNgram
  split
  · rfl
  · exact length_foldl (fun l t => length_ite_set _ l _ _) _ l

theorem length_temperature (l : List F32) (t : F32) : (temperature l t).length = l.length := by
  unfold temperature
  split
  · rfl
  · exact List.length_map _

theorem length_topK (l : List F32) (k : ℕ) : (topK l k).length = l.length := by
  unfold topK
  split
  · rfl
  · exact List.length_map _

theorem length_softmax (l : List F32) : (softmax m l).length = l.length := by
  unfold softmax
  dsimp only
  split
  · exact List.length_replicate
  · split
    · rw [List.length_map, List.length_map]
    · exact List.length_map _

theorem length_maskTail (probs : List F32) (t : F32) : ∀ (order : List ℕ) (acc : F32) (l : List F32),
    (maskTail probs t order acc l).length = l.length
  | [], _, _ => rfl
  | i :: order, acc, l => by
    unfold maskTail
    dsimp only
    split
    · rw [length_maskTail probs t order, List.length_set]
    · rfl

theorem length_topP (l : List F32) (p : F64) : (topP m l p).length = l.length := by
  unfold topP
  split
  · rfl
  · dsimp only
    split
    · rfl
    · exact (length_ite_set _ _ _ _).trans (length_maskTail ..)

theorem length_minP (l : List F32) (p : F64) : (minP m l p).length = l.length := by
  unfold minP
  split
  · rfl
  · dsimp only
    split
    · rfl
    · rw [length_ite_set, List.length_zipWith, length_softmax, Nat.min_self]

theorem length_typicalP (l : List F32) (p : F64) : (typicalP m l p).length = l.length := by
  unfold typicalP
  split
  · rfl
  · dsimp only
    split
    · rfl
    · rw [length_ite_set]
      exact length_foldl (fun l i => length_ite_set _ l i _) _ l

/-- A filter that is on or off. -/
theorem length_ite {c : Prop} [Decidable c] {x y : List F32} (h : x.length = y.length) :
    (if c then x else y).length = y.length := by
  split
  · exact h
  · rfl

theorem length_applyFilters (c : SamplerConfig) (l : List F32) (history : List UInt32) :
    (applyFilters m c l history).length = l.length := by
  unfold applyFilters
  dsimp only
  rw [length_ite (length_typicalP m _ _), length_ite (length_minP m _ _), length_ite (length_topP m _ _),
    length_ite (length_topK _ _), length_ite (length_temperature _ _), length_ite (length_noRepeatNgram _ _ _),
    length_ite (length_frequencyPenalty _ _ _), length_ite (length_presencePenalty _ _ _),
    length_ite (length_repetitionPenalty _ _ _)]

end Lengths

/-! ### A greedy step -/

section Step

variable (m : Libm) (cfg : SamplerConfig) (logits : List F32) (history : List UInt32)

/-- The step is the argmax step: the filters leave the argmax where it is, and
the sampler returns it whatever its generator. -/
structure GreedyAt : Prop where
  filters : argmax (applyFilters m cfg logits history) = argmax logits
  next : ∀ rng, (Sampler.next m ⟨cfg, rng⟩ logits history).1 = .ok (UInt32.ofNat (argmax logits))

/-- The filters leave the argmax where it is, and nothing else to draw. -/
structure Settled : Prop where
  filters : argmax (applyFilters m cfg logits history) = argmax logits
  total : isPositive (total (softmax m (applyFilters m cfg logits history)))
  alone : Alone (softmax m (applyFilters m cfg logits history)) (argmax logits)

variable {m cfg logits history}

theorem next_of_positive (h : isPositive (total (softmax m (applyFilters m cfg logits history)))) (rng : SplitMix64)
    {i : ℕ} (hs : select (softmax m (applyFilters m cfg logits history)) rng.nextF64.1 = some i) :
    (Sampler.next m ⟨cfg, rng⟩ logits history).1 = .ok (UInt32.ofNat i) := by
  unfold Sampler.next
  dsimp only
  rw [if_neg (by simpa using h), hs]

theorem greedyAt_of_settled (h : Settled m cfg logits history) : GreedyAt m cfg logits history := by
  refine ⟨h.filters, fun rng => ?_⟩
  obtain ⟨n, hn, hu⟩ := nextF64_range rng
  refine next_of_positive h.total rng (select_of_alone h.alone ?_)
  rw [hu]
  exact unitInterval_le hn

theorem next_cfg (s : Sampler) (l : List F32) (history : List UInt32) : (Sampler.next m s l history).2.cfg = s.cfg := by
  unfold Sampler.next
  generalize softmax m (applyFilters m s.cfg l history) = probs
  by_cases hp : (!isPositive (total probs)) = true
  · rw [if_pos hp]
  · rw [if_neg hp]
    obtain ⟨u, rng⟩ := s.rng.nextF64
    dsimp only
    cases select probs u with
    | none => rfl
    | some i => rfl

/-- What is drawn when the sampler returns a token. -/
theorem select_of_next {rng : SplitMix64} {t : UInt32}
    (h : (Sampler.next m ⟨cfg, rng⟩ logits history).1 = .ok t) :
    isPositive (total (softmax m (applyFilters m cfg logits history))) ∧
    ∃ i, select (softmax m (applyFilters m cfg logits history)) rng.nextF64.1 = some i ∧ UInt32.ofNat i = t := by
  unfold Sampler.next at h
  dsimp only at h
  by_cases hp : isPositive (total (softmax m (applyFilters m cfg logits history)))
  · rw [if_neg (by simpa using hp)] at h
    refine ⟨hp, ?_⟩
    cases hs : select (softmax m (applyFilters m cfg logits history)) rng.nextF64.1 with
    | none =>
      rw [hs] at h
      cases h
    | some i =>
      rw [hs] at h
      exact ⟨i, rfl, Except.ok.inj h⟩
  · rw [if_pos (by simpa using hp)] at h
    cases h

/-- **A step is the argmax step exactly where the masses say so.** -/
theorem greedyAt_iff (hlen : logits.length ≤ 2 ^ 32) (h0 : logits ≠ []) :
    GreedyAt m cfg logits history ↔ Settled m cfg logits history := by
  refine ⟨fun h => ?_, greedyAt_of_settled⟩
  have hsame : ∀ rng, isPositive (total (softmax m (applyFilters m cfg logits history))) ∧
      select (softmax m (applyFilters m cfg logits history)) (SplitMix64.nextF64 rng).1 = some (argmax logits) := by
    intro rng
    obtain ⟨hp, i, hs, hi⟩ := select_of_next (h.next rng)
    refine ⟨hp, ?_⟩
    have hil := select_lt hs
    rw [length_softmax, length_applyFilters] at hil
    have heq := congrArg UInt32.toNat hi
    rw [UInt32.toNat_ofNat', UInt32.toNat_ofNat', Nat.mod_eq_of_lt (by omega),
      Nat.mod_eq_of_lt ((argmax_lt h0).trans_le hlen)] at heq
    rw [hs, heq]
  refine ⟨h.filters, (hsame ⟨0⟩).1, alone_of_select ?_ ?_⟩
  · rw [← nextF64_zero]
    exact (hsame _).2
  · rw [← nextF64_max]
    exact (hsame _).2

end Step

end Qwen
end Siphon
