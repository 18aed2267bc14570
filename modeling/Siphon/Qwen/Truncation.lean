/-
# The mask law of the truncation filters

Each of `top_k`, `top_p`, `min_p` and `typical_p` masks tokens and does nothing
else: a masked token stays masked, one that survives keeps its logit, and one
survives if one was there (`Truncates`). So does every sequence of them, and a
step of the sampler draws no masked token and fails only where the penalties
and `no_repeat_ngram` have masked them all.

Key definitions: `Truncates`, `Filter`, `offered`.
Key theorems: `truncates_foldl`, `mask_law`.
-/
import Siphon.Qwen.InverseCdf
import Siphon.Qwen.Nucleus
import Siphon.Qwen.Typical

namespace Siphon
namespace Qwen
namespace Exact

variable {F : Type} [Field F] [LinearOrder F]

/-! ### Masking only -/

/-- `l'` is `l` with tokens masked, but not all. -/
structure Truncates (l l' : List (WithBot F)) : Prop where
  length : l'.length = l.length
  logit : ∀ i, logit l' i = ⊥ ∨ logit l' i = logit l i
  some : (∃ i, Exact.logit l i ≠ ⊥) → ∃ i, Exact.logit l' i ≠ ⊥

section Truncates

variable {l l' l'' : List (WithBot F)}

omit [Field F] [LinearOrder F] in
theorem Truncates.refl (l : List (WithBot F)) : Truncates l l := ⟨rfl, fun _ => .inr rfl, id⟩

omit [Field F] [LinearOrder F] in
theorem Truncates.trans (h : Truncates l l') (h' : Truncates l' l'') : Truncates l l'' where
  length := h'.length.trans h.length
  logit i := by
    rcases h'.logit i with h0 | h0
    · exact .inl h0
    · rw [h0]
      exact h.logit i
  some hex := h'.some (h.some hex)

omit [Field F] [LinearOrder F] in
theorem Truncates.masked (h : Truncates l l') {i : ℕ} (hi : Exact.logit l i = ⊥) : Exact.logit l' i = ⊥ := by
  rcases h.logit i with h0 | h0
  · exact h0
  · rw [h0, hi]

omit [Field F] [LinearOrder F] in
/-- A filter that is on or off. -/
theorem Truncates.ite {c : Prop} [Decidable c] (h : c → Truncates l l') : Truncates l (if c then l' else l) := by
  split
  · rename_i hc
    exact h hc
  · exact .refl l

end Truncates

/-! ### The four filters -/

section Filters

variable {l : List (WithBot F)}

/-- Without an unmasked token there is no mass. -/
theorem Masses.not_sum_probs_pos (S : Masses F) (h : ¬ ∃ i, logit l i ≠ ⊥) : ¬ 0 < (S.probs l).sum := by
  have hsum : (S.probs l).sum = 0 := by
    refine List.sum_eq_zero fun q hq => ?_
    obtain ⟨i, hi, rfl⟩ := List.getElem_of_mem hq
    rw [← List.getD_eq_getElem _ 0 hi]
    exact S.zero (by_contra fun hne => h ⟨i, hne⟩)
  rw [hsum]
  exact lt_irrefl 0

omit [Field F] [LinearOrder F] in
theorem logit_map {f : WithBot F → WithBot F} (hf : f ⊥ = ⊥) (i : ℕ) : logit (l.map f) i = f (logit l i) := by
  have h : (l.map f).getD i (f ⊥) = f (l.getD i ⊥) := List.getD_map l ⊥ f
  rwa [hf] at h

omit [Field F] in
/-- An unmasked token with the greatest logit. -/
theorem exists_greatest (hex : ∃ i, logit l i ≠ ⊥) : ∃ best, logit l best ≠ ⊥ ∧ ∀ i, logit l i ≤ logit l best := by
  obtain ⟨hbest, -, hlater, -⟩ := getLastD_ascending hex
  refine ⟨_, hbest, fun i => ?_⟩
  by_cases hi : logit l i = ⊥
  · rw [hi]
    exact bot_le
  · exact not_lt.mp fun hlt => hlater i (mem_ascending hi) (.inl hlt)

omit [Field F] in
theorem truncates_topK (l : List (WithBot F)) (k : ℕ) : Truncates l (topK l k) := by
  unfold topK
  split
  · exact .refl l
  · rename_i hk
    obtain ⟨hk0, hkl⟩ := not_or.mp hk
    dsimp only
    generalize hkth : (l.mergeSort fun a b => b ≤ a).getD (k - 1) ⊥ = kth
    have hmask : ∀ i, logit (l.map fun v => if v < kth then ⊥ else v) i = if logit l i < kth then ⊥ else logit l i :=
      fun i => @logit_map F l (fun v => if v < kth then ⊥ else v) (ite_self ⊥) i
    refine ⟨List.length_map _, fun i => ?_, fun ⟨i, hi⟩ => ?_⟩
    · rw [hmask]
      split
      · exact .inl rfl
      · exact .inr rfl
    · -- the greatest logit is not below the k-th
      obtain ⟨best, hbest, hge⟩ := exists_greatest ⟨i, hi⟩
      have hmem : kth ∈ l := by
        have hlt : k - 1 < (l.mergeSort fun a b => b ≤ a).length := by
          rw [List.length_mergeSort]
          omega
        rw [← hkth, List.getD_eq_getElem _ _ hlt, ← List.mem_mergeSort]
        exact List.getElem_mem hlt
      obtain ⟨j, hj, rfl⟩ := List.getElem_of_mem hmem
      refine ⟨best, ?_⟩
      rw [hmask, if_neg]
      · exact hbest
      · rw [← List.getD_eq_getElem l ⊥ hj]
        exact not_lt.mpr (hge j)

theorem length_maskTail (probs : List F) (t : F) (order : List ℕ) (acc : F) (l : List (WithBot F)) :
    (maskTail probs t order acc l).length = l.length := by
  obtain ⟨k, -, hmask, -⟩ := exists_maskTail probs t order acc l
  rw [hmask, length_maskAll]

variable (S : Masses F)

omit [Field F] [LinearOrder F] in
theorem length_restore {l' : List (WithBot F)} (hl : l'.length = l.length) {c : Prop} [Decidable c] (i : ℕ) (v : WithBot F) :
    (if c then l'.set i v else l').length = l.length := by
  split
  · rw [List.length_set, hl]
  · exact hl

variable [IsStrictOrderedRing F]

theorem truncates_topP (l : List (WithBot F)) (p : F) : Truncates l (topP S l p) := by
  by_cases h1 : p < 1
  · by_cases hex : ∃ i, logit l i ≠ ⊥
    · have hlen : (topP S l p).length = l.length := by
        rw [topP_eq S hex h1 rfl]
        exact length_restore (length_maskTail _ _ _ _ _) _ _
      rcases topP_cut S hex h1 with ⟨k, hk, -, -, hcut⟩ | ⟨-, best, hbest, -, hcut⟩
      · refine ⟨hlen, fun i => ?_, fun _ => ?_⟩
        · rw [hcut]
          split
          · exact .inl rfl
          · exact .inr rfl
        · obtain ⟨hbest, -, -, hlater⟩ := getLastD_ascending hex
          exact ⟨_, by rwa [hcut, if_neg (hlater k hk)]⟩
      · refine ⟨hlen, fun i => ?_, fun _ => ⟨best, by rwa [hcut, if_pos rfl]⟩⟩
        rw [hcut]
        split
        · exact .inr rfl
        · exact .inl rfl
    · unfold topP
      rw [if_neg (not_le.mpr h1), if_pos (S.not_sum_probs_pos hex)]
      exact .refl l
  · unfold topP
    rw [if_pos (not_lt.mp h1)]
    exact .refl l

omit [Field F] [IsStrictOrderedRing F] in
/-- The scan of `min_p`: behind the entries `done`, the greatest so far is at `best`. -/
theorem argmaxFrom_max : ∀ (xs done : List F) (best : ℕ) (v : WithBot F),
    (done = [] ∧ v = ⊥ ∨ ∃ q, done[best]? = some q ∧ v = q ∧ ∀ x ∈ done, x ≤ q) → done ++ xs ≠ [] →
    ∃ q, (done ++ xs)[argmaxFrom xs done.length best v]? = some q ∧ ∀ x ∈ done ++ xs, x ≤ q
  | [], done, best, v, h, hne => by
    rw [List.append_nil] at hne ⊢
    rcases h with ⟨hnil, -⟩ | ⟨q, hq, -, hmax⟩
    · exact absurd hnil hne
    · exact ⟨q, hq, hmax⟩
  | x :: xs, done, best, v, h, hne => by
    have hlen : done.length + 1 = (done ++ [x]).length := by simp
    have hsplit : done ++ x :: xs = (done ++ [x]) ++ xs := by simp
    rw [argmaxFrom, hsplit, hlen]
    split
    · rename_i hlt
      refine argmaxFrom_max xs (done ++ [x]) done.length x (.inr ⟨x, by simp, rfl, fun y hy => ?_⟩) (hsplit ▸ hne)
      rcases List.mem_append.mp hy with hy | hy
      · rcases h with ⟨rfl, -⟩ | ⟨q, -, rfl, hmax⟩
        · exact absurd hy List.not_mem_nil
        · exact (hmax y hy).trans (WithBot.coe_lt_coe.mp hlt).le
      · rw [List.mem_singleton.mp hy]
    · rename_i hge
      rcases h with ⟨-, rfl⟩ | ⟨q, hq, rfl, hmax⟩
      · exact absurd (WithBot.bot_lt_coe x) hge
      · refine argmaxFrom_max xs (done ++ [x]) best q (.inr ⟨q, ?_, rfl, fun y hy => ?_⟩) (hsplit ▸ hne)
        · rw [List.getElem?_append_left (List.getElem?_eq_some_iff.mp hq).1, hq]
        · rcases List.mem_append.mp hy with hy | hy
          · exact hmax y hy
          · rw [List.mem_singleton.mp hy]
            exact not_lt.mp fun hlt => hge (WithBot.coe_lt_coe.mpr hlt)

omit [IsStrictOrderedRing F] in
/-- The masks of `min_p`. -/
theorem logit_zipWith (floor : F) (i : ℕ) :
    logit (l.zipWith (fun v q => if q < floor then ⊥ else v) (S.probs l)) i =
      if S.prob l i < floor then ⊥ else logit l i := by
  have hlen := S.length_probs l
  by_cases hi : i < l.length
  · have hz : i < (l.zipWith (fun v q => if q < floor then ⊥ else v) (S.probs l)).length := by
      rwa [List.length_zipWith, hlen, Nat.min_self]
    rw [logit, logit, Masses.prob, List.getD_eq_getElem _ _ hz, List.getElem_zipWith, List.getD_eq_getElem _ _ hi,
      List.getD_eq_getElem _ _ (hlen.symm ▸ hi)]
  · have hm : logit l i = ⊥ := List.getD_eq_default _ _ (not_lt.mp hi)
    rw [hm, ite_self, logit, List.getD_eq_default]
    rw [List.length_zipWith, hlen, Nat.min_self]
    exact not_lt.mp hi

theorem truncates_minP (l : List (WithBot F)) {p : F} (h1 : p ≤ 1) : Truncates l (minP S l p) := by
  by_cases h0 : 0 < p
  · by_cases hex : ∃ i, logit l i ≠ ⊥
    · have hsum := S.sum_probs_pos hex
      have hne : S.probs l ≠ [] := by
        intro hnil
        rw [hnil, List.sum_nil] at hsum
        exact lt_irrefl 0 hsum
      obtain ⟨q, hq, hmax⟩ := argmaxFrom_max (S.probs l) [] 0 ⊥ (.inl ⟨rfl, rfl⟩) hne
      rw [List.nil_append, List.length_nil] at hq
      rw [List.nil_append] at hmax
      have hprob : S.prob l (argmaxFrom (S.probs l) 0 0 ⊥) = q := by
        rw [Masses.prob, List.getD_eq_getElem?_getD, hq, Option.getD_some]
      have hqpos : 0 < q := by
        obtain ⟨r, hr, hpos⟩ := S.exists_pos hex
        exact hpos.trans_le (hmax r hr)
      have htop : (S.probs l).foldl max 0 ≤ q := foldl_max_le hqpos.le hmax
      -- the greatest mass is not below the floor, so nothing is put back
      have hfloor : ¬ q < p * (S.probs l).foldl max 0 := by
        refine not_lt.mpr ?_
        calc p * (S.probs l).foldl max 0 ≤ p * q := mul_le_mul_of_nonneg_left htop h0.le
          _ ≤ 1 * q := mul_le_mul_of_nonneg_right h1 hqpos.le
          _ = q := one_mul q
      have hbest : logit l (argmaxFrom (S.probs l) 0 0 ⊥) ≠ ⊥ :=
        S.logit_ne_of_prob (by rw [hprob]; exact hqpos.ne')
      have hleft := logit_zipWith S (l := l) (p * (S.probs l).foldl max 0)
      have hstays : logit (l.zipWith (fun v q => if q < p * (S.probs l).foldl max 0 then ⊥ else v) (S.probs l))
          (argmaxFrom (S.probs l) 0 0 ⊥) ≠ ⊥ := by
        rw [hleft, hprob, if_neg hfloor]
        exact hbest
      have heq : minP S l p = l.zipWith (fun v q => if q < p * (S.probs l).foldl max 0 then ⊥ else v) (S.probs l) := by
        unfold minP
        rw [if_neg (not_le.mpr h0), if_neg (not_not.mpr hsum)]
        exact if_neg hstays
      rw [heq]
      refine ⟨?_, fun i => ?_, fun _ => ⟨_, hstays⟩⟩
      · rw [List.length_zipWith, S.length_probs, Nat.min_self]
      · rw [hleft]
        split
        · exact .inl rfl
        · exact .inr rfl
    · unfold minP
      rw [if_neg (not_le.mpr h0), if_pos (S.not_sum_probs_pos hex)]
      exact .refl l
  · unfold minP
    rw [if_pos (not_lt.mp h0)]
    exact .refl l

theorem truncates_typicalP (ln : F → F) (l : List (WithBot F)) (mass : F) : Truncates l (typicalP S ln l mass) := by
  by_cases hon : 0 < mass ∧ mass < 1
  · obtain ⟨h0, h1⟩ := hon
    by_cases hex : ∃ i, logit l i ≠ ⊥
    · obtain ⟨k, j, hj, hk, -⟩ := @exists_cutoff F _ _ S ln l _ mass hex h0 h1
      have hleft := logit_typicalP hex h0 h1 hj hk
      refine ⟨?_, fun i => ?_, fun _ => ⟨j, ?_⟩⟩
      · rw [typicalP_eq hex h0 h1 rfl rfl rfl]
        exact length_restore (length_maskIf _ _ _) _ _
      · rw [hleft]
        split
        · exact .inl rfl
        · exact .inr rfl
      · rw [hleft, if_neg (lt_irrefl _)]
        exact mem_kept.mp (mem_typicalOrder.mp (List.mem_of_getElem? hj))
    · unfold typicalP
      rw [if_neg (not_or.mpr ⟨not_le.mpr h0, not_le.mpr h1⟩), if_pos (S.not_sum_probs_pos hex)]
      exact .refl l
  · have hoff : mass ≤ 0 ∨ 1 ≤ mass := by
      rcases not_and_or.mp hon with h | h
      · exact .inl (not_lt.mp h)
      · exact .inr (not_lt.mp h)
    unfold typicalP
    rw [if_pos hoff]
    exact .refl l

/-- A truncation filter with a parameter that `validate` admits. -/
inductive Filter (F : Type) [Field F] [LinearOrder F] where
  | topK (k : ℕ)
  | topP (p : Set.Icc (0 : F) 1)
  | minP (p : Set.Icc (0 : F) 1)
  | typicalP (mass : F)

def Filter.run (ln : F → F) (l : List (WithBot F)) : Filter F → List (WithBot F)
  | .topK k => Exact.topK l k
  | .topP p => Exact.topP S l p
  | .minP p => Exact.minP S l p
  | .typicalP mass => Exact.typicalP S ln l mass

theorem truncates_run (ln : F → F) (l : List (WithBot F)) : ∀ f : Filter F, Truncates l (f.run S ln l)
  | .topK k => truncates_topK l k
  | .topP p => truncates_topP S l p
  | .minP p => truncates_minP S l p.2.2
  | .typicalP mass => truncates_typicalP S ln l mass

/-- Any sequence of filters masks and does nothing else. -/
theorem truncates_foldl (ln : F → F) : ∀ (fs : List (Filter F)) (l : List (WithBot F)),
    Truncates l (fs.foldl (Filter.run S ln) l)
  | [], l => .refl l
  | f :: fs, l => (truncates_run S ln l f).trans (truncates_foldl ln fs _)

end Filters

/-! ### The stages before them -/

/-- What is masked in `l` is masked in `l'`. -/
structure Keeps (l l' : List (WithBot F)) : Prop where
  length : l'.length = l.length
  masked : ∀ {i}, logit l i = ⊥ → logit l' i = ⊥

section Keeps

variable {l l' l'' : List (WithBot F)}

omit [Field F] [LinearOrder F] in
theorem Keeps.refl (l : List (WithBot F)) : Keeps l l := ⟨rfl, id⟩

omit [Field F] [LinearOrder F] in
theorem Keeps.trans (h : Keeps l l') (h' : Keeps l' l'') : Keeps l l'' :=
  ⟨h'.length.trans h.length, fun hi => h'.masked (h.masked hi)⟩

omit [Field F] [LinearOrder F] in
theorem Keeps.ite {c : Prop} [Decidable c] (h : Keeps l l') : Keeps l (if c then l' else l) := by
  split
  · exact h
  · exact .refl l

omit [Field F] [LinearOrder F] in
theorem keeps_set {i : ℕ} {v : WithBot F} (h : logit l i = ⊥ → v = ⊥) : Keeps l (l.set i v) := by
  refine ⟨List.length_set, fun {j} hj => ?_⟩
  rw [logit_set]
  split
  · rename_i hij
    exact h (hij.1 ▸ hj)
  · exact hj

omit [Field F] [LinearOrder F] in
theorem keeps_foldl {α : Type*} {f : List (WithBot F) → α → List (WithBot F)} (h : ∀ l a, Keeps l (f l a)) :
    ∀ (as : List α) (l : List (WithBot F)), Keeps l (as.foldl f l)
  | [], l => .refl l
  | a :: as, l => (h l a).trans (keeps_foldl h as _)

omit [Field F] [LinearOrder F] in
theorem keeps_change (change : F → F) (i : ℕ) : Keeps l (l.set i ((logit l i).map change)) :=
  keeps_set fun h => by rw [h]; rfl

theorem keeps_repetitionPenalty (l : List (WithBot F)) (history : List UInt32) (penalty : F) :
    Keeps l (repetitionPenalty l history penalty) := by
  unfold repetitionPenalty adjust
  split
  · exact .refl l
  · exact keeps_foldl (fun l i => keeps_change _ i) _ l

omit [LinearOrder F] in
theorem keeps_presencePenalty (l : List (WithBot F)) (history : List UInt32) (penalty : F) :
    Keeps l (presencePenalty l history penalty) := keeps_foldl (fun _ i => keeps_change _ i) _ l

omit [LinearOrder F] in
theorem keeps_frequencyPenalty (l : List (WithBot F)) (history : List UInt32) (penalty : F) :
    Keeps l (frequencyPenalty l history penalty) := by
  exact keeps_foldl (fun _ (p : ℕ × UInt32) => keeps_change _ p.1) _ l

omit [Field F] [LinearOrder F] in
theorem keeps_noRepeatNgram (l : List (WithBot F)) (history : List UInt32) (n : ℕ) :
    Keeps l (noRepeatNgram l history n) := by
  unfold noRepeatNgram
  split
  · exact .refl l
  · exact keeps_foldl (fun l t => (keeps_set fun _ => rfl).ite) _ l

omit [LinearOrder F] in
theorem logit_temperature (t : F) (i : ℕ) : logit (l.map fun v => v.map (· / t)) i = (logit l i).map (· / t) :=
  @logit_map F l (WithBot.map (· / t)) rfl i

end Keeps

/-- What the penalties and `no_repeat_ngram` leave. -/
def offered (c : SamplerConfig F) (logits : List (WithBot F)) (history : List UInt32) : List (WithBot F) :=
  let l := if c.repetitionPenalty ≠ 1 then repetitionPenalty logits history c.repetitionPenalty else logits
  let l := if c.presencePenalty ≠ 0 then presencePenalty l history c.presencePenalty else l
  let l := if c.frequencyPenalty ≠ 0 then frequencyPenalty l history c.frequencyPenalty else l
  if 2 ≤ c.noRepeatNgramSize then noRepeatNgram l history c.noRepeatNgramSize else l

theorem keeps_offered (c : SamplerConfig F) (logits : List (WithBot F)) (history : List UInt32) :
    Keeps logits (offered c logits history) := by
  unfold offered
  dsimp only
  exact (((keeps_repetitionPenalty _ _ _).ite.trans (keeps_presencePenalty _ _ _).ite).trans
    (keeps_frequencyPenalty _ _ _).ite).trans (keeps_noRepeatNgram _ _ _).ite

/-! ### A step of the sampler -/

section Step

variable [IsStrictOrderedRing F] (S : Masses F) (ln : F → F)

omit [IsStrictOrderedRing F] in
theorem minP_le_one {c : SamplerConfig F} (h : c.validate = .ok ()) : c.minP ≤ 1 := by
  unfold SamplerConfig.validate at h
  by_contra hlt
  split at h
  · cases h
  · rw [if_pos (.inr (not_le.mp hlt))] at h
    cases h

/-- What the temperature leaves of them. -/
def tempered (c : SamplerConfig F) (logits : List (WithBot F)) (history : List UInt32) : List (WithBot F) :=
  if 0 < c.temperature ∧ c.temperature ≠ 1 then temperature (offered c logits history) c.temperature
  else offered c logits history

omit [IsStrictOrderedRing F] in
/-- The temperature masks nothing and unmasks nothing. -/
theorem tempered_masked {c : SamplerConfig F} {logits : List (WithBot F)} {history : List UInt32} {i : ℕ} :
    logit (tempered c logits history) i = ⊥ ↔ logit (offered c logits history) i = ⊥ := by
  unfold tempered temperature
  split
  · split
    · rfl
    · rw [logit_temperature, WithBot.map_eq_bot_iff]
  · rfl

/-- The filters behind the temperature mask and do nothing else. -/
theorem truncates_applyFilters {c : SamplerConfig F} (h : c.validate = .ok ()) (logits : List (WithBot F))
    (history : List UInt32) : Truncates (tempered c logits history) (applyFilters S ln c logits history) := by
  unfold applyFilters
  dsimp only
  refine (Truncates.ite fun (_ : 1 ≤ c.topK) => truncates_topK _ c.topK).trans ?_
  refine (Truncates.ite fun (_ : c.topP < 1) => truncates_topP S _ c.topP).trans ?_
  refine (Truncates.ite fun (_ : 0 < c.minP) => truncates_minP S _ (minP_le_one h)).trans ?_
  exact Truncates.ite fun (_ : 0 < c.typicalP ∧ c.typicalP < 1) => truncates_typicalP S ln _ c.typicalP

/-- Behind all filters a token is left where one was offered. -/
theorem exists_unmasked_iff {c : SamplerConfig F} (h : c.validate = .ok ()) {logits : List (WithBot F)}
    {history : List UInt32} : (∃ i, logit (applyFilters S ln c logits history) i ≠ ⊥) ↔
      ∃ i, logit (offered c logits history) i ≠ ⊥ := by
  have htrunc := truncates_applyFilters S ln h logits history
  constructor
  · rintro ⟨i, hi⟩
    exact ⟨i, fun h0 => hi (htrunc.masked (tempered_masked.mpr h0))⟩
  · rintro ⟨i, hi⟩
    exact htrunc.some ⟨i, fun h0 => hi (tempered_masked.mp h0)⟩

/-- What a step returns: an error where nothing is left, and otherwise a token that is. -/
theorem next_cases (s : Sampler F) (logits : List (WithBot F)) (history : List UInt32) :
    (¬ (∃ i, logit (applyFilters S ln s.cfg logits history) i ≠ ⊥) ∧
      (Sampler.next S ln s logits history).1 = .error (.filteredOut logits.length)) ∨
    ∃ i, logit (applyFilters S ln s.cfg logits history) i ≠ ⊥ ∧
      (Sampler.next S ln s logits history).1 = .ok (UInt32.ofNat i) := by
  unfold Sampler.next
  dsimp only
  generalize applyFilters S ln s.cfg logits history = l
  by_cases hex : ∃ i, logit l i ≠ ⊥
  · right
    have hnonneg : ∀ p ∈ S.probs l, 0 ≤ p := fun p => S.nonneg_of_mem
    have hu : 0 ≤ (nextF64 F s.rng).1 := mul_nonneg (Nat.cast_nonneg _) (by positivity)
    rw [if_neg (not_not.mpr (S.sum_probs_pos hex))]
    cases hsel : select (S.probs l) (nextF64 F s.rng).1 with
    | none =>
      obtain ⟨q, hq, hpos⟩ := S.exists_pos hex
      exact absurd hpos ((select_eq_none hnonneg hu).mp hsel q hq)
    | some k =>
      exact ⟨k, S.logit_ne_of_prob ((select_eq_iff hnonneg hu k).mp hsel).1.ne', rfl⟩
  · left
    rw [if_pos (S.not_sum_probs_pos hex)]
    exact ⟨hex, rfl⟩

/-- **The mask law**: every sequence of truncation filters masks tokens and does
nothing else, and not all of them; a step of the sampler returns an unmasked
token, and an error exactly where the penalties and `no_repeat_ngram` have
masked every token. -/
theorem mask_law : (∀ (fs : List (Filter F)) (l : List (WithBot F)), Truncates l (fs.foldl (Filter.run S ln) l)) ∧
    ∀ s : Sampler F, s.cfg.validate = .ok () → ∀ (logits : List (WithBot F)) (history : List UInt32),
      (∀ t, (Sampler.next S ln s logits history).1 = .ok t → ∃ i, UInt32.ofNat i = t ∧ i < logits.length ∧
        logit (applyFilters S ln s.cfg logits history) i ≠ ⊥ ∧ logit (offered s.cfg logits history) i ≠ ⊥ ∧
        logit logits i ≠ ⊥) ∧
      ((∃ e, (Sampler.next S ln s logits history).1 = .error e) ↔ ∀ i, logit (offered s.cfg logits history) i = ⊥) := by
  refine ⟨truncates_foldl S ln, fun s h logits history => ⟨fun t ht => ?_, ?_⟩⟩
  · rcases next_cases S ln s logits history with ⟨-, herr⟩ | ⟨i, hi, hok⟩
    · rw [herr] at ht
      cases ht
    · have hoff : logit (offered s.cfg logits history) i ≠ ⊥ :=
        fun h0 => hi ((truncates_applyFilters S ln h logits history).masked (tempered_masked.mpr h0))
      have hin : logit logits i ≠ ⊥ := fun h0 => hoff ((keeps_offered s.cfg logits history).masked h0)
      exact ⟨i, Except.ok.inj (hok.symm.trans ht), lt_length_of_logit hin, hi, hoff, hin⟩
  · have hiff : (∀ i, logit (offered s.cfg logits history) i = ⊥) ↔
        ¬ ∃ i, logit (applyFilters S ln s.cfg logits history) i ≠ ⊥ := by
      rw [exists_unmasked_iff S ln h, not_exists]
      simp only [not_not]
    rw [hiff]
    rcases next_cases S ln s logits history with ⟨hno, herr⟩ | ⟨i, hi, hok⟩
    · exact iff_of_true ⟨_, herr⟩ hno
    · refine iff_of_false ?_ (not_not.mpr ⟨i, hi⟩)
      rintro ⟨e, he⟩
      rw [hok] at he
      cases he

end Step

/-- With the default configuration a step fails on masked tokens only. -/
theorem mask_law_default :
    (¬ ∃ e, (Sampler.next ratSoftmax.toMasses (fun x => x - 1) ⟨.default, ⟨0⟩⟩ [0, ⊥] []).1 = .error e) ∧
    (∃ e, (Sampler.next ratSoftmax.toMasses (fun x => x - 1) ⟨.default, ⟨0⟩⟩ [⊥, ⊥] []).1 = .error e) ∧
    Truncates [(0 : WithBot ℚ), ⊥] ([Filter.topK 1, .typicalP (1 / 2), .topK 1].foldl
      (Filter.run ratSoftmax.toMasses fun x => x - 1) [0, ⊥]) := by
  obtain ⟨hfilters, hstep⟩ := mask_law ratSoftmax.toMasses fun x => x - 1
  have hvalid : (SamplerConfig.default : SamplerConfig ℚ).validate = .ok () := by
    norm_num [SamplerConfig.validate, SamplerConfig.default]
  have hoffered : ∀ logits : List (WithBot ℚ), offered SamplerConfig.default logits [] = logits := by
    intro logits
    simp [offered, SamplerConfig.default]
  refine ⟨?_, ?_, hfilters _ _⟩
  · rw [(hstep ⟨.default, ⟨0⟩⟩ hvalid [0, ⊥] []).2, hoffered]
    exact fun h => WithBot.coe_ne_bot (h 0)
  · rw [(hstep ⟨.default, ⟨0⟩⟩ hvalid [⊥, ⊥] []).2, hoffered]
    intro i
    match i with
    | 0 => rfl
    | 1 => rfl
    | i + 2 => rfl

end Exact
end Qwen
end Siphon
