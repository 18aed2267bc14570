/-
# The sampler under a greedy configuration

A configuration with a temperature of at most zero is called greedy, and the
frontend then takes the argmax (`greedyCachedStopping`) instead of running the
sampler (`sampleStopping`). The sampler itself does not: at such a temperature
it only leaves the logits undivided, and draws.

Two equal logits are enough for every greedy configuration to fail
(`tied_not_settled`); a run of argmax steps is the greedy run
(`sampleStopping_eq`).

Key definitions: `greedyCachedStopping`, `sampleStopping`, `greedyInputs`.
Key theorems: `tied_not_settled`, `sampleStopping_eq`.
-/
import Siphon.Qwen.Masked
import Siphon.Qwen.Model

namespace Siphon
namespace Qwen

open Ieee

/-! ### Two equal logits -/

section Tied

theorem minP_le_one {cfg : SamplerConfig} (h : cfg.validate = .ok ()) : cfg.minP ≤ ofNat 1 := by
  unfold SamplerConfig.validate at h
  cases hf : cfg.numbers.find? fun p => !p.1.isFinite with
  | some p =>
    rw [hf] at h
    cases h
  | none =>
    rw [hf] at h
    have hfin : cfg.minP.isFinite := by
      have := List.find?_eq_none.mp hf (cfg.minP, "min_p") (by simp [SamplerConfig.numbers])
      simpa using this
    have hone : (ofNat 1 : F64) ≠ nan := by decide +kernel
    apply le_of_not_lt' (ne_nan_of_isFinite hfin) hone
    intro hlt
    dsimp only at h
    by_cases htop : cfg.topP < zero ∨ ofNat 1 < cfg.topP
    · rw [if_pos htop] at h
      cases h
    · rw [if_neg htop, if_pos (.inr hlt)] at h
      cases h

theorem mergeSort_pair {α : Type*} (le : α → α → Bool) (a b : α) :
    [a, b].mergeSort le = if le a b then [a, b] else [b, a] := by
  rw [List.mergeSort]
  simp [List.MergeSort.Internal.splitInTwo, List.merge]

/-- Two tokens of one logit. -/
def tied : List F32 := [zero, zero]

/-- What is left of them when the first is masked. -/
def masked : List F32 := [filtered, zero]

def half : F32 := div (ofNat 1) (ofNat 2)

/-- The sums and quotients behind the masses of two tokens. -/
theorem tied_totals :
    sub zero zero = (zero : F32) ∧ zero < total [(ofNat 1 : F32), ofNat 1] ∧
      div (ofNat 1) (total [ofNat 1, ofNat 1]) = half ∧ zero < total [(zero : F32), ofNat 1] ∧
      div zero (total [zero, ofNat 1]) = (zero : F32) ∧
      div (ofNat 1) (total [zero, ofNat 1]) = (ofNat 1 : F32) ∧
      isPositive (total [half, half]) ∧ isPositive (total [(zero : F32), ofNat 1]) := by
  decide +kernel

/-- The masses of two tokens against each other and against one. -/
theorem tied_masses :
    convert _ (ofNat 1 : F64) = (ofNat 1 : F32) ∧
      [half, half].foldl max zero = half ∧ (half.isFinite ∧ 0 < key half ∧ mul (ofNat 1) half = half) ∧
      [(zero : F32), ofNat 1].foldl max zero = ofNat 1 ∧
      ((ofNat 1 : F32).isFinite ∧ 0 < key (ofNat 1 : F32) ∧ mul (ofNat 1) (ofNat 1) = (ofNat 1 : F32)) ∧
      ¬ (Feq zero filtered ∨ ¬ isPositive half) ∧ ¬ ofNat 1 ≤ half ∧
      ¬ Feq (tied.getD (argmaxFrom [half, half] 0 0 (infinite true)) nan) filtered ∧
      ¬ Feq (masked.getD (argmaxFrom [(zero : F32), ofNat 1] 0 0 (infinite true)) nan) filtered := by
  decide +kernel

variable {m : Libm} (hexp : m.exp zero = ofNat 1)

include hexp in
theorem softmax_tied : softmax m tied = [half, half] := by
  have hg : greatest [zero, zero] = zero := by decide
  have hz : (!isFinite (zero : F32)) = false := rfl
  have hf : ¬ Feq (zero : F32) filtered := by decide
  obtain ⟨hs, ht, hd, -⟩ := tied_totals
  simp only [softmax, tied, hg, hz, List.map_cons, List.map_nil, if_neg hf, hs, hexp, if_pos ht, hd]
  exact if_neg Bool.false_ne_true

include hexp in
theorem softmax_masked : softmax m masked = [zero, ofNat 1] := by
  have hg : greatest [filtered, zero] = zero := by decide
  have hz : (!isFinite (zero : F32)) = false := rfl
  have hf : ¬ Feq (zero : F32) filtered := by decide
  have hf' : Feq (filtered : F32) filtered := by decide
  obtain ⟨hs, -, -, ht, hd, hd', -⟩ := tied_totals
  simp only [softmax, masked, hg, hz, List.map_cons, List.map_nil, if_pos hf', if_neg hf, hs, hexp, if_pos ht, hd, hd']
  exact if_neg Bool.false_ne_true

/-- Without a history no penalty applies, and a greedy temperature divides nothing. -/
theorem applyFilters_tied (cfg : SamplerConfig) (h : cfg.isGreedy) : applyFilters m cfg tied [] =
    let l := if cfg.topP < ofNat 1 then topP m tied cfg.topP else tied
    let l := if zero < cfg.minP then minP m l cfg.minP else l
    if zero < cfg.typicalP ∧ cfg.typicalP < ofNat 1 then typicalP m l cfg.typicalP else l := by
  have hrep : ∀ p, repetitionPenalty tied [] p = tied := fun p => ite_self _
  have hpres : ∀ p, presencePenalty tied [] p = tied := fun _ => rfl
  have hfreq : ∀ p, frequencyPenalty tied [] p = tied := fun _ => rfl
  have hngram : ∀ n, 2 ≤ n → noRepeatNgram tied [] n = tied := by
    intro n hn
    exact if_pos (.inr (by rw [List.length_nil]; omega))
  have htemp : ¬ (zero < cfg.temperature ∧ ¬ Feq cfg.temperature (ofNat 1)) := by
    rintro ⟨hlt, -⟩
    exact not_lt_of_le (of_decide_eq_true h) hlt
  have htopk : ∀ k, 1 ≤ k → topK tied k = tied := by
    intro k hk
    unfold topK
    by_cases hk2 : 2 ≤ k
    · exact if_pos (.inr hk2)
    · obtain rfl : k = 1 := by omega
      rw [if_neg (by decide), tied, mergeSort_pair, ite_self]
      decide
  unfold applyFilters
  simp only [hrep, hpres, hfreq, ite_self, if_neg htemp]
  rw [ite_eq_right_iff.mpr (hngram cfg.noRepeatNgramSize), ite_eq_right_iff.mpr (htopk cfg.topK)]

include hexp in
theorem topP_tied (p : F64) : topP m tied p = tied ∨ topP m tied p = masked := by
  obtain ⟨-, -, -, -, -, -, htot, -⟩ := tied_totals
  have horder : (List.range tied.length).mergeSort (fun a b => ¬ tied.getD b nan < tied.getD a nan) = [0, 1] := by
    rw [show List.range tied.length = [0, 1] from rfl, mergeSort_pair]
    decide
  unfold topP
  split
  · exact .inl rfl
  · rw [softmax_tied hexp]
    dsimp only
    rw [if_neg (by simpa using htot), horder]
    -- the loop stops at the first token, at the second, or masks both
    simp only [maskTail]
    split
    · split
      · right
        decide
      · right
        decide
    · left
      decide

theorem mul_le_of_le_one {p c : F32} (h : p ≤ ofNat 1) (hc : c.isFinite) (h0 : 0 < key c)
    (h1 : mul (ofNat 1) c = c) : ¬ c < mul p c := by
  have := mul_le_mul_right hc h0 h
  rw [h1] at this
  exact not_lt_of_le this

include hexp in
theorem minP_tied {p : F64} (hp : p ≤ ofNat 1) : minP m tied p = tied := by
  obtain ⟨-, -, -, -, -, -, htot, -⟩ := tied_totals
  obtain ⟨hone, hmax, hhalf, -, -, -, -, hbest, -⟩ := tied_masses
  have hle : convert _ p ≤ (ofNat 1 : F32) := hone ▸ convert_le_convert _ hp
  have hfloor := mul_le_of_le_one hle hhalf.1 hhalf.2.1 hhalf.2.2
  unfold minP
  split
  · rfl
  · rw [softmax_tied hexp]
    dsimp only
    rw [if_neg (by simpa using htot), hmax, tied, List.zipWith_cons_cons, List.zipWith_cons_cons, if_neg hfloor,
      List.zipWith_nil_left]
    exact if_neg hbest

include hexp in
theorem minP_masked {p : F64} (hp : p ≤ ofNat 1) : minP m masked p = masked := by
  obtain ⟨-, -, -, -, -, -, -, htot⟩ := tied_totals
  obtain ⟨hone, -, -, hmax, hunit, -, -, -, hbest⟩ := tied_masses
  have hle : convert _ p ≤ (ofNat 1 : F32) := hone ▸ convert_le_convert _ hp
  have hfloor := mul_le_of_le_one hle hunit.1 hunit.2.1 hunit.2.2
  unfold minP
  split
  · rfl
  · rw [softmax_masked hexp]
    dsimp only
    rw [if_neg (by simpa using htot), hmax, masked, List.zipWith_cons_cons, List.zipWith_cons_cons, if_neg hfloor,
      ite_self, List.zipWith_nil_left]
    exact if_neg hbest

include hexp in
theorem typicalP_tied (p : F64) : typicalP m tied p = tied := by
  obtain ⟨-, -, -, -, -, -, htot, -⟩ := tied_totals
  obtain ⟨-, -, -, -, -, hkeep, -⟩ := tied_masses
  have hrange : List.range tied.length = [0, 1] := rfl
  have hzero : ¬ Feq (tied.getD 0 nan) filtered := by decide
  unfold typicalP
  split
  · rfl
  rw [softmax_tied hexp]
  dsimp only
  rw [if_neg (by simpa using htot)]
  generalize List.foldl _ zero (tied.zip [half, half]) = ent
  rw [tied, List.zipWith_cons_cons, List.zipWith_cons_cons, List.zipWith_nil_left, if_neg hkeep, ← tied]
  -- the two tokens have one surprise, which no cutoff is below
  generalize abs (sub (neg (m.ln half)) ent) = s
  have hirr : ¬ s < s := fun h => absurd h.2.2 (lt_irrefl _)
  have horder : (List.range tied.length).mergeSort (byShift [s, s]) = [0, 1] := by
    rw [hrange, mergeSort_pair]
    refine if_pos ?_
    rw [byShift, List.getD_cons_zero, List.getD_cons_succ, List.getD_cons_zero, if_neg hirr, if_neg hirr]
    rfl
  have hcut : ∀ i, [s, s].getD ([0, 1].getD (min i 1) 0) nan = s := by
    intro i
    match i with
    | 0 => rfl
    | i + 1 => rw [Nat.min_eq_right (Nat.le_add_left 1 i)]; rfl
  rw [horder, show [0, 1].length - 1 = 1 from rfl, hcut, List.foldl_cons, List.foldl_cons, List.foldl_nil,
    List.getD_cons_zero, List.getD_cons_succ, List.getD_cons_zero, if_neg hirr, if_neg hirr]
  exact if_neg hzero

include hexp in
/-- No greedy configuration leaves the first of two equal tokens alone. -/
theorem tied_not_settled (cfg : SamplerConfig) (hv : cfg.validate = .ok ()) (hg : cfg.isGreedy) :
    ¬ Settled m cfg tied [] := by
  have hmin : cfg.minP ≤ ofNat 1 := minP_le_one hv
  have harg : argmax tied = 0 := by decide
  obtain ⟨-, -, -, -, -, hkeep, hhalf, -⟩ := tied_masses
  intro h
  obtain ⟨-, p, hp, hpos, hbehind⟩ := h.alone
  rw [harg] at hp hbehind
  -- the filters leave both tokens, or mask the first
  have hleft : applyFilters m cfg tied [] = tied ∨ (applyFilters m cfg tied [])[0]? = some filtered := by
    rw [applyFilters_tied cfg hg]
    have htop : (if cfg.topP < ofNat 1 then topP m tied cfg.topP else tied) = tied ∨
        (if cfg.topP < ofNat 1 then topP m tied cfg.topP else tied) = masked := by
      split
      · exact topP_tied hexp cfg.topP
      · exact .inl rfl
    dsimp only
    rcases htop with htop | htop
    · left
      rw [htop, minP_tied hexp hmin, ite_self, typicalP_tied hexp, ite_self]
    · right
      rw [htop, minP_masked hexp hmin, ite_self]
      split
      · obtain ⟨v, hv, rfl⟩ := @at_typicalP m (· = filtered) rfl masked 0 cfg.typicalP ⟨filtered, rfl, rfl⟩
        exact hv
      · rfl
  rcases hleft with hleft | hleft
  · rw [hleft, softmax_tied hexp] at hp hbehind
    rcases hbehind with hone | hnone
    · obtain rfl := Option.some.inj hp
      exact hhalf hone
    · exact hnone half (List.mem_singleton_self half) (by simpa using (not_or.mp hkeep).2)
  · exact softmax_filtered hleft hp hpos

end Tied

/-! ### The two decode loops -/

section Loops

/-- Why decoding fails. -/
inductive DecodeError where
  | emptyPrompt
  | model (e : Fault)
  | nonFinite (bad step : ℕ)
  | sampler (e : SampleError)

/-- `last_logits` -/
def ModelTrace.lastLogits (tr : ModelTrace F32) : List F32 := tr.logits.drop ((tr.t - 1) * tr.vocab)

/-- `argmax_last` -/
def ModelTrace.argmaxLast (tr : ModelTrace F32) : ℕ := argmax tr.lastLogits

variable (a : Arith F32 F64) (mcfg : ModelConfig F32) (w : ModelWeights F32) (stop : List UInt32)

/-- The loop of `greedy_cached_stopping`. -/
def greedyLoop : ℕ → ModelTrace F32 → Cache F32 → List UInt32 → List (ModelTrace F32) →
    Except DecodeError (List UInt32 × List (ModelTrace F32) × Bool)
  | 0, _, _, generated, traces => .ok (generated, traces, false)
  | steps + 1, tr, cache, generated, traces =>
    let nxt := UInt32.ofNat tr.argmaxLast
    if nxt ∈ stop then .ok (generated, traces, true)
    else
      match forwardCached a mcfg w cache [nxt.toNat] with
      | (.error e, _) => .error (.model e)
      | (.ok tr', cache') => greedyLoop steps tr' cache' (generated ++ [nxt]) (traces ++ [tr])

/-- `greedy_cached_stopping` -/
def greedyCachedStopping (prompt : List UInt32) (steps : ℕ) :
    Except DecodeError (List UInt32 × List (ModelTrace F32) × Bool) :=
  if prompt = [] then .error .emptyPrompt
  else
    match forwardCached a mcfg w (Cache.new a mcfg w 1) (prompt.map UInt32.toNat) with
    | (.error e, _) => .error (.model e)
    | (.ok tr, cache) => greedyLoop a mcfg w stop steps tr cache [] []

/-- The loop of `sample_stopping`. -/
def sampleLoop (m : Libm) : ℕ → ModelTrace F32 → Cache F32 → Sampler → List UInt32 → List UInt32 →
    List (ModelTrace F32) → Except DecodeError (List UInt32 × List (ModelTrace F32) × Bool)
  | 0, _, _, _, _, generated, traces => .ok (generated, traces, false)
  | steps + 1, tr, cache, sampler, history, generated, traces =>
    let logits := tr.lastLogits
    if !logits.all isFinite then
      .error (.nonFinite (logits.filter fun x => !x.isFinite).length generated.length)
    else
      match Sampler.next m sampler logits history with
      | (.error e, _) => .error (.sampler e)
      | (.ok nxt, sampler) =>
        if nxt ∈ stop then .ok (generated, traces, true)
        else
          match forwardCached a mcfg w cache [nxt.toNat] with
          | (.error e, _) => .error (.model e)
          | (.ok tr', cache') =>
            sampleLoop m steps tr' cache' sampler (history ++ [nxt]) (generated ++ [nxt]) (traces ++ [tr])

/-- `sample_stopping` -/
def sampleStopping (m : Libm) (prompt : List UInt32) (steps : ℕ) (sampler : Sampler) :
    Except DecodeError (List UInt32 × List (ModelTrace F32) × Bool) :=
  if prompt = [] then .error .emptyPrompt
  else
    match forwardCached a mcfg w (Cache.new a mcfg w 1) (prompt.map UInt32.toNat) with
    | (.error e, _) => .error (.model e)
    | (.ok tr, cache) => sampleLoop a mcfg w stop m steps tr cache sampler prompt [] []

/-- The logits and the history at each step of the greedy loop. -/
def loopInputs : ℕ → ModelTrace F32 → Cache F32 → List UInt32 → List (List F32 × List UInt32)
  | 0, _, _, _ => []
  | steps + 1, tr, cache, history =>
    let nxt := UInt32.ofNat tr.argmaxLast
    (tr.lastLogits, history) ::
      if nxt ∈ stop then []
      else
        match forwardCached a mcfg w cache [nxt.toNat] with
        | (.error _, _) => []
        | (.ok tr', cache') => loopInputs steps tr' cache' (history ++ [nxt])

/-- The logits and the history at each step of the greedy run. -/
def greedyInputs (prompt : List UInt32) (steps : ℕ) : List (List F32 × List UInt32) :=
  match forwardCached a mcfg w (Cache.new a mcfg w 1) (prompt.map UInt32.toNat) with
  | (.error _, _) => []
  | (.ok tr, cache) => loopInputs a mcfg w stop steps tr cache prompt

variable {a mcfg w stop} {m : Libm} {cfg : SamplerConfig}

/-- What the sampler's loop does while every step is an argmax step. -/
theorem sampleLoop_eq : ∀ {steps : ℕ} {tr : ModelTrace F32} {cache : Cache F32} {rng : SplitMix64}
    {history generated : List UInt32} {traces : List (ModelTrace F32)},
    (∀ q ∈ loopInputs a mcfg w stop steps tr cache history, q.1.all isFinite ∧ GreedyAt m cfg q.1 q.2) →
    sampleLoop a mcfg w stop m steps tr cache ⟨cfg, rng⟩ history generated traces =
      greedyLoop a mcfg w stop steps tr cache generated traces
  | 0, _, _, _, _, _, _, _ => rfl
  | steps + 1, tr, cache, rng, history, generated, traces, h => by
    unfold loopInputs at h
    obtain ⟨⟨hfin, hgreedy⟩, hrest⟩ := List.forall_mem_cons.mp h
    have hnext : (Sampler.next m ⟨cfg, rng⟩ tr.lastLogits history).1 = .ok (UInt32.ofNat tr.argmaxLast) :=
      hgreedy.next rng
    have hcfg : cfg = (Sampler.next m ⟨cfg, rng⟩ tr.lastLogits history).2.cfg := (next_cfg ⟨cfg, rng⟩ _ _).symm
    unfold sampleLoop greedyLoop
    dsimp only
    rw [if_neg (by simpa using hfin)]
    generalize Sampler.next m ⟨cfg, rng⟩ tr.lastLogits history = r at hnext hcfg
    obtain ⟨r, ⟨cfg', rng'⟩⟩ := r
    subst hnext hcfg
    dsimp only at hrest ⊢
    by_cases hs : UInt32.ofNat tr.argmaxLast ∈ stop
    · rw [if_pos hs, if_pos hs]
    · rw [if_neg hs] at hrest
      rw [if_neg hs, if_neg hs]
      rcases hf : forwardCached a mcfg w cache [(UInt32.ofNat tr.argmaxLast).toNat] with ⟨_ | tr', cache'⟩
      · rfl
      · rw [hf] at hrest
        exact sampleLoop_eq hrest

theorem sampleStopping_eq {prompt : List UInt32} {steps : ℕ} (rng : SplitMix64)
    (h : ∀ q ∈ greedyInputs a mcfg w stop prompt steps, q.1.all isFinite ∧ GreedyAt m cfg q.1 q.2) :
    sampleStopping a mcfg w stop m prompt steps ⟨cfg, rng⟩ = greedyCachedStopping a mcfg w stop prompt steps := by
  unfold sampleStopping greedyCachedStopping
  unfold greedyInputs at h
  rcases hf : forwardCached a mcfg w (Cache.new a mcfg w 1) (prompt.map UInt32.toNat) with ⟨_ | tr, cache⟩
  · rfl
  · rw [hf] at h
    dsimp only at h ⊢
    rw [sampleLoop_eq h]

end Loops

/-! ### A platform -/

/-- The first terms of the exponential series, and the tangent of the logarithm at one. -/
def seriesLibm : Libm where
  exp x := if x.isFinite then ofRat false (1 + toRat x + toRat x ^ 2 / 2 + toRat x ^ 3 / 6)
    else if x = filtered then zero else x
  ln x := sub x (ofNat 1)

end Qwen
end Siphon
