/-
# The sampler

`gdn/src/sample.rs`: the generator the draw comes from, the filters on the
logits in the order `apply_filters` runs them, the softmax, the walk over the
masses (`select`), and a step of the sampler (`Sampler.next`). The filters
mutate their buffer; here each gives the buffer it leaves.

`exp` and `ln` are those of the platform (`Libm`). Where a list is sorted with
a comparison that is no order, which only a `nan` makes it, the result of the
standard library is unspecified, and here it is that of a merge sort.
-/
import Siphon.Lib.Ieee

namespace Siphon
namespace Qwen

open Ieee

/-- The functions of the platform. -/
structure Libm where
  exp : F32 → F32
  ln : F32 → F32

/-- `is_positive` -/
def isPositive (x : F32) : Bool := zero < x

/-- `FILTERED` -/
def filtered : F32 := infinite true

/-! ### The generator -/

structure SplitMix64 where
  state : UInt64

/-- `next_u64` -/
def SplitMix64.nextU64 (r : SplitMix64) : UInt64 × SplitMix64 :=
  let state := r.state + 0x9E3779B97F4A7C15
  let z := (state ^^^ (state >>> 30)) * 0xBF58476D1CE4E5B9
  let z := (z ^^^ (z >>> 27)) * 0x94D049BB133111EB
  (z ^^^ (z >>> 31), ⟨state⟩)

/-- `x as f64 * (1.0 / 9007199254740992.0)` -/
def unitInterval (x : ℕ) : F64 := mul (ofNat x) (div (ofNat 1) (ofNat 9007199254740992))

/-- `next_f64` -/
def SplitMix64.nextF64 (r : SplitMix64) : F64 × SplitMix64 :=
  (unitInterval (r.nextU64.1 >>> 11).toNat, r.nextU64.2)

/-- The high bits of a number. -/
theorem shift_toNat (v : UInt64) : (v >>> 11).toNat = v.toNat / 2 ^ 11 := by
  rw [UInt64.toNat_shiftRight, show UInt64.toNat 11 % 64 = 11 from rfl, Nat.shiftRight_eq_div_pow]

theorem shift_lt (v : UInt64) : (v >>> 11).toNat < 2 ^ 53 := by
  have h := v.toNat_lt
  rw [shift_toNat]
  omega

/-! ### The configuration -/

structure SamplerConfig where
  temperature : F64
  topK : ℕ
  topP : F64
  minP : F64
  typicalP : F64
  repetitionPenalty : F64
  presencePenalty : F64
  frequencyPenalty : F64
  noRepeatNgramSize : ℕ
  seed : UInt64

/-- `SamplerConfig::default` -/
def SamplerConfig.default : SamplerConfig where
  temperature := zero
  topK := 0
  topP := ofNat 1
  minP := zero
  typicalP := ofNat 1
  repetitionPenalty := ofNat 1
  presencePenalty := zero
  frequencyPenalty := zero
  noRepeatNgramSize := 0
  seed := 0

/-- `is_greedy` -/
def SamplerConfig.isGreedy (c : SamplerConfig) : Bool := c.temperature ≤ zero

/-- Why a configuration is refused. -/
inductive ConfigError where
  | notFinite (name : String) (x : F64)
  | topP (x : F64)
  | minP (x : F64)
  | repetitionPenalty (x : F64)
  | noRepeatNgramSize
  deriving DecidableEq

/-- The numbers that have to be finite. -/
def SamplerConfig.numbers (c : SamplerConfig) : List (F64 × String) :=
  [(c.temperature, "temperature"), (c.topP, "top_p"), (c.minP, "min_p"), (c.typicalP, "typical_p"),
    (c.repetitionPenalty, "repetition_penalty"), (c.presencePenalty, "presence_penalty"),
    (c.frequencyPenalty, "frequency_penalty")]

/-- `validate` -/
def SamplerConfig.validate (c : SamplerConfig) : Except ConfigError Unit :=
  match c.numbers.find? fun p => !p.1.isFinite with
  | some (x, name) => .error (.notFinite name x)
  | none =>
    if c.topP < zero ∨ ofNat 1 < c.topP then .error (.topP c.topP)
    else if c.minP < zero ∨ ofNat 1 < c.minP then .error (.minP c.minP)
    else if c.repetitionPenalty ≤ zero then .error (.repetitionPenalty c.repetitionPenalty)
    else if c.noRepeatNgramSize = 1 then .error .noRepeatNgramSize
    else .ok ()

/-! ### The filters -/

/-- `distinct_tokens` -/
def distinctTokens (history : List UInt32) (vocab : ℕ) : List ℕ :=
  history.foldl (fun seen t =>
    if t.toNat < vocab ∧ t.toNat ∉ seen then seen ++ [t.toNat] else seen) []

/-- Change the entries of the given tokens, but those that are filtered. -/
def adjust (change : ℕ → F32 → F32) (tokens : List ℕ) (logits : List F32) : List F32 :=
  tokens.foldl (fun l i => if Feq (l.getD i nan) filtered then l else l.set i (change i (l.getD i nan))) logits

/-- `repetition_penalty` -/
def repetitionPenalty (logits : List F32) (history : List UInt32) (penalty : F32) : List F32 :=
  if Feq penalty (ofNat 1) then logits
  else adjust (fun _ s => if s < zero then mul s penalty else div s penalty)
    (distinctTokens history logits.length) logits

/-- `presence_penalty` -/
def presencePenalty (logits : List F32) (history : List UInt32) (penalty : F32) : List F32 :=
  adjust (fun _ s => sub s penalty) (distinctTokens history logits.length) logits

/-- How often the tokens of the history appear; a count is a `u32`. -/
def countTokens (history : List UInt32) (vocab : ℕ) : List (ℕ × UInt32) :=
  history.foldl (fun counts t =>
    if vocab ≤ t.toNat then counts
    else if counts.any fun p => p.1 = t.toNat then
      counts.map fun p => if p.1 = t.toNat then (p.1, p.2 + 1) else p
    else counts ++ [(t.toNat, 1)]) []

/-- `frequency_penalty` -/
def frequencyPenalty (logits : List F32) (history : List UInt32) (penalty : F32) : List F32 :=
  (countTokens history logits.length).foldl (fun l p =>
    if Feq (l.getD p.1 nan) filtered then l
    else l.set p.1 (sub (l.getD p.1 nan) (mul penalty (ofNat p.2.toNat)))) logits

/-- The tokens that followed the history's last `n - 1` tokens before. -/
def bannedTokens (history : List UInt32) (n : ℕ) : List UInt32 :=
  let suffix := history.drop (history.length - (n - 1))
  (List.range (history.length - n + 1)).foldl (fun banned w =>
    let next := history.getD (w + n - 1) 0
    if (history.drop w).take (n - 1) = suffix ∧ next ∉ banned then banned ++ [next] else banned) []

/-- `no_repeat_ngram` -/
def noRepeatNgram (logits : List F32) (history : List UInt32) (n : ℕ) : List F32 :=
  if n < 2 ∨ history.length < n then logits
  else (bannedTokens history n).foldl (fun l t => if t.toNat < l.length then l.set t.toNat filtered else l) logits

/-- `temperature` -/
def temperature (logits : List F32) (t : F32) : List F32 :=
  if Feq t (ofNat 1) then logits else logits.map fun v => div v t

/-- `top_k` -/
def topK (logits : List F32) (k : ℕ) : List F32 :=
  if k = 0 ∨ logits.length ≤ k then logits
  else
    let kth := (logits.mergeSort fun a b => ¬ a < b).getD (k - 1) nan
    logits.map fun v => if v < kth then filtered else v

/-- The greatest finite entry. -/
def greatest (logits : List F32) : F32 := (logits.filter isFinite).foldl max (infinite true)

/-- `iter().sum()` -/
def total (x : List F32) : F32 := x.foldl add zero

/-- `softmax` -/
def softmax (m : Libm) (logits : List F32) : List F32 :=
  let top := greatest logits
  if !top.isFinite then List.replicate logits.length zero
  else
    let out := logits.map fun v => if Feq v filtered then zero else m.exp (sub v top)
    let sum := total out
    if zero < sum then out.map fun v => div v sum else out

/-- `top_p_threshold` -/
def topPThreshold (p : F64) : F32 := convert _ (sub (ofNat 1) p)

/-- The loop of `top_p`: mask from the small end while the mass is at most the threshold. -/
def maskTail (probs : List F32) (threshold : F32) : List ℕ → F32 → List F32 → List F32
  | [], _, l => l
  | i :: order, acc, l =>
    let acc := add acc (probs.getD i nan)
    if acc ≤ threshold then maskTail probs threshold order acc (l.set i filtered) else l

/-- `top_p` -/
def topP (m : Libm) (logits : List F32) (p : F64) : List F32 :=
  if ofNat 1 ≤ p then logits
  else
    let probs := softmax m logits
    if !isPositive (total probs) then logits
    else
      let order := (List.range logits.length).mergeSort fun a b => ¬ logits.getD b nan < logits.getD a nan
      let best := order.getLastD 0
      let l := maskTail probs (topPThreshold p) order zero logits
      if Feq (l.getD best nan) filtered then l.set best (logits.getD best nan) else l

/-- `min_p` -/
def minP (m : Libm) (logits : List F32) (p : F64) : List F32 :=
  if p ≤ zero then logits
  else
    let probs := softmax m logits
    if !isPositive (total probs) then logits
    else
      let floor := mul (convert _ p) (probs.foldl max zero)
      let best := argmaxFrom probs 0 0 (infinite true)
      let l := logits.zipWith (fun v q => if q < floor then filtered else v) probs
      if Feq (l.getD best nan) filtered then l.set best (greatest l) else l

/-- The order of `typical_p`: by surprise, then by index. -/
def byShift (shifted : List F32) (a b : ℕ) : Bool :=
  if shifted.getD a nan < shifted.getD b nan then true
  else if shifted.getD b nan < shifted.getD a nan then false else a ≤ b

/-- The last position whose mass before it is below `mass`, from position `k`. -/
def lastBelow (probs : List F32) (mass : F32) : List ℕ → ℕ → F32 → ℕ → ℕ
  | [], _, _, last => last
  | i :: order, k, acc, last =>
    lastBelow probs mass order (k + 1) (add acc (probs.getD i nan)) (if acc < mass then k else last)

/-- `typical_p` -/
def typicalP (m : Libm) (logits : List F32) (mass : F64) : List F32 :=
  if mass ≤ zero ∨ ofNat 1 ≤ mass then logits
  else
    let p := softmax m logits
    if !isPositive (total p) then logits
    else
      let ent := (logits.zip p).foldl (fun ent v =>
        if isPositive v.2 ∧ ¬ Feq v.1 filtered then sub ent (mul (m.ln v.2) v.2) else ent) zero
      let shifted := logits.zipWith (fun v q =>
        if Feq v filtered ∨ ¬ isPositive q then infinite false else abs (sub (neg (m.ln q)) ent)) p
      let order := (List.range logits.length).mergeSort (byShift shifted)
      let lastInd := min (lastBelow p (convert _ mass) order 0 zero 0) (order.length - 1)
      let cutoff := shifted.getD (order.getD lastInd 0) nan
      let first := order.headD 0
      let l := order.foldl (fun l i => if cutoff < shifted.getD i nan then l.set i filtered else l) logits
      if Feq (l.getD first nan) filtered then l.set first (logits.getD first nan) else l

/-- `apply_filters` -/
def applyFilters (m : Libm) (c : SamplerConfig) (logits : List F32) (history : List UInt32) : List F32 :=
  let l := if ¬ Feq c.repetitionPenalty (ofNat 1) then
    repetitionPenalty logits history (convert _ c.repetitionPenalty) else logits
  let l := if ¬ Feq c.presencePenalty zero then presencePenalty l history (convert _ c.presencePenalty) else l
  let l := if ¬ Feq c.frequencyPenalty zero then frequencyPenalty l history (convert _ c.frequencyPenalty) else l
  let l := if 2 ≤ c.noRepeatNgramSize then noRepeatNgram l history c.noRepeatNgramSize else l
  let l := if zero < c.temperature ∧ ¬ Feq c.temperature (ofNat 1) then temperature l (convert _ c.temperature) else l
  let l := if 1 ≤ c.topK then topK l c.topK else l
  let l := if c.topP < ofNat 1 then topP m l c.topP else l
  let l := if zero < c.minP then minP m l c.minP else l
  if zero < c.typicalP ∧ c.typicalP < ofNat 1 then typicalP m l c.typicalP else l

/-! ### The draw -/

/-- The walk of `select`, from token `i` with the mass behind it. -/
def selectFrom (u : F64) : List F32 → ℕ → F64 → Option ℕ → Option ℕ
  | [], _, _, last => last
  | p :: probs, i, acc, last =>
    if !isPositive p then selectFrom u probs (i + 1) acc last
    else
      let acc := add acc (convert _ p)
      if u < acc then some i else selectFrom u probs (i + 1) acc (some i)

/-- `select` -/
def select (probs : List F32) (u : F64) : Option ℕ := selectFrom u probs 0 zero none

/-- Why a step of the sampler fails. -/
inductive SampleError where
  | filteredOut (logits : ℕ)
  | noToken
  deriving DecidableEq

structure Sampler where
  cfg : SamplerConfig
  rng : SplitMix64

/-- `Sampler::new` -/
def Sampler.new (cfg : SamplerConfig) : Except ConfigError Sampler := do
  cfg.validate
  .ok ⟨cfg, ⟨cfg.seed⟩⟩

/-- `Sampler::next`, with the sampler it leaves -/
def Sampler.next (m : Libm) (s : Sampler) (logits : List F32) (history : List UInt32) :
    Except SampleError UInt32 × Sampler :=
  let probs := softmax m (applyFilters m s.cfg logits history)
  if !isPositive (total probs) then (.error (.filteredOut logits.length), s)
  else
    let (u, rng) := s.rng.nextF64
    match select probs u with
    | some i => (.ok (UInt32.ofNat i), { s with rng })
    | none => (.error .noToken, { s with rng })

end Qwen
end Siphon
