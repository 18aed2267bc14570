/-
# The sampler over exact numbers

`gdn/src/sample.rs` with the numbers of an ordered field in place of `f32` and
`f64`. A logit is such a number or `⊥`, which stands for `FILTERED`, minus
infinity: no other infinity and no `NaN` is a logit here.

The filters work with any masses that are positive exactly on the unmasked
tokens and sum to one (`Masses`); those of the code's `softmax` are so for
every positive and strictly increasing exponential (`Softmax.ofExp`).

Key definitions: `Masses`, `Softmax`, `applyFilters`, `select`, `Sampler.next`.
Key theorem: `Softmax.ofExp`.
-/
import Mathlib.Algebra.Order.Field.Basic
import Mathlib.Algebra.BigOperators.Ring.List
import Mathlib.Algebra.Order.BigOperators.Group.List
import Mathlib.Algebra.Order.Field.Rat
import Mathlib.Data.List.GetD
import Mathlib.Tactic.Linarith
import Mathlib.Order.WithBot
import Siphon.Lib.Ranking
import Siphon.Qwen.Sample

namespace Siphon
namespace Qwen
namespace Exact

variable {F : Type} [Field F] [LinearOrder F]

/-- `logits[i]` -/
def logit (logits : List (WithBot F)) (i : ℕ) : WithBot F := logits.getD i ⊥

/-! ### The softmax -/

/-- The greatest logit that is not masked, or `⊥`. -/
def greatest (logits : List (WithBot F)) : WithBot F := logits.foldl max ⊥

/-- `softmax` -/
def softmax (exp : F → F) (logits : List (WithBot F)) : List F :=
  let top := greatest logits
  if top = ⊥ then List.replicate logits.length 0
  else
    let out := logits.map fun v => if v = ⊥ then 0 else exp (v.unbotD 0 - top.unbotD 0)
    let sum := out.sum
    if 0 < sum then out.map fun v => v / sum else out

/-- Masses for the tokens: positive where a token is not masked, nothing where it is, one in all. -/
structure Masses (F : Type) [Field F] [LinearOrder F] where
  probs : List (WithBot F) → List F
  length_probs : ∀ l, (probs l).length = l.length
  pos : ∀ {l i}, logit l i ≠ ⊥ → 0 < (probs l).getD i 0
  zero : ∀ {l i}, logit l i = ⊥ → (probs l).getD i 0 = 0
  sum_eq_one : ∀ {l}, (∃ i, logit l i ≠ ⊥) → (probs l).sum = 1

/-- Masses that increase strictly in the logit. -/
structure Softmax (F : Type) [Field F] [LinearOrder F] extends Masses F where
  mono : ∀ {l i j}, logit l i < logit l j → (probs l).getD i 0 < (probs l).getD j 0

/-! ### The configuration -/

structure SamplerConfig (F : Type) where
  temperature : F
  topK : ℕ
  topP : F
  minP : F
  typicalP : F
  repetitionPenalty : F
  presencePenalty : F
  frequencyPenalty : F
  noRepeatNgramSize : ℕ
  seed : UInt64

/-- `SamplerConfig::default` -/
def SamplerConfig.default : SamplerConfig F where
  temperature := 0
  topK := 0
  topP := 1
  minP := 0
  typicalP := 1
  repetitionPenalty := 1
  presencePenalty := 0
  frequencyPenalty := 0
  noRepeatNgramSize := 0
  seed := 0

/-- Why a configuration is refused. -/
inductive ConfigError (F : Type) where
  | topP (x : F)
  | minP (x : F)
  | repetitionPenalty (x : F)
  | noRepeatNgramSize

/-- `validate`, where every number is finite -/
def SamplerConfig.validate (c : SamplerConfig F) : Except (ConfigError F) Unit :=
  if c.topP < 0 ∨ 1 < c.topP then .error (.topP c.topP)
  else if c.minP < 0 ∨ 1 < c.minP then .error (.minP c.minP)
  else if c.repetitionPenalty ≤ 0 then .error (.repetitionPenalty c.repetitionPenalty)
  else if c.noRepeatNgramSize = 1 then .error .noRepeatNgramSize
  else .ok ()

/-! ### The penalties -/

/-- Change the entries of the given tokens; one that is masked stays so. -/
def adjust (change : ℕ → F → F) (tokens : List ℕ) (logits : List (WithBot F)) : List (WithBot F) :=
  tokens.foldl (fun l i => l.set i ((logit l i).map (change i))) logits

/-- `repetition_penalty` -/
def repetitionPenalty (logits : List (WithBot F)) (history : List UInt32) (penalty : F) : List (WithBot F) :=
  if penalty = 1 then logits
  else adjust (fun _ s => if s < 0 then s * penalty else s / penalty) (distinctTokens history logits.length) logits

/-- `presence_penalty` -/
def presencePenalty (logits : List (WithBot F)) (history : List UInt32) (penalty : F) : List (WithBot F) :=
  adjust (fun _ s => s - penalty) (distinctTokens history logits.length) logits

/-- `frequency_penalty` -/
def frequencyPenalty (logits : List (WithBot F)) (history : List UInt32) (penalty : F) : List (WithBot F) :=
  (countTokens history logits.length).foldl
    (fun l p => l.set p.1 ((logit l p.1).map fun s => s - penalty * p.2.toNat)) logits

/-- `no_repeat_ngram` -/
def noRepeatNgram (logits : List (WithBot F)) (history : List UInt32) (n : ℕ) : List (WithBot F) :=
  if n < 2 ∨ history.length < n then logits
  else (bannedTokens history n).foldl (fun l t => if t.toNat < l.length then l.set t.toNat ⊥ else l) logits

/-- `temperature` -/
def temperature (logits : List (WithBot F)) (t : F) : List (WithBot F) :=
  if t = 1 then logits else logits.map fun v => v.map (· / t)

/-! ### The truncation filters -/

/-- `top_k` -/
def topK (logits : List (WithBot F)) (k : ℕ) : List (WithBot F) :=
  if k = 0 ∨ logits.length ≤ k then logits
  else
    let kth := (logits.mergeSort fun a b => b ≤ a).getD (k - 1) ⊥
    logits.map fun v => if v < kth then ⊥ else v

/-- The loop of `top_p`: mask from the small end while the mass is at most the threshold. -/
def maskTail (probs : List F) (threshold : F) : List ℕ → F → List (WithBot F) → List (WithBot F)
  | [], _, l => l
  | i :: order, acc, l =>
    let acc := acc + probs.getD i 0
    if acc ≤ threshold then maskTail probs threshold order acc (l.set i ⊥) else l

/-- `top_p` -/
def topP (S : Masses F) (logits : List (WithBot F)) (p : F) : List (WithBot F) :=
  if 1 ≤ p then logits
  else
    let probs := S.probs logits
    if ¬ 0 < probs.sum then logits
    else
      let order := (List.range logits.length).mergeSort fun a b => logit logits a ≤ logit logits b
      let best := order.getLastD 0
      let l := maskTail probs (1 - p) order 0 logits
      if logit l best = ⊥ then l.set best (logit logits best) else l

/-- The first greatest entry, from entry `i` with the greatest so far. -/
def argmaxFrom : List F → ℕ → ℕ → WithBot F → ℕ
  | [], _, best, _ => best
  | q :: probs, i, best, v => if v < q then argmaxFrom probs (i + 1) i q else argmaxFrom probs (i + 1) best v

/-- `min_p` -/
def minP (S : Masses F) (logits : List (WithBot F)) (p : F) : List (WithBot F) :=
  if p ≤ 0 then logits
  else
    let probs := S.probs logits
    if ¬ 0 < probs.sum then logits
    else
      let floor := p * probs.foldl max 0
      let best := argmaxFrom probs 0 0 ⊥
      let l := logits.zipWith (fun v q => if q < floor then ⊥ else v) probs
      if logit l best = ⊥ then l.set best (greatest l) else l

/-- `|surprise - entropy|` of each token, and infinity for a masked one. -/
def shifts (ln : F → F) (logits : List (WithBot F)) (probs : List F) : List (WithTop F) :=
  let ent := (logits.zip probs).foldl (fun ent v =>
    if 0 < v.2 ∧ v.1 ≠ ⊥ then ent - ln v.2 * v.2 else ent) 0
  logits.zipWith (fun v q => if v = ⊥ ∨ ¬ 0 < q then ⊤ else (|-ln q - ent| : F)) probs

/-- The order of `typical_p`: by shift, then by index. -/
def byShift (shifted : List (WithTop F)) (a b : ℕ) : Bool :=
  if shifted.getD a ⊤ < shifted.getD b ⊤ then true
  else if shifted.getD b ⊤ < shifted.getD a ⊤ then false else a ≤ b

/-- The last position whose mass before it is below `mass`, from position `k`. -/
def lastBelow (probs : List F) (mass : F) : List ℕ → ℕ → F → ℕ → ℕ
  | [], _, _, last => last
  | i :: order, k, acc, last =>
    lastBelow probs mass order (k + 1) (acc + probs.getD i 0) (if acc < mass then k else last)

/-- `typical_p` -/
def typicalP (S : Masses F) (ln : F → F) (logits : List (WithBot F)) (mass : F) : List (WithBot F) :=
  if mass ≤ 0 ∨ 1 ≤ mass then logits
  else
    let p := S.probs logits
    if ¬ 0 < p.sum then logits
    else
      let shifted := shifts ln logits p
      let order := (List.range logits.length).mergeSort (byShift shifted)
      let lastInd := min (lastBelow p mass order 0 0 0) (order.length - 1)
      let cutoff := shifted.getD (order.getD lastInd 0) ⊤
      let first := order.headD 0
      let l := order.foldl (fun l i => if cutoff < shifted.getD i ⊤ then l.set i ⊥ else l) logits
      if logit l first = ⊥ then l.set first (logit logits first) else l

/-! ### The pipeline -/

/-- `apply_filters` -/
def applyFilters (S : Masses F) (ln : F → F) (c : SamplerConfig F) (logits : List (WithBot F))
    (history : List UInt32) : List (WithBot F) :=
  let l := if c.repetitionPenalty ≠ 1 then repetitionPenalty logits history c.repetitionPenalty else logits
  let l := if c.presencePenalty ≠ 0 then presencePenalty l history c.presencePenalty else l
  let l := if c.frequencyPenalty ≠ 0 then frequencyPenalty l history c.frequencyPenalty else l
  let l := if 2 ≤ c.noRepeatNgramSize then noRepeatNgram l history c.noRepeatNgramSize else l
  let l := if 0 < c.temperature ∧ c.temperature ≠ 1 then temperature l c.temperature else l
  let l := if 1 ≤ c.topK then topK l c.topK else l
  let l := if c.topP < 1 then topP S l c.topP else l
  let l := if 0 < c.minP then minP S l c.minP else l
  if 0 < c.typicalP ∧ c.typicalP < 1 then typicalP S ln l c.typicalP else l

/-! ### The draw -/

/-- The walk of `select`, from token `i` with the mass behind it. -/
def selectFrom (u : F) : List F → ℕ → F → Option ℕ → Option ℕ
  | [], _, _, last => last
  | p :: probs, i, acc, last =>
    if ¬ 0 < p then selectFrom u probs (i + 1) acc last
    else
      let acc := acc + p
      if u < acc then some i else selectFrom u probs (i + 1) acc (some i)

/-- `select` -/
def select (probs : List F) (u : F) : Option ℕ := selectFrom u probs 0 0 none

/-- `next_f64` -/
def nextF64 (F : Type) [Field F] (r : SplitMix64) : F × SplitMix64 :=
  ((r.nextU64.1 >>> 11).toNat * (1 / 9007199254740992), r.nextU64.2)

structure Sampler (F : Type) where
  cfg : SamplerConfig F
  rng : SplitMix64

/-- `Sampler::new` -/
def Sampler.new (cfg : SamplerConfig F) : Except (ConfigError F) (Sampler F) := do
  cfg.validate
  .ok ⟨cfg, ⟨cfg.seed⟩⟩

/-- `Sampler::next`, with the sampler it leaves -/
def Sampler.next (S : Masses F) (ln : F → F) (s : Sampler F) (logits : List (WithBot F)) (history : List UInt32) :
    Except SampleError UInt32 × Sampler F :=
  let probs := S.probs (applyFilters S ln s.cfg logits history)
  if ¬ 0 < probs.sum then (.error (.filteredOut logits.length), s)
  else
    let (u, rng) := nextF64 F s.rng
    match select probs u with
    | some i => (.ok (UInt32.ofNat i), { s with rng })
    | none => (.error .noToken, { s with rng })

/-! ### Maxima -/

section Maxima

variable {α : Type*} [LinearOrder α]

theorem le_foldl_max : ∀ (l : List α) (a : α), a ≤ l.foldl max a
  | [], a => le_refl a
  | v :: l, a => (le_max_left a v).trans (le_foldl_max l (max a v))

theorem mem_le_foldl_max {v : α} : ∀ {l : List α} (a : α), v ∈ l → v ≤ l.foldl max a
  | u :: l, a, h => by
    rcases List.mem_cons.mp h with rfl | h
    · exact (le_max_right a v).trans (le_foldl_max l (max a v))
    · exact mem_le_foldl_max (max a u) h

theorem foldl_max_le {b : α} : ∀ {l : List α} {a : α}, a ≤ b → (∀ v ∈ l, v ≤ b) → l.foldl max a ≤ b
  | [], _, h, _ => h
  | v :: l, a, h, hl => by
    obtain ⟨hv, hl⟩ := List.forall_mem_cons.mp hl
    rw [List.foldl_cons]
    exact foldl_max_le (max_le h hv) hl

end Maxima

/-! ### The code's softmax -/

omit [Field F] in
theorem logit_le_greatest (l : List (WithBot F)) (i : ℕ) : logit l i ≤ greatest l := by
  unfold logit
  by_cases hi : i < l.length
  · rw [List.getD_eq_getElem _ _ hi]
    exact mem_le_foldl_max ⊥ (List.getElem_mem hi)
  · rw [List.getD_eq_default _ _ (not_lt.mp hi)]
    exact bot_le

section OfExp

variable (exp : F → F) (hpos : ∀ x, 0 < exp x) (hmono : StrictMono exp)

/-- The mass of a logit before the normalization. -/
def unscaled (top : WithBot F) (v : WithBot F) : F := if v = ⊥ then 0 else exp (v.unbotD 0 - top.unbotD 0)

variable {exp}

include hpos in
theorem unscaled_nonneg (top v : WithBot F) : 0 ≤ unscaled exp top v := by
  unfold unscaled
  split
  · exact le_refl 0
  · exact (hpos _).le

include hpos in
theorem unscaled_pos {top v : WithBot F} (h : v ≠ ⊥) : 0 < unscaled exp top v := by
  rw [unscaled, if_neg h]
  exact hpos _

theorem softmax_masked {l : List (WithBot F)} (h : ¬ ∃ i, logit l i ≠ ⊥) :
    softmax exp l = List.replicate l.length 0 := by
  have htop : greatest l = ⊥ := by
    refine le_bot_iff.mp (foldl_max_le (le_refl ⊥) fun v hv => ?_)
    obtain ⟨i, hi, rfl⟩ := List.getElem_of_mem hv
    by_contra hne
    exact h ⟨i, fun h0 => hne (by rw [← h0, logit, List.getD_eq_getElem _ _ hi])⟩
  unfold softmax
  dsimp only
  rw [if_pos htop]

variable [IsStrictOrderedRing F]

include hpos hmono in
theorem unscaled_lt {top u v : WithBot F} (h : u < v) : unscaled exp top u < unscaled exp top v := by
  have hv : v ≠ ⊥ := ((bot_le).trans_lt h).ne'
  by_cases hu : u = ⊥
  · rw [unscaled, if_pos hu]
    exact unscaled_pos hpos hv
  · rw [unscaled, unscaled, if_neg hu, if_neg hv]
    apply hmono
    lift u to F using hu
    lift v to F using hv
    exact sub_lt_sub_right (WithBot.coe_lt_coe.mp h) _

/-- The sum the masses are divided by. -/
def scale (exp : F → F) (l : List (WithBot F)) : F := (l.map (unscaled exp (greatest l))).sum

include hpos in
theorem scale_pos {l : List (WithBot F)} {i : ℕ} (h : logit l i ≠ ⊥) : 0 < scale exp l := by
  have hi : i < l.length := by
    by_contra hi
    exact h (List.getD_eq_default _ _ (not_lt.mp hi))
  have hmem : unscaled exp (greatest l) (logit l i) ∈ l.map (unscaled exp (greatest l)) := by
    refine List.mem_map_of_mem ?_
    rw [logit, List.getD_eq_getElem _ _ hi]
    exact List.getElem_mem hi
  refine lt_of_lt_of_le (unscaled_pos hpos h) (List.single_le_sum (fun x hx => ?_) _ hmem)
  obtain ⟨v, -, rfl⟩ := List.mem_map.mp hx
  exact unscaled_nonneg hpos _ v

include hpos in
theorem softmax_eq {l : List (WithBot F)} {i : ℕ} (h : logit l i ≠ ⊥) :
    softmax exp l = l.map fun v => unscaled exp (greatest l) v / scale exp l := by
  have htop : greatest l ≠ ⊥ := fun h0 => h (le_bot_iff.mp (h0 ▸ logit_le_greatest l i))
  have hsum := scale_pos hpos h
  refine (if_neg htop).trans ((if_pos hsum).trans ?_)
  rw [List.map_map]
  rfl

include hpos in
theorem getD_softmax {l : List (WithBot F)} {i : ℕ} (h : logit l i ≠ ⊥) (j : ℕ) :
    (softmax exp l).getD j 0 = unscaled exp (greatest l) (logit l j) / scale exp l := by
  have hbot : unscaled exp (greatest l) ⊥ / scale exp l = 0 := by rw [unscaled, if_pos rfl, zero_div]
  rw [softmax_eq hpos h, ← hbot, List.getD_map]
  rfl

/-- **The masses of the code's softmax**, for every positive and strictly increasing exponential. -/
def Softmax.ofExp : Softmax F where
  probs := softmax exp
  length_probs l := by
    unfold softmax
    dsimp only
    split
    · exact List.length_replicate
    · split
      · rw [List.length_map, List.length_map]
      · exact List.length_map _
  pos {l i} h := by
    rw [getD_softmax hpos h]
    exact div_pos (unscaled_pos hpos h) (scale_pos hpos h)
  zero {l i} h := by
    by_cases hex : ∃ i, logit l i ≠ ⊥
    · obtain ⟨j, hj⟩ := hex
      rw [getD_softmax hpos hj, h, unscaled, if_pos rfl, zero_div]
    · rw [softmax_masked hex, List.getD_eq_getElem?_getD, List.getElem?_getD_replicate_default_eq]
  sum_eq_one {l} h := by
    obtain ⟨i, hi⟩ := h
    have hscale : scale exp l ≠ 0 := (scale_pos hpos hi).ne'
    rw [softmax_eq hpos hi]
    simp only [div_eq_mul_inv]
    rw [List.sum_map_mul_right]
    exact mul_inv_cancel₀ hscale
  mono {l i j} h := by
    have hj : logit l j ≠ ⊥ := (bot_le.trans_lt h).ne'
    rw [getD_softmax hpos hj, getD_softmax hpos hj]
    exact div_lt_div_of_pos_right (unscaled_lt hpos hmono h) (scale_pos hpos hj)

end OfExp

/-- Positive and strictly increasing, and the exponential's value at zero. -/
def tangent (x : ℚ) : ℚ := if x ≤ 0 then (1 - x)⁻¹ else 1 + x

theorem tangent_pos (x : ℚ) : 0 < tangent x := by
  unfold tangent
  split
  · exact inv_pos.mpr (by linarith)
  · linarith

theorem tangent_strictMono : StrictMono tangent := by
  intro x y h
  unfold tangent
  by_cases hx : x ≤ 0
  · by_cases hy : y ≤ 0
    · rw [if_pos hx, if_pos hy]
      exact inv_strictAnti₀ (by linarith) (by linarith)
    · rw [if_pos hx, if_neg hy]
      calc (1 - x)⁻¹ ≤ 1 := inv_le_one_of_one_le₀ (by linarith)
        _ < 1 + y := by linarith
  · rw [if_neg hx, if_neg (by linarith)]
    linarith

/-- A softmax of rational numbers. -/
def ratSoftmax : Softmax ℚ := Softmax.ofExp tangent_pos tangent_strictMono

/-! ### Entries and masses -/

section Entries

variable {l : List (WithBot F)} {i : ℕ}

omit [Field F] [LinearOrder F] in
theorem lt_length_of_logit (h : logit l i ≠ ⊥) : i < l.length := by
  by_contra hi
  exact h (List.getD_eq_default _ _ (not_lt.mp hi))

omit [Field F] [LinearOrder F] in
theorem logit_set (j : ℕ) (v : WithBot F) : logit (l.set j v) i = if j = i ∧ i < l.length then v else logit l i := by
  unfold logit
  rw [List.getD_eq_getElem?_getD, List.getD_eq_getElem?_getD, List.getElem?_set]
  by_cases hj : j = i
  · by_cases hi : i < l.length
    · rw [if_pos hj, if_pos (hj ▸ hi), if_pos ⟨hj, hi⟩, Option.getD_some]
    · have hnot : ¬ (j = i ∧ i < l.length) := fun h => hi h.2
      rw [if_pos hj, if_neg (hj ▸ hi), if_neg hnot, List.getElem?_eq_none (not_lt.mp hi)]
  · have hnot : ¬ (j = i ∧ i < l.length) := fun h => hj h.1
    rw [if_neg hj, if_neg hnot]

omit [Field F] [LinearOrder F] in
theorem logit_set_bot (j : ℕ) : logit (l.set j ⊥) i = if j = i then ⊥ else logit l i := by
  rw [logit_set]
  by_cases hj : j = i
  · by_cases hi : i < l.length
    · rw [if_pos ⟨hj, hi⟩, if_pos hj]
    · have hnot : ¬ (j = i ∧ i < l.length) := fun h => hi h.2
      rw [if_neg hnot, if_pos hj, logit, List.getD_eq_default _ _ (not_lt.mp hi)]
  · have hnot : ¬ (j = i ∧ i < l.length) := fun h => hj h.1
    rw [if_neg hj, if_neg hnot]

/-- The tokens that are not masked. -/
def kept (l : List (WithBot F)) : Finset ℕ := (Finset.range l.length).filter fun i => logit l i ≠ ⊥

omit [Field F] in
theorem mem_kept : i ∈ kept l ↔ logit l i ≠ ⊥ := by
  rw [kept, Finset.mem_filter, Finset.mem_range]
  exact ⟨fun h => h.2, fun h => ⟨lt_length_of_logit h, h⟩⟩

/-- The mass of a token. -/
def Masses.prob (S : Masses F) (l : List (WithBot F)) (i : ℕ) : F := (S.probs l).getD i 0

variable (S : Masses F)

theorem Masses.prob_nonneg (l : List (WithBot F)) (i : ℕ) : 0 ≤ S.prob l i := by
  by_cases h : logit l i = ⊥
  · exact (S.zero h).ge
  · exact (S.pos h).le

theorem Masses.nonneg_of_mem {q : F} (hq : q ∈ S.probs l) : 0 ≤ q := by
  obtain ⟨i, hi, rfl⟩ := List.getElem_of_mem hq
  exact List.getD_eq_getElem (S.probs l) 0 hi ▸ S.prob_nonneg l i

/-- An unmasked token has a mass among those of the list. -/
theorem Masses.exists_pos (hex : ∃ i, logit l i ≠ ⊥) : ∃ q ∈ S.probs l, 0 < q := by
  obtain ⟨i, hi⟩ := hex
  have hil : i < (S.probs l).length := (S.length_probs l).symm ▸ lt_length_of_logit hi
  have hpos := S.pos hi
  rw [List.getD_eq_getElem _ _ hil] at hpos
  exact ⟨_, List.getElem_mem hil, hpos⟩

theorem Masses.logit_ne_of_prob (h : S.prob l i ≠ 0) : logit l i ≠ ⊥ := fun h0 => h (S.zero h0)

/-- In whatever order, the masses sum to one. -/
theorem Masses.sum_map_prob (hex : ∃ i, logit l i ≠ ⊥) {order : List ℕ} (h : order.Perm (List.range l.length)) :
    (order.map (S.prob l)).sum = 1 := by
  have hlist : (List.range l.length).map (S.prob l) = S.probs l := by
    apply List.ext_getElem
    · rw [List.length_map, List.length_range, S.length_probs]
    · intro i hi hi'
      rw [List.getElem_map, List.getElem_range, Masses.prob, List.getD_eq_getElem _ _ hi']
  rw [(h.map _).sum_eq, hlist, S.sum_eq_one hex]

/-- The masses of the unmasked tokens of a list are all its masses. -/
theorem Masses.sum_filter {is : List ℕ} (h : is.Nodup) :
    ∑ i ∈ is.toFinset.filter (fun i => logit l i ≠ ⊥), S.prob l i = (is.map (S.prob l)).sum := by
  rw [Finset.sum_filter_of_ne fun i _ hi => S.logit_ne_of_prob hi, List.sum_toFinset _ h]

theorem Masses.sum_probs_pos [IsStrictOrderedRing F] (hex : ∃ i, logit l i ≠ ⊥) : 0 < (S.probs l).sum := by
  rw [S.sum_eq_one hex]
  exact one_pos

end Entries

end Exact
end Qwen
end Siphon
