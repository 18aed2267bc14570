/-
# The check of the filters against a corpus

`gdn/src/bin/samplecheck.rs` without `--frequency`: it reads a corpus, compares
its stage order with the pipeline's, runs the filters on the logits of each
case and compares what they leave with what the case expects. The verdict is a
flag that the branches of the loop set, or do not.

What is printed is kept as data; `--max` is a parameter. A `nan` has one
representation here, so the place of one among the sorted logits is not that of
`total_cmp` where the sign is set. None is equal to anything wherever it stands.

Key definitions: `compare`, `boundaryCase`, `checkCase`, `samplecheck`.
-/
import Siphon.Pyjson.Model
import Siphon.Qwen.Sample

namespace Siphon
namespace Qwen
namespace Samplecheck

open Pyjson Ieee Fallible

/-- `OUR_ORDER` -/
def ourOrder : List String :=
  ["repetition_penalty", "presence_penalty", "frequency_penalty", "no_repeat_ngram", "temperature", "top_k", "top_p",
    "min_p", "typical_p"]

/-! ### Numbers of a document -/

/-- The number of the format of the sampler. -/
def ofBinary64 : Binary64 → F64
  | .finite neg b => .finite neg b
  | .infinite neg => .infinite neg
  | .nan => .nan

/-- `as_f64` -/
def asF64? : Value → Option F64
  | .int i => some (ofRat (i < 0) i)
  | .float x => some (ofBinary64 x)
  | _ => none

/-- `decode_lit` -/
def decodeLit : Value → Option F32
  | .null => some filtered
  | .float x => some (convert _ (ofBinary64 x))
  | .int n => some (ofRat (n < 0) n)
  | .str s => if s = ['n', 'a', 'n'] then some nan else none
  | _ => none

/-- The literals from position `k` on, or the first that is none. -/
def decodeFrom : ℕ → List Value → Except (ℕ × Value) (List F32)
  | _, [] => .ok []
  | k, v :: vs =>
    match decodeLit v with
    | some x => (decodeFrom (k + 1) vs).map (x :: ·)
    | none => .error (k, v)

/-- `config_from` -/
def configFrom (settings : Value) : SamplerConfig :=
  let num (key : String) (d : F64) : F64 := ((settings.get key).bind asF64?).getD d
  { temperature := num "temperature" (ofNat 1)
    topK := ((settings.get "top_k").bind Value.asUsize?).getD 0
    topP := num "top_p" (ofNat 1)
    minP := num "min_p" zero
    typicalP := num "typical_p" (ofNat 1)
    repetitionPenalty := num "repetition_penalty" (ofNat 1)
    presencePenalty := num "presence_penalty" zero
    frequencyPenalty := num "frequency_penalty" zero
    noRepeatNgramSize := ((settings.get "no_repeat_ngram_size").bind Value.asUsize?).getD 0
    seed := 1 }

/-! ### The comparison -/

/-- `to_bits` -/
def toBits : F32 → ℕ
  | .finite neg b => (if neg then 2 ^ 31 else 0) + b
  | .infinite neg => (if neg then 2 ^ 31 else 0) + 0x7f800000
  | .nan => 0x7fc00000

/-- `has_duplicate_values` -/
def hasDuplicateValues (v : List F32) : Bool :=
  let b := (v.map toBits).mergeSort fun x y => x ≤ y
  (b.zip b.tail).any fun w => w.1 = w.2

/-- Where a number stands in the order of `total_cmp`. -/
def totalKey : F32 → ℤ
  | .finite false b => b
  | .finite true b => -b - 1
  | .infinite false => 0x7f800000
  | .infinite true => -0x7f800000 - 1
  | .nan => 0x7f800001

/-- `sort_by(f32::total_cmp)` -/
def sortTotal (v : List F32) : List F32 := v.mergeSort fun x y => totalKey x ≤ totalKey y

/-- `f32::EPSILON` -/
def epsilon : F32 := div (ofNat 1) (ofNat 8388608)

/-- The tolerance of a case with a temperature. -/
def WithinBound (x y : F32) : Prop :=
  x.isFinite ∧ y.isFinite ∧ abs (sub x y) ≤ mul (mul (abs y) epsilon) (ofNat 2)

instance (x y : F32) : Decidable (WithinBound x y) := inferInstanceAs (Decidable (_ ∧ _ ∧ _))

/-- A loop of `compare`, from position `k`: whether no value was only within the bound, or the first that differs. -/
def compareFrom (allowUlp : Bool) : ℕ → List F32 → List F32 → Bool → Except (ℕ × F32 × F32) Bool
  | k, x :: xs, y :: ys, within =>
    if Feq x y then compareFrom allowUlp (k + 1) xs ys within
    else if allowUlp ∧ WithinBound x y then compareFrom allowUlp (k + 1) xs ys false
    else .error (k, x, y)
  | _, _, _, within => .ok within

/-- What was wanted in place of a value. -/
inductive Want where
  | values (n : ℕ)
  | literal (v : Value)
  | number (x : F32)

inductive Verdict where
  | exact
  | withinUlp
  | differ (k : ℕ) (got : F32) (want : Want)

/-- `compare` -/
def compare (got : List F32) (expect : List Value) (input : List F32) (allowUlp : Bool) : Verdict :=
  if got.length ≠ expect.length then .differ (min got.length expect.length) nan (.values expect.length)
  else match decodeFrom 0 expect with
    | .error (k, v) => .differ k (got.getD k nan) (.literal v)
    | .ok want =>
      match compareFrom allowUlp 0 (sortTotal got) (sortTotal want) true with
      | .error (k, x, y) => .differ k x (.number y)
      | .ok within =>
        if hasDuplicateValues input then if within then .exact else .withinUlp
        else match compareFrom allowUlp 0 got want within with
          | .error (k, x, y) => .differ k x (.number y)
          | .ok within => if within then .exact else .withinUlp

/-- `verdict_of` -/
def verdictOf (got : List F32) (expect : List Value) : Bool :=
  expect.zipIdx.any fun w =>
    match decodeLit w.1, got[w.2]? with
    | some x, some g =>
      if Feq x filtered ∨ Feq g filtered then ¬ Feq g x else if x = nan then g ≠ nan else ¬ Feq g x
    | _, _ => true

/-! ### The boundary of `top_p` -/

/-- Why a boundary is ambiguous. -/
structure Boundary where
  masked : ℕ
  logits : ℕ
  mass : F64
  threshold : F64
  ulp : F64
  gap : F64

/-- `f64::from_bits(x.to_bits().saturating_add(1))` -/
def nextBits : F64 → F64
  | .finite neg b => ofBits neg (b + 1)
  | .infinite _ => nan
  | .nan => nan

/-- `iter().sum()` of `f64` -/
def sumF64 (x : List F64) : F64 := x.foldl add zero

/-- `boundary_case` -/
def boundaryCase (m : Libm) (settings : Value) (logits : List F32) (expect : List Value) : Option Boundary := do
  let p ← (settings.get "top_p").bind asF64?
  let kept := (expect.filter fun v => match v with | .null => false | _ => true).length
  let masked ← if logits.length < kept then none else some (logits.length - kept)
  if masked = 0 ∨ logits.length ≤ masked then none
  else
    let threshold : F64 := convert _ (topPThreshold p)
    let probs := softmax m logits
    let total := sumF64 (probs.map (convert _))
    if total ≤ zero ∨ total = nan then none
    else
      let idx := (List.range logits.length).mergeSort fun a b => ¬ logits.getD b nan < logits.getD a nan
      let mass := sumF64 ((idx.take masked).map fun i => div (convert _ (probs.getD i nan)) total)
      let ulp := sub (nextBits threshold) threshold
      let gap := abs (sub mass threshold)
      if gap ≤ mul (ofNat 2) ulp then some ⟨masked, logits.length, mass, threshold, ulp, gap⟩ else none

/-- `last_stage` -/
def lastStage (settings : Value) : String :=
  (["typical_p", "min_p", "top_p", "top_k", "temperature", "no_repeat_ngram_size", "frequency_penalty",
    "presence_penalty", "repetition_penalty"].find? fun k => (settings.get k).isSome).getD "none"

/-! ### The loop over the cases -/

/-- What the first failure was. -/
inductive Failure where
  | config (i : ℕ) (name : List Char) (e : ConfigError)
  | differ (i : ℕ) (name : List Char) (k : ℕ) (got : F32) (want : Want)

/-- The variables of the loop. -/
structure Tally where
  failed : Bool
  ok : ℕ
  bad : ℕ
  exact : ℕ
  ulp : ℕ
  ties : ℕ
  tieIndexMismatch : ℕ
  /-- the cases at the boundary, by their number and name -/
  boundary : List (ℕ × List Char × Boundary)
  first : Option Failure
  byStage : List (String × ℕ)

/-- How a check ends without a result. -/
inductive Stop where
  | parse (e : ParseError)
  | noCases
  | notNumber (name : List Char) (v : Value)

/-- One more failure behind a stage. -/
def countStage (stage : String) : List (String × ℕ) → List (String × ℕ)
  | [] => [(stage, 1)]
  | (s, n) :: rest => if s = stage then (s, n + 1) :: rest else (s, n) :: countStage stage rest

def caseName (case : Value) : List Char := ((case.get "name").bind Value.asStr?).getD ['?']

def caseSettings (case : Value) : Value := (case.get "settings").getD .null

/-- The history of a case; what is no token number is passed over. -/
def caseHistory (case : Value) : List UInt32 :=
  ((((case.get "history").bind Value.asArray?).map fun a => a.filterMap Value.asUsize?).getD []).map UInt32.ofNat

/-- The `expect` and the `logits` of a case, if they are arrays. -/
def caseArrays (case : Value) : Option (List Value × List Value) := do
  let expect ← (case.get "expect").bind Value.asArray?
  let logits ← (case.get "logits").bind Value.asArray?
  some (expect, logits)

/-- `has_temperature` -/
def hasTemperature (settings : Value) : Bool :=
  ((settings.get "temperature").bind asF64?).any fun t => ¬ Feq t (ofNat 1)

/-- The end of a round: the tally behind the verdict on a case. -/
def countVerdict (m : Libm) (i : ℕ) (case : Value) (logits got : List F32) (expect : List Value) (t : Tally) : Tally :=
  match compare got expect logits (hasTemperature (caseSettings case)) with
  | .exact => { t with exact := t.exact + 1, ok := t.ok + 1 }
  | .withinUlp => { t with ulp := t.ulp + 1, ok := t.ok + 1 }
  | .differ k g want =>
    match boundaryCase m (caseSettings case) logits expect with
    | some why => { t with boundary := t.boundary ++ [(i, caseName case, why)] }
    | none =>
      { t with
        bad := t.bad + 1
        failed := true
        first := t.first.or (some (.differ i (caseName case) k g want))
        byStage := countStage (lastStage (caseSettings case)) t.byStage }

/-- A round of the loop. -/
def checkCase (m : Libm) (i : ℕ) (case : Value) (t : Tally) : Except Stop Tally :=
  match caseArrays case with
  | none => .ok { t with bad := t.bad + 1 }
  | some (expect, logitsJson) =>
    match decodeFrom 0 logitsJson with
    | .error (_, v) => .error (.notNumber (caseName case) v)
    | .ok logits =>
      match Sampler.new (configFrom (caseSettings case)) with
      | .error e =>
        .ok { t with bad := t.bad + 1, failed := true, first := t.first.or (some (.config i (caseName case) e)) }
      | .ok sampler =>
        let got := applyFilters m sampler.cfg logits (caseHistory case)
        let ties := if hasDuplicateValues logits then 1 else 0
        let mismatch := if hasDuplicateValues logits ∧ verdictOf got expect then 1 else 0
        .ok (countVerdict m i case logits got expect
          { t with ties := t.ties + ties, tieIndexMismatch := t.tieIndexMismatch + mismatch })

/-- The loop, from case `i`, up to `--max`. -/
def runCases (m : Libm) (max : Option ℕ) : ℕ → List Value → Tally → Except Stop Tally
  | _, [], t => .ok t
  | i, case :: cases, t =>
    if max.any (· ≤ i) then .ok t
    else do
      let t ← checkCase m i case t
      runCases m max (i + 1) cases t

/-! ### The check -/

/-- `want_order`: the strings of `stage_order` -/
def wantOrder (doc : Value) : List (List Char) :=
  (((doc.get "stage_order").bind Value.asArray?).map fun a => a.filterMap Value.asStr?).getD []

/-- The tally before the first case. -/
def start (doc : Value) : Tally where
  failed := wantOrder doc ≠ ourOrder.map String.toList
  ok := 0
  bad := 0
  exact := 0
  ulp := 0
  ties := 0
  tieIndexMismatch := 0
  boundary := []
  first := none
  byStage := []

/-- The check of a document. -/
def checkDoc (m : Libm) (max : Option ℕ) (doc : Value) : Except Stop Tally := do
  let cases ← orElse .noCases ((doc.get "cases").bind Value.asArray?)
  runCases m max 0 cases (start doc)

/-- `main` on the bytes of a corpus, without `--frequency`: it reports PASS where the tally has not failed. -/
def samplecheck (m : Libm) (max : Option ℕ) (raw : List UInt8) : Except Stop Tally := do
  let doc ← (parse (Utf8.decodeLossy raw)).mapError .parse
  checkDoc m max doc

end Samplecheck
end Qwen
end Siphon
