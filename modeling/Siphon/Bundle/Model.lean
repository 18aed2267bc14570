/-
# The comparator of golden bundles

A bundle is a manifest and the files its tensors are in, raw little-endian
`f32`. `bundlecmp compare` reads every tensor of the golden bundle that the
group selects from both bundles and reports the largest relative difference of
each (`diff`), compares the token ids (`diffTokens`), and derives the argmax of
every greedy step from the bundle's own logits (`checkTokenSelfconsistency`).
The verdict (`Report.ok`) is put together from these lists.

A file is what reading it gives; the manifest is taken as parsed. The build is
the release one, in which the check of `numel` is compiled out. What is left of
`numel` is the room that `read_entry` asks for: it is less than 2^61 in every
entry that is read, from where on `Vec::with_capacity` panics and nothing is
reported.
-/
import Siphon.Lib.Ieee
import Mathlib.Data.List.Nodup

namespace Siphon
namespace Goldenbundle

open Ieee

/-- `f32::from_le_bytes` -/
def fromLeBytes (b0 b1 b2 b3 : UInt8) : F32 :=
  let n := b0.toNat + 256 * (b1.toNat + 256 * (b2.toNat + 256 * b3.toNat))
  ofBits (2 ^ 31 ≤ n) (n % 2 ^ 31)

/-! ### Bundles -/

structure TensorEntry where
  group : String
  name : String
  file : String
  shape : List ℕ
  nbytes : ℕ
  deriving DecidableEq

structure GreedyStep where
  step : ℕ
  argmaxToken : UInt32
  topkLogits : List F32
  deriving DecidableEq

structure Greedy where
  steps : List GreedyStep
  finalIds : List UInt32

structure Manifest where
  schema : String
  byteOrder : String
  dtype : String
  tensors : List TensorEntry
  greedy : Greedy

/-- Why a bundle does not open. -/
inductive OpenError where
  | unexpectedSchema (root schema : String)
  | byteOrder (root byteOrder : String)
  | dtype (root dtype : String)
  | duplicateName (root name : String)
  deriving DecidableEq

/-- Why a tensor is not read. -/
inductive ReadError where
  | noTensor (name : String)
  | io (file : String)
  | size (file : String) (onDisk manifest : ℕ)
  deriving DecidableEq

/-- A bundle that has opened: its tensors have different names. -/
structure Bundle where
  root : String
  manifest : Manifest
  /-- what reading a file below the root gives -/
  files : String → Option (List UInt8)
  nodup : (manifest.tensors.map TensorEntry.name).Nodup

/-- The first name that is there already. -/
def duplicate : List String → List String → Option String
  | _, [] => none
  | seen, n :: ns => if n ∈ seen then some n else duplicate (n :: seen) ns

theorem nodup_of_duplicate : ∀ {seen ns : List String}, duplicate seen ns = none →
    ns.Nodup ∧ ∀ n ∈ ns, n ∉ seen
  | _, [], _ => ⟨List.nodup_nil, nofun⟩
  | seen, n :: ns, h => by
    unfold duplicate at h
    by_cases hm : n ∈ seen
    · rw [if_pos hm] at h
      cases h
    · rw [if_neg hm] at h
      obtain ⟨hnd, hout⟩ := nodup_of_duplicate h
      refine ⟨List.nodup_cons.mpr ⟨fun hn => hout n hn (List.mem_cons_self ..), hnd⟩, ?_⟩
      rintro m hmem
      rcases List.mem_cons.mp hmem with rfl | hmem
      · exact hm
      · exact fun hs => hout m hmem (List.mem_cons_of_mem _ hs)

/-- `Bundle::open`, of a manifest that parsed -/
def Bundle.open (root : String) (manifest : Manifest) (files : String → Option (List UInt8)) :
    Except OpenError Bundle :=
  if manifest.schema ≠ "qwen35-golden-v1" then .error (.unexpectedSchema root manifest.schema)
  else if manifest.byteOrder ≠ "little" then .error (.byteOrder root manifest.byteOrder)
  else if manifest.dtype ≠ "f32" then .error (.dtype root manifest.dtype)
  else
    match h : duplicate [] (manifest.tensors.map TensorEntry.name) with
    | some n => .error (.duplicateName root n)
    | none => .ok ⟨root, manifest, files, (nodup_of_duplicate h).1⟩

/-- `Bundle::entry` -/
def Bundle.entry (b : Bundle) (name : String) : Option TensorEntry :=
  b.manifest.tensors.find? fun e => e.name == name

/-- `raw.as_chunks::<4>().0`, each a number: what is left over at the end is dropped -/
def floats : List UInt8 → List F32
  | b0 :: b1 :: b2 :: b3 :: rest => fromLeBytes b0 b1 b2 b3 :: floats rest
  | _ => []

/-- `Bundle::read_entry` -/
def Bundle.readEntry (b : Bundle) (e : TensorEntry) : Except ReadError (List F32) :=
  match b.files e.file with
  | none => .error (.io e.file)
  | some raw => if raw.length ≠ e.nbytes then .error (.size e.file raw.length e.nbytes) else .ok (floats raw)

/-- `Bundle::read` -/
def Bundle.read (b : Bundle) (name : String) : Except ReadError (List F32) :=
  match b.entry name with
  | none => .error (.noTensor name)
  | some e => b.readEntry e

/-! ### One tensor -/

structure TensorDiff where
  name : String
  shape : List ℕ
  maxAbs : F32
  maxAbsIndex : ℕ
  goldenAtMax : F32
  candidateAtMax : F32
  goldenScale : F32
  maxRel : F32

/-- What the loop of `diff` carries. -/
structure Worst where
  i : ℕ
  worst : F32
  worstI : ℕ
  scale : F32

/-- One round of the loop of `diff`; it ends at a pair that is not finite. -/
def Worst.step (w : Worst) (p : F32 × F32) : Except (ℕ × F32 × F32) Worst :=
  if !p.1.isFinite || !p.2.isFinite then .error (w.i, p.1, p.2)
  else
    let d := abs (sub p.1 p.2)
    .ok { i := w.i + 1
          worst := if w.worst < d then d else w.worst
          worstI := if w.worst < d then w.i else w.worstI
          scale := max w.scale (abs p.1) }

/-- `diff` -/
def diff (name : String) (shape : List ℕ) (golden cand : List F32) : Option TensorDiff :=
  if golden.length ≠ cand.length then
    some ⟨name, shape, infinite false, 0, nan, nan, zero, infinite false⟩
  else
    match (golden.zip cand).foldlM Worst.step ⟨0, zero, 0, zero⟩ with
    | .error (i, g, c) => some ⟨name, shape, infinite false, i, g, c, zero, infinite false⟩
    | .ok w =>
      if Feq w.worst zero then none
      else some ⟨name, shape, w.worst, w.worstI, golden.getD w.worstI nan, cand.getD w.worstI nan, w.scale,
        if zero < w.scale then div w.worst w.scale else infinite false⟩

/-! ### The tokens -/

/-- `format!("greedy_step{:02}__logits", step)` -/
def stepName (step : ℕ) : String :=
  "greedy_step" ++ (if step < 10 then "0" else "") ++ toString step ++ "__logits"

/-- `check_token_selfconsistency`: the steps whose recorded id is not the
argmax of their logits -/
def checkTokenSelfconsistency (b : Bundle) : List (ℕ × UInt32 × UInt32) :=
  b.manifest.greedy.steps.zipIdx.filterMap fun (s, i) =>
    match b.read (stepName s.step) with
    | .error _ => none
    | .ok logits =>
      if logits.isEmpty then none
      else
        let best := UInt32.ofNat (argmax logits)
        if best ≠ s.argmaxToken then some (i, s.argmaxToken, best) else none

structure TokenDiff where
  firstDivergence : Option ℕ
  goldenIds : List UInt32
  candidateIds : List UInt32
  maxLogitDelta : F32

/-- The first index below both lengths where two lists differ. -/
def firstDifference (g cand : List UInt32) : Option ℕ :=
  (List.range (min g.length cand.length)).find? fun i => g[i]? != cand[i]?

/-- `diff_tokens` -/
def diffTokens (golden cand : Manifest) : TokenDiff :=
  let g := golden.greedy.finalIds
  let c := cand.greedy.finalIds
  { firstDivergence := (firstDifference g c).or
      (if g.length ≠ c.length then some (min g.length c.length) else none)
    goldenIds := g
    candidateIds := c
    maxLogitDelta := (golden.greedy.steps.zip cand.greedy.steps).foldl (fun m p =>
      (p.1.topkLogits.zip p.2.topkLogits).foldl (fun m q => max m (abs (sub q.1 q.2))) m) zero }

/-! ### The comparison -/

/-- The lists `cmd_compare` fills. -/
structure Tally where
  diffs : List TensorDiff
  compared : ℕ
  identical : ℕ
  missing : List String

/-- One round of the loop over the golden tensors. -/
def compareEntry (g c : Bundle) (group : Option String) (t : Tally) (entry : TensorEntry) : Tally :=
  if group.any fun gr => entry.group ≠ gr then t
  else
    match c.entry entry.name with
    | none => { t with missing := t.missing ++ [entry.name] }
    | some centry =>
      match g.readEntry entry with
      | .error _ => t
      | .ok gv =>
        match c.readEntry centry with
        | .error _ => t
        | .ok cv =>
          match diff entry.name entry.shape gv cv with
          | none => { t with compared := t.compared + 1, identical := t.identical + 1 }
          | some d => { t with compared := t.compared + 1, diffs := t.diffs ++ [d] }

/-- The order of the report: the greatest relative error first. -/
def worse (a b : TensorDiff) : Bool := ¬ a.maxRel < b.maxRel

/-- What `cmd_compare` prints. -/
structure Report where
  compared : ℕ
  identical : ℕ
  diffs : List TensorDiff
  missing : List String
  tokens : TokenDiff
  goldenBad : List (ℕ × UInt32 × UInt32)
  candidateBad : List (ℕ × UInt32 × UInt32)
  worstRel : F32
  ok : Bool

/-- `cmd_compare`, of two bundles that opened -/
def cmdCompare (g c : Bundle) (group : Option String) (maxRel : F32) : Report :=
  let t := g.manifest.tensors.foldl (compareEntry g c group) ⟨[], 0, 0, []⟩
  let diffs := t.diffs.mergeSort worse
  let td := diffTokens g.manifest c.manifest
  let gBad := checkTokenSelfconsistency g
  let cBad := checkTokenSelfconsistency c
  let worstRel := (diffs.head?.map TensorDiff.maxRel).getD zero
  { compared := t.compared
    identical := t.identical
    diffs := diffs
    missing := t.missing
    tokens := td
    goldenBad := gBad
    candidateBad := cBad
    worstRel := worstRel
    ok := worstRel ≤ maxRel && td.firstDivergence.isNone && t.missing.isEmpty && gBad.isEmpty && cBad.isEmpty }

end Goldenbundle
end Siphon
