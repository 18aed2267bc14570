/-
# The header of a safetensors shard

`read_header` reads the length of the JSON header, parses it and checks each
entry: offsets in order and inside the buffer, and as many bytes as the shape
and the type need. The tensors of an accepted header are sorted by their
offsets. What the planner relies on is `Accepted`; `readHeader_accepted` says
that every header that is returned has it.

JSON is read by serde_json, which is taken as a parameter: what it makes of
the bytes of a header, how it words an error and how it prints a value.
-/
import Mathlib.Data.List.Basic
import Mathlib.Data.List.Sort
import Siphon.Lib.Fallible
import Siphon.Lib.U64

namespace Siphon
namespace Stloader

open U64 Fallible

/-! ### JSON values -/

/-- `serde_json::Number`: a float by its bits. -/
inductive Number where
  | posInt (n : UInt64)
  | negInt (n : Int64)
  | float (bits : UInt64)

/-- `serde_json::Value`; an object as the pairs in the order of its map. -/
inductive Value where
  | null
  | bool (b : Bool)
  | number (n : Number)
  | string (s : String)
  | array (vs : List Value)
  | object (kvs : List (String × Value))

namespace Value

def asObject? : Value → Option (List (String × Value))
  | object kvs => some kvs
  | _ => none

def asArray? : Value → Option (List Value)
  | array vs => some vs
  | _ => none

def asStr? : Value → Option String
  | string s => some s
  | _ => none

def asU64? : Value → Option ℕ
  | number (.posInt n) => some n.toNat
  | _ => none

end Value

/-- What is used of serde_json: `from_slice` with the text of its error, and
the `Display` of a value. -/
structure SerdeJson where
  fromSlice : List UInt8 → Except String Value
  display : Value → String

/-! ### Types and shapes -/

inductive Dtype where
  | f64 | f32 | f16 | bf16 | i64 | i32 | i16 | i8 | u8 | bool | f8E4M3 | f8E5M2
  deriving DecidableEq, Repr

namespace Dtype

def parse : String → Option Dtype
  | "F64" => some f64
  | "F32" => some f32
  | "F16" => some f16
  | "BF16" => some bf16
  | "I64" => some i64
  | "I32" => some i32
  | "I16" => some i16
  | "I8" => some i8
  | "U8" => some u8
  | "BOOL" => some bool
  | "F8_E4M3" => some f8E4M3
  | "F8_E5M2" => some f8E5M2
  | _ => none

/-- Bytes of one element. -/
def size : Dtype → ℕ
  | f64 | i64 => 8
  | f32 | i32 => 4
  | f16 | bf16 | i16 => 2
  | i8 | u8 | bool | f8E4M3 | f8E5M2 => 1

def asStr : Dtype → String
  | f64 => "F64"
  | f32 => "F32"
  | f16 => "F16"
  | bf16 => "BF16"
  | i64 => "I64"
  | i32 => "I32"
  | i16 => "I16"
  | i8 => "I8"
  | u8 => "U8"
  | bool => "BOOL"
  | f8E4M3 => "F8_E4M3"
  | f8E5M2 => "F8_E5M2"

end Dtype

/-- A tensor's entry, with its bytes relative to the data buffer. -/
structure TensorInfo where
  name : String
  dtype : Dtype
  shape : List ℕ
  start : ℕ
  stop : ℕ
  deriving DecidableEq, Repr

def TensorInfo.nbytes (t : TensorInfo) : ℕ := t.stop - t.start

/-- `abs_range`: the bytes in the file. -/
def TensorInfo.absRange (t : TensorInfo) (dataStart : ℕ) : ℕ × ℕ :=
  (dataStart + t.start, dataStart + t.stop)

/-- `shape_numel`: the number of elements, if it fits. -/
def shapeNumel (shape : List ℕ) : Option ℕ := shape.foldlM checkedMul 1

structure ShardHeader where
  path : String
  fileSize : ℕ
  headerLen : ℕ
  /-- Where the data buffer begins. -/
  dataStart : ℕ
  metadata : Option (List (String × Value))
  tensors : List TensorInfo

/-! ### Errors -/

/-- What is wrong with an entry. -/
inductive EntryError where
  | notObject
  | missingDtype
  | unknownDtype (s : String)
  | missingShape
  | dimension (d : String)
  | missingOffsets
  | notPair
  | offset (i : ℕ)
  | inverted (start stop : ℕ)
  | beyond (stop bufferSize : ℕ)
  | numelOverflow
  | sizeOverflow
  | size (declared : ℕ) (shape : List ℕ) (dtype : Dtype) (expected : ℕ)

/-- The errors of kind `InvalidData`. -/
inductive HeaderError where
  | short
  | lengthZero
  | lengthExceeds (n : ℕ)
  | lengthOverflows
  | lengthOverruns (n fileSize : ℕ)
  | badJson (e : String)
  | notObject
  | metadata
  | entry (name : String) (e : EntryError)

def maxHeaderBytes : ℕ := 2 ^ 28

def EntryError.message (name : String) : EntryError → String
  | notObject => "entry " ++ name ++ " is not an object"
  | missingDtype => "entry " ++ name ++ " missing dtype"
  | unknownDtype s => "entry " ++ name ++ " unknown dtype " ++ s
  | missingShape => "entry " ++ name ++ " missing shape"
  | dimension d => "entry " ++ name ++ " shape has a non-integer dimension " ++ d
  | missingOffsets => "entry " ++ name ++ " missing data_offsets"
  | notPair => "entry " ++ name ++ " data_offsets is not a pair"
  | offset i => "entry " ++ name ++ " data_offsets[" ++ toString i ++ "] is not a u64"
  | inverted start stop =>
    "entry " ++ name ++ " has end " ++ toString stop ++ " < start " ++ toString start
  | beyond stop bufferSize =>
    "entry " ++ name ++ " ends at " ++ toString stop ++ " beyond buffer of " ++ toString bufferSize ++
      " bytes"
  | numelOverflow => "entry " ++ name ++ " shape product overflows u64"
  | sizeOverflow => "entry " ++ name ++ " byte size overflows u64"
  | size declared shape dtype expected =>
    "entry " ++ name ++ " declares " ++ toString declared ++ " bytes but shape " ++ toString shape ++
      " x " ++ dtype.asStr ++ " needs " ++ toString expected

def HeaderError.message (path : String) (e : HeaderError) : String :=
  path ++ ": " ++
    match e with
    | short => "file shorter than 8-byte header length"
    | lengthZero => "header length is zero"
    | lengthExceeds n => "header length " ++ toString n ++ " exceeds " ++ toString maxHeaderBytes
    | lengthOverflows => "header length overflows"
    | lengthOverruns n size =>
      "header length " ++ toString n ++ " overruns file of " ++ toString size ++ " bytes"
    | badJson e => "bad JSON header: " ++ e
    | notObject => "header is not a JSON object"
    | metadata => "__metadata__ is not an object"
    | entry name e => e.message name

/-! ### Reading -/

/-- A file that has been opened: its size is a `u64`. -/
structure ShardFile where
  path : String
  bytes : List UInt8
  size_le : bytes.length ≤ maxValue

/-- `u64::from_le_bytes`. -/
def fromLeBytes (bs : List UInt8) : ℕ := bs.foldr (fun b n => b.toNat + 256 * n) 0

section Read

variable (json : SerdeJson)

/-- The dimensions of a shape, up to the first that is no `u64`. -/
def readShape : List Value → Except EntryError (List ℕ)
  | [] => .ok []
  | d :: ds => do
    let n ← orElse (.dimension (json.display d)) d.asU64?
    let ns ← readShape ds
    return n :: ns

/-- The body of the loop for an entry other than the metadata. -/
def readEntry (bufferSize : ℕ) (name : String) (v : Value) : Except EntryError TensorInfo := do
  let t ← orElse .notObject v.asObject?
  let dtypeStr ← orElse .missingDtype ((t.lookup "dtype").bind Value.asStr?)
  let dtype ← orElse (.unknownDtype dtypeStr) (Dtype.parse dtypeStr)
  let shapeArr ← orElse .missingShape ((t.lookup "shape").bind Value.asArray?)
  let shape ← readShape json shapeArr
  let offs ← orElse .missingOffsets ((t.lookup "data_offsets").bind Value.asArray?)
  match offs with
  | [o₀, o₁] => do
    let start ← orElse (.offset 0) o₀.asU64?
    let stop ← orElse (.offset 1) o₁.asU64?
    if stop < start then .error (.inverted start stop)
    else if bufferSize < stop then .error (.beyond stop bufferSize)
    else do
      let numel ← orElse .numelOverflow (shapeNumel shape)
      let expected ← orElse .sizeOverflow (checkedMul numel dtype.size)
      if expected ≠ stop - start then .error (.size (stop - start) shape dtype expected)
      else .ok { name, dtype, shape, start, stop }
  | _ => .error .notPair

/-- The loop over the entries: the metadata, if any, and the tensors. -/
def readEntries (bufferSize : ℕ) :
    List (String × Value) → Except HeaderError (Option (List (String × Value)) × List TensorInfo)
  | [] => .ok (none, [])
  | (name, v) :: kvs =>
    if name = "__metadata__" then do
      let m ← orElse .metadata v.asObject?
      let (later, ts) ← readEntries bufferSize kvs
      return (later.or (some m), ts)
    else do
      let t ← (readEntry json bufferSize name v).mapError (.entry name)
      let (m, ts) ← readEntries bufferSize kvs
      return (m, t :: ts)

/-- The order of the sort key `(start, end)`. -/
def keyLe (a b : TensorInfo) : Prop := a.start < b.start ∨ (a.start = b.start ∧ a.stop ≤ b.stop)

instance : DecidableRel keyLe := fun _ _ => inferInstanceAs (Decidable (_ ∨ _))

/-- `read_header`, after the file has been opened. The sort is stable. -/
def readHeader (f : ShardFile) : Except HeaderError ShardHeader := do
  let fileSize := f.bytes.length
  if fileSize < 8 then .error .short
  else do
    let headerLen := fromLeBytes (f.bytes.take 8)
    if headerLen = 0 then .error .lengthZero
    else if maxHeaderBytes < headerLen then .error (.lengthExceeds headerLen)
    else do
      let dataStart ← orElse .lengthOverflows (checkedAdd 8 headerLen)
      if fileSize < dataStart then .error (.lengthOverruns headerLen fileSize)
      else do
        let raw := (f.bytes.drop 8).take headerLen
        let parsed ← (json.fromSlice raw).mapError .badJson
        let obj ← orElse .notObject parsed.asObject?
        let (metadata, tensors) ← readEntries json (fileSize - dataStart) obj
        .ok { path := f.path, fileSize, headerLen, dataStart, metadata,
              tensors := tensors.insertionSort keyLe }

end Read

/-! ### What is accepted -/

/-- What the planner relies on: every tensor's bytes are in order and inside
the file, and the tensors are sorted by their start. -/
structure Accepted (h : ShardHeader) : Prop where
  size_le : h.fileSize ≤ maxValue
  start_le : ∀ t ∈ h.tensors, t.start ≤ t.stop
  stop_le : ∀ t ∈ h.tensors, h.dataStart + t.stop ≤ h.fileSize
  sorted : h.tensors.Pairwise fun a b => a.start ≤ b.start

variable {json : SerdeJson}

/-- What the checks of an entry leave: offsets in order and inside the buffer,
and as many bytes as the shape and the type need. -/
structure TensorInfo.Fits (bufferSize : ℕ) (t : TensorInfo) : Prop where
  start_le : t.start ≤ t.stop
  stop_le : t.stop ≤ bufferSize
  exact : t.stop - t.start = t.shape.prod * t.dtype.size

/-- A product that fits is the exact one. -/
theorem shapeNumel_eq_some {shape : List ℕ} {n : ℕ} (h : shapeNumel shape = some n) : n = shape.prod :=
  (foldlM_checkedMul h).trans (Nat.one_mul _)

theorem readEntry_spec {bufferSize : ℕ} {name : String} {v : Value} {t : TensorInfo}
    (h : readEntry json bufferSize name v = .ok t) : t.Fits bufferSize := by
  unfold readEntry at h
  obtain ⟨_, -, h⟩ := bind_eq_ok h
  obtain ⟨_, -, h⟩ := bind_eq_ok h
  obtain ⟨_, -, h⟩ := bind_eq_ok h
  obtain ⟨_, -, h⟩ := bind_eq_ok h
  obtain ⟨_, -, h⟩ := bind_eq_ok h
  obtain ⟨offs, -, h⟩ := bind_eq_ok h
  split at h
  · obtain ⟨start, -, h⟩ := bind_eq_ok h
    obtain ⟨stop, -, h⟩ := bind_eq_ok h
    by_cases h1 : stop < start
    · rw [if_pos h1] at h
      cases h
    · rw [if_neg h1] at h
      by_cases h2 : bufferSize < stop
      · rw [if_pos h2] at h
        cases h
      · rw [if_neg h2] at h
        obtain ⟨numel, hnumel, h⟩ := bind_eq_ok h
        obtain ⟨expected, hexp, h⟩ := bind_eq_ok h
        split at h
        · cases h
        · rename_i heq
          cases h
          refine ⟨not_lt.mp h1, not_lt.mp h2, ?_⟩
          rw [← not_not.mp heq, ← shapeNumel_eq_some (orElse_eq_ok hnumel)]
          exact checkedMul_eq_some (orElse_eq_ok hexp)
  · cases h

theorem readEntries_spec {bufferSize : ℕ} : ∀ {kvs : List (String × Value)}
    {r : Option (List (String × Value)) × List TensorInfo},
    readEntries json bufferSize kvs = .ok r → ∀ t ∈ r.2, t.Fits bufferSize
  | [], r, h => by
    cases h
    simp
  | (name, v) :: kvs, r, h => by
    unfold readEntries at h
    by_cases hm : name = "__metadata__"
    · rw [if_pos hm] at h
      obtain ⟨_, -, h⟩ := bind_eq_ok h
      obtain ⟨r', hr, h⟩ := bind_eq_ok h
      cases h
      show ∀ t ∈ r'.2, _
      exact readEntries_spec hr
    · rw [if_neg hm] at h
      obtain ⟨t, ht, h⟩ := bind_eq_ok h
      obtain ⟨r', hr, h⟩ := bind_eq_ok h
      cases h
      intro t' ht'
      rcases List.mem_cons.mp ht' with rfl | ht'
      · exact readEntry_spec (mapError_eq_ok ht)
      · exact readEntries_spec hr t' ht'

instance : IsTrans TensorInfo keyLe where
  trans a b c := by
    simp only [keyLe]
    omega

instance : Std.Total keyLe where
  total a b := by
    simp only [keyLe]
    omega

theorem start_le_of_keyLe {a b : TensorInfo} (h : keyLe a b) : a.start ≤ b.start := by
  unfold keyLe at h
  omega

/-- A header that is returned has the sorted tensors of its entries. -/
theorem readHeader_eq_ok {f : ShardFile} {hd : ShardHeader} (h : readHeader json f = .ok hd) :
    ∃ obj r, hd.fileSize = f.bytes.length ∧ hd.dataStart ≤ hd.fileSize ∧
      readEntries json (hd.fileSize - hd.dataStart) obj = .ok r ∧ hd.tensors = r.2.insertionSort keyLe := by
  unfold readHeader at h
  by_cases h0 : f.bytes.length < 8
  · rw [if_pos h0] at h
    cases h
  rw [if_neg h0] at h
  simp only at h
  by_cases h1 : fromLeBytes (f.bytes.take 8) = 0
  · rw [if_pos h1] at h
    cases h
  rw [if_neg h1] at h
  by_cases h2 : maxHeaderBytes < fromLeBytes (f.bytes.take 8)
  · rw [if_pos h2] at h
    cases h
  rw [if_neg h2] at h
  obtain ⟨dataStart, -, h⟩ := bind_eq_ok h
  by_cases h3 : f.bytes.length < dataStart
  · rw [if_pos h3] at h
    cases h
  rw [if_neg h3] at h
  obtain ⟨_, -, h⟩ := bind_eq_ok h
  obtain ⟨obj, -, h⟩ := bind_eq_ok h
  obtain ⟨r, hr, h⟩ := bind_eq_ok h
  cases h
  exact ⟨obj, r, rfl, not_lt.mp h3, hr, rfl⟩

/-- The tensors of a header that is returned passed their checks, and are
sorted. -/
theorem readHeader_tensors {f : ShardFile} {hd : ShardHeader} (h : readHeader json f = .ok hd) :
    (∀ t ∈ hd.tensors, t.Fits (hd.fileSize - hd.dataStart)) ∧ hd.tensors.Pairwise keyLe := by
  obtain ⟨obj, r, -, -, hr, htensors⟩ := readHeader_eq_ok h
  rw [htensors]
  exact ⟨fun t ht => readEntries_spec hr t ((List.mem_insertionSort keyLe).mp ht), List.pairwise_insertionSort keyLe r.2⟩

/-- Every header that is returned is fit for the planner. -/
theorem readHeader_accepted {f : ShardFile} {hd : ShardHeader} (h : readHeader json f = .ok hd) :
    Accepted hd := by
  obtain ⟨-, -, hsize, hstart, -, -⟩ := readHeader_eq_ok h
  obtain ⟨hfits, hsorted⟩ := readHeader_tensors h
  refine ⟨hsize ▸ f.size_le, fun t ht => (hfits t ht).start_le, fun t ht => ?_, hsorted.imp start_le_of_keyLe⟩
  have := (hfits t ht).stop_le
  omega

end Stloader
end Siphon
