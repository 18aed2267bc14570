/-
# Shards of a checkpoint

`Shard::open` reads the header of a safetensors file, and `Model` holds the
shards of a directory and decodes a tensor by its name. The bytes that a shape
needs are multiplied with care, but the elements of the shape itself are not:
their product wraps. So a shape of `2 ^ 64` elements or more passes for one of
the rest, which is what the entry then spans and what `Model::tensor` returns
(`open_exact_iff`).

JSON is read by serde_json, as for the other reader of shards.

Key definitions: `Shard.open`, `Model.open`, `Model.tensor`, `headerShape`.
Key theorems: `readEntry_spec`, `readFields_spec`, `tensor_eq`, `open_exact_iff`.
-/
import Mathlib.Data.List.AList
import Siphon.Lib.Utf8
import Siphon.Qwen.Decode

namespace Siphon
namespace Qwen
namespace Safetensors

open U64 Fallible Stloader

/-! ### Shards -/

/-- `Value::get` -/
def get (v : Value) (key : String) : Option Value := v.asObject?.bind (·.lookup key)

/-- `iter().product()` of `u64` or `usize`, which wraps -/
def product (shape : List ℕ) : ℕ := shape.foldl (fun n d => n * d % 2 ^ 64) 1

/-- `Entry`, with its range in the file -/
structure Entry where
  dtype : Dtype
  shape : List ℕ
  start : ℕ
  stop : ℕ

/-- `Entry::numel` -/
def Entry.numel (e : Entry) : ℕ := product e.shape

/-- `BTreeMap<String, Entry>` -/
abbrev Tensors := AList fun _ : String => Entry

structure Shard where
  path : String
  fileSize : ℕ
  dataStart : ℕ
  tensors : Tensors

/-- What is wrong with an entry. -/
inductive EntryError where
  | noDtype
  | unsupported (dtype : String)
  | noShape
  | nonInteger
  | noOffsets
  | notPair
  | badOffset
  | reversed (start stop : ℕ)
  | sizeOverflows
  | spans (span : ℕ) (shape : List ℕ) (dtype : Dtype) (expected : ℕ)
  | startOverflows
  | endOverflows
  | beyond (stop fileSize : ℕ)

inductive OpenError where
  | short (e : String)
  | lengthOverflows (n : ℕ)
  | lengthOverruns (n fileSize : ℕ)
  | badJson (e : String)
  | notObject
  | entry (name : String) (e : EntryError)

def EntryError.message (name : String) : EntryError → String
  | noDtype => name ++ " has no dtype"
  | unsupported dtype => name ++ " has unsupported dtype " ++ dtype
  | noShape => name ++ " has no shape"
  | nonInteger => name ++ " has a non-integer shape"
  | noOffsets => name ++ " has no data_offsets"
  | notPair => name ++ " data_offsets is not a pair"
  | badOffset => name ++ " bad offset"
  | reversed start stop => name ++ " data_offsets are reversed (" ++ toString start ++ " > " ++ toString stop ++ ")"
  | sizeOverflows => name ++ " numel*size overflows"
  | spans span shape dtype expected =>
    name ++ " spans " ++ toString span ++ " bytes but shape " ++ toString shape ++ " of " ++ dtype.asStr ++
      " needs " ++ toString expected
  | startOverflows => name ++ " start overflows"
  | endOverflows => name ++ " end overflows"
  | beyond stop fileSize =>
    name ++ " ends at " ++ toString stop ++ " but the file is " ++ toString fileSize ++ " bytes"

def OpenError.message (path : String) (e : OpenError) : String :=
  path ++ ": " ++
    match e with
    | short e => "cannot read the 8-byte header length: " ++ e
    | lengthOverflows n => "header length " ++ toString n ++ " overflows"
    | lengthOverruns n fileSize =>
      "header claims " ++ toString n ++ " bytes but the file is only " ++ toString fileSize ++ " bytes"
    | badJson e => "header is not valid JSON: " ++ e
    | notObject => "header is not a JSON object"
    | entry name e => e.message name

/-- A dimension, the greatest value if it is none. -/
def dimension (v : Value) : ℕ := v.asU64?.getD maxValue

/-- The shape of an entry, as it is read. -/
def shapeOf (v : Value) : Option (List ℕ) := ((get v "shape").bind Value.asArray?).map (·.map dimension)

/-- The body of the loop for an entry other than the metadata. -/
def readEntry (dataStart fileSize : ℕ) (v : Value) : Except EntryError Entry := do
  let dtypeStr ← orElse .noDtype ((get v "dtype").bind Value.asStr?)
  let dtype ← orElse (.unsupported dtypeStr) (Dtype.parse dtypeStr)
  let shape ← orElse .noShape (shapeOf v)
  if maxValue ∈ shape then .error .nonInteger
  else do
    let offs ← orElse .noOffsets ((get v "data_offsets").bind Value.asArray?)
    match offs with
    | [o₀, o₁] => do
      let relStart ← orElse .badOffset o₀.asU64?
      let relStop ← orElse .badOffset o₁.asU64?
      if relStop < relStart then .error (.reversed relStart relStop)
      else do
        let span := relStop - relStart
        let expected ← orElse .sizeOverflows (checkedMul (product shape) dtype.size)
        if span ≠ expected then .error (.spans span shape dtype expected)
        else do
          let start ← orElse .startOverflows (checkedAdd dataStart relStart)
          let stop ← orElse .endOverflows (checkedAdd dataStart relStop)
          if fileSize < stop then .error (.beyond stop fileSize) else .ok ⟨dtype, shape, start, stop⟩
    | _ => .error .notPair

/-- The loop over the entries. -/
def readFields (dataStart fileSize : ℕ) (fields : List (String × Value)) (tensors : Tensors) :
    Except OpenError Tensors :=
  fields.foldlM (fun tensors (name, v) =>
    if name = "__metadata__" then .ok tensors
    else do
      let e ← (readEntry dataStart fileSize v).mapError (.entry name)
      .ok (tensors.insert name e)) tensors

section Open

variable (json : SerdeJson)

/-- `Shard::open`, after the file has been opened -/
def Shard.open (f : ShardFile) : Except OpenError Shard := do
  let fileSize := f.bytes.length
  if fileSize < 8 then .error (.short "failed to fill whole buffer")
  else do
    let headerLen := fromLeBytes (f.bytes.take 8)
    let dataStart ← orElse (.lengthOverflows headerLen) (checkedAdd 8 headerLen)
    if fileSize < dataStart then .error (.lengthOverruns headerLen fileSize)
    else do
      let doc ← (json.fromSlice ((f.bytes.drop 8).take headerLen)).mapError .badJson
      let obj ← orElse .notObject doc.asObject?
      let tensors ← readFields dataStart fileSize obj ∅
      .ok ⟨f.path, fileSize, dataStart, tensors⟩

/-- The entries of a header. -/
def header (f : ShardFile) : List (String × Value) :=
  match json.fromSlice ((f.bytes.drop 8).take (fromLeBytes (f.bytes.take 8))) with
  | .ok doc => doc.asObject?.getD []
  | .error _ => []

/-- The shape that a header gives a tensor; of entries with one name the last
counts, as in any map. -/
def headerShape (f : ShardFile) (name : String) : Option (List ℕ) :=
  ((header json f).reverse.lookup name).bind shapeOf

/-! ### Models -/

/-- `Model`, with the whole files in memory -/
structure Model where
  shards : List Shard
  index : AList fun _ : String => ℕ × Entry
  bufs : List (List UInt8)

inductive ModelError where
  | noFiles
  | shard (path : String) (e : OpenError)
  | twice (name first second : String)
  | changed (path : String)

def ModelError.message (dir : String) : ModelError → String
  | noFiles => dir ++ ": no *.safetensors files"
  | shard path e => e.message path
  | twice name first second => name ++ " appears in both " ++ first ++ " and " ++ second
  | changed path => path ++ ": file changed while reading"

/-- A tensor of the shard `si` in the index. -/
def indexEntry (shards : List Shard) (path : String) (si : ℕ) (index : AList fun _ : String => ℕ × Entry)
    (e : Σ _ : String, Entry) : Except ModelError (AList fun _ : String => ℕ × Entry) :=
  match index.lookup e.1 with
  | some (prev, _) => .error (.twice e.1 ((shards[prev]?.map Shard.path).getD "") path)
  | none => .ok (index.insert e.1 (si, e.2))

/-- One file of the loop of `Model::open` -/
def Model.addFile (m : Model) (f : ShardFile) : Except ModelError Model := do
  let shard ← (Shard.open json f).mapError (.shard f.path)
  let byName := shard.tensors.entries.insertionSort fun a b => a.1 ≤ b.1
  let index ← byName.foldlM (indexEntry m.shards f.path m.shards.length) m.index
  if f.bytes.length ≠ shard.fileSize then .error (.changed f.path)
  else .ok ⟨m.shards ++ [shard], index, m.bufs ++ [f.bytes]⟩

/-- `Model::open`, of the files of a directory in the order of their paths -/
def Model.open (files : List ShardFile) : Except ModelError Model :=
  if files = [] then .error .noFiles else files.foldlM (Model.addFile json) ⟨[], ∅, []⟩

end Open

inductive TensorError where
  | noTensor (name : String)
  | decode (name : String) (e : DecodeError)
  | count (name : String) (n : ℕ) (shape : List ℕ) (numel : ℕ)

def TensorError.message : TensorError → String
  | noTensor name => "no tensor named " ++ name
  | decode name e => name ++ ": " ++ e.message
  | count name n shape numel =>
    name ++ ": decoded " ++ toString n ++ " values but the shape " ++ toString shape ++ " needs " ++ toString numel

/-- `&buf[start..stop]`, which panics outside of the buffer -/
def sliceOf (buf : List UInt8) (start stop : ℕ) : Option (List UInt8) :=
  if start ≤ stop ∧ stop ≤ buf.length then some ((buf.drop start).take (stop - start)) else none

/-- `Model::tensor`; `none` if it panics -/
def Model.tensor (m : Model) (name : String) : Option (Except TensorError (List ℕ)) :=
  match m.index.lookup name with
  | none => some (.error (.noTensor name))
  | some (si, e) => do
    let buf ← m.bufs[si]?
    let bytes ← sliceOf buf e.start e.stop
    match e.dtype.decode bytes with
    | .error err => some (.error (.decode name err))
    | .ok v => some (if v.length ≠ e.numel then .error (.count name v.length e.shape e.numel) else .ok v)

/-! ### What is read -/

/-- The product is the exact one but for multiples of `2 ^ 64`. -/
theorem foldl_product : ∀ (shape : List ℕ) (n : ℕ),
    shape.foldl (fun n d => n * d % 2 ^ 64) n % 2 ^ 64 = n * shape.prod % 2 ^ 64
  | [], n => by rw [List.foldl_nil, List.prod_nil, Nat.mul_one]
  | d :: shape, n => by
    rw [List.foldl_cons, foldl_product shape, List.prod_cons, Nat.mod_mul_mod, Nat.mul_assoc]

theorem product_lt : ∀ (shape : List ℕ) {n : ℕ}, n < 2 ^ 64 → shape.foldl (fun n d => n * d % 2 ^ 64) n < 2 ^ 64
  | [], _, h => h
  | _ :: shape, _, _ => product_lt shape (Nat.mod_lt _ (Nat.two_pow_pos 64))

theorem product_eq (shape : List ℕ) : product shape = shape.prod % 2 ^ 64 := by
  rw [← Nat.one_mul shape.prod, ← foldl_product, Nat.mod_eq_of_lt (product_lt shape (Nat.one_lt_two_pow (by decide)))]
  rfl

/-- What the checks of an entry leave: its range is in the file, and as long
as the wrapped product of its shape says. -/
structure Entry.Fits (fileSize : ℕ) (e : Entry) : Prop where
  start_le : e.start ≤ e.stop
  stop_le : e.stop ≤ fileSize
  wrapped : e.shape.prod % 2 ^ 64 * e.dtype.size = e.stop - e.start

theorem Dtype.size_pos (d : Dtype) : 0 < d.size := by
  cases d <;> decide

/-- The range is exact unless the product of the shape wraps. -/
theorem Entry.Fits.exact_iff {fileSize : ℕ} {e : Entry} (h : e.Fits fileSize) :
    e.shape.prod * e.dtype.size = e.stop - e.start ↔ e.shape.prod < 2 ^ 64 := by
  rw [← h.wrapped, Nat.mul_left_inj e.dtype.size_pos.ne']
  constructor
  · intro he
    rw [he]
    exact Nat.mod_lt _ (Nat.two_pow_pos 64)
  · exact fun hlt => (Nat.mod_eq_of_lt hlt).symm

theorem readEntry_spec {dataStart fileSize : ℕ} {v : Value} {e : Entry} (h : readEntry dataStart fileSize v = .ok e) :
    e.Fits fileSize ∧ shapeOf v = some e.shape := by
  unfold readEntry at h
  obtain ⟨_, -, h⟩ := bind_eq_ok h
  obtain ⟨dtype, -, h⟩ := bind_eq_ok h
  obtain ⟨shape, hshape, h⟩ := bind_eq_ok h
  by_cases hmax : maxValue ∈ shape
  · rw [if_pos hmax] at h
    cases h
  rw [if_neg hmax] at h
  obtain ⟨offs, -, h⟩ := bind_eq_ok h
  split at h
  · obtain ⟨relStart, -, h⟩ := bind_eq_ok h
    obtain ⟨relStop, -, h⟩ := bind_eq_ok h
    by_cases hrev : relStop < relStart
    · rw [if_pos hrev] at h
      cases h
    rw [if_neg hrev] at h
    obtain ⟨expected, hexp, h⟩ := bind_eq_ok h
    by_cases hspan : relStop - relStart ≠ expected
    · rw [if_pos hspan] at h
      cases h
    rw [if_neg hspan] at h
    obtain ⟨start, hstart, h⟩ := bind_eq_ok h
    obtain ⟨stop, hstop, h⟩ := bind_eq_ok h
    by_cases hend : fileSize < stop
    · rw [if_pos hend] at h
      cases h
    rw [if_neg hend] at h
    obtain rfl := Except.ok.inj h
    have hs := checkedAdd_eq_some (orElse_eq_ok hstart)
    have he := checkedAdd_eq_some (orElse_eq_ok hstop)
    have hbytes := checkedMul_eq_some (orElse_eq_ok hexp)
    rw [product_eq] at hbytes
    refine ⟨⟨?_, Nat.le_of_not_lt hend, ?_⟩, orElse_eq_ok hshape⟩
    · show start ≤ stop
      omega
    · show shape.prod % 2 ^ 64 * dtype.size = stop - start
      rw [← hbytes]
      omega
  · cases h

/-- The tensors of a header are its entries, the last of each name, and
others stay as they were. -/
theorem readFields_spec {dataStart fileSize : ℕ} {name : String} (hname : name ≠ "__metadata__") :
    ∀ {fields : List (String × Value)} {tensors tensors' : Tensors},
      readFields dataStart fileSize fields tensors = .ok tensors' →
      match fields.reverse.lookup name with
      | some v => ∃ e, readEntry dataStart fileSize v = .ok e ∧ tensors'.lookup name = some e
      | none => tensors'.lookup name = tensors.lookup name
  | [], tensors, tensors', h => by
    obtain rfl := Except.ok.inj h
    exact rfl
  | (key, v) :: fields, tensors, tensors', h => by
    unfold readFields at h
    rw [List.foldlM_cons] at h
    obtain ⟨tensors₁, hstep, h⟩ := bind_eq_ok h
    have ih := readFields_spec hname h
    rw [List.reverse_cons, List.lookup_append]
    cases hlater : fields.reverse.lookup name with
    | some w =>
      rw [hlater] at ih
      exact ih
    | none =>
      rw [hlater] at ih
      dsimp only at ih hstep
      rw [Option.none_or, List.lookup_cons, List.lookup_nil]
      by_cases hkey : name = key
      · subst hkey
        rw [if_neg hname] at hstep
        obtain ⟨e, he, hstep⟩ := bind_eq_ok hstep
        obtain rfl := Except.ok.inj hstep
        rw [beq_self_eq_true]
        exact ⟨e, mapError_eq_ok he, ih.trans (AList.lookup_insert _)⟩
      · rw [beq_eq_false_iff_ne.mpr hkey]
        dsimp only
        rw [ih]
        split_ifs at hstep with hmeta
        · rw [Except.ok.inj hstep]
        · obtain ⟨e, he, hstep⟩ := bind_eq_ok hstep
          rw [← Except.ok.inj hstep, AList.lookup_insert_ne hkey]

/-- The metadata is no tensor. -/
theorem readFields_metadata {dataStart fileSize : ℕ} {fields : List (String × Value)} {tensors tensors' : Tensors}
    (h : readFields dataStart fileSize fields tensors = .ok tensors') (hnone : tensors.lookup "__metadata__" = none) :
    tensors'.lookup "__metadata__" = none := by
  apply foldlM_ok (P := fun tensors : Tensors => tensors.lookup "__metadata__" = none) _ hnone h
  intro tensors a tensors' ht hstep
  dsimp only at hstep
  split_ifs at hstep with hmeta
  · rwa [← Except.ok.inj hstep]
  · obtain ⟨e, -, hstep⟩ := bind_eq_ok hstep
    rwa [← Except.ok.inj hstep, AList.lookup_insert_ne (Ne.symm hmeta)]

section Open

variable {json : SerdeJson} {f : ShardFile} {shard : Shard}

/-- A shard has the tensors of the header of its file. -/
theorem open_eq_ok (h : Shard.open json f = .ok shard) : shard.fileSize = f.bytes.length ∧
    readFields shard.dataStart shard.fileSize (header json f) ∅ = .ok shard.tensors := by
  unfold Shard.open at h
  dsimp only at h
  by_cases hshort : f.bytes.length < 8
  · rw [if_pos hshort] at h
    cases h
  rw [if_neg hshort] at h
  obtain ⟨dataStart, -, h⟩ := bind_eq_ok h
  by_cases hover : f.bytes.length < dataStart
  · rw [if_pos hover] at h
    cases h
  rw [if_neg hover] at h
  obtain ⟨doc, hdoc, h⟩ := bind_eq_ok h
  obtain ⟨obj, hobj, h⟩ := bind_eq_ok h
  obtain ⟨tensors, htensors, h⟩ := bind_eq_ok h
  obtain rfl := Except.ok.inj h
  refine ⟨rfl, ?_⟩
  unfold header
  rw [mapError_eq_ok hdoc]
  dsimp only
  rwa [orElse_eq_ok hobj]

/-- A tensor of a shard passed its checks, and has the shape of the header. -/
theorem open_tensor (h : Shard.open json f = .ok shard) {name : String} {e : Entry}
    (he : shard.tensors.lookup name = some e) :
    e.Fits f.bytes.length ∧ name ≠ "__metadata__" ∧ headerShape json f name = some e.shape := by
  obtain ⟨hsize, hfields⟩ := open_eq_ok h
  have hname : name ≠ "__metadata__" := by
    rintro rfl
    rw [readFields_metadata hfields (AList.lookup_empty _)] at he
    cases he
  have hspec := readFields_spec hname hfields
  unfold headerShape
  cases hv : (header json f).reverse.lookup name with
  | none =>
    rw [hv] at hspec
    cases he.symm.trans (hspec.trans (AList.lookup_empty _))
  | some v =>
    rw [hv] at hspec
    obtain ⟨e', hread, he'⟩ := hspec
    obtain rfl := Option.some.inj (he.symm.trans he')
    obtain ⟨hfits, hshape⟩ := readEntry_spec hread
    exact ⟨hsize ▸ hfits, hname, hshape⟩

/-- Every shape of the header is that of a tensor. -/
theorem open_shape (h : Shard.open json f = .ok shard) {name : String} (hname : name ≠ "__metadata__")
    {shape : List ℕ} (hshape : headerShape json f name = some shape) :
    ∃ e, shard.tensors.lookup name = some e ∧ e.shape = shape := by
  have hspec := readFields_spec hname (open_eq_ok h).2
  obtain ⟨v, hv, hof⟩ := Option.bind_eq_some_iff.mp hshape
  rw [hv] at hspec
  obtain ⟨e, hread, he⟩ := hspec
  exact ⟨e, he, Option.some.inj ((readEntry_spec hread).2.symm.trans hof)⟩

end Open

/-! ### What is decoded -/

/-- The tensors of a file are in the index, with the file's bytes. -/
def Indexed (json : SerdeJson) (m : Model) (f : ShardFile) : Prop :=
  ∃ shard, Shard.open json f = .ok shard ∧ ∀ name e, shard.tensors.lookup name = some e →
    ∃ si, m.index.lookup name = some (si, e) ∧ m.bufs[si]? = some f.bytes

/-- The tensors of a shard are added to the index, and nothing in it changes. -/
theorem foldlM_indexEntry {shards : List Shard} {path : String} {si : ℕ} : ∀ {es : List (Σ _ : String, Entry)}
    {index index' : AList fun _ : String => ℕ × Entry}, es.foldlM (indexEntry shards path si) index = .ok index' →
    (∀ name r, index.lookup name = some r → index'.lookup name = some r) ∧
      ∀ e ∈ es, index'.lookup e.1 = some (si, e.2)
  | [], index, index', h => by
    obtain rfl := Except.ok.inj h
    exact ⟨fun _ _ hr => hr, fun _ he => nomatch he⟩
  | e :: es, index, index', h => by
    rw [List.foldlM_cons] at h
    obtain ⟨index₁, hstep, h⟩ := bind_eq_ok h
    obtain ⟨hkeep, hnew⟩ := foldlM_indexEntry h
    unfold indexEntry at hstep
    cases hfree : index.lookup e.1 with
    | some r =>
      rw [hfree] at hstep
      cases hstep
    | none =>
      rw [hfree] at hstep
      obtain rfl := Except.ok.inj hstep
      refine ⟨fun name r hr => hkeep name r ?_, List.forall_mem_cons.mpr ⟨hkeep _ _ (AList.lookup_insert _), hnew⟩⟩
      have hne : name ≠ e.1 := by
        rintro rfl
        cases hfree.symm.trans hr
      rw [AList.lookup_insert_ne hne, hr]

theorem addFile_spec {json : SerdeJson} {m m' : Model} {f : ShardFile} (h : m.addFile json f = .ok m')
    (hlen : m.bufs.length = m.shards.length) : m'.bufs.length = m'.shards.length ∧ Indexed json m' f ∧
      ∀ g, Indexed json m g → Indexed json m' g := by
  unfold Model.addFile at h
  obtain ⟨shard, hshard, h⟩ := bind_eq_ok h
  dsimp only at h
  obtain ⟨index, hindex, h⟩ := bind_eq_ok h
  obtain ⟨hkeep, hnew⟩ := foldlM_indexEntry hindex
  split_ifs at h with hsize
  obtain rfl := Except.ok.inj h
  refine ⟨by rw [List.length_append, List.length_append, hlen]; rfl, ⟨shard, mapError_eq_ok hshard, ?_⟩, ?_⟩
  · intro name e he
    refine ⟨m.shards.length, hnew ⟨name, e⟩ ((List.mem_insertionSort _).mpr (AList.mem_lookup_iff.mp he)), ?_⟩
    rw [← hlen, List.getElem?_concat_length]
  · rintro g ⟨shard', hshard', hg⟩
    refine ⟨shard', hshard', fun name e he => ?_⟩
    obtain ⟨si, hsi, hbuf⟩ := hg name e he
    refine ⟨si, hkeep _ _ hsi, ?_⟩
    rw [List.getElem?_append_left (List.getElem?_eq_some_iff.mp hbuf).1, hbuf]

/-- Every file of a model is in its index. -/
theorem foldlM_addFile {json : SerdeJson} : ∀ {files : List ShardFile} {m m' : Model},
    files.foldlM (Model.addFile json) m = .ok m' → m.bufs.length = m.shards.length →
    (∀ g, Indexed json m g → Indexed json m' g) ∧ ∀ f ∈ files, Indexed json m' f
  | [], m, m', h, _ => by
    obtain rfl := Except.ok.inj h
    exact ⟨fun _ hg => hg, fun _ hf => nomatch hf⟩
  | f :: files, m, m', h, hlen => by
    rw [List.foldlM_cons] at h
    obtain ⟨m₁, hstep, h⟩ := bind_eq_ok h
    obtain ⟨hlen₁, hf, hkeep₁⟩ := addFile_spec hstep hlen
    obtain ⟨hkeep, hfiles⟩ := foldlM_addFile h hlen₁
    exact ⟨fun g hg => hkeep g (hkeep₁ g hg), List.forall_mem_cons.mpr ⟨hkeep f hf, hfiles⟩⟩

/-- A tensor of a model is decoded to as many values as the wrapped product of
its shape says. -/
theorem tensor_eq {json : SerdeJson} {files : List ShardFile} {m : Model} (hm : Model.open json files = .ok m)
    {f : ShardFile} (hf : f ∈ files) {shard : Shard} (h : Shard.open json f = .ok shard) {name : String} {e : Entry}
    (he : shard.tensors.lookup name = some e) :
    ∃ v, m.tensor name = some (.ok v) ∧ v.length = e.shape.prod % 2 ^ 64 := by
  have hfold : files.foldlM (Model.addFile json) ⟨[], ∅, []⟩ = .ok m := by
    unfold Model.open at hm
    rwa [if_neg (List.ne_nil_of_mem hf)] at hm
  obtain ⟨shard', hshard', hindex⟩ := (foldlM_addFile hfold rfl).2 f hf
  obtain rfl := Except.ok.inj (h.symm.trans hshard')
  obtain ⟨si, hsi, hbuf⟩ := hindex name e he
  obtain ⟨hfits, -⟩ := open_tensor h he
  have hstart := hfits.start_le
  have hstop := hfits.stop_le
  obtain ⟨bytes, hslice, hbytes⟩ : ∃ bytes, sliceOf f.bytes e.start e.stop = some bytes ∧
      bytes.length = e.shape.prod % 2 ^ 64 * e.dtype.size := by
    refine ⟨_, if_pos ⟨hstart, hstop⟩, ?_⟩
    rw [hfits.wrapped, List.length_take, List.length_drop]
    omega
  have hdecode := decode_eq_ok (hbytes ▸ Nat.dvd_mul_left e.dtype.size _)
  rw [hbytes, Nat.mul_div_cancel _ e.dtype.size_pos] at hdecode
  have hcount : ((List.range (e.shape.prod % 2 ^ 64)).map fun i =>
      e.dtype.decodeElement (e.dtype.slice bytes i)).length = e.shape.prod % 2 ^ 64 := by
    rw [List.length_map, List.length_range]
  have hnumel : e.numel = e.shape.prod % 2 ^ 64 := product_eq e.shape
  refine ⟨_, ?_, hcount⟩
  unfold Model.tensor
  rw [hsi]
  dsimp only
  rw [hbuf, Option.bind_eq_bind, Option.bind_some, hslice, Option.bind_some, hdecode]
  dsimp only
  rw [hcount, hnumel, if_neg (not_not.mpr rfl)]

/-! ### The tensors of an opened model -/

/-- The bytes of every tensor are in its file. -/
def Backed (m : Model) : Prop :=
  m.bufs.length = m.shards.length ∧
    ∀ name si e, m.index.lookup name = some (si, e) → ∃ buf, m.bufs[si]? = some buf ∧ e.Fits buf.length

/-- What the index gets from a shard. -/
theorem lookup_indexEntry {shards : List Shard} {path : String} {si : ℕ} {name : String} {r : ℕ × Entry} :
    ∀ {es : List (Σ _ : String, Entry)} {index index' : AList fun _ : String => ℕ × Entry},
      es.foldlM (indexEntry shards path si) index = .ok index' → index'.lookup name = some r →
      index.lookup name = some r ∨ ⟨name, r.2⟩ ∈ es ∧ r.1 = si
  | [], index, index', h, hr => by
    obtain rfl := Except.ok.inj h
    exact .inl hr
  | e :: es, index, index', h, hr => by
    rw [List.foldlM_cons] at h
    obtain ⟨index₁, hstep, h⟩ := bind_eq_ok h
    rcases lookup_indexEntry h hr with hold | ⟨hmem, hsi⟩
    · unfold indexEntry at hstep
      cases hfree : index.lookup e.1 with
      | some prev =>
        rw [hfree] at hstep
        cases hstep
      | none =>
        rw [hfree] at hstep
        obtain rfl := Except.ok.inj hstep
        by_cases hne : name = e.1
        · subst hne
          rw [AList.lookup_insert] at hold
          obtain rfl := Option.some.inj hold
          exact .inr ⟨List.mem_cons_self, rfl⟩
        · rw [AList.lookup_insert_ne hne] at hold
          exact .inl hold
    · exact .inr ⟨List.mem_cons_of_mem _ hmem, hsi⟩

theorem backed_addFile {json : SerdeJson} {m m' : Model} {f : ShardFile} (hm : Backed m)
    (h : m.addFile json f = .ok m') : Backed m' := by
  obtain ⟨hlen', -, -⟩ := addFile_spec h hm.1
  unfold Model.addFile at h
  obtain ⟨shard, hshard, h⟩ := bind_eq_ok h
  obtain ⟨index, hindex, h⟩ := bind_eq_ok h
  split_ifs at h with hsize
  obtain rfl := Except.ok.inj h
  refine ⟨hlen', fun name si e he => ?_⟩
  rcases lookup_indexEntry hindex he with hold | ⟨hmem, hsi⟩
  · obtain ⟨buf, hbuf, hfits⟩ := hm.2 name si e hold
    exact ⟨buf, (List.getElem?_append_left (List.getElem?_eq_some_iff.mp hbuf).1).trans hbuf, hfits⟩
  · have hlookup : shard.tensors.lookup name = some e :=
      AList.mem_lookup_iff.mpr ((List.mem_insertionSort _).mp hmem)
    refine ⟨f.bytes, ?_, (open_tensor (mapError_eq_ok hshard) hlookup).1⟩
    show (m.bufs ++ [f.bytes])[si]? = some f.bytes
    rw [show si = m.bufs.length from hsi.trans hm.1.symm, List.getElem?_concat_length]

theorem backed_open {json : SerdeJson} {files : List ShardFile} {m : Model}
    (hm : Model.open json files = .ok m) : Backed m := by
  unfold Model.open at hm
  split_ifs at hm with hnil
  refine foldlM_ok (fun m f m' hm h => backed_addFile hm h) ⟨rfl, fun name si e he => ?_⟩ hm
  rw [AList.lookup_empty] at he
  exact absurd he (by simp)

/-- No tensor is read outside of its file. -/
theorem tensor_isSome {m : Model} (hm : Backed m) (name : String) : ∃ r, m.tensor name = some r := by
  unfold Model.tensor
  cases he : m.index.lookup name with
  | none => exact ⟨_, rfl⟩
  | some r =>
    obtain ⟨buf, hbuf, hfits⟩ := hm.2 name r.1 r.2 he
    have hslice : sliceOf buf r.2.start r.2.stop = some ((buf.drop r.2.start).take (r.2.stop - r.2.start)) :=
      if_pos ⟨hfits.start_le, hfits.stop_le⟩
    simp only [hbuf, hslice, Option.bind_eq_bind, Option.bind_some]
    split
    · exact ⟨_, rfl⟩
    · exact ⟨_, rfl⟩

/-- **When a shard is validated exactly.** A file that is accepted: the ranges
and the decoded tensors are those of the exact products of the shapes exactly
if none of these is `2 ^ 64` or more. -/
theorem open_exact_iff (json : SerdeJson) (f : ShardFile) {shard : Shard} (h : Shard.open json f = .ok shard) :
    (∀ name e, shard.tensors.lookup name = some e →
      e.shape.prod * e.dtype.size = e.stop - e.start ∧ e.start ≤ e.stop ∧ e.stop ≤ f.bytes.length ∧
      ∀ files m, f ∈ files → Model.open json files = .ok m →
        ∃ v, m.tensor name = some (.ok v) ∧ v.length = e.shape.prod) ↔
    ∀ name shape, name ≠ "__metadata__" → headerShape json f name = some shape → shape.prod < 2 ^ 64 := by
  constructor
  · intro hexact name shape hname hshape
    obtain ⟨e, he, rfl⟩ := open_shape h hname hshape
    exact (open_tensor h he).1.exact_iff.mp (hexact name e he).1
  · intro hsmall name e he
    obtain ⟨hfits, hname, hshape⟩ := open_tensor h he
    have hlt := hsmall name e.shape hname hshape
    refine ⟨hfits.exact_iff.mpr hlt, hfits.start_le, hfits.stop_le, fun files m hf hm => ?_⟩
    obtain ⟨v, hv, hlen⟩ := tensor_eq hm hf h he
    exact ⟨v, hv, hlen.trans (Nat.mod_eq_of_lt hlt)⟩

/-! ### Two files -/

/-- The entry of a tensor that begins the data. -/
def firstEntry (dtype : String) (shape : List UInt64) (stop : UInt64) : Value :=
  .object [("data_offsets", .array [.number (.posInt 0), .number (.posInt stop)]), ("dtype", .string dtype),
    ("shape", .array (shape.map fun d => .number (.posInt d)))]

/-- serde_json on the text of one tensor. -/
def oneSerde (text : List Char) (entry : Value) : SerdeJson where
  fromSlice raw :=
    if raw = Utf8.encode text then .ok (.object [("w", entry)]) else .error "expected value at line 1 column 1"
  display _ := "null"

/-- Two halves. -/
def pairJson : List Char := "\x7b\"w\":\x7b\"dtype\":\"F16\",\"shape\":[2],\"data_offsets\":[0,4]\x7d\x7d".toList

def pairFile : ShardFile where
  path := "model.safetensors"
  bytes := 54 :: List.replicate 7 0 ++ Utf8.encode pairJson ++ [0x00, 0x3c, 0x00, 0xc0]
  size_le := by decide

/-- No bytes, and dimensions that multiply to `2 ^ 64`. -/
def hugeJson : List Char :=
  "\x7b\"w\":\x7b\"dtype\":\"F32\",\"shape\":[4294967296,4294967296],".toList ++
    "\"data_offsets\":[0,0]\x7d\x7d".toList

def hugeFile : ShardFile where
  path := "model.safetensors"
  bytes := 74 :: List.replicate 7 0 ++ Utf8.encode hugeJson
  size_le := by decide

/-- The two halves are read as two values. -/
theorem open_exact_iff_pair : ∃ shard, Shard.open (oneSerde pairJson (firstEntry "F16" [2] 4)) pairFile = .ok shard ∧
    ∀ name e, shard.tensors.lookup name = some e → e.shape.prod * e.dtype.size = e.stop - e.start := by
  have hread : (Shard.open (oneSerde pairJson (firstEntry "F16" [2] 4)) pairFile).toOption.isSome = true := by
    decide
  have hraw : (pairFile.bytes.drop 8).take (fromLeBytes (pairFile.bytes.take 8)) = Utf8.encode pairJson := by
    decide
  have hheader : header (oneSerde pairJson (firstEntry "F16" [2] 4)) pairFile = [("w", firstEntry "F16" [2] 4)] := by
    unfold header
    rw [hraw]
    unfold oneSerde
    dsimp only
    rw [if_pos rfl]
    rfl
  cases hopen : Shard.open (oneSerde pairJson (firstEntry "F16" [2] 4)) pairFile with
  | error e =>
    rw [hopen] at hread
    cases hread
  | ok shard =>
    refine ⟨shard, rfl, fun name e he => ((open_exact_iff _ pairFile hopen).mpr ?_ name e he).1⟩
    intro name shape _ hshape
    obtain ⟨v, hv, hof⟩ := Option.bind_eq_some_iff.mp hshape
    rw [hheader, List.reverse_singleton, List.lookup_cons, List.lookup_nil] at hv
    split at hv
    · obtain rfl := Option.some.inj hv
      have hpair : shapeOf (firstEntry "F16" [2] 4) = some [2] := by decide
      obtain rfl := Option.some.inj (hpair.symm.trans hof)
      decide
    · cases hv

/-- The shape of `2 ^ 64` elements is accepted for no bytes. -/
theorem huge_shape_accepted : ¬ ∀ (json : SerdeJson) (f : ShardFile) (shard : Shard), Shard.open json f = .ok shard →
    ∀ name e, shard.tensors.lookup name = some e → e.shape.prod * e.dtype.size = e.stop - e.start := by
  intro h
  have hread : (Shard.open (oneSerde hugeJson (firstEntry "F32" [4294967296, 4294967296] 0)) hugeFile).toOption.map
      (fun shard => (shard.tensors.lookup "w").map fun e => (e.shape, e.start, e.stop)) =
      some (some ([4294967296, 4294967296], 82, 82)) := by
    decide
  obtain ⟨shard, hopen, htensor⟩ := Option.map_eq_some_iff.mp hread
  obtain ⟨e, he, hentry⟩ := Option.map_eq_some_iff.mp htensor
  obtain ⟨hshape, hstart, hstop⟩ : e.shape = _ ∧ e.start = 82 ∧ e.stop = 82 := by
    simpa only [Prod.mk.injEq] using hentry
  have hexact := h _ _ shard (toOption_eq_some hopen) "w" e he
  rw [hshape, hstart, hstop] at hexact
  have hzero := (Nat.mul_eq_zero.mp hexact).resolve_right e.dtype.size_pos.ne'
  exact absurd hzero (by decide)

end Safetensors
end Qwen
end Siphon
