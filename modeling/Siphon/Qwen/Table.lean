/-
# A checkpoint of one file

A table of names and shapes as a shard: a header that gives each tensor its
shape and the first bytes of the data, which are zero. What is in the table is
what the opened model has (`open_table`), so a load of such a checkpoint can be
followed on the table.

Key definitions: `Table.file`, `Table.serde`.
Key theorem: `open_table`.
-/
import Siphon.Qwen.Checkpoint

namespace Siphon
namespace Qwen
namespace Checkpoint

open U64 Fallible Stloader Safetensors

/-- Tensors of `f32`, by their names and shapes. -/
abbrev Table := List (String × List ℕ)

/-! ### The file -/

/-- `u64::to_le_bytes` -/
def toLeBytes (n : ℕ) : List UInt8 := (List.range 8).map fun i => UInt8.ofNat (n / 256 ^ i)

theorem length_toLeBytes (n : ℕ) : (toLeBytes n).length = 8 := by simp [toLeBytes]

theorem fromLeBytes_toLeBytes {n : ℕ} (h : n < 2 ^ 64) : fromLeBytes (toLeBytes n) = n := by
  have hlist : List.range 8 = [0, 1, 2, 3, 4, 5, 6, 7] := rfl
  simp only [toLeBytes, hlist, List.map_cons, List.map_nil, fromLeBytes, List.foldr_cons, List.foldr_nil,
    UInt8.toNat_ofNat']
  omega

def tensorJson (name : String) (shape : List ℕ) : List Char :=
  '"' :: name.toList ++ "\":\x7b\"data_offsets\":[0,".toList ++ Nat.toDigits 10 (4 * shape.prod) ++
    "],\"dtype\":\"F32\",\"shape\":[".toList ++ [','].intercalate (shape.map (Nat.toDigits 10)) ++ [']', '\x7d']

/-- The header of the table, as text. -/
def Table.json (t : Table) : List Char := '\x7b' :: [','].intercalate (t.map fun e => tensorJson e.1 e.2) ++ ['\x7d']

/-- The header of the table, as it is parsed. -/
def Table.fields (t : Table) : List (String × Value) :=
  t.map fun e => (e.1, firstEntry "F32" (e.2.map UInt64.ofNat) (UInt64.ofNat (4 * e.2.prod)))

def Table.header (t : Table) : List UInt8 := Utf8.encode t.json

def Table.bytes (t : Table) (zeros : ℕ) : List UInt8 :=
  toLeBytes t.header.length ++ (t.header ++ List.replicate zeros 0)

/-- The table as a file, with the number of zeros it needs. -/
def Table.file (t : Table) (zeros : ℕ) (h : 8 + t.header.length + zeros ≤ maxValue) : ShardFile where
  path := "model.safetensors"
  bytes := t.bytes zeros
  size_le := by simpa [Table.bytes, length_toLeBytes, Nat.add_assoc] using h

/-- serde_json on a configuration and on the header of the table. -/
def Table.serde (t : Table) (config : String) (root : Value) : SerdeJson where
  fromSlice raw :=
    if raw = Utf8.encode config.toList then .ok root
    else if raw = t.header then .ok (.object t.fields)
    else .error "expected value at line 1 column 1"
  display _ := "null"

/-- Names that come once and shapes that fit into the zeros. -/
structure Table.Fits (t : Table) (zeros : ℕ) : Prop where
  nodup : (t.map Prod.fst).Nodup
  named : "__metadata__" ∉ t.map Prod.fst
  dims : ∀ e ∈ t, ∀ d ∈ e.2, d < maxValue
  span : ∀ e ∈ t, 4 * e.2.prod ≤ zeros

/-- A tensor of the table, behind the header. -/
def Table.entry (t : Table) (shape : List ℕ) : Entry :=
  ⟨.f32, shape, 8 + t.header.length, 8 + t.header.length + 4 * shape.prod⟩

variable {t : Table} {zeros : ℕ}

/-- Texts of bounded lengths, with commas between them. -/
theorem length_intercalate_le {k : ℕ} : ∀ {ls : List (List Char)}, (∀ l ∈ ls, l.length ≤ k) →
    ([','].intercalate ls).length ≤ ls.length * (k + 1)
  | [], _ => by simp
  | [l], h => by
    have := h l List.mem_cons_self
    simp
    omega
  | l :: l' :: ls, h => by
    have hl := h l List.mem_cons_self
    have ih := length_intercalate_le fun x hx => h x (List.mem_cons_of_mem l hx)
    rw [List.intercalate_cons_cons, List.length_append, List.length_append]
    simp only [List.length_cons, List.length_nil, Nat.succ_mul] at ih ⊢
    omega

/-- A header is short if its entries are. -/
theorem length_header_le {k : ℕ} (h : ∀ e ∈ t, (tensorJson e.1 e.2).length ≤ k) :
    t.header.length ≤ 4 * (t.length * (k + 1) + 2) := by
  have hjson : ([','].intercalate (t.map fun e => tensorJson e.1 e.2)).length ≤ t.length * (k + 1) := by
    apply (length_intercalate_le _).trans_eq (by rw [List.length_map])
    intro l hl
    obtain ⟨e, he, rfl⟩ := List.mem_map.mp hl
    exact h e he
  calc t.header.length ≤ 4 * t.json.length := Utf8.length_encode_le _
    _ ≤ 4 * (t.length * (k + 1) + 2) := by
      have hlen : t.json.length = ([','].intercalate (t.map fun e => tensorJson e.1 e.2)).length + 2 := by
        simp [Table.json]
      omega

theorem serde_config (t : Table) (config : String) (root : Value) :
    (t.serde config root).fromSlice (Utf8.encode config.toList) = .ok root := if_pos rfl

theorem serde_header {config : String} {root : Value} (h : t.header ≠ Utf8.encode config.toList) :
    (t.serde config root).fromSlice t.header = .ok (.object t.fields) := by
  unfold Table.serde
  dsimp only
  rw [if_neg h, if_pos rfl]

theorem json_cons (name : String) (shape : List ℕ) (t : Table) :
    ∃ rest, Table.json ((name, shape) :: t) = '\x7b' :: '"' :: (name.toList ++ rest) := by
  rcases t with - | ⟨e, t⟩ <;> simp [Table.json, tensorJson, List.intercalate]

/-- A header and a configuration that begin with different names are different texts. -/
theorem header_ne {name : String} {shape : List ℕ} {t : Table} {c c' : Char} {config : String}
    (hname : name.toList.take 1 = [c]) (hconfig : config.toList.take 3 = ['\x7b', '"', c']) (hne : c ≠ c') :
    Table.header ((name, shape) :: t) ≠ Utf8.encode config.toList := by
  intro heq
  obtain ⟨rest, hjson⟩ := json_cons name shape t
  obtain ⟨cs, hcs⟩ : ∃ cs, name.toList = c :: cs := by
    rcases hlist : name.toList with - | ⟨d, cs⟩
    · simp [hlist] at hname
    · exact ⟨cs, by simpa [hlist] using hname⟩
  have htext := congrArg Utf8.decodeLossy heq
  rw [Table.header, Utf8.decodeLossy_encode, Utf8.decodeLossy_encode, hjson, hcs] at htext
  rw [← htext] at hconfig
  simp only [List.cons_append, List.take_succ_cons, List.take_zero, List.cons.injEq, true_and, and_true] at hconfig
  exact hne hconfig

/-! ### Opening it -/

theorem product_of_lt {shape : List ℕ} (h : shape.prod < 2 ^ 64) : product shape = shape.prod := by
  rw [product_eq, Nat.mod_eq_of_lt h]

/-- The entry of a tensor passes its checks. -/
theorem readEntry_firstEntry {shape : List ℕ} {start size : ℕ} (hdims : ∀ d ∈ shape, d < maxValue)
    (hspan : start + 4 * shape.prod ≤ size) (hsize : size ≤ maxValue) :
    Safetensors.readEntry start size (firstEntry "F32" (shape.map UInt64.ofNat) (UInt64.ofNat (4 * shape.prod))) =
      .ok ⟨.f32, shape, start, start + 4 * shape.prod⟩ := by
  have hmax : maxValue = 2 ^ 64 - 1 := rfl
  have hprod : shape.prod < 2 ^ 64 := by omega
  have hstop : (UInt64.ofNat (4 * shape.prod)).toNat = 4 * shape.prod := by
    rw [UInt64.toNat_ofNat', Nat.mod_eq_of_lt (by omega)]
  have hdim : ∀ d ∈ shape, dimension (.number (.posInt (UInt64.ofNat d))) = d := by
    intro d hd
    have hlt := hdims d hd
    simp only [dimension, Value.asU64?, Option.getD_some, UInt64.toNat_ofNat']
    omega
  have hshape : Safetensors.shapeOf (firstEntry "F32" (shape.map UInt64.ofNat) (UInt64.ofNat (4 * shape.prod))) =
      some shape := by
    show some (((shape.map UInt64.ofNat).map fun d => Value.number (.posInt d)).map dimension) = some shape
    rw [List.map_map, List.map_map]
    exact congrArg some ((List.map_congr_left (g := id) hdim).trans (List.map_id shape))
  have hdtype : (get (firstEntry "F32" (shape.map UInt64.ofNat) (UInt64.ofNat (4 * shape.prod))) "dtype").bind
      Value.asStr? = some "F32" := rfl
  have hoffsets : (get (firstEntry "F32" (shape.map UInt64.ofNat) (UInt64.ofNat (4 * shape.prod))) "data_offsets").bind
      Value.asArray? = some [.number (.posInt 0), .number (.posInt (UInt64.ofNat (4 * shape.prod)))] := rfl
  have hnot : maxValue ∉ shape := fun hmem => absurd (hdims _ hmem) (Nat.lt_irrefl _)
  have hexpected : checkedMul (product shape) Safetensors.Dtype.f32.size = some (4 * shape.prod) := by
    rw [product_of_lt hprod, Nat.mul_comm 4]
    exact checkedMul_of_le (show shape.prod * 4 ≤ maxValue by omega)
  unfold Safetensors.readEntry
  rw [hdtype, hshape, hoffsets]
  simp only [orElse, ok_bind, Safetensors.Dtype.parse, if_neg hnot, Value.asU64?, hstop, UInt64.toNat_zero, Nat.not_lt_zero, if_false,
    Nat.sub_zero, hexpected, ne_eq, not_true_eq_false, checkedAdd_of_le (show start + 0 ≤ maxValue by omega),
    checkedAdd_of_le (show start + 4 * shape.prod ≤ maxValue by omega), if_neg (Nat.not_lt.mpr hspan), Nat.add_zero]

/-- The loop over the entries of a table. -/
theorem readFields_table {start size : ℕ} (hsize : size ≤ maxValue) : ∀ {t : Table} (tensors : Tensors),
    (t.map Prod.fst).Nodup → "__metadata__" ∉ t.map Prod.fst → (∀ e ∈ t, ∀ d ∈ e.2, d < maxValue) →
    (∀ e ∈ t, start + 4 * e.2.prod ≤ size) →
    ∃ tensors', readFields start size t.fields tensors = .ok tensors' ∧ ∀ name, tensors'.lookup name =
      ((t.lookup name).map fun shape => (⟨.f32, shape, start, start + 4 * shape.prod⟩ : Entry)).or (tensors.lookup name)
  | [], tensors, _, _, _, _ => ⟨tensors, rfl, fun _ => rfl⟩
  | (name, shape) :: t, tensors, hnodup, hmeta, hdims, hspan => by
    obtain ⟨hfresh, hnodup⟩ := List.nodup_cons.mp hnodup
    have hmeta' : name ≠ "__metadata__" ∧ "__metadata__" ∉ t.map Prod.fst := by
      rw [List.map_cons, List.mem_cons, not_or] at hmeta
      exact ⟨Ne.symm hmeta.1, hmeta.2⟩
    obtain ⟨hd, hdims⟩ := List.forall_mem_cons.mp hdims
    obtain ⟨hs, hspan⟩ := List.forall_mem_cons.mp hspan
    obtain ⟨tensors', hread, hlookup⟩ := readFields_table hsize
      (tensors.insert name ⟨.f32, shape, start, start + 4 * shape.prod⟩) hnodup hmeta'.2 hdims hspan
    refine ⟨tensors', ?_, fun other => ?_⟩
    · show List.foldlM _ tensors ((name, _) :: Table.fields t) = _
      rw [List.foldlM_cons]
      dsimp only
      rw [if_neg hmeta'.1, readEntry_firstEntry hd hs hsize]
      exact hread
    · rw [hlookup other, List.lookup_cons]
      by_cases hother : other = name
      · subst hother
        have hnone : t.lookup other = none := List.lookup_eq_none_iff.mpr fun e he => by
          simpa using fun h => hfresh (List.mem_map.mpr ⟨e, he, h.symm⟩)
        rw [hnone, beq_self_eq_true, AList.lookup_insert]
        rfl
      · rw [beq_eq_false_iff_ne.mpr hother, AList.lookup_insert_ne hother]

theorem open_table_shard {json : SerdeJson} (hsize : 8 + t.header.length + zeros ≤ maxValue) (ht : t.Fits zeros)
    (hjson : json.fromSlice t.header = .ok (.object t.fields)) :
    ∃ shard, Shard.open json (t.file zeros hsize) = .ok shard ∧ shard.fileSize = (t.file zeros hsize).bytes.length ∧
      ∀ name, shard.tensors.lookup name = (t.lookup name).map t.entry := by
  have hmax : maxValue = 2 ^ 64 - 1 := rfl
  have hlen : (t.file zeros hsize).bytes.length = 8 + t.header.length + zeros := by
    simp [Table.file, Table.bytes, length_toLeBytes, Nat.add_assoc]
  have htake : (t.file zeros hsize).bytes.take 8 = toLeBytes t.header.length :=
    List.take_left' (length_toLeBytes _)
  have hdrop : ((t.file zeros hsize).bytes.drop 8).take t.header.length = t.header := by
    show ((t.bytes zeros).drop 8).take t.header.length = t.header
    rw [Table.bytes, List.drop_left' (length_toLeBytes _), List.take_left' rfl]
  have hspan : ∀ e ∈ t, 8 + t.header.length + 4 * e.2.prod ≤ 8 + t.header.length + zeros :=
    fun e he => Nat.add_le_add_left (ht.span e he) _
  obtain ⟨tensors, hread, hlookup⟩ := readFields_table hsize ∅ ht.nodup ht.named ht.dims hspan
  refine ⟨⟨"model.safetensors", 8 + t.header.length + zeros, 8 + t.header.length, tensors⟩, ?_, hlen.symm, fun name => ?_⟩
  · have hshort : ¬ 8 + t.header.length + zeros < 8 := by omega
    have hover : ¬ 8 + t.header.length + zeros < 8 + t.header.length := by omega
    unfold Shard.open
    simp only [hlen, htake, fromLeBytes_toLeBytes (show t.header.length < 2 ^ 64 by omega), hdrop, hjson, if_neg hshort,
      checkedAdd_of_le (show 8 + t.header.length ≤ maxValue by omega), orElse, ok_bind, if_neg hover, Except.mapError,
      Value.asObject?, hread]
    rfl
  · rw [hlookup name, AList.lookup_empty, Option.or_none]
    rfl

/-- Tensors of different names go into the index. -/
theorem exists_indexEntry {shards : List Shard} {path : String} {si : ℕ} : ∀ {es : List (Σ _ : String, Entry)}
    {index : AList fun _ : String => ℕ × Entry}, (es.map Sigma.fst).Nodup → (∀ e ∈ es, index.lookup e.1 = none) →
    ∃ index', es.foldlM (indexEntry shards path si) index = .ok index'
  | [], index, _, _ => ⟨index, rfl⟩
  | e :: es, index, hnodup, hfree => by
    obtain ⟨hfresh, hnodup⟩ := List.nodup_cons.mp hnodup
    obtain ⟨hfirst, hfree⟩ := List.forall_mem_cons.mp hfree
    have hstep : indexEntry shards path si index e = .ok (index.insert e.1 (si, e.2)) := by
      unfold indexEntry
      rw [hfirst]
    have hrest : ∀ e' ∈ es, (index.insert e.1 (si, e.2)).lookup e'.1 = none := by
      intro e' he'
      have hne : e'.1 ≠ e.1 := fun h => hfresh (List.mem_map.mpr ⟨e', he', h⟩)
      rw [AList.lookup_insert_ne hne, hfree e' he']
    obtain ⟨index', hindex⟩ := exists_indexEntry hnodup hrest
    exact ⟨index', by rw [List.foldlM_cons, hstep]; exact hindex⟩

/-- The model holds the tensors of the table. -/
structure Table.Held (t : Table) (m : Safetensors.Model) : Prop where
  lookup : ∀ name, m.index.lookup name = (t.lookup name).map fun shape => (0, t.entry shape)
  tensor : ∀ name shape, t.lookup name = some shape → ∃ v, m.tensor name = some (.ok v) ∧ v.length = shape.prod

/-- The model of a table has its tensors. -/
theorem open_table {json : SerdeJson} (hsize : 8 + t.header.length + zeros ≤ maxValue) (ht : t.Fits zeros)
    (hjson : json.fromSlice t.header = .ok (.object t.fields)) :
    ∃ m, Model.open json [t.file zeros hsize] = .ok m ∧ t.Held m := by
  obtain ⟨shard, hshard, hfile, hlookup⟩ := open_table_shard hsize ht hjson
  have hperm := List.perm_insertionSort (fun a b : Σ _ : String, Entry => a.1 ≤ b.1) shard.tensors.entries
  have hnodup : ((shard.tensors.entries.insertionSort fun a b => a.1 ≤ b.1).map Sigma.fst).Nodup :=
    (hperm.map Sigma.fst).nodup_iff.mpr shard.tensors.nodupKeys
  obtain ⟨index, hindex⟩ : ∃ index, (shard.tensors.entries.insertionSort fun a b => a.1 ≤ b.1).foldlM
      (indexEntry [] "model.safetensors" 0) ∅ = .ok index := exists_indexEntry hnodup fun _ _ => AList.lookup_empty _
  have hopen : Model.open json [t.file zeros hsize] = .ok ⟨[shard], index, [(t.file zeros hsize).bytes]⟩ := by
    have hadd : Model.addFile json ⟨[], ∅, []⟩ (t.file zeros hsize) =
        .ok ⟨[shard], index, [(t.file zeros hsize).bytes]⟩ := by
      unfold Model.addFile
      simp only [hshard, Except.mapError, ok_bind, show (t.file zeros hsize).path = "model.safetensors" from rfl,
        List.length_nil, hindex, hfile, List.nil_append, ne_eq, not_true_eq_false, if_false]
    show [t.file zeros hsize].foldlM (Model.addFile json) ⟨[], ∅, []⟩ = _
    rw [List.foldlM_cons, hadd]
    rfl
  refine ⟨_, hopen, fun name => ?_, fun name shape hname => ?_⟩
  · show index.lookup name = _
    have hmap : (t.lookup name).map (fun shape => ((0 : ℕ), t.entry shape)) =
        ((t.lookup name).map t.entry).map fun e => (0, e) := by
      rw [Option.map_map]
      rfl
    rw [hmap, ← hlookup name]
    rcases he : shard.tensors.lookup name with - | e
    · rcases hr : index.lookup name with - | r
      · rfl
      · rcases lookup_indexEntry hindex hr with hold | ⟨hmem, -⟩
        · rw [AList.lookup_empty] at hold
          exact absurd hold (by simp)
        · have hfound := AList.mem_lookup_iff.mpr ((List.mem_insertionSort _).mp hmem)
          rw [he] at hfound
          exact absurd hfound (by simp)
    · exact (foldlM_indexEntry hindex).2 ⟨name, e⟩ ((List.mem_insertionSort _).mpr (AList.mem_lookup_iff.mp he))
  · have hprod : shape.prod < 2 ^ 64 := by
      obtain ⟨pre, post, rfl, -⟩ := List.lookup_eq_some_iff.mp hname
      have hspan := ht.span (name, shape) (by simp)
      have hmax : maxValue = 2 ^ 64 - 1 := rfl
      dsimp only at hspan
      omega
    have he : shard.tensors.lookup name = some (t.entry shape) := by rw [hlookup, hname]; rfl
    obtain ⟨v, hv, hlen⟩ := tensor_eq hopen List.mem_cons_self hshard he
    exact ⟨v, hv, hlen.trans (Nat.mod_eq_of_lt hprod)⟩

/-! ### What a load reads -/

section Reads

variable {m : Safetensors.Model} (hm : t.Held m)

include hm

theorem entry_of_table {name : String} {shape : List ℕ} (h : t.lookup name = some shape) :
    entry m name = some (t.entry shape) := by rw [entry, hm.lookup, h]; rfl

theorem axis_of_table {name : String} {d : ℕ} {ds : List ℕ} (h : t.lookup name = some (d :: ds)) :
    axis m name = some d := by rw [axis, entry_of_table hm h]; rfl

theorem want_of_table {name : String} {shape : List ℕ} {n : ℕ} (h : t.lookup name = some shape) (hn : shape.prod = n) :
    ∃ v, want m name n = .ok v := by
  obtain ⟨v, hv, hlen⟩ := hm.tensor name shape h
  refine ⟨v.map f32OfBits, ?_⟩
  unfold want
  rw [hv]
  exact if_neg (not_not.mpr (hlen.trans hn))

theorem names_of_table (hnodup : (t.map Prod.fst).Nodup) : (names m).Perm (t.map Prod.fst) := by
  have hsorted : (names m).Perm m.index.keys := List.perm_insertionSort _ _
  refine hsorted.trans ((List.perm_ext_iff_of_nodup m.index.nodupKeys hnodup).mpr fun name => ?_)
  have hkeys : name ∈ m.index.entries.keys ↔ (m.index.lookup name).isSome := AList.lookup_isSome.symm
  rw [hkeys, hm.lookup, Option.isSome_map, List.lookup_isSome_iff, List.mem_map]
  constructor
  · rintro ⟨e, he, h⟩
    exact ⟨e, he, (beq_iff_eq.mp h).symm⟩
  · rintro ⟨e, he, h⟩
    exact ⟨e, he, beq_iff_eq.mpr h.symm⟩

theorem detectPrefix_of_table (hnodup : (t.map Prod.fst).Nodup) {base : String}
    (h : (t.map Prod.fst).filterMap (stripSuffix "embed_tokens.weight") = [base]) : detectPrefix m = .ok base := by
  have hperm := (names_of_table hm hnodup).filterMap (stripSuffix "embed_tokens.weight")
  rw [h] at hperm
  unfold detectPrefix
  rw [List.perm_singleton.mp hperm]

end Reads

end Checkpoint
end Qwen
end Siphon
