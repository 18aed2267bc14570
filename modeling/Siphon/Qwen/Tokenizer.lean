/-
# The byte-level BPE tokenizer

`Tokenizer::from_file`, `encode` and `decode` of `gdn/src/tokenizer.rs`. The
file is read as a JSON document; the maps of the source are association
lists, and the order in which a hash map is walked is any order
(`IterationOrder`). The scan for added tokens runs for ever where one of them
is empty, so `encodeFrom` counts its passes and says nothing when they run
out.
-/
import Mathlib.Algebra.Group.Nat.Defs
import Mathlib.Data.List.AList
import Mathlib.Data.List.Sort
import Siphon.Lib.Fallible
import Siphon.Qwen.Nfc

namespace Siphon
namespace Qwen

open Fallible

/-! ### The byte alphabet -/

/-- The bytes that stand for themselves. -/
def printable : List ℕ := List.range' 33 94 ++ List.range' 161 12 ++ List.range' 174 82

/-- The code points of the bytes, with the next free one beyond 255. -/
def byteCodes : List ℕ → ℕ → List ℕ
  | [], _ => []
  | b :: bs, n => if b ∈ printable then b :: byteCodes bs n else (256 + n) :: byteCodes bs (n + 1)

/-- `byte_to_char_table` -/
def byteToCharTable : List Char := (byteCodes (List.range 256) 0).map Char.ofNat

/-- `char_to_byte` -/
def charToByte (ch : Char) : Option UInt8 := (byteToCharTable.idxOf? ch).map UInt8.ofNat

/-! ### The file -/

/-- A JSON document; of a number what `as_u64` says. -/
inductive Json where
  | null
  | bool (b : Bool)
  | number (n : Option ℕ)
  | string (s : List Char)
  | array (xs : List Json)
  | object (fields : List (List Char × Json))

namespace Json

def get (key : String) : Json → Option Json
  | object fields => fields.lookup key.toList
  | _ => none

def asBool : Json → Option Bool
  | bool b => some b
  | _ => none

def asU64 : Json → Option ℕ
  | number n => n
  | _ => none

def asStr : Json → Option (List Char)
  | string s => some s
  | _ => none

def asArray : Json → Option (List Json)
  | array xs => some xs
  | _ => none

def asObject : Json → Option (List (List Char × Json))
  | object fields => some fields
  | _ => none

end Json

inductive FileError where
  | noModel
  | modelType (modelType : List Char)
  | byteFallback
  | unkToken (unk : List Char)
  | noVocab
  | vocabId (tok : List Char)
  | addedContent
  | addedId (content : List Char)
  | missing (n : ℕ)
  | noMerges
  | mergeNoSpace (rank : ℕ) (s : List Char)
  | mergeNotPair (rank : ℕ)
  | mergeShape (rank : ℕ)
  | mergeNotInVocab (rank : ℕ) (tok : List Char)
  | mergeNoEntry (rank : ℕ) (left right : List Char)
  | normalizer (ntype : List Char)
  | noPreTokenizer
  | preTokenizerSequence
  | preTokenizerCount (n : ℕ)
  | preTokenizerRegex
  | regex (regex : List Char)
  | preTokenizerType (btype : List Char)
  | decoder (dtype : List Char)

/-- `HashMap<String, u32>` -/
abbrev Vocab := AList fun _ : List Char => ℕ

/-- The order in which a hash map is walked. -/
structure IterationOrder (α : Type) where
  order : List α → List α
  perm : ∀ l, (order l).Perm l

/-- An id as the tables hold it. -/
def asU32 (id : ℕ) : ℕ := id % 2 ^ 32

/-- The vocabulary and the highest id in it. -/
def readVocab (fields : List (List Char × Json)) : Except FileError (Vocab × ℕ) :=
  fields.foldlM (fun (vocab, maxId) (tok, id) => do
    let id ← orElse (.vocabId tok) id.asU64
    .ok (vocab.insert tok (asU32 id), max maxId id)) (∅, 0)

/-- The added tokens in the order of the file, each with the id it has there. -/
def readAdded (doc : Json) : Except FileError (List (List Char × ℕ)) :=
  match (doc.get "added_tokens").bind Json.asArray with
  | none => .ok []
  | some arr => arr.mapM fun a => do
    let content ← orElse .addedContent ((a.get "content").bind Json.asStr)
    let id ← orElse (.addedId content) ((a.get "id").bind Json.asU64)
    .ok (content, id)

/-- Longer tokens first, and those of one length in the order of their bytes. -/
def addedLe (a b : List Char × ℕ) : Prop :=
  (Utf8.encode b.1).length < (Utf8.encode a.1).length ∨
    (Utf8.encode a.1).length = (Utf8.encode b.1).length ∧ Utf8.encode a.1 ≤ Utf8.encode b.1

instance : DecidableRel addedLe := fun _ _ => inferInstanceAs (Decidable (_ ∨ _))

/-- `id_to_token` and `have` -/
structure IdTable where
  idToToken : List (List Char)
  known : List Bool

def IdTable.put (table : IdTable) (tok : List Char) (id : ℕ) : IdTable :=
  ⟨table.idToToken.set id tok, table.known.set id true⟩

/-- The table of the vocabulary, and of the added tokens where it has no token. -/
def buildTable (maxId : ℕ) (entries : List (Σ _ : List Char, ℕ)) (added : List (List Char × ℕ)) : IdTable :=
  let ofVocab := entries.foldl (fun table e => table.put e.1 e.2)
    ⟨List.replicate (maxId + 1) [], List.replicate (maxId + 1) false⟩
  added.foldl (fun table a => if table.known.getD a.2 false then table else table.put a.1 a.2) ofVocab

/-- `split_once(' ')` -/
def splitOnce : List Char → Option (List Char × List Char)
  | [] => none
  | c :: s => if c = ' ' then some ([], s) else (splitOnce s).map fun (a, b) => (c :: a, b)

/-- The two sides of a merge. -/
def readMerge (rank : ℕ) : Json → Except FileError (List Char × List Char)
  | .string s => orElse (.mergeNoSpace rank s) (splitOnce s)
  | .array [a, b] => .ok (a.asStr.getD [], b.asStr.getD [])
  | .array _ => .error (.mergeNotPair rank)
  | _ => .error (.mergeShape rank)

/-- `HashMap<(u32, u32), (u32, u32)>` -/
abbrev Merges := AList fun _ : ℕ × ℕ => ℕ × ℕ

def readMerges (vocab : Vocab) (arr : List Json) : Except FileError Merges :=
  arr.zipIdx.foldlM (fun merge (m, rank) => do
    let (left, right) ← readMerge rank m
    let li ← orElse (.mergeNotInVocab rank left) (vocab.lookup left)
    let ri ← orElse (.mergeNotInVocab rank right) (vocab.lookup right)
    let merged ← orElse (.mergeNoEntry rank left right) (vocab.lookup (left ++ right))
    .ok (merge.insert (li, ri) (asU32 rank, merged))) ∅

/-- `PRETOKENIZE_REGEX_WITH_MARKS` -/
def regexWithMarks : String :=
  "(?i:'s|'t|'re|'ve|'m|'ll|'d)|[^\\r\\n\\p\x7bL\x7d\\p\x7bN\x7d]?[\\p\x7bL\x7d\\p\x7bM\x7d]+|\\p\x7bN\x7d" ++
    "| ?[^\\s\\p\x7bL\x7d\\p\x7bM\x7d\\p\x7bN\x7d]+[\\r\\n]*|\\s*[\\r\\n]+|\\s+(?!\\S)|\\s+"

/-- `PRETOKENIZE_REGEX_NO_MARKS` -/
def regexNoMarks : String :=
  "(?i:'s|'t|'re|'ve|'m|'ll|'d)|[^\\r\\n\\p\x7bL\x7d\\p\x7bN\x7d]?\\p\x7bL\x7d+|\\p\x7bN\x7d" ++
    "| ?[^\\s\\p\x7bL\x7d\\p\x7bN\x7d]+[\\r\\n]*|\\s*[\\r\\n]+|\\s+(?!\\S)|\\s+"

/-- The `type` of an object, empty where there is none. -/
def typeOf (v : Option Json) : List Char := ((v.bind (Json.get "type")).bind Json.asStr).getD []

/-- The checks of the pipeline, which say whether marks join letters. -/
def readPipeline (doc : Json) : Except FileError Bool := do
  let ntype := typeOf (doc.get "normalizer")
  if ntype ≠ "NFC".toList then .error (.normalizer ntype)
  else do
    let pre ← orElse .noPreTokenizer (doc.get "pre_tokenizer")
    let subs ← orElse .preTokenizerSequence ((pre.get "pretokenizers").bind Json.asArray)
    match subs with
    | [split, byteLevel] => do
      let regex ← orElse .preTokenizerRegex (((split.get "pattern").bind (Json.get "Regex")).bind Json.asStr)
      let marksJoin ← orElse (.regex regex) (if regex = regexWithMarks.toList then some true
        else if regex = regexNoMarks.toList then some false else none)
      let btype := typeOf (some byteLevel)
      if btype ≠ "ByteLevel".toList then .error (.preTokenizerType btype)
      else
        let dtype := typeOf (doc.get "decoder")
        if dtype ≠ "ByteLevel".toList then .error (.decoder dtype) else .ok marksJoin
    | _ => .error (.preTokenizerCount subs.length)

/-- `Tokenizer` -/
structure Tokenizer where
  byteCharId : List ℕ
  idToToken : List (List Char)
  merge : Merges
  added : List (List Char × ℕ)
  marksJoinLetters : Bool

/-- The checks of the model. -/
def readModel (doc : Json) : Except FileError Json := do
  let model ← orElse .noModel (doc.get "model")
  if typeOf (some model) ≠ "BPE".toList then .error (.modelType (typeOf (some model)))
  else if ((model.get "byte_fallback").bind Json.asBool).getD false then .error .byteFallback
  else match (model.get "unk_token").bind Json.asStr with
    | some unk => .error (.unkToken unk)
    | none => .ok model

/-- The vocabulary and the added tokens of a file. -/
structure Parts where
  model : Json
  vocab : Vocab
  /-- The highest id of both. -/
  maxId : ℕ
  added : List (List Char × ℕ)

def readParts (doc : Json) : Except FileError Parts := do
  let model ← readModel doc
  let fields ← orElse .noVocab ((model.get "vocab").bind Json.asObject)
  let (vocab, maxId) ← readVocab fields
  let added ← readAdded doc
  .ok ⟨model, vocab, added.foldl (fun m a => max m a.2) maxId, added.map fun a => (a.1, asU32 a.2)⟩

/-- `from_file` -/
def fromFile (it : IterationOrder (Σ _ : List Char, ℕ)) (doc : Json) : Except FileError Tokenizer := do
  let p ← readParts doc
  let added := p.added.insertionSort addedLe
  let table := buildTable p.maxId (it.order p.vocab.entries) added
  let ids := byteToCharTable.map fun ch => p.vocab.lookup [ch]
  let missing := ids.countP (·.isNone)
  if 0 < missing then .error (.missing missing)
  else do
    let arr ← orElse .noMerges ((p.model.get "merges").bind Json.asArray)
    let merge ← readMerges p.vocab arr
    let marksJoin ← readPipeline doc
    .ok ⟨ids.map (·.getD 0), table.idToToken, merge, added, marksJoin⟩

/-- A token that the tables do not know takes the place of its id, unless
another has it. -/
def Tokenizer.absorbToken (tk : Tokenizer) (tok : List Char) (id : ℕ) : Tokenizer :=
  let slots := if tk.idToToken.length ≤ id then tk.idToToken ++ List.replicate (id + 1 - tk.idToToken.length) []
    else tk.idToToken
  { tk with
    idToToken := if slots.getD id [] = [] then slots.set id tok else slots
    added := tk.added ++ [(tok, id)] }

/-- `absorb_added_tokens`, and how many were new -/
def Tokenizer.absorbAddedTokens (tk : Tokenizer) (extra : List (List Char × ℕ)) : Tokenizer × ℕ :=
  let (tk', addedNew) := extra.foldl (fun (tk, addedNew) (tok, id) =>
    if tk.added.any fun a => a.1 = tok then (tk, addedNew) else (tk.absorbToken tok id, addedNew + 1)) (tk, 0)
  ({ tk' with added := tk'.added.insertionSort addedLe }, addedNew)

/-- The ids in a file are pairwise distinct. -/
def IdsDistinct (doc : Json) : Prop :=
  ∀ p, readParts doc = .ok p → (p.vocab.entries.map (·.2) ++ p.added.map (·.2)).Nodup

/-! ### Encoding and decoding -/

namespace Tokenizer

variable (tk : Tokenizer)

/-- The adjacent pair of the lowest rank, the leftmost of them. -/
def bestPair (merge : Merges) : List ℕ → ℕ → Option (ℕ × ℕ) → Option (ℕ × ℕ)
  | a :: b :: syms, i, best =>
    bestPair merge (b :: syms) (i + 1) (match merge.lookup (a, b) with
      | some (rank, _) => if best.all fun br => rank < br.1 then some (rank, i) else best
      | none => best)
  | _, _, best => best

/-- One merge. -/
def mergeStep (merge : Merges) (syms : List ℕ) : Option (List ℕ) := do
  let (_, i) ← bestPair merge syms 0 none
  let a ← syms[i]?
  let b ← syms[i + 1]?
  let (_, merged) ← merge.lookup (a, b)
  some ((syms.set i merged).eraseIdx (i + 1))

/-- The merge loop. Each pass takes a symbol away. -/
def mergeFrom (merge : Merges) : ℕ → List ℕ → List ℕ
  | 0, syms => syms
  | fuel + 1, syms =>
    match mergeStep merge syms with
    | some syms' => mergeFrom merge fuel syms'
    | none => syms

/-- `bpe` -/
def bpe (piece : List UInt8) : List ℕ :=
  let syms := piece.map fun b => tk.byteCharId.getD b.toNat 0
  if syms.length < 2 then syms else mergeFrom tk.merge syms.length syms

variable (t : Tables)

/-- `encode_plain` -/
def encodePlain (text : List Char) : List ℕ :=
  (pretokenizeWith t.toCategories text tk.marksJoinLetters).flatMap fun (a, b) =>
    tk.bpe (((Utf8.encode text).drop a).take (b - a))

/-- The added token at the start of a text. -/
def hit (added : List (List Char × ℕ)) (rest : List Char) : Option (List Char × ℕ) :=
  added.find? fun a => a.1.isPrefixOf rest

/-- The ids of the text since the last added token. -/
def flush (plain : List Char) (out : List ℕ) : List ℕ :=
  if plain = [] then out else out ++ tk.encodePlain t plain

/-- The loop of `encode`: the text since the last added token, and what is
left. -/
def encodeFrom : ℕ → List Char → List Char → List ℕ → Option (List ℕ)
  | 0, _, _, _ => none
  | _ + 1, plain, [], out => some (tk.flush t plain out)
  | fuel + 1, plain, c :: rest, out =>
    match hit tk.added (c :: rest) with
    | some (tok, id) => encodeFrom fuel [] ((c :: rest).drop tok.length) (tk.flush t plain out ++ [id])
    | none => encodeFrom fuel (plain ++ [c]) rest out

/-- `encode`, if it ends within a number of passes. -/
def encode (fuel : ℕ) (text : List Char) : Option (List ℕ) := tk.encodeFrom t fuel [] (nfc t text) []

/-- The bytes of a character of a token. -/
def charBytes (ch : Char) : List UInt8 := ((charToByte ch).map ([·])).getD (String.utf8EncodeChar ch)

/-- The bytes of an id. -/
def idBytes (id : ℕ) : List UInt8 := (tk.idToToken.getD id []).flatMap charBytes

/-- `decode` -/
def decode (ids : List ℕ) : List Char := Utf8.decodeLossy (ids.flatMap tk.idBytes)

end Tokenizer

end Qwen
end Siphon
