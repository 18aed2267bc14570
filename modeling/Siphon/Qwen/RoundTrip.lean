/-
# Decoding what was encoded

The ids of a text without added tokens spell its bytes: each merge keeps the
bytes of the symbols, and the pieces are consecutive. An added token that the
scan cuts out of the normalized text is stored as plain text, but `decode`
takes every character of the byte alphabet for the byte it stands for. So a
text is read back exactly if no token cut out of it has such a character
beyond ASCII (`decode_encode_iff`).

Key definitions: `cutTokens`, `ReadBack`.
Key theorems: `bpe_bytes`, `encodePlain_bytes`, `encodeFrom_bytes`, `decode_encode_iff`.
-/
import Siphon.Qwen.Vocabulary

namespace Siphon
namespace Qwen

open Utf8

/-- The added tokens that the scan cuts out of a text. -/
def cutTokensFrom (added : List (List Char × ℕ)) : ℕ → List Char → List (List Char)
  | 0, _ => []
  | _ + 1, [] => []
  | fuel + 1, c :: rest =>
    match Tokenizer.hit added (c :: rest) with
    | some (tok, _) => tok :: cutTokensFrom added fuel ((c :: rest).drop tok.length)
    | none => cutTokensFrom added fuel rest

def cutTokens (added : List (List Char × ℕ)) (text : List Char) : List (List Char) :=
  cutTokensFrom added (text.length + 1) text

/-- A token that `decode` reads as it stands: of the byte alphabet it has
characters of ASCII only. -/
def ReadBack (tok : List Char) : Prop := ∀ ch ∈ tok, charToByte ch ≠ none → ch.toNat < 128

namespace Tokenizer

variable {tk : Tokenizer} {t : Tables}

/-! ### Merging -/

/-- A merge puts one symbol in the place of two neighbours, at the best place. -/
theorem mergeStep_eq_some {merge : Merges} {syms syms' : List ℕ} (h : mergeStep merge syms = some syms') :
    ∃ pre a b post v, merge.lookup (a, b) = some v ∧ syms = pre ++ a :: b :: post ∧ syms' = pre ++ v.2 :: post ∧
      ∃ r, bestPair merge syms 0 none = some (r, pre.length) := by
  obtain ⟨⟨r, i⟩, hbest, h1⟩ := Option.bind_eq_some_iff.mp h
  obtain ⟨a, ha, h2⟩ := Option.bind_eq_some_iff.mp h1
  obtain ⟨b, hb, h3⟩ := Option.bind_eq_some_iff.mp h2
  obtain ⟨v, hv, h4⟩ := Option.bind_eq_some_iff.mp h3
  obtain ⟨hi, rfl⟩ := List.getElem?_eq_some_iff.mp ha
  obtain ⟨hi1, rfl⟩ := List.getElem?_eq_some_iff.mp hb
  have hlen : (syms.take i).length = i := List.length_take_of_le (Nat.le_of_lt hi)
  refine ⟨syms.take i, _, _, syms.drop (i + 2), v, hv, ?_, ?_, r, by rwa [hlen]⟩
  · rw [← List.drop_eq_getElem_cons hi1, ← List.drop_eq_getElem_cons hi, List.take_append_drop]
  · have hset : syms.set i v.2 = syms.take i ++ v.2 :: syms.drop (i + 1) := List.set_eq_take_append_cons_drop ▸ if_pos hi
    rw [← Option.some.inj h4, hset, List.eraseIdx_append_of_length_le (by omega), hlen, Nat.add_sub_cancel_left,
      List.eraseIdx_cons_succ, List.drop_eq_getElem_cons hi1]
    rfl

/-- A merge keeps the bytes. -/
theorem mergeStep_bytes (hs : tk.Sound) {syms syms' : List ℕ} (h : mergeStep tk.merge syms = some syms') :
    syms'.flatMap tk.idBytes = syms.flatMap tk.idBytes := by
  obtain ⟨pre, a, b, post, v, hv, rfl, rfl, -⟩ := mergeStep_eq_some h
  rw [List.flatMap_append, List.flatMap_append, List.flatMap_cons, List.flatMap_cons, List.flatMap_cons,
    hs.merge _ _ hv, List.append_assoc]

theorem mergeFrom_bytes (hs : tk.Sound) : ∀ (fuel : ℕ) (syms : List ℕ),
    (mergeFrom tk.merge fuel syms).flatMap tk.idBytes = syms.flatMap tk.idBytes
  | 0, _ => rfl
  | fuel + 1, syms => by
    rw [mergeFrom]
    cases h : mergeStep tk.merge syms with
    | none => rfl
    | some syms' => exact (mergeFrom_bytes hs fuel syms').trans (mergeStep_bytes hs h)

/-- The merge loop has come to its end after as many passes as there are
symbols. -/
theorem mergeStep_mergeFrom {merge : Merges} : ∀ {fuel : ℕ} {syms : List ℕ}, syms.length ≤ fuel →
    mergeStep merge (mergeFrom merge fuel syms) = none
  | 0, syms, h => by
    rw [List.eq_nil_of_length_eq_zero (Nat.le_zero.mp h)]
    rfl
  | fuel + 1, syms, h => by
    rw [mergeFrom]
    cases hstep : mergeStep merge syms with
    | none => exact hstep
    | some syms' =>
      obtain ⟨pre, a, b, post, v, -, rfl, rfl, -⟩ := mergeStep_eq_some hstep
      apply mergeStep_mergeFrom
      rw [List.length_append, List.length_cons] at h ⊢
      rw [List.length_cons] at h
      omega

/-- The ids of a piece spell it. -/
theorem bpe_bytes (hs : tk.Sound) (piece : List UInt8) : (tk.bpe piece).flatMap tk.idBytes = piece := by
  have hinit : (piece.map fun b => tk.byteCharId.getD b.toNat 0).flatMap tk.idBytes = piece := by
    rw [List.flatMap_map]
    simp only [hs.byte]
    exact List.flatMap_singleton' piece
  unfold bpe
  dsimp only
  split_ifs
  · exact hinit
  · rw [mergeFrom_bytes hs, hinit]

/-! ### Plain text -/

/-- Slices at the ranges of consecutive parts are those parts. -/
theorem flatMap_byteRanges : ∀ (ms : List (List Char)) (pre : List UInt8),
    (byteRanges pre.length ms).flatMap (fun r => ((pre ++ Utf8.encode ms.flatten).drop r.1).take (r.2 - r.1)) =
      Utf8.encode ms.flatten
  | [], _ => rfl
  | m :: ms, pre => by
    have ih := flatMap_byteRanges ms (pre ++ Utf8.encode m)
    rw [byteRanges, List.flatMap_cons, List.flatten_cons, encode_append]
    rw [List.length_append, List.append_assoc] at ih
    rw [ih, List.drop_left, Nat.add_sub_cancel_left, List.take_left]

/-- The ids of a text without added tokens spell it. -/
theorem encodePlain_bytes (hs : tk.Sound) (text : List Char) :
    (tk.encodePlain t text).flatMap tk.idBytes = Utf8.encode text := by
  have hpieces := @pretokenizeFrom_eq t.toCategories tk.marksJoinLetters text text.length 0 (Nat.sub_le _ _)
  dsimp only at hpieces
  generalize (pattern t.toCategories tk.marksJoinLetters).findFrom _ _ = ms at hpieces
  obtain ⟨hranges, -, hflat⟩ := hpieces
  have hslices := flatMap_byteRanges ms []
  rw [List.nil_append, hflat, List.drop_zero] at hslices
  unfold encodePlain pretokenizeWith
  rw [List.flatMap_assoc, hranges]
  simp only [bpe_bytes hs]
  exact hslices

/-! ### The scan -/

/-- The bytes of a character of a token, and when they are its own. -/
theorem charBytes_spec (ch : Char) :
    Spells ch (charBytes ch) ∧ (charBytes ch = String.utf8EncodeChar ch ↔ (charToByte ch ≠ none → ch.toNat < 128)) := by
  unfold charBytes
  cases hb : charToByte ch with
  | none => exact ⟨.inl rfl, fun _ hne => absurd rfl hne, fun _ => rfl⟩
  | some b =>
    have hbytes := byteToChar_bytes (charToByte_eq_some_iff.mp hb)
    rw [Option.map_some, Option.getD_some]
    by_cases hch : ch.toNat < 128
    · rw [if_pos hch] at hbytes
      exact ⟨.inl hbytes.symm, fun _ _ => hch, fun _ => hbytes.symm⟩
    · rw [if_neg hch] at hbytes
      refine ⟨.inr ⟨hbytes, b, rfl⟩, fun he => ?_, fun hlt => absurd (hlt (Option.some_ne_none b)) hch⟩
      have hlen := congrArg List.length he
      rw [String.length_utf8EncodeChar, hbytes] at hlen
      cases hlen

/-- A token is spelled right exactly if it is read back. -/
theorem map_charBytes_eq_iff (tok : List Char) : tok.map charBytes = tok.map String.utf8EncodeChar ↔ ReadBack tok := by
  rw [List.map_inj_left]
  exact forall₂_congr fun ch _ => (charBytes_spec ch).2

theorem spells_map_charBytes (tok : List Char) : List.Forall₂ Spells tok (tok.map charBytes) := by
  rw [List.forall₂_map_right_iff, List.forall₂_same]
  exact fun ch _ => (charBytes_spec ch).1

theorem flush_bytes (hs : tk.Sound) (plain : List Char) (out : List ℕ) :
    (tk.flush t plain out).flatMap tk.idBytes = out.flatMap tk.idBytes ++ Utf8.encode plain := by
  unfold flush
  split_ifs with h
  · rw [h, encode_nil, List.append_nil]
  · rw [List.flatMap_append, encodePlain_bytes hs]

theorem hit_eq_some {added : List (List Char × ℕ)} {rest : List Char} {a : List Char × ℕ}
    (h : hit added rest = some a) : a ∈ added ∧ rest = a.1 ++ rest.drop a.1.length := by
  have hpre := List.isPrefixOf_iff_prefix.mp (List.find?_some (p := fun a : List Char × ℕ => a.1.isPrefixOf rest) h)
  exact ⟨List.mem_of_find?_eq_some h, (List.prefix_iff_eq_append.mp hpre).symm⟩

/-- The ids that the scan adds spell the text that was left, each character
right or, in an added token, by the byte it stands for. -/
theorem encodeFrom_bytes (hs : tk.Sound) : ∀ {fuel : ℕ} {plain rest : List Char} {out ids : List ℕ},
    tk.encodeFrom t fuel plain rest out = some ids → ∃ items, List.Forall₂ Spells rest items ∧
      ids.flatMap tk.idBytes = out.flatMap tk.idBytes ++ Utf8.encode plain ++ items.flatten ∧
      (items = rest.map String.utf8EncodeChar ↔ ∀ tok ∈ cutTokensFrom tk.added fuel rest, ReadBack tok)
  | fuel + 1, plain, [], out, ids, h => by
    rw [encodeFrom] at h
    refine ⟨[], .nil, ?_, ?_⟩
    · rw [← Option.some.inj h, flush_bytes hs, List.flatten_nil, List.append_nil]
    · exact ⟨fun _ tok htok => (nomatch htok), fun _ => rfl⟩
  | fuel + 1, plain, c :: rest, out, ids, h => by
    rw [encodeFrom] at h
    rw [cutTokensFrom]
    cases hhit : hit tk.added (c :: rest) with
    | none =>
      rw [hhit] at h
      obtain ⟨items, h1, h2, h3⟩ := encodeFrom_bytes hs h
      refine ⟨String.utf8EncodeChar c :: items, .cons (.inl rfl) h1, ?_, ?_⟩
      · rw [h2, encode_append, encode_cons, encode_nil, List.append_nil, List.flatten_cons]
        simp only [List.append_assoc]
      · dsimp only
        rw [List.map_cons, List.cons.injEq, ← h3]
        exact ⟨fun he => he.2, fun he => ⟨rfl, he⟩⟩
    | some a =>
      obtain ⟨tok, id⟩ := a
      obtain ⟨hmem, hrest⟩ := hit_eq_some hhit
      rw [hhit] at h
      obtain ⟨items, h1, h2, h3⟩ := encodeFrom_bytes hs h
      have hid : tk.idBytes id = (tok.map charBytes).flatten := by
        unfold idBytes
        rw [hs.added _ hmem, List.flatMap_def]
      refine ⟨tok.map charBytes ++ items, ?_, ?_, ?_⟩
      · rw [hrest]
        exact List.rel_append (spells_map_charBytes tok) h1
      · rw [h2, List.flatMap_append, flush_bytes hs, List.flatMap_singleton, hid, encode_nil, List.append_nil,
          List.flatten_append]
        simp only [List.append_assoc]
      · dsimp only
        rw [List.forall_mem_cons, ← h3, ← map_charBytes_eq_iff]
        conv_lhs => rw [hrest, List.map_append]
        constructor
        · exact fun he => List.append_inj he (by rw [List.length_map, List.length_map])
        · exact fun he => congrArg₂ (· ++ ·) he.1 he.2

/-- More passes change nothing once the scan has ended. -/
theorem encodeFrom_mono : ∀ {fuel fuel' : ℕ} {plain rest : List Char} {out ids : List ℕ},
    tk.encodeFrom t fuel plain rest out = some ids → fuel ≤ fuel' → tk.encodeFrom t fuel' plain rest out = some ids
  | fuel + 1, fuel' + 1, plain, [], out, ids, h, _ => h
  | fuel + 1, fuel' + 1, plain, c :: rest, out, ids, h, hle => by
    rw [encodeFrom] at h ⊢
    cases hhit : hit tk.added (c :: rest) with
    | none =>
      rw [hhit] at h
      exact encodeFrom_mono h (by omega)
    | some a =>
      rw [hhit] at h
      exact encodeFrom_mono h (by omega)

/-- Without an empty added token the scan ends. -/
theorem encodeFrom_ends (hne : ∀ a ∈ tk.added, a.1 ≠ []) : ∀ {fuel : ℕ} {plain rest : List Char} {out : List ℕ},
    rest.length < fuel → ∃ ids, tk.encodeFrom t fuel plain rest out = some ids
  | fuel + 1, plain, [], out, _ => ⟨_, rfl⟩
  | fuel + 1, plain, c :: rest, out, h => by
    rw [encodeFrom]
    rw [List.length_cons] at h
    cases hhit : hit tk.added (c :: rest) with
    | none => exact encodeFrom_ends hne (by omega)
    | some a =>
      have hpos := List.length_pos_iff.mpr (hne a (hit_eq_some hhit).1)
      apply encodeFrom_ends hne
      rw [List.length_drop, List.length_cons]
      omega

/-- What the ids of a text are read back as. -/
theorem decode_encode_iff_readBack (hs : tk.Sound) (hne : ∀ a ∈ tk.added, a.1 ≠ []) (text : List Char) :
    (∃ fuel ids, tk.encode t fuel text = some ids ∧ tk.decode ids = nfc t text) ↔
      ∀ tok ∈ cutTokens tk.added (nfc t text), ReadBack tok := by
  obtain ⟨ids, hids⟩ : ∃ ids, tk.encode t ((nfc t text).length + 1) text = some ids :=
    encodeFrom_ends hne (Nat.lt_succ_self _)
  obtain ⟨items, hspell, hbytes, hiff⟩ := encodeFrom_bytes hs hids
  have hdecode : tk.decode ids = nfc t text ↔ ∀ tok ∈ cutTokens tk.added (nfc t text), ReadBack tok := by
    unfold decode cutTokens
    rw [hbytes, ← hiff, ← decodeLossy_spelled_iff hspell]
    rfl
  rw [← hdecode]
  constructor
  · rintro ⟨fuel, ids', hids', hd⟩
    have h1 := encodeFrom_mono hids (le_max_left _ fuel)
    have h2 := encodeFrom_mono hids' (le_max_right ((nfc t text).length + 1) _)
    rwa [Option.some.inj (h1.symm.trans h2)]
  · exact fun hd => ⟨_, ids, hids, hd⟩

end Tokenizer

/-- **When a text is read back.** A tokenizer read from a file with distinct
ids, and a text in which no added token occurs: what was encoded is decoded to
the normalized text exactly if the tokens cut out of that are read back. -/
theorem decode_encode_iff {it : IterationOrder (Σ _ : List Char, ℕ)} {doc : Json} {tk : Tokenizer} (t : Tables)
    (h : fromFile it doc = .ok tk) (hids : IdsDistinct doc) (text : List Char)
    (hfree : ∀ a ∈ tk.added, ¬ a.1 <:+: text) :
    (∃ fuel ids, tk.encode t fuel text = some ids ∧ tk.decode ids = nfc t text) ↔
      ∀ tok ∈ cutTokens tk.added (nfc t text), ReadBack tok := by
  refine Tokenizer.decode_encode_iff_readBack (sound_of_fromFile h hids) (fun a ha hnil => ?_) text
  exact hfree a ha (hnil ▸ List.nil_infix)

/-! ### A file with one added token -/

/-- The tables as far as one accent needs them. -/
def accents : Tables where
  isLetter c := c.isAlpha || c == 'é'
  isMark c := c == '\u0301'
  isNumber := Char.isDigit
  ccc c := if c = '\u0301' then 230 else 0
  decompose1 _ := none
  decompose2 c := if c = 'é' then some ('e', '\u0301') else none
  composed a b := if a = 'e' ∧ b = '\u0301' then some 'é' else none
  depth c := if c = 'é' then 1 else 0
  depth_decompose1 _ _ h := nomatch h
  depth_decompose2 c a b h := by
    split_ifs at h with hc
    obtain ⟨rfl, rfl⟩ := Prod.mk.inj (Option.some.inj h)
    rw [hc]
    decide

/-- A hash map walked as its entries stand. -/
def asStored : IterationOrder (Σ _ : List Char, ℕ) := ⟨id, fun _ => .rfl⟩

def vocabModel (fields : List (List Char × Json)) (merges : List Json) : Json :=
  .object [("type".toList, .string "BPE".toList), ("vocab".toList, .object fields), ("merges".toList, .array merges)]

/-- A file whose added token is an accented letter. -/
def vocabFile (fields : List (List Char × Json)) (merges : List Json) : Json :=
  .object [("model".toList, vocabModel fields merges),
    ("added_tokens".toList, .array [.object [("content".toList, .string ['é']), ("id".toList, .number (some 256))]]),
    ("normalizer".toList, .object [("type".toList, .string "NFC".toList)]),
    ("pre_tokenizer".toList, .object [("pretokenizers".toList, .array [
      .object [("pattern".toList, .object [("Regex".toList, .string regexWithMarks.toList)])],
      .object [("type".toList, .string "ByteLevel".toList)]])]),
    ("decoder".toList, .object [("type".toList, .string "ByteLevel".toList)])]

/-- The file without merges. -/
def accentFile (fields : List (List Char × Json)) : Json := vocabFile fields []

/-- The byte characters, each with its byte as its id. -/
def byteTokens : List (List Char × ℕ) := byteToCharTable.zipIdx.map fun p => ([p.1], p.2)

/-- A vocabulary of the byte characters alone. -/
def byteFields : List (List Char × Json) := byteToCharTable.zipIdx.map fun p => ([p.1], .number (some p.2))

/-- The entries of a vocabulary that was read from fields of these tokens. -/
def entriesOf (tokens : List (List Char × ℕ)) : List (Σ _ : List Char, ℕ) :=
  (tokens.map fun p => ⟨p.1, p.2⟩).reverse

/-- Fields with distinct names give a vocabulary of just these entries. -/
theorem readVocab_fields : ∀ (l : List (List Char × ℕ)) (r : Vocab × ℕ), (l.map (·.1)).Nodup →
    (∀ p ∈ l, p.1 ∉ r.1) → (∀ p ∈ l, p.2 < 2 ^ 32) → ∃ r' : Vocab × ℕ,
      (l.map fun p => (p.1, Json.number (some p.2))).foldlM (fun (vocab, maxId) (tok, id) => do
        let id ← Fallible.orElse (FileError.vocabId tok) id.asU64
        .ok (vocab.insert tok (asU32 id), max maxId id)) r = .ok r' ∧
      r'.1.entries = entriesOf l ++ r.1.entries
  | [], r, _, _, _ => ⟨r, rfl, rfl⟩
  | p :: l, r, hnd, hnew, hlt => by
    rw [List.map_cons, List.nodup_cons] at hnd
    have hp := hnew p (List.mem_cons_self ..)
    obtain ⟨r', h1, h2⟩ := readVocab_fields l (r.1.insert p.1 (asU32 p.2), max r.2 p.2) hnd.2 (fun q hq => by
      rw [AList.mem_insert, not_or]
      refine ⟨fun he => hnd.1 (he ▸ List.mem_map_of_mem hq), hnew q (List.mem_cons_of_mem _ hq)⟩)
      (fun q hq => hlt q (List.mem_cons_of_mem _ hq))
    refine ⟨r', h1, ?_⟩
    have hasU : asU32 p.2 = p.2 := Nat.mod_eq_of_lt (hlt p (List.mem_cons_self ..))
    unfold entriesOf at h2 ⊢
    rw [h2, AList.entries_insert_of_notMem hp, List.map_cons, List.reverse_cons, hasU, List.append_assoc]
    rfl

/-- The characters of the bytes with their ids, and longer tokens, make a vocabulary. -/
theorem exists_vocab_append {more : List (List Char × ℕ)} (hnd : (more.map (·.1)).Nodup)
    (hlong : ∀ p ∈ more, p.1.length ≠ 1) (hmore : ∀ p ∈ more, p.2 < 2 ^ 32) : ∃ r : Vocab × ℕ,
      readVocab (byteFields ++ more.map fun p => (p.1, .number (some p.2))) = .ok r ∧
      r.1.entries = entriesOf (byteTokens ++ more) := by
  have hbytes : byteTokens.map (·.1) = byteToCharTable.map ([·]) := by
    rw [byteTokens, List.map_map, show ((·.1) ∘ fun p : Char × ℕ => ([p.1], p.2)) = (fun c => [c]) ∘ Prod.fst from rfl,
      ← List.map_map, List.zipIdx_map_fst]
  have hkeys : ((byteTokens ++ more).map (·.1)).Nodup := by
    rw [List.map_append, hbytes]
    refine List.nodup_append.mpr ⟨nodup_byteToCharTable.map fun _ _ he => List.singleton_inj.mp he, hnd, ?_⟩
    intro a ha b hb hab
    obtain ⟨c, -, rfl⟩ := List.mem_map.mp ha
    obtain ⟨p, hp, rfl⟩ := List.mem_map.mp hb
    exact hlong p hp (hab ▸ rfl)
  have hlt : ∀ p ∈ byteTokens ++ more, p.2 < 2 ^ 32 := by
    intro p hp
    rcases List.mem_append.mp hp with hp | hp
    · obtain ⟨q, hq, rfl⟩ := List.mem_map.mp hp
      have h256 := List.snd_lt_of_mem_zipIdx hq
      rw [length_byteToCharTable] at h256
      show q.2 < 2 ^ 32
      omega
    · exact hmore p hp
  obtain ⟨r, h1, h2⟩ := readVocab_fields _ (∅, 0) hkeys (fun p _ => AList.notMem_empty p.1) hlt
  rw [List.map_append, byteTokens, List.map_map] at h1
  rw [show (∅ : Vocab).entries = [] from rfl, List.append_nil] at h2
  exact ⟨r, h1, h2⟩

theorem exists_vocab : ∃ r : Vocab × ℕ, readVocab byteFields = .ok r ∧
    r.1.entries = entriesOf byteTokens ∧ r.1.entries.map (·.2) = (List.range' 0 256).reverse := by
  obtain ⟨r, h1, h2⟩ := @exists_vocab_append [] List.nodup_nil (by simp) (by simp)
  rw [List.map_nil, List.append_nil] at h1
  rw [List.append_nil] at h2
  refine ⟨r, h1, h2, ?_⟩
  rw [h2, entriesOf, byteTokens, List.map_reverse, List.map_map, List.map_map]
  exact congrArg List.reverse ((List.zipIdx_map_snd ..).trans (by rw [length_byteToCharTable]))

theorem readPipeline_vocabFile (fields : List (List Char × Json)) (merges : List Json) :
    readPipeline (vocabFile fields merges) = .ok true := by
  have hnorm : typeOf ((vocabFile fields merges).get "normalizer") = "NFC".toList := rfl
  have hpre : (vocabFile fields merges).get "pre_tokenizer" = some (.object [("pretokenizers".toList, .array [
      .object [("pattern".toList, .object [("Regex".toList, .string regexWithMarks.toList)])],
      .object [("type".toList, .string "ByteLevel".toList)]])]) := rfl
  have hdec : typeOf ((vocabFile fields merges).get "decoder") = "ByteLevel".toList := rfl
  unfold readPipeline
  rw [hnorm, hpre, hdec]
  generalize regexWithMarks.toList = regex
  show (Fallible.orElse (FileError.regex regex) (if regex = regex then some true
    else if regex = regexNoMarks.toList then some false else none) >>= fun marksJoin => Except.ok marksJoin) = _
  rw [if_pos rfl]
  rfl

section Read

variable {fields : List (List Char × Json)} {vocab : Vocab} {maxId : ℕ} (hread : readVocab fields = .ok (vocab, maxId))

include hread

theorem readParts_vocabFile (merges : List Json) : readParts (vocabFile fields merges) =
    .ok ⟨vocabModel fields merges, vocab, max maxId 256, [(['é'], 256)]⟩ := by
  have hmodel : readModel (vocabFile fields merges) = .ok (vocabModel fields merges) := rfl
  have hvocab : ((vocabModel fields merges).get "vocab").bind Json.asObject = some fields := rfl
  have hadded : readAdded (vocabFile fields merges) = .ok [(['é'], 256)] := rfl
  unfold readParts
  simp only [bind, Except.bind, hmodel, hvocab, Fallible.orElse, hread, hadded]
  rfl

theorem fromFile_vocabFile {merges : List Json} {merge : Merges} (hmerges : readMerges vocab merges = .ok merge)
    (hbytes : ∀ ch ∈ byteToCharTable, vocab.lookup [ch] ≠ none) :
    fromFile asStored (vocabFile fields merges) = .ok
      ⟨(byteToCharTable.map fun ch => vocab.lookup [ch]).map (·.getD 0),
        (buildTable (max maxId 256) (asStored.order vocab.entries)
          (List.insertionSort addedLe [(['é'], 256)])).idToToken,
        merge, List.insertionSort addedLe [(['é'], 256)], true⟩ := by
  have harr : ((vocabModel fields merges).get "merges").bind Json.asArray = some merges := rfl
  have hmissing : ¬ 0 < (byteToCharTable.map fun ch => vocab.lookup [ch]).countP (·.isNone) := by
    rw [List.countP_pos_iff]
    rintro ⟨o, ho, hnone⟩
    obtain ⟨ch, hch, rfl⟩ := List.mem_map.mp ho
    exact hbytes ch hch (Option.isNone_iff_eq_none.mp hnone)
  unfold fromFile
  simp only [bind, Except.bind, readParts_vocabFile hread]
  rw [if_neg hmissing]
  simp only [harr, Fallible.orElse, hmerges, readPipeline_vocabFile]

end Read

/-- A character of the byte alphabet is in the vocabulary with its byte. -/
theorem lookup_byteToCharTable {vocab : Vocab} {more : List (List Char × ℕ)}
    (h : vocab.entries = entriesOf (byteTokens ++ more)) {ch : Char} {i : ℕ} (hi : byteToCharTable[i]? = some ch) : vocab.lookup [ch] = some i := by
  apply AList.mem_lookup_iff.mpr
  rw [h, entriesOf, List.mem_reverse]
  have hmem : ([ch], i) ∈ byteTokens := List.mem_map.mpr ⟨(ch, i), List.mk_mem_zipIdx_iff_getElem?.mpr hi, rfl⟩
  exact List.mem_map.mpr ⟨_, List.mem_append_left _ hmem, rfl⟩

/-- The file is read. -/
theorem exists_tokenizer : IdsDistinct (accentFile byteFields) ∧
    ∃ tk, fromFile asStored (accentFile byteFields) = .ok tk ∧ tk.added = [(['é'], 256)] := by
  obtain ⟨⟨vocab, maxId⟩, hread, hentries, hentryIds⟩ := exists_vocab
  constructor
  · intro p hp
    obtain rfl := Except.ok.inj ((readParts_vocabFile hread []).symm.trans hp)
    dsimp only at hentryIds ⊢
    rw [hentryIds]
    refine List.nodup_append.mpr ⟨List.nodup_reverse.mpr List.nodup_range', List.nodup_singleton _, ?_⟩
    intro a ha b hb
    rw [List.mem_reverse, List.mem_range'_1] at ha
    obtain rfl := List.mem_singleton.mp hb
    show a ≠ 256
    omega
  · refine ⟨_, fromFile_vocabFile hread (rfl : readMerges vocab [] = .ok ∅) fun ch hch => ?_, rfl⟩
    obtain ⟨i, hi⟩ := List.mem_iff_getElem?.mp hch
    rw [← List.append_nil byteTokens] at hentries
    rw [lookup_byteToCharTable hentries hi]
    exact Option.some_ne_none i

/-- A text without the token is read back. -/
theorem decode_encode_iff_plain : ∃ tk, fromFile asStored (accentFile byteFields) = .ok tk ∧
    ∃ fuel ids, tk.encode accents fuel "hi".toList = some ids ∧ tk.decode ids = "hi".toList := by
  obtain ⟨hids, tk, hread, hadded⟩ := exists_tokenizer
  have hfree : ∀ a ∈ tk.added, ¬ a.1 <:+: "hi".toList := by
    rw [hadded]
    decide
  refine ⟨tk, hread, (decode_encode_iff accents hread hids _ hfree).mpr ?_⟩
  rw [hadded, show cutTokens [(['é'], 256)] (nfc accents "hi".toList) = [] by decide]
  exact fun tok htok => nomatch htok

/-- An accent that normalization joins to its letter makes the token, which is
then read as a byte that is no text. -/
theorem accent_not_readBack : ¬ ∀ (t : Tables) (it : IterationOrder (Σ _ : List Char, ℕ)) (doc : Json)
    (tk : Tokenizer), fromFile it doc = .ok tk → IdsDistinct doc → ∀ text : List Char,
    (∀ a ∈ tk.added, ¬ a.1 <:+: text) →
    ∃ fuel ids, tk.encode t fuel text = some ids ∧ tk.decode ids = nfc t text := by
  intro h
  obtain ⟨hids, tk, hread, hadded⟩ := exists_tokenizer
  have hfree : ∀ a ∈ tk.added, ¬ a.1 <:+: ['e', '\u0301'] := by
    rw [hadded]
    decide
  have hne : ∀ a ∈ tk.added, a.1 ≠ [] := by
    rw [hadded]
    decide
  have hcut := (Tokenizer.decode_encode_iff_readBack (sound_of_fromFile hread hids) hne _).mp
    (h accents asStored _ tk hread hids _ hfree)
  rw [hadded, show cutTokens [(['é'], 256)] (nfc accents ['e', '\u0301']) = [['é']] by decide] at hcut
  have hbyte : charToByte 'é' ≠ none := charToByte_ne_none (by decide)
  exact absurd (hcut ['é'] (List.mem_singleton_self _) 'é' (List.mem_singleton_self _) hbyte) (by decide)

end Qwen
end Siphon
