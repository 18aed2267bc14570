/-
# What the tables of a tokenizer hold

A tokenizer that was read from a file with distinct ids is `Sound`: the bytes
of the id of a byte are that byte, the bytes of a merged id are those of its
two sides, and an added id leads back to its token.
-/
import Siphon.Qwen.Tokenizer

namespace Siphon
namespace Qwen

open Fallible

/-! ### The byte alphabet -/

theorem mem_printable {b : ℕ} : b ∈ printable ↔
    (33 ≤ b ∧ b ≤ 126) ∨ (161 ≤ b ∧ b ≤ 172) ∨ (174 ≤ b ∧ b ≤ 255) := by
  unfold printable
  simp only [List.mem_append, List.mem_range'_1]
  omega

/-- A code point is that of a printable byte, or a free one. -/
theorem getElem?_byteCodes : ∀ {bs : List ℕ} {n i m : ℕ}, (byteCodes bs n)[i]? = some m →
    ∃ b, bs[i]? = some b ∧ (b ∈ printable ∧ m = b ∨ 256 + n ≤ m ∧ m < 256 + n + bs.length)
  | b :: bs, n, i, m, h => by
    rw [byteCodes] at h
    by_cases hb : b ∈ printable
    · rw [if_pos hb] at h
      cases i with
      | zero => exact ⟨b, rfl, .inl ⟨hb, (Option.some.inj h).symm⟩⟩
      | succ i =>
        obtain ⟨b', h1, h2⟩ := getElem?_byteCodes (List.getElem?_cons_succ ▸ h)
        exact ⟨b', h1, h2.imp id fun h3 => ⟨h3.1, by rw [List.length_cons]; omega⟩⟩
    · rw [if_neg hb] at h
      cases i with
      | zero =>
        have hm := Option.some.inj h
        exact ⟨b, rfl, .inr ⟨by omega, by rw [List.length_cons]; omega⟩⟩
      | succ i =>
        obtain ⟨b', h1, h2⟩ := getElem?_byteCodes (List.getElem?_cons_succ ▸ h)
        exact ⟨b', h1, h2.imp id fun h3 => ⟨by omega, by rw [List.length_cons]; omega⟩⟩

theorem length_byteCodes : ∀ (bs : List ℕ) (n : ℕ), (byteCodes bs n).length = bs.length
  | [], _ => rfl
  | b :: bs, n => by
    rw [byteCodes]
    split_ifs
    · rw [List.length_cons, length_byteCodes bs, List.length_cons]
    · rw [List.length_cons, length_byteCodes bs, List.length_cons]

theorem nodup_byteCodes : ∀ {bs : List ℕ} (n : ℕ), bs.Nodup → (byteCodes bs n).Nodup
  | [], _, _ => List.nodup_nil
  | b :: bs, n, h => by
    obtain ⟨hb, hbs⟩ := List.nodup_cons.mp h
    have hmem : ∀ {n m : ℕ}, m ∈ byteCodes bs n → m ∈ bs ∧ m ∈ printable ∨ 256 + n ≤ m := by
      intro n m hm
      obtain ⟨i, hi⟩ := List.mem_iff_getElem?.mp hm
      obtain ⟨b', h1, h2 | h2⟩ := getElem?_byteCodes hi
      · exact .inl ⟨h2.2 ▸ List.mem_of_getElem? h1, h2.2 ▸ h2.1⟩
      · exact .inr h2.1
    rw [byteCodes]
    by_cases hp : b ∈ printable
    · rw [if_pos hp]
      refine List.nodup_cons.mpr ⟨fun hm => ?_, nodup_byteCodes n hbs⟩
      obtain h1 | h1 := hmem hm
      · exact hb h1.1
      · rw [mem_printable] at hp
        omega
    · rw [if_neg hp]
      refine List.nodup_cons.mpr ⟨fun hm => ?_, nodup_byteCodes (n + 1) hbs⟩
      obtain h1 | h1 := hmem hm
      · have h2 := mem_printable.mp h1.2
        omega
      · omega

theorem length_byteToCharTable : byteToCharTable.length = 256 := by
  unfold byteToCharTable
  rw [List.length_map, length_byteCodes, List.length_range]

/-- The code point of a byte is its own, or one from 256 on. -/
theorem getElem?_codes {i m : ℕ} (h : (byteCodes (List.range 256) 0)[i]? = some m) :
    m < 512 ∧ (i ∈ printable ∧ m = i ∨ 256 ≤ m) := by
  obtain ⟨b, hb, hcase⟩ := getElem?_byteCodes h
  obtain ⟨hi, rfl⟩ := List.getElem?_eq_some_iff.mp hb
  rw [List.length_range] at hi hcase
  rw [List.getElem_range] at hcase
  obtain ⟨h1, rfl⟩ | h1 := hcase
  · exact ⟨by omega, .inl ⟨h1, rfl⟩⟩
  · exact ⟨by omega, .inr (by omega)⟩

/-- The character of a byte. -/
theorem getElem?_byteToCharTable {i : ℕ} {ch : Char} (h : byteToCharTable[i]? = some ch) :
    ch.toNat < 512 ∧ (i ∈ printable ∧ ch.toNat = i ∨ 256 ≤ ch.toNat) := by
  unfold byteToCharTable at h
  rw [List.getElem?_map] at h
  obtain ⟨m, hm, rfl⟩ := Option.map_eq_some_iff.mp h
  have hcode := getElem?_codes hm
  rwa [Utf8.toNat_ofNat (hcode.1.trans (by decide))]

/-- No two bytes have the same character. -/
theorem nodup_byteToCharTable : byteToCharTable.Nodup := by
  refine (nodup_byteCodes 0 List.nodup_range).map_on fun m hm m' hm' he => ?_
  obtain ⟨i, hi⟩ := List.mem_iff_getElem?.mp hm
  obtain ⟨j, hj⟩ := List.mem_iff_getElem?.mp hm'
  rw [← Utf8.toNat_ofNat ((getElem?_codes hi).1.trans (by decide)),
    ← Utf8.toNat_ofNat ((getElem?_codes hj).1.trans (by decide)), he]

/-- A character of the alphabet is ASCII and stands for itself, or it has two
bytes in UTF-8. -/
theorem byteToChar_bytes {b : UInt8} {ch : Char} (h : byteToCharTable[b.toNat]? = some ch) :
    if ch.toNat < 128 then String.utf8EncodeChar ch = [b] else ch.utf8Size = 2 := by
  obtain ⟨hlt, hcase⟩ := getElem?_byteToCharTable h
  rw [mem_printable] at hcase
  by_cases hch : ch.toNat < 128
  · rw [if_pos hch]
    have hb : ch.toNat = b.toNat := by omega
    unfold String.utf8EncodeChar
    rw [Char.toNat_val, if_pos (by omega), hb, UInt8.ofNat_toNat]
  · rw [if_neg hch, Char.utf8Size_eq_two_iff, UInt32.lt_iff_toNat_lt, UInt32.le_iff_toNat_le, Char.toNat_val]
    exact ⟨show 127 < ch.toNat by omega, show ch.toNat ≤ 2047 by omega⟩

/-- The byte of a character is its place in the table. -/
theorem charToByte_eq_some_iff {ch : Char} {b : UInt8} :
    charToByte ch = some b ↔ byteToCharTable[b.toNat]? = some ch := by
  unfold charToByte
  have hlen := length_byteToCharTable
  constructor
  · intro h
    obtain ⟨i, hi, rfl⟩ := Option.map_eq_some_iff.mp h
    obtain ⟨hlt, hch, -⟩ := List.idxOf?_eq_some_iff.mp hi
    have hsize : i < UInt8.size := show i < 256 by omega
    rw [UInt8.toNat_ofNat_of_lt' hsize, List.getElem?_eq_getElem hlt, hch]
  · intro h
    obtain ⟨hlt, hch⟩ := List.getElem?_eq_some_iff.mp h
    have hidx : byteToCharTable.idxOf? ch = some b.toNat := by
      rw [List.idxOf?_eq_some_iff]
      refine ⟨hlt, hch, fun j hj he => ?_⟩
      have heq := (nodup_byteToCharTable.getElem_inj_iff).mp (he.trans hch.symm)
      omega
    rw [hidx, Option.map_some, UInt8.ofNat_toNat]

/-- A printable byte stands for itself. -/
theorem charToByte_ne_none {ch : Char} (h : ch.toNat ∈ printable) : charToByte ch ≠ none := by
  have hmem : ∀ {bs : List ℕ} (n : ℕ) {b : ℕ}, b ∈ bs → b ∈ printable → b ∈ byteCodes bs n := by
    intro bs
    induction bs with
    | nil => exact fun _ _ hb => nomatch hb
    | cons c bs ih =>
      intro n b hb hp
      rw [byteCodes]
      obtain rfl | hb := List.mem_cons.mp hb
      · rw [if_pos hp]
        exact List.mem_cons_self ..
      · split_ifs
        · exact List.mem_cons_of_mem _ (ih n hb hp)
        · exact List.mem_cons_of_mem _ (ih (n + 1) hb hp)
  have hlt : ch.toNat < 256 := by
    rw [mem_printable] at h
    omega
  have hch : ch ∈ byteToCharTable :=
    List.mem_map.mpr ⟨ch.toNat, hmem 0 (List.mem_range.mpr hlt) h, Char.ofNat_toNat ch⟩
  unfold charToByte
  rw [ne_eq, Option.map_eq_none_iff, List.idxOf?_eq_none_iff, not_not]
  exact hch

/-! ### The table of the ids -/

namespace IdTable

/-- The table leads from an id to a token. -/
def Holds (table : IdTable) (id : ℕ) (tok : List Char) : Prop :=
  table.idToToken[id]? = some tok ∧ table.known[id]? = some true

/-- The table has a place for an id, and no token there yet. -/
def Free (table : IdTable) (id : ℕ) : Prop := id < table.idToToken.length ∧ table.known[id]? = some false

variable {table : IdTable} {id id' : ℕ} {tok tok' : List Char}

theorem Free.put (h : table.Free id) : (table.put tok id).Holds id tok := by
  obtain ⟨h1, h2⟩ := h
  obtain ⟨h3, -⟩ := List.getElem?_eq_some_iff.mp h2
  exact ⟨List.getElem?_set_self h1, List.getElem?_set_self h3⟩

theorem Holds.put (h : table.Holds id tok) (hne : id' ≠ id) : (table.put tok' id').Holds id tok := by
  unfold IdTable.put Holds
  rw [List.getElem?_set_ne hne, List.getElem?_set_ne hne]
  exact h

theorem Free.put_ne (h : table.Free id) (hne : id' ≠ id) : (table.put tok' id').Free id := by
  unfold IdTable.put Free
  rw [List.length_set, List.getElem?_set_ne hne]
  exact h

/-- Putting tokens under other ids keeps what holds of an id. -/
theorem foldl_put_keep (P : IdTable → Prop) (hP : ∀ table tok id', P table → id' ≠ id → P (table.put tok id')) :
    ∀ (l : List (List Char × ℕ)) {table : IdTable}, P table → id ∉ l.map (·.2) →
      P (l.foldl (fun table a => table.put a.1 a.2) table)
  | [], _, h, _ => h
  | a :: l, table, h, hid => by
    rw [List.map_cons, List.mem_cons, not_or] at hid
    exact foldl_put_keep P hP l (hP table a.1 a.2 h (Ne.symm hid.1)) hid.2

/-- Tokens that are put under distinct free ids. -/
theorem foldl_put {l : List (List Char × ℕ)} : ∀ {table : IdTable}, (l.map (·.2)).Nodup →
    (∀ a ∈ l, table.Free a.2) → ∀ a ∈ l, (l.foldl (fun table a => table.put a.1 a.2) table).Holds a.2 a.1 := by
  induction l with
  | nil => exact fun _ _ a ha => nomatch ha
  | cons b l ih =>
    intro table hnd hfree a ha
    rw [List.map_cons, List.nodup_cons] at hnd
    obtain rfl | ha := List.mem_cons.mp ha
    · exact foldl_put_keep (·.Holds a.2 a.1) (fun _ _ _ => Holds.put) l (hfree a (List.mem_cons_self ..)).put hnd.1
    · refine ih hnd.2 (fun c hc => ?_) a ha
      apply (hfree c (List.mem_cons_of_mem _ hc)).put_ne
      intro he
      exact hnd.1 (he ▸ List.mem_map_of_mem hc)

/-- Under distinct free ids every added token is put. -/
theorem foldl_putNew {l : List (List Char × ℕ)} : ∀ {table : IdTable}, (l.map (·.2)).Nodup →
    (∀ a ∈ l, table.Free a.2) →
    l.foldl (fun table a => if table.known.getD a.2 false then table else table.put a.1 a.2) table =
      l.foldl (fun table a => table.put a.1 a.2) table := by
  induction l with
  | nil => exact fun _ _ => rfl
  | cons b l ih =>
    intro table hnd hfree
    rw [List.map_cons, List.nodup_cons] at hnd
    have hb : table.known.getD b.2 false = false := by
      rw [List.getD_eq_getElem?_getD, (hfree b (List.mem_cons_self ..)).2]
      rfl
    rw [List.foldl_cons, List.foldl_cons, hb, if_neg Bool.false_ne_true]
    apply ih hnd.2
    intro c hc
    apply (hfree c (List.mem_cons_of_mem _ hc)).put_ne
    intro he
    exact hnd.1 (he ▸ List.mem_map_of_mem hc)

end IdTable

/-- A table without tokens. -/
def emptyTable (maxId : ℕ) : IdTable := ⟨List.replicate (maxId + 1) [], List.replicate (maxId + 1) false⟩

section Build

variable {maxId : ℕ} {entries : List (Σ _ : List Char, ℕ)} {added : List (List Char × ℕ)}
  (hnd : (entries.map (·.2) ++ added.map (·.2)).Nodup) (he : ∀ e ∈ entries, e.2 ≤ maxId)
  (ha : ∀ a ∈ added, a.2 ≤ maxId)

theorem map_snd_pairs : (entries.map (fun e => (e.1, e.2)) ++ added).map (·.2) =
    entries.map (·.2) ++ added.map (·.2) := by
  rw [List.map_append, List.map_map]
  rfl

include he ha in
theorem free_emptyTable : ∀ a ∈ entries.map (fun e => (e.1, e.2)) ++ added, (emptyTable maxId).Free a.2 := by
  intro a h
  have hle : a.2 ≤ maxId := by
    obtain h | h := List.mem_append.mp h
    · obtain ⟨e, h1, rfl⟩ := List.mem_map.mp h
      exact he e h1
    · exact ha a h
  unfold emptyTable IdTable.Free
  constructor
  · rw [List.length_replicate]
    omega
  · exact List.getElem?_replicate_of_lt (by omega)

include hnd he ha

/-- With distinct ids the table is built by putting every token. -/
theorem buildTable_eq : buildTable maxId entries added =
    (entries.map (fun e => (e.1, e.2)) ++ added).foldl (fun table a => table.put a.1 a.2) (emptyTable maxId) := by
  have hvocab : entries.foldl (fun table e => table.put e.1 e.2) (emptyTable maxId) =
      (entries.map fun e => (e.1, e.2)).foldl (fun table a => table.put a.1 a.2) (emptyTable maxId) := by
    rw [List.foldl_map]
  have hids := @map_snd_pairs entries added
  rw [List.map_append] at hids
  obtain ⟨-, hadded, hdis⟩ := List.nodup_append.mp (hids ▸ hnd)
  rw [List.foldl_append, ← hvocab]
  apply IdTable.foldl_putNew hadded
  intro a h
  show (entries.foldl (fun table e => table.put e.1 e.2) (emptyTable maxId)).Free a.2
  rw [hvocab]
  apply IdTable.foldl_put_keep (·.Free a.2) (fun _ _ _ => IdTable.Free.put_ne)
  · exact free_emptyTable he ha a (List.mem_append_right _ h)
  · exact fun hm => hdis _ hm _ (List.mem_map_of_mem h) rfl

/-- With distinct ids the table leads from each of them to its token. -/
theorem buildTable_holds : (∀ e ∈ entries, (buildTable maxId entries added).Holds e.2 e.1) ∧
    ∀ a ∈ added, (buildTable maxId entries added).Holds a.2 a.1 := by
  have hput := IdTable.foldl_put (map_snd_pairs ▸ hnd) (free_emptyTable he ha)
  rw [buildTable_eq hnd he ha]
  constructor
  · intro e h
    exact hput (e.1, e.2) (List.mem_append_left _ (List.mem_map_of_mem h))
  · exact fun a h => hput a (List.mem_append_right _ h)

/-- The places of other ids have no token. -/
theorem buildTable_free {id : ℕ} (hid : id ∉ entries.map (·.2) ++ added.map (·.2)) :
    (buildTable maxId entries added).idToToken.getD id [] = [] := by
  rw [buildTable_eq hnd he ha]
  apply IdTable.foldl_put_keep (fun table => table.idToToken.getD id [] = [])
  · intro table tok id' h hne
    unfold IdTable.put
    dsimp only
    rwa [List.getD_eq_getElem?_getD, List.getElem?_set_ne hne, ← List.getD_eq_getElem?_getD]
  · unfold emptyTable
    dsimp only
    rw [List.getD_eq_getElem?_getD, List.getElem?_replicate]
    split_ifs <;> rfl
  · rwa [map_snd_pairs]

end Build

/-! ### Reading a file -/

theorem readVocab_le {fields : List (List Char × Json)} {vocab : Vocab} {maxId : ℕ}
    (h : readVocab fields = .ok (vocab, maxId)) : ∀ e ∈ vocab.entries, e.2 ≤ maxId := by
  apply foldlM_ok (P := fun r : Vocab × ℕ => ∀ e ∈ r.1.entries, e.2 ≤ r.2) _ _ h
  · intro r a r' hr hstep
    obtain ⟨id, -, h1⟩ := bind_eq_ok hstep
    obtain rfl := Except.ok.inj h1
    intro e he
    rw [AList.entries_insert, List.mem_cons] at he
    obtain rfl | he := he
    · exact (Nat.mod_le _ _).trans (le_max_right _ _)
    · exact (hr e ((List.kerase_sublist _ _).subset he)).trans (le_max_left _ _)
  · exact fun e he => nomatch he

theorem le_foldl_max : ∀ (l : List (List Char × ℕ)) (m : ℕ),
    m ≤ l.foldl (fun m a => max m a.2) m ∧ ∀ a ∈ l, a.2 ≤ l.foldl (fun m a => max m a.2) m
  | [], m => ⟨le_refl m, fun _ ha => nomatch ha⟩
  | b :: l, m => by
    obtain ⟨h1, h2⟩ := le_foldl_max l (max m b.2)
    refine ⟨(le_max_left m b.2).trans h1, fun a ha => ?_⟩
    obtain rfl | ha := List.mem_cons.mp ha
    · exact (le_max_right m a.2).trans h1
    · exact h2 a ha

/-- No id of a file is beyond the highest one. -/
theorem readParts_le {doc : Json} {p : Parts} (h : readParts doc = .ok p) :
    (∀ e ∈ p.vocab.entries, e.2 ≤ p.maxId) ∧ ∀ a ∈ p.added, a.2 ≤ p.maxId := by
  obtain ⟨model, -, h1⟩ := bind_eq_ok h
  obtain ⟨fields, -, h2⟩ := bind_eq_ok h1
  obtain ⟨⟨vocab, maxId⟩, hv, h3⟩ := bind_eq_ok h2
  obtain ⟨added, -, h4⟩ := bind_eq_ok h3
  obtain rfl := Except.ok.inj h4
  obtain ⟨hle, hmax⟩ := le_foldl_max added maxId
  constructor
  · exact fun e he => (readVocab_le hv e he).trans hle
  · intro a ha
    obtain ⟨b, hb, rfl⟩ := List.mem_map.mp ha
    exact (Nat.mod_le _ _).trans (hmax b hb)

/-- A merge has two sides in the vocabulary, and both together are there too. -/
theorem readMerges_spec {vocab : Vocab} {arr : List Json} {merge : Merges} (h : readMerges vocab arr = .ok merge) :
    ∀ k v, merge.lookup k = some v → ∃ left right, vocab.lookup left = some k.1 ∧ vocab.lookup right = some k.2 ∧
      vocab.lookup (left ++ right) = some v.2 := by
  apply foldlM_ok (P := fun merge : Merges => ∀ k v, merge.lookup k = some v → ∃ left right,
    vocab.lookup left = some k.1 ∧ vocab.lookup right = some k.2 ∧ vocab.lookup (left ++ right) = some v.2) _ _ h
  · intro merge a merge' hm hstep
    obtain ⟨⟨left, right⟩, -, h1⟩ := bind_eq_ok hstep
    obtain ⟨li, hl, h2⟩ := bind_eq_ok h1
    obtain ⟨ri, hr, h3⟩ := bind_eq_ok h2
    obtain ⟨merged, hlr, h4⟩ := bind_eq_ok h3
    obtain rfl := Except.ok.inj h4
    intro k v hk
    by_cases he : k = (li, ri)
    · subst he
      rw [AList.lookup_insert] at hk
      obtain rfl := Option.some.inj hk
      exact ⟨left, right, orElse_eq_ok hl, orElse_eq_ok hr, orElse_eq_ok hlr⟩
    · rw [AList.lookup_insert_ne he] at hk
      exact hm k v hk
  · exact fun k v hk => nomatch hk

/-! ### Sound tokenizers -/

/-- What the tables of a tokenizer say about bytes. -/
structure Tokenizer.Sound (tk : Tokenizer) : Prop where
  byte : ∀ b : UInt8, tk.idBytes (tk.byteCharId.getD b.toNat 0) = [b]
  merge : ∀ k v, tk.merge.lookup k = some v → tk.idBytes v.2 = tk.idBytes k.1 ++ tk.idBytes k.2
  added : ∀ a ∈ tk.added, tk.idToToken.getD a.2 [] = a.1

/-- The tokenizer of a file, from what was read of it. -/
theorem fromFile_eq_ok {it : IterationOrder (Σ _ : List Char, ℕ)} {doc : Json} {tk : Tokenizer}
    (h : fromFile it doc = .ok tk) : ∃ p arr merge marksJoin, readParts doc = .ok p ∧
      ¬ 0 < (byteToCharTable.map fun ch => p.vocab.lookup [ch]).countP (·.isNone) ∧
      readMerges p.vocab arr = .ok merge ∧
      tk = ⟨(byteToCharTable.map fun ch => p.vocab.lookup [ch]).map (·.getD 0),
        (buildTable p.maxId (it.order p.vocab.entries) (p.added.insertionSort addedLe)).idToToken, merge,
        p.added.insertionSort addedLe, marksJoin⟩ := by
  obtain ⟨p, hp, h1⟩ := bind_eq_ok h
  dsimp only at h1
  by_cases hmiss : 0 < (byteToCharTable.map fun ch => p.vocab.lookup [ch]).countP (·.isNone)
  · rw [if_pos hmiss] at h1
    cases h1
  · rw [if_neg hmiss] at h1
    obtain ⟨arr, -, h2⟩ := bind_eq_ok h1
    obtain ⟨merge, hmerge, h3⟩ := bind_eq_ok h2
    obtain ⟨marksJoin, -, h4⟩ := bind_eq_ok h3
    exact ⟨p, arr, merge, marksJoin, hp, hmiss, hmerge, (Except.ok.inj h4).symm⟩

/-- No byte character is missing. -/
theorem lookup_byteChar {vocab : Vocab} (h : ¬ 0 < (byteToCharTable.map fun ch => vocab.lookup [ch]).countP (·.isNone))
    {i : ℕ} (hi : i < byteToCharTable.length) : ∃ id, vocab.lookup [byteToCharTable[i]] = some id := by
  apply Option.ne_none_iff_exists'.mp
  intro hnone
  apply h
  rw [List.countP_pos_iff]
  exact ⟨none, List.mem_map.mpr ⟨_, List.getElem_mem hi, hnone⟩, rfl⟩

/-- The table of a file with distinct ids leads from each of them to its
token, and the places of other ids have none. -/
theorem readParts_table (it : IterationOrder (Σ _ : List Char, ℕ)) {doc : Json} {p : Parts}
    (hp : readParts doc = .ok p) (hids : (p.vocab.entries.map (·.2) ++ p.added.map (·.2)).Nodup) :
    let table := buildTable p.maxId (it.order p.vocab.entries) (p.added.insertionSort addedLe)
    (∀ e ∈ p.vocab.entries, table.Holds e.2 e.1) ∧ (∀ a ∈ p.added, table.Holds a.2 a.1) ∧
      ∀ id, id ∉ p.vocab.entries.map (·.2) ++ p.added.map (·.2) → table.idToToken.getD id [] = [] := by
  obtain ⟨hev, hav⟩ := readParts_le hp
  have hperm := it.perm p.vocab.entries
  have hsort := List.perm_insertionSort addedLe p.added
  have hperms := (hperm.map (·.2)).append (hsort.map (·.2))
  have he : ∀ e ∈ it.order p.vocab.entries, e.2 ≤ p.maxId := fun e he => hev e (hperm.mem_iff.mp he)
  have ha : ∀ a ∈ p.added.insertionSort addedLe, a.2 ≤ p.maxId := fun a ha => hav a (hsort.mem_iff.mp ha)
  have hnd := hperms.nodup_iff.mpr hids
  obtain ⟨htok, hadd⟩ := buildTable_holds hnd he ha
  refine ⟨fun e he => htok e (hperm.mem_iff.mpr he), fun a ha => hadd a (hsort.mem_iff.mpr ha), fun id hid => ?_⟩
  exact buildTable_free hnd he ha fun hm => hid (hperms.mem_iff.mp hm)

/-- A tokenizer read from a file with distinct ids is sound. -/
theorem sound_of_fromFile {it : IterationOrder (Σ _ : List Char, ℕ)} {doc : Json} {tk : Tokenizer}
    (h : fromFile it doc = .ok tk) (hids : IdsDistinct doc) : tk.Sound := by
  obtain ⟨p, arr, merge, marksJoin, hp, hmiss, hmerge, rfl⟩ := fromFile_eq_ok h
  obtain ⟨htok, hadd, -⟩ := readParts_table it hp (hids p hp)
  have hbytes : ∀ tok id, p.vocab.lookup tok = some id →
      (buildTable p.maxId (it.order p.vocab.entries) (p.added.insertionSort addedLe)).idToToken.getD id [] = tok := by
    intro tok id hid
    rw [List.getD_eq_getElem?_getD, (htok _ (AList.mem_lookup_iff.mp hid)).1]
    rfl
  constructor
  · intro b
    have hb : b.toNat < byteToCharTable.length := length_byteToCharTable ▸ b.toNat_lt
    have hch := List.getElem?_eq_getElem hb
    obtain ⟨id, hid⟩ := lookup_byteChar hmiss hb
    unfold Tokenizer.idBytes
    dsimp only
    rw [List.getD_eq_getElem?_getD (i := b.toNat), List.getElem?_map, List.getElem?_map, hch, Option.map_some,
      Option.map_some, Option.getD_some, hid, Option.getD_some, hbytes _ _ hid, List.flatMap_singleton]
    unfold Tokenizer.charBytes
    rw [charToByte_eq_some_iff.mpr hch]
    rfl
  · intro k v hk
    obtain ⟨left, right, hl, hr, hlr⟩ := readMerges_spec hmerge k v hk
    unfold Tokenizer.idBytes
    rw [hbytes _ _ hl, hbytes _ _ hr, hbytes _ _ hlr, List.flatMap_append]
  · intro a ha
    rw [List.getD_eq_getElem?_getD, (hadd a ((List.perm_insertionSort addedLe p.added).mem_iff.mp ha)).1]
    rfl

end Qwen
end Siphon
