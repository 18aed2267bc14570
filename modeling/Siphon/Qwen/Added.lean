/-
# Added tokens

`from_file` and `absorb_added_tokens` take an added token as it stands, with
no check of its length or of its characters. An empty one is found wherever no
other is, and the scan of `encode` stays where it is: with an empty token the
scan ends exactly on the texts that the other tokens tile
(`encode_ends_iff`). And `decode` reads a character of the byte alphabet as a
byte also in an added token, which is stored as plain text, so added tokens
are read back exactly if they have no such character beyond ASCII
(`decode_added_iff`).

Key definitions: `Tokenizer.Built`, `Tiled`, `Tokenizer.Filled`.
Key theorems: `encode_ends_iff`, `Tokenizer.Filled.absorbAddedTokens`, `filled_of_fromFile`,
`decode_added_iff`.
-/
import Siphon.Qwen.RoundTrip

namespace Siphon
namespace Qwen

open Fallible Utf8

/-- A tokenizer read from a file, into which more tokens were absorbed. -/
inductive Tokenizer.Built (it : IterationOrder (Σ _ : List Char, ℕ)) (doc : Json) : Tokenizer → Prop
  | read {tk} (h : fromFile it doc = .ok tk) : Built it doc tk
  | absorb {tk} (h : Built it doc tk) (extra : List (List Char × ℕ)) : Built it doc (tk.absorbAddedTokens extra).1

/-! ### Where the scan ends -/

/-- A text that nonempty added tokens cover from its start, each the first
that is found where the one before it ends. -/
inductive Tiled (added : List (List Char × ℕ)) : List Char → Prop
  | nil : Tiled added []
  | cons {rest tok id} (hhit : Tokenizer.hit added rest = some (tok, id)) (hne : tok ≠ [])
      (h : Tiled added (rest.drop tok.length)) : Tiled added rest

namespace Tokenizer

variable {tk : Tokenizer} {t : Tables}

/-- With an empty token something is found everywhere. -/
theorem exists_hit {added : List (List Char × ℕ)} {a : List Char × ℕ} (ha : a ∈ added) (hnil : a.1 = [])
    (rest : List Char) : ∃ b, hit added rest = some b := by
  apply Option.isSome_iff_exists.mp
  apply List.find?_isSome.mpr
  refine ⟨a, ha, ?_⟩
  rw [hnil]
  rfl

/-- A tiled text is scanned to its end. -/
theorem encodeFrom_ends_of_tiled {rest : List Char} (h : Tiled tk.added rest) : ∀ {fuel : ℕ} {plain : List Char}
    {out : List ℕ}, rest.length < fuel → ∃ ids, tk.encodeFrom t fuel plain rest out = some ids := by
  induction h with
  | nil =>
    intro fuel plain out hlt
    obtain ⟨n, rfl⟩ := Nat.exists_eq_add_one_of_ne_zero (Nat.ne_of_gt hlt)
    exact ⟨_, rfl⟩
  | @cons rest tok id hhit hne _ ih =>
    intro fuel plain out hlt
    have hpos := List.length_pos_iff.mpr hne
    obtain ⟨n, rfl⟩ := Nat.exists_eq_add_one_of_ne_zero (Nat.ne_zero_of_lt hlt)
    have hrest := (hit_eq_some hhit).2
    obtain _ | ⟨c, rest⟩ := rest
    · exact ⟨_, rfl⟩
    · rw [encodeFrom, hhit]
      apply ih
      rw [List.length_drop]
      rw [List.length_cons] at hlt ⊢
      omega

/-- With an empty token, a scan that ends has found other tokens all the
way. The induction is on the passes: one that finds the empty token leaves the
text as it was. -/
theorem tiled_of_encodeFrom {a : List Char × ℕ} (ha : a ∈ tk.added) (hnil : a.1 = []) :
    ∀ {fuel : ℕ} {plain rest : List Char} {out ids : List ℕ},
      tk.encodeFrom t fuel plain rest out = some ids → Tiled tk.added rest
  | _ + 1, _, [], _, _, _ => .nil
  | fuel + 1, plain, c :: rest, out, ids, h => by
    obtain ⟨⟨tok, id⟩, hhit⟩ := exists_hit ha hnil (c :: rest)
    rw [encodeFrom, hhit] at h
    have ih := tiled_of_encodeFrom ha hnil h
    by_cases htok : tok = []
    · rwa [htok] at ih
    · exact .cons hhit htok ih

end Tokenizer

/-- **When the scan ends.** `encode` ends, and then within as many passes as
the normalized text has bytes, exactly if there is no empty added token or the
others tile that text. -/
theorem encode_ends_iff (tk : Tokenizer) (t : Tables) (text : List Char) :
    ((∃ ids, tk.encode t ((Utf8.encode (nfc t text)).length + 1) text = some ids) ↔
      (∀ a ∈ tk.added, a.1 ≠ []) ∨ Tiled tk.added (nfc t text)) ∧
    ((∃ fuel ids, tk.encode t fuel text = some ids) ↔
      (∀ a ∈ tk.added, a.1 ≠ []) ∨ Tiled tk.added (nfc t text)) := by
  have hlen : (nfc t text).length < (Utf8.encode (nfc t text)).length + 1 := Nat.lt_succ_of_le (length_le_encode _)
  have hends : (∀ a ∈ tk.added, a.1 ≠ []) ∨ Tiled tk.added (nfc t text) →
      ∃ ids, tk.encode t ((Utf8.encode (nfc t text)).length + 1) text = some ids := by
    rintro (hne | htiled)
    · exact Tokenizer.encodeFrom_ends hne hlen
    · exact Tokenizer.encodeFrom_ends_of_tiled htiled hlen
  have hcond : ∀ fuel ids, tk.encode t fuel text = some ids →
      (∀ a ∈ tk.added, a.1 ≠ []) ∨ Tiled tk.added (nfc t text) := by
    intro fuel ids h
    by_cases hne : ∀ a ∈ tk.added, a.1 ≠ []
    · exact .inl hne
    · push Not at hne
      obtain ⟨a, ha, hnil⟩ := hne
      exact .inr (Tokenizer.tiled_of_encodeFrom ha hnil h)
  constructor
  · exact ⟨fun ⟨ids, h⟩ => hcond _ ids h, hends⟩
  · exact ⟨fun ⟨fuel, ids, h⟩ => hcond fuel ids h, fun h => ⟨_, hends h⟩⟩

/-- One token that is new. -/
theorem Tokenizer.absorbAddedTokens_singleton {tk : Tokenizer} {tok : List Char} (id : ℕ)
    (hnew : ∀ a ∈ tk.added, a.1 ≠ tok) : tk.absorbAddedTokens [(tok, id)] =
      ({ tk.absorbToken tok id with added := (tk.added ++ [(tok, id)]).insertionSort addedLe }, 1) := by
  have hany : (tk.added.any fun a => a.1 = tok) = false := by
    rw [List.any_eq_false]
    exact fun a ha => decide_eq_true_iff.not.mpr (hnew a ha)
  unfold absorbAddedTokens
  dsimp only [List.foldl_cons, List.foldl_nil]
  rw [hany]
  rfl

/-- The file with an accent for its added token, and the empty token absorbed:
a text of one letter is never read to its end. -/
theorem empty_token_loops : ¬ ∀ (t : Tables) (it : IterationOrder (Σ _ : List Char, ℕ)) (doc : Json)
    (tk : Tokenizer), tk.Built it doc → ∀ text : List Char,
    ∃ ids, tk.encode t ((Utf8.encode (nfc t text)).length + 1) text = some ids := by
  intro h
  obtain ⟨-, tk, hread, hadded⟩ := exists_tokenizer
  have hnew : (tk.absorbAddedTokens [([], 257)]).1.added = [(['é'], 256), ([], 257)] := by
    rw [Tokenizer.absorbAddedTokens_singleton 257 (by rw [hadded]; decide)]
    show (tk.added ++ [([], 257)]).insertionSort addedLe = _
    rw [hadded]
    decide
  obtain ⟨ids, hids⟩ := h accents asStored _ _ (.absorb (.read hread) [([], 257)]) ['a']
  have hmem : ([], 257) ∈ (tk.absorbAddedTokens [([], 257)]).1.added := by
    rw [hnew]
    exact List.mem_cons_of_mem _ (List.mem_singleton_self _)
  have htiled := Tokenizer.tiled_of_encodeFrom hmem rfl hids
  rw [hnew, show nfc accents ['a'] = ['a'] by decide] at htiled
  obtain _ | ⟨hhit, hne, -⟩ := htiled
  have hempty : Tokenizer.hit [(['é'], 256), ([], 257)] ['a'] = some ([], 257) := by decide
  rw [hempty] at hhit
  obtain ⟨rfl, -⟩ := Prod.mk.inj (Option.some.inj hhit)
  exact hne rfl

/-! ### What added tokens are read back as -/

namespace Tokenizer

variable {tk : Tokenizer} {ids : List ℕ}

/-- The places of the ids `ids` and of the added tokens are the only ones that
are taken, and if those ids are all distinct every added token has its own. -/
structure Filled (ids : List ℕ) (tk : Tokenizer) : Prop where
  taken : ∀ id, tk.idToToken.getD id [] ≠ [] → id ∈ ids ++ tk.added.map (·.2)
  own : (ids ++ tk.added.map (·.2)).Nodup → ∀ a ∈ tk.added, tk.idToToken.getD a.2 [] = a.1

/-- A place after a token was absorbed. -/
theorem getD_absorbToken (tok : List Char) (id id' : ℕ) : (tk.absorbToken tok id).idToToken.getD id' [] =
    if id' = id ∧ tk.idToToken.getD id [] = [] then tok else tk.idToToken.getD id' [] := by
  unfold absorbToken
  dsimp only
  generalize hslots : (if tk.idToToken.length ≤ id then
    tk.idToToken ++ List.replicate (id + 1 - tk.idToToken.length) [] else tk.idToToken) = slots
  have hlen : id < slots.length := by
    rw [← hslots]
    split_ifs with h
    · rw [List.length_append, List.length_replicate]
      omega
    · exact Nat.lt_of_not_le h
  have hsame : ∀ j, slots.getD j [] = tk.idToToken.getD j [] := by
    intro j
    rw [← hslots]
    split_ifs with h
    · rw [List.getD_eq_getElem?_getD, List.getD_eq_getElem?_getD, List.getElem?_append, List.getElem?_replicate]
      split_ifs with h1 h2
      · rfl
      · rw [List.getElem?_eq_none (Nat.le_of_not_lt h1)]
        rfl
      · rw [List.getElem?_eq_none (Nat.le_of_not_lt h1)]
    · rfl
  rw [hsame id]
  by_cases hfree : tk.idToToken.getD id [] = []
  · rw [if_pos hfree]
    by_cases hid : id' = id
    · rw [if_pos ⟨hid, hfree⟩, hid, List.getD_eq_getElem?_getD, List.getElem?_set_self hlen]
      rfl
    · rw [if_neg fun h => hid h.1, List.getD_eq_getElem?_getD, List.getElem?_set_ne (Ne.symm hid),
        ← List.getD_eq_getElem?_getD, hsame]
  · rw [if_neg hfree, if_neg fun h => hfree h.2, hsame]

theorem Filled.absorbToken (h : tk.Filled ids) (tok : List Char) (id : ℕ) : (tk.absorbToken tok id).Filled ids := by
  have hadded : (tk.absorbToken tok id).added.map (·.2) = tk.added.map (·.2) ++ [id] := List.map_append
  constructor
  · intro id' htaken
    rw [getD_absorbToken] at htaken
    rw [hadded, ← List.append_assoc, List.mem_append, List.mem_singleton]
    by_cases hid : id' = id
    · exact .inr hid
    · rw [if_neg fun h => hid h.1] at htaken
      exact .inl (h.taken id' htaken)
  · intro hnd
    rw [hadded, ← List.append_assoc] at hnd
    obtain ⟨hnd, -, hdis⟩ := List.nodup_append.mp hnd
    have hnew : id ∉ ids ++ tk.added.map (·.2) := fun hm => hdis id hm id (List.mem_singleton_self _) rfl
    have hfree : tk.idToToken.getD id [] = [] := by
      by_contra htaken
      exact hnew (h.taken id htaken)
    intro a ha
    rw [getD_absorbToken]
    obtain ha | ha := List.mem_append.mp ha
    · have hne : a.2 ≠ id := fun he => hnew (List.mem_append_right _ (he ▸ List.mem_map_of_mem ha))
      rw [if_neg fun h => hne h.1]
      exact h.own hnd a ha
    · obtain rfl := List.mem_singleton.mp ha
      exact if_pos ⟨rfl, hfree⟩

/-- Only the order of the added tokens changes. -/
theorem Filled.sort (h : tk.Filled ids) : ({ tk with added := tk.added.insertionSort addedLe }).Filled ids := by
  have hperm := List.perm_insertionSort addedLe tk.added
  have hids : (ids ++ (tk.added.insertionSort addedLe).map (·.2)).Perm (ids ++ tk.added.map (·.2)) :=
    (hperm.map _).append_left ids
  constructor
  · exact fun id htaken => hids.mem_iff.mpr (h.taken id htaken)
  · exact fun hnd a ha => h.own (hids.nodup_iff.mp hnd) a (hperm.mem_iff.mp ha)

/-- One pass of `absorb_added_tokens` -/
def absorbOne (r : Tokenizer × ℕ) (a : List Char × ℕ) : Tokenizer × ℕ :=
  if r.1.added.any fun b => b.1 = a.1 then r else (r.1.absorbToken a.1 a.2, r.2 + 1)

theorem absorbAddedTokens_eq (extra : List (List Char × ℕ)) : tk.absorbAddedTokens extra =
    ({ (extra.foldl absorbOne (tk, 0)).1 with
        added := (extra.foldl absorbOne (tk, 0)).1.added.insertionSort addedLe }, (extra.foldl absorbOne (tk, 0)).2) :=
  rfl

/-- What one new token and the sorting keep holds after all were absorbed. -/
theorem absorbAddedTokens_keep (P : Tokenizer → Prop) (htoken : ∀ tk tok id, P tk → P (tk.absorbToken tok id))
    (hsort : ∀ tk : Tokenizer, P tk → P { tk with added := tk.added.insertionSort addedLe })
    (extra : List (List Char × ℕ)) (h : P tk) : P (tk.absorbAddedTokens extra).1 := by
  have hfold : ∀ (extra : List (List Char × ℕ)) (r : Tokenizer × ℕ), P r.1 → P (extra.foldl absorbOne r).1 := by
    intro extra
    induction extra with
    | nil => exact fun r hr => hr
    | cons a extra ih =>
      intro r hr
      rw [List.foldl_cons]
      apply ih
      unfold absorbOne
      split_ifs
      · exact hr
      · exact htoken r.1 a.1 a.2 hr
  rw [absorbAddedTokens_eq]
  exact hsort _ (hfold extra (tk, 0) h)

theorem Filled.absorbAddedTokens (h : tk.Filled ids) (extra : List (List Char × ℕ)) :
    (tk.absorbAddedTokens extra).1.Filled ids :=
  absorbAddedTokens_keep (Filled ids) (fun _ tok id h => h.absorbToken tok id) (fun _ h => h.sort) extra h

/-- No added token is lost when more are absorbed. -/
theorem added_absorbAddedTokens (extra : List (List Char × ℕ)) :
    ∃ more, (tk.absorbAddedTokens extra).1.added.Perm (tk.added ++ more) := by
  apply absorbAddedTokens_keep (fun tk' => ∃ more, tk'.added.Perm (tk.added ++ more)) _ _ extra
  · exact ⟨[], .of_eq (List.append_nil _).symm⟩
  · rintro tk' tok id ⟨more, hmore⟩
    refine ⟨more ++ [(tok, id)], (hmore.append_right _).trans (.of_eq (List.append_assoc ..))⟩
  · rintro tk' ⟨more, hmore⟩
    exact ⟨more, (List.perm_insertionSort addedLe _).trans hmore⟩

/-- What is decoded of added tokens that have their places. -/
theorem decode_added (toks : List (List Char × ℕ)) (hown : ∀ a ∈ toks, tk.idToToken.getD a.2 [] = a.1) :
    tk.decode (toks.map (·.2)) = toks.flatMap (·.1) ↔ ∀ a ∈ toks, ReadBack a.1 := by
  have hbytes : (toks.map (·.2)).flatMap tk.idBytes = ((toks.flatMap (·.1)).map charBytes).flatten := by
    rw [List.flatMap_map, ← List.flatMap_def, List.flatMap_assoc]
    apply List.flatMap_congr
    intro a ha
    unfold idBytes
    rw [hown a ha]
  unfold decode
  rw [hbytes, decodeLossy_spelled_iff (spells_map_charBytes _), map_charBytes_eq_iff]
  constructor
  · exact fun h a ha ch hch => h ch (List.mem_flatMap.mpr ⟨a, ha, hch⟩)
  · intro h ch hch
    obtain ⟨a, ha, hch⟩ := List.mem_flatMap.mp hch
    exact h a ha ch hch

end Tokenizer

/-- The places of a tokenizer read from a file with distinct ids. -/
theorem filled_of_fromFile {it : IterationOrder (Σ _ : List Char, ℕ)} {doc : Json} {tk : Tokenizer} {p : Parts}
    (h : fromFile it doc = .ok tk) (hp : readParts doc = .ok p)
    (hids : (p.vocab.entries.map (·.2) ++ tk.added.map (·.2)).Nodup) : tk.Filled (p.vocab.entries.map (·.2)) := by
  obtain ⟨p', arr, merge, marksJoin, hp', -, -, rfl⟩ := fromFile_eq_ok h
  obtain rfl := Except.ok.inj (hp.symm.trans hp')
  have hsort := List.perm_insertionSort addedLe p.added
  have hperm := (hsort.map (·.2)).append_left (p.vocab.entries.map (·.2))
  obtain ⟨-, hadd, hfree⟩ := readParts_table it hp (hperm.nodup_iff.mp hids)
  constructor
  · intro id htaken
    by_contra hid
    exact htaken (hfree id fun hm => hid (hperm.mem_iff.mpr hm))
  · intro _ a ha
    rw [List.getD_eq_getElem?_getD, (hadd a (hsort.mem_iff.mp ha)).1]
    rfl

/-- Absorbing keeps the places, if the ids are distinct in the end. -/
theorem Tokenizer.Built.filled {it : IterationOrder (Σ _ : List Char, ℕ)} {doc : Json} {p : Parts}
    (hp : readParts doc = .ok p) {tk : Tokenizer} (h : tk.Built it doc) :
    (p.vocab.entries.map (·.2) ++ tk.added.map (·.2)).Nodup → tk.Filled (p.vocab.entries.map (·.2)) := by
  induction h with
  | read h => exact filled_of_fromFile h hp
  | @absorb tk _ extra ih =>
    intro hids
    obtain ⟨more, hmore⟩ := @Tokenizer.added_absorbAddedTokens tk extra
    have hperm := (hmore.map (·.2)).append_left (p.vocab.entries.map (·.2))
    rw [hperm.nodup_iff, List.map_append, ← List.append_assoc] at hids
    exact (ih (List.nodup_append.mp hids).1).absorbAddedTokens extra

/-- **What added tokens are read back as.** A tokenizer read from a file and
given more tokens, whose ids are distinct: added tokens are decoded to their
own text exactly if each is read back. -/
theorem decode_added_iff {it : IterationOrder (Σ _ : List Char, ℕ)} {doc : Json} {p : Parts} {tk : Tokenizer}
    (hp : readParts doc = .ok p) (h : tk.Built it doc)
    (hids : (p.vocab.entries.map (·.2) ++ tk.added.map (·.2)).Nodup) (toks : List (List Char × ℕ))
    (htoks : ∀ a ∈ toks, a ∈ tk.added) :
    tk.decode (toks.map (·.2)) = toks.flatMap (·.1) ↔ ∀ a ∈ toks, ReadBack a.1 :=
  Tokenizer.decode_added toks fun a ha => (h.filled hp hids).own hids a (htoks a ha)

/-- The file with an accent for its added token, and a marker absorbed. -/
theorem exists_built : ∃ (p : Parts) (tk : Tokenizer), readParts (accentFile byteFields) = .ok p ∧
    tk.Built asStored (accentFile byteFields) ∧ tk.added = [("<a>".toList, 257), (['é'], 256)] ∧
    (p.vocab.entries.map (·.2) ++ tk.added.map (·.2)).Nodup := by
  obtain ⟨hids, tk, hread, hadded⟩ := exists_tokenizer
  obtain ⟨⟨vocab, maxId⟩, hvocab, -, hentryIds⟩ := exists_vocab
  have hnew : (tk.absorbAddedTokens [("<a>".toList, 257)]).1.added = [("<a>".toList, 257), (['é'], 256)] := by
    rw [Tokenizer.absorbAddedTokens_singleton 257 (by rw [hadded]; decide)]
    show (tk.added ++ [("<a>".toList, 257)]).insertionSort addedLe = _
    rw [hadded]
    decide
  refine ⟨_, _, readParts_vocabFile hvocab [], .absorb (.read hread) [("<a>".toList, 257)], hnew, ?_⟩
  rw [hnew]
  dsimp only at hentryIds ⊢
  rw [hentryIds]
  refine List.nodup_append.mpr ⟨List.nodup_reverse.mpr List.nodup_range', by decide, ?_⟩
  intro a ha b hb
  rw [List.mem_reverse, List.mem_range'_1] at ha
  simp only [List.map_cons, List.map_nil, List.mem_cons, List.not_mem_nil, or_false] at hb
  omega

/-- A marker is read back as it stands, also twice. -/
theorem decode_added_iff_marker : ∃ tk : Tokenizer, tk.Built asStored (accentFile byteFields) ∧
    tk.decode [257, 257] = "<a><a>".toList := by
  obtain ⟨p, tk, hp, hbuilt, hadded, hids⟩ := exists_built
  refine ⟨tk, hbuilt, ?_⟩
  apply (decode_added_iff hp hbuilt hids [("<a>".toList, 257), ("<a>".toList, 257)] ?_).mpr
  · intro a ha
    obtain rfl : a = ("<a>".toList, 257) := by simpa using ha
    exact fun ch hch _ => (show ∀ ch ∈ "<a>".toList, ch.toNat < 128 by simp) ch hch
  · intro a ha
    obtain rfl : a = ("<a>".toList, 257) := by simpa using ha
    rw [hadded]
    exact List.mem_cons_self ..

/-- An accent of Latin-1 is read as the byte of its code point, which is no
text. -/
theorem accent_not_decoded : ¬ ∀ (it : IterationOrder (Σ _ : List Char, ℕ)) (doc : Json) (p : Parts)
    (tk : Tokenizer), readParts doc = .ok p → tk.Built it doc →
    (p.vocab.entries.map (·.2) ++ tk.added.map (·.2)).Nodup → ∀ toks : List (List Char × ℕ),
    (∀ a ∈ toks, a ∈ tk.added ∧ a.1 ≠ []) → tk.decode (toks.map (·.2)) = toks.flatMap (·.1) := by
  intro h
  obtain ⟨p, tk, hp, hbuilt, hadded, hids⟩ := exists_built
  have hmem : (['é'], 256) ∈ tk.added := by
    rw [hadded]
    exact List.mem_cons_of_mem _ (List.mem_singleton_self _)
  have hdecode := h asStored _ p tk hp hbuilt hids [(['é'], 256)] fun a ha =>
    List.mem_singleton.mp ha ▸ ⟨hmem, List.cons_ne_nil _ _⟩
  have hown : ∀ a ∈ [((['é'], 256) : List Char × ℕ)], tk.idToToken.getD a.2 [] = a.1 := fun a ha =>
    (hbuilt.filled hp hids).own hids a (List.mem_singleton.mp ha ▸ hmem)
  have hback := (Tokenizer.decode_added _ hown).mp hdecode _ (List.mem_singleton_self _)
  have hbyte : charToByte 'é' ≠ none := charToByte_ne_none (by decide)
  exact absurd (hback 'é' (List.mem_singleton_self _) hbyte) (by decide)

end Qwen
end Siphon
