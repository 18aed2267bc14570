/-
# Segments of an encoded text

The scan of `encode` cuts the normalized text into added tokens and the plain
text between them. It takes the first token of the table that it finds, which
is the longest one there because `from_file` and `absorb_added_tokens` leave
the table sorted (`Loaded.sorted`). The order in which tokens are absorbed is
lost in the sorting, so it changes no encoding, and tokens that are known are
not absorbed again.

Key definitions: `Tokenizer.Loaded`, `Segment`, `Longest`, `Untouched`, `Segmented`.
Key theorems: `Tokenizer.Loaded.sorted`, `encodeFrom_segmented`, `absorbAddedTokens_added`,
`encode_segmented`.
-/
import Siphon.Qwen.Added

namespace Siphon
namespace Qwen

/-! ### The order of the table -/

theorem addedLe_total (a b : List Char × ℕ) : addedLe a b ∨ addedLe b a := by
  unfold addedLe
  obtain h | h | h := Nat.lt_trichotomy (Utf8.encode a.1).length (Utf8.encode b.1).length
  · exact .inr (.inl h)
  · obtain hle | hle := List.le_total (Utf8.encode a.1) (Utf8.encode b.1)
    · exact .inl (.inr ⟨h, hle⟩)
    · exact .inr (.inr ⟨h.symm, hle⟩)
  · exact .inl (.inl h)

theorem addedLe_trans {a b c : List Char × ℕ} (hab : addedLe a b) (hbc : addedLe b c) : addedLe a c := by
  unfold addedLe at *
  obtain h | ⟨h, hle⟩ := hab
  · exact .inl (by omega)
  · obtain h' | ⟨h', hle'⟩ := hbc
    · exact .inl (by omega)
    · exact .inr ⟨h.trans h', List.le_trans hle hle'⟩

/-- Tokens with one place in the order have one text. -/
theorem addedLe_antisymm {a b : List Char × ℕ} (hab : addedLe a b) (hba : addedLe b a) : a.1 = b.1 := by
  have hbytes : Utf8.encode a.1 = Utf8.encode b.1 := by
    obtain h | ⟨h, hle⟩ := hab
    · obtain h' | ⟨h', -⟩ := hba <;> omega
    · obtain h' | ⟨-, hle'⟩ := hba
      · omega
      · exact List.le_antisymm hle hle'
  rw [← Utf8.decodeLossy_encode a.1, hbytes, Utf8.decodeLossy_encode]

instance : Std.Total addedLe := ⟨addedLe_total⟩

instance : IsTrans (List Char × ℕ) addedLe := ⟨fun _ _ _ => addedLe_trans⟩

/-- `set_marks_join_letters` -/
def Tokenizer.setMarksJoinLetters (tk : Tokenizer) (v : Bool) : Tokenizer := { tk with marksJoinLetters := v }

/-- A tokenizer read from a file and changed in the ways there are. -/
inductive Tokenizer.Loaded (it : IterationOrder (Σ _ : List Char, ℕ)) (doc : Json) : Tokenizer → Prop
  | read {tk} (h : fromFile it doc = .ok tk) : Loaded it doc tk
  | absorb {tk} (h : Loaded it doc tk) (extra : List (List Char × ℕ)) : Loaded it doc (tk.absorbAddedTokens extra).1
  | marks {tk} (h : Loaded it doc tk) (v : Bool) : Loaded it doc (tk.setMarksJoinLetters v)

/-- Reading and absorbing both leave the table sorted. -/
theorem Tokenizer.Loaded.sorted {it : IterationOrder (Σ _ : List Char, ℕ)} {doc : Json} {tk : Tokenizer}
    (h : tk.Loaded it doc) : tk.added.Pairwise addedLe := by
  induction h with
  | read h =>
    obtain ⟨p, arr, merge, marksJoin, -, -, -, rfl⟩ := fromFile_eq_ok h
    exact List.pairwise_insertionSort addedLe p.added
  | absorb => exact List.pairwise_insertionSort addedLe _
  | marks _ _ ih => exact ih

/-! ### Segmentations -/

/-- A part of a text. -/
inductive Segment where
  | plain (s : List Char)
  | token (tok : List Char) (id : ℕ)

namespace Segment

def text : Segment → List Char
  | plain s => s
  | token tok _ => tok

def ids (tk : Tokenizer) (t : Tables) : Segment → List ℕ
  | plain s => tk.encodePlain t s
  | token _ id => [id]

end Segment

variable {added : List (List Char × ℕ)}

/-- An added token, and no longer one starts where it does, before `rest`. -/
def Longest (added : List (List Char × ℕ)) (tok : List Char) (id : ℕ) (rest : List Char) : Prop :=
  (tok, id) ∈ added ∧ ∀ a ∈ added, a.1 <+: tok ++ rest → a.1.length ≤ tok.length

/-- No added token starts at a character of `s`, which stands before `rest`. -/
def Untouched (added : List (List Char × ℕ)) (s rest : List Char) : Prop :=
  ∀ u v, s = u ++ v → v ≠ [] → ∀ a ∈ added, ¬ a.1 <+: v ++ rest

/-- The text cut into added tokens, each the longest one there, and plain
text in which none starts, as much of it together as there is. -/
inductive Segmented (added : List (List Char × ℕ)) : List Char → List Segment → Prop
  | nil : Segmented added [] []
  | token {tok id rest segs} (hlong : Longest added tok id rest) (h : Segmented added rest segs) :
      Segmented added (tok ++ rest) (.token tok id :: segs)
  | plain {s rest segs} (hne : s ≠ []) (hfree : Untouched added s rest)
      (hmax : ∀ s', segs.head? ≠ some (.plain s')) (h : Segmented added rest segs) :
      Segmented added (s ++ rest) (.plain s :: segs)

/-- The segments are all of the text. -/
theorem Segmented.text_eq {text : List Char} {segs : List Segment} (h : Segmented added text segs) :
    segs.flatMap Segment.text = text := by
  induction h with
  | nil => rfl
  | token _ _ ih => rw [List.flatMap_cons, ih, Segment.text]
  | plain _ _ _ _ ih => rw [List.flatMap_cons, ih, Segment.text]

/-! ### The scan -/

namespace Tokenizer

/-- Of two starts of one text, the one of fewer bytes has fewer characters. -/
theorem length_le_of_encode {a b text : List Char} (ha : a <+: text) (hb : b <+: text)
    (hle : (Utf8.encode a).length ≤ (Utf8.encode b).length) : a.length ≤ b.length := by
  obtain h | ⟨c, rfl⟩ := List.prefix_or_prefix_of_prefix ha hb
  · exact h.length_le
  · rw [Utf8.encode_append, List.length_append] at hle
    have hc : (Utf8.encode c).length = 0 := by omega
    have hlen := Utf8.length_le_encode c
    rw [List.length_append]
    omega

/-- In a sorted table the first token found is the longest. -/
theorem longest_of_hit (hsort : added.Pairwise addedLe) {rest tok : List Char} {id : ℕ}
    (h : hit added rest = some (tok, id)) : Longest added tok id (rest.drop tok.length) := by
  obtain ⟨hmem, hrest⟩ := hit_eq_some h
  refine ⟨hmem, fun a ha hpre => ?_⟩
  rw [← hrest] at hpre
  obtain ⟨-, l, r, hadded, hl⟩ := List.find?_eq_some_iff_append.mp h
  rw [hadded] at ha hsort
  obtain ha | ha := List.mem_append.mp ha
  · -- what stands before it in the table is not found
    have := hl a ha
    rw [List.isPrefixOf_iff_prefix.mpr hpre] at this
    cases this
  · obtain rfl | ha := List.mem_cons.mp ha
    · exact Nat.le_refl _
    · have hle : addedLe (tok, id) a := List.rel_of_pairwise_cons (List.pairwise_append.mp hsort).2.1 ha
      apply length_le_of_encode hpre (hrest ▸ List.prefix_append tok _)
      obtain hlt | ⟨heq, -⟩ := hle
      · exact Nat.le_of_lt hlt
      · exact Nat.le_of_eq heq.symm

theorem not_prefix_of_hit_none {rest : List Char} (h : hit added rest = none) : ∀ a ∈ added, ¬ a.1 <+: rest :=
  fun a ha hpre => List.find?_eq_none.mp h a ha (List.isPrefixOf_iff_prefix.mpr hpre)

/-- The plain text grows by a character at which nothing is found. -/
theorem untouched_append {plain rest : List Char} {c : Char} (hfree : Untouched added plain (c :: rest))
    (h : hit added (c :: rest) = none) : Untouched added (plain ++ [c]) rest := by
  intro u v huv hne a ha hpre
  obtain rfl | ⟨v, d, rfl⟩ := List.eq_nil_or_concat' v
  · exact hne rfl
  · rw [← List.append_assoc] at huv
    obtain ⟨rfl, hd⟩ := List.append_inj' huv rfl
    obtain rfl := List.singleton_inj.mp hd
    rw [List.append_assoc] at hpre
    by_cases hv : v = []
    · rw [hv] at hpre
      exact not_prefix_of_hit_none h a ha hpre
    · exact hfree u v rfl hv a ha hpre

variable {tk : Tokenizer} {t : Tables}

/-- Plain text before segments that start with a token, or end the text. -/
theorem segmented_flush {plain rest : List Char} {segs : List Segment} (hfree : Untouched tk.added plain rest)
    (hmax : ∀ s', segs.head? ≠ some (.plain s')) (h : Segmented tk.added rest segs) (out : List ℕ) :
    ∃ segs', Segmented tk.added (plain ++ rest) segs' ∧
      tk.flush t plain out ++ segs.flatMap (Segment.ids tk t) = out ++ segs'.flatMap (Segment.ids tk t) := by
  unfold flush
  split_ifs with hplain
  · exact ⟨segs, by rwa [hplain], rfl⟩
  · exact ⟨.plain plain :: segs, .plain hplain hfree hmax h, by rw [List.flatMap_cons, Segment.ids, List.append_assoc]⟩

/-- The ids that the scan adds are those of a segmentation of the text since
the last added token and of the text that was left. -/
theorem encodeFrom_segmented (hsort : tk.added.Pairwise addedLe) : ∀ {fuel : ℕ} {plain rest : List Char}
    {out ids : List ℕ}, Untouched tk.added plain rest → tk.encodeFrom t fuel plain rest out = some ids →
    ∃ segs, Segmented tk.added (plain ++ rest) segs ∧ ids = out ++ segs.flatMap (Segment.ids tk t)
  | fuel + 1, plain, [], out, ids, hfree, h => by
    obtain ⟨segs, hsegs, hids⟩ := @segmented_flush tk t plain [] [] hfree
      (by rintro _ ⟨⟩) .nil out
    refine ⟨segs, hsegs, ?_⟩
    rw [← hids, List.flatMap_nil, List.append_nil]
    exact (Option.some.inj h).symm
  | fuel + 1, plain, c :: rest, out, ids, hfree, h => by
    rw [encodeFrom] at h
    cases hhit : hit tk.added (c :: rest) with
    | none =>
      rw [hhit] at h
      obtain ⟨segs, hsegs, hids⟩ := encodeFrom_segmented hsort (untouched_append hfree hhit) h
      refine ⟨segs, ?_, hids⟩
      rwa [List.append_assoc, List.singleton_append] at hsegs
    | some a =>
      obtain ⟨tok, id⟩ := a
      rw [hhit] at h
      have hnil : Untouched tk.added [] ((c :: rest).drop tok.length) := by
        intro u v huv hne
        exact absurd (List.append_eq_nil_iff.mp huv.symm).2 hne
      obtain ⟨segs, hsegs, hids⟩ := encodeFrom_segmented hsort hnil h
      have htoken := Segmented.token (longest_of_hit hsort hhit) hsegs
      rw [← (hit_eq_some hhit).2] at htoken
      obtain ⟨segs', hsegs', hids'⟩ := @segmented_flush tk t plain _ (.token tok id :: segs) hfree
        (by rintro _ ⟨⟩) htoken out
      refine ⟨segs', hsegs', ?_⟩
      rw [hids, ← hids', List.flatMap_cons, Segment.ids, List.append_assoc]

/-! ### Absorbing tokens -/

/-- Nothing but the table of ids and the added tokens is changed. -/
theorem absorbAddedTokens_fields (extra : List (List Char × ℕ)) :
    (tk.absorbAddedTokens extra).1.byteCharId = tk.byteCharId ∧ (tk.absorbAddedTokens extra).1.merge = tk.merge ∧
      (tk.absorbAddedTokens extra).1.marksJoinLetters = tk.marksJoinLetters :=
  absorbAddedTokens_keep (fun tk' => tk'.byteCharId = tk.byteCharId ∧ tk'.merge = tk.merge ∧
    tk'.marksJoinLetters = tk.marksJoinLetters) (fun _ _ _ h => h) (fun _ h => h) extra ⟨rfl, rfl, rfl⟩

/-- The scan does not look at the table of ids. -/
theorem encodeFrom_congr {tk' : Tokenizer} (hadded : tk.added = tk'.added)
    (hflush : tk.flush t = tk'.flush t) : ∀ (fuel : ℕ) (plain rest : List Char) (out : List ℕ),
    tk.encodeFrom t fuel plain rest out = tk'.encodeFrom t fuel plain rest out
  | 0, _, _, _ => rfl
  | fuel + 1, plain, [], out => by rw [encodeFrom, encodeFrom, hflush]
  | fuel + 1, plain, c :: rest, out => by
    rw [encodeFrom, encodeFrom, hadded, hflush]
    cases hit tk'.added (c :: rest) with
    | none => exact encodeFrom_congr hadded hflush fuel _ _ _
    | some a => exact encodeFrom_congr hadded hflush fuel _ _ _

theorem flush_congr {tk' : Tokenizer} (hbyte : tk.byteCharId = tk'.byteCharId) (hmerge : tk.merge = tk'.merge)
    (hmarks : tk.marksJoinLetters = tk'.marksJoinLetters) : tk.flush t = tk'.flush t := by
  unfold flush encodePlain bpe
  rw [hbyte, hmerge, hmarks]

theorem any_known {known : List (List Char × ℕ)} {tok : List Char} :
    (known.any fun b => b.1 = tok) = true ↔ tok ∈ known.map (·.1) := by
  simp only [List.any_eq_true, decide_eq_true_eq, List.mem_map]

/-- Of tokens with distinct texts, those that are not known are added. -/
theorem foldl_absorbOne_added : ∀ (extra : List (List Char × ℕ)) (r : Tokenizer × ℕ), (extra.map (·.1)).Nodup →
    (extra.foldl absorbOne r).1.added = r.1.added ++ extra.filter fun a => a.1 ∉ r.1.added.map (·.1)
  | [], r, _ => (List.append_nil _).symm
  | a :: extra, r, hnd => by
    obtain ⟨ha, hnd⟩ := List.nodup_cons.mp hnd
    rw [List.foldl_cons, foldl_absorbOne_added extra _ hnd]
    by_cases hknown : a.1 ∈ r.1.added.map (·.1)
    · rw [absorbOne, if_pos (any_known.mpr hknown), List.filter_cons_of_neg (by simpa using hknown)]
    · have hadded : (absorbOne r a).1.added = r.1.added ++ [a] := by
        rw [absorbOne, if_neg (any_known.not.mpr hknown)]
        rfl
      rw [hadded, List.filter_cons_of_pos (by simpa using hknown), List.append_assoc, List.singleton_append]
      congr 2
      apply List.filter_congr
      intro b hb
      have hne : b.1 ≠ a.1 := fun he => ha (List.mem_map.mpr ⟨b, hb, he⟩)
      rw [List.map_append, List.map_singleton]
      simp only [List.mem_append, List.mem_singleton, hne, or_false]

/-- Tokens with distinct texts have one place each in a sorted table. -/
theorem eq_of_perm_sorted {l l' : List (List Char × ℕ)} (hperm : l.Perm l') (hnd : (l.map (·.1)).Nodup) :
    l.insertionSort addedLe = l'.insertionSort addedLe := by
  have hl := List.perm_insertionSort addedLe l
  have hl' := List.perm_insertionSort addedLe l'
  apply (hl.trans (hperm.trans hl'.symm)).eq_of_pairwise _ (List.pairwise_insertionSort _ _)
    (List.pairwise_insertionSort _ _)
  intro a b ha hb hab hba
  exact List.inj_on_of_nodup_map hnd (hl.mem_iff.mp ha) (hperm.mem_iff.mpr (hl'.mem_iff.mp hb))
    (addedLe_antisymm hab hba)

/-- What is sorted before the rest is put before it in any order. -/
theorem insertionSort_append {l m m' : List (List Char × ℕ)} (h : m.insertionSort addedLe = m'.insertionSort addedLe) :
    (l ++ m).insertionSort addedLe = (l ++ m').insertionSort addedLe := by
  unfold List.insertionSort at *
  rw [List.foldr_append, List.foldr_append, h]

/-- The table after tokens were absorbed does not depend on their order. -/
theorem absorbAddedTokens_added {extra extra' : List (List Char × ℕ)} (hnd : (extra.map (·.1)).Nodup)
    (hperm : extra.Perm extra') : (tk.absorbAddedTokens extra).1.added = (tk.absorbAddedTokens extra').1.added := by
  rw [absorbAddedTokens_eq, absorbAddedTokens_eq]
  dsimp only
  rw [foldl_absorbOne_added _ _ hnd, foldl_absorbOne_added _ _ ((hperm.map _).nodup_iff.mp hnd)]
  apply insertionSort_append
  apply eq_of_perm_sorted (hperm.filter _)
  exact hnd.sublist (List.filter_sublist.map _)

/-- Every token is known after it was absorbed. -/
theorem foldl_absorbOne_known : ∀ (extra : List (List Char × ℕ)) (r : Tokenizer × ℕ),
    (∀ a ∈ r.1.added, a ∈ (extra.foldl absorbOne r).1.added) ∧
      ∀ a ∈ extra, a.1 ∈ (extra.foldl absorbOne r).1.added.map (·.1)
  | [], r => ⟨fun _ ha => ha, fun _ ha => nomatch ha⟩
  | a :: extra, r => by
    obtain ⟨hkeep, hknown⟩ := foldl_absorbOne_known extra (absorbOne r a)
    have hstep : (∀ b ∈ r.1.added, b ∈ (absorbOne r a).1.added) ∧ a.1 ∈ (absorbOne r a).1.added.map (·.1) := by
      unfold absorbOne
      split_ifs with h
      · exact ⟨fun _ hb => hb, any_known.mp h⟩
      · exact ⟨fun _ hb => List.mem_append_left _ hb,
          List.mem_map.mpr ⟨a, List.mem_append_right _ (List.mem_singleton_self _), rfl⟩⟩
    refine ⟨fun b hb => hkeep b (hstep.1 b hb), List.forall_mem_cons.mpr ⟨?_, hknown⟩⟩
    obtain ⟨b, hb, he⟩ := List.mem_map.mp hstep.2
    exact List.mem_map.mpr ⟨b, hkeep b hb, he⟩

/-- Known tokens are passed over. -/
theorem foldl_absorbOne_of_known : ∀ (extra : List (List Char × ℕ)) (r : Tokenizer × ℕ),
    (∀ a ∈ extra, a.1 ∈ r.1.added.map (·.1)) → extra.foldl absorbOne r = r
  | [], _, _ => rfl
  | a :: extra, r, h => by
    have hone : absorbOne r a = r := if_pos (any_known.mpr (h a (List.mem_cons_self ..)))
    rw [List.foldl_cons, hone]
    exact foldl_absorbOne_of_known extra r fun b hb => h b (List.mem_cons_of_mem _ hb)

/-- Tokens are absorbed once. -/
theorem absorbAddedTokens_twice (extra : List (List Char × ℕ)) :
    (tk.absorbAddedTokens extra).1.absorbAddedTokens extra = ((tk.absorbAddedTokens extra).1, 0) := by
  have hsorted : (tk.absorbAddedTokens extra).1.added.Pairwise addedLe := List.pairwise_insertionSort _ _
  have hknown : ∀ a ∈ extra, a.1 ∈ (tk.absorbAddedTokens extra).1.added.map (·.1) := by
    intro a ha
    obtain ⟨b, hb, he⟩ := List.mem_map.mp ((foldl_absorbOne_known extra (tk, 0)).2 a ha)
    exact List.mem_map.mpr ⟨b, (List.mem_insertionSort _).mpr hb, he⟩
  have hfold : extra.foldl absorbOne ((tk.absorbAddedTokens extra).1, 0) = ((tk.absorbAddedTokens extra).1, 0) :=
    foldl_absorbOne_of_known _ _ hknown
  generalize (tk.absorbAddedTokens extra).1 = tk' at hsorted hfold
  rw [absorbAddedTokens_eq, hfold]
  dsimp only
  rw [hsorted.insertionSort_eq]

end Tokenizer

/-- **Added tokens are segments.** With nonempty added tokens every text is
encoded, by a segmentation of the normalized text; and tokens that are absorbed
change the encoding in one way, whatever their order and however often. -/
theorem encode_segmented {it : IterationOrder (Σ _ : List Char, ℕ)} {doc : Json} {tk : Tokenizer}
    (h : tk.Loaded it doc) (t : Tables) :
    ((∀ a ∈ tk.added, a.1 ≠ []) → ∀ text : List Char, ∃ ids segs,
      (∀ fuel, (nfc t text).length < fuel → tk.encode t fuel text = some ids) ∧
      Segmented tk.added (nfc t text) segs ∧ segs.flatMap Segment.text = nfc t text ∧
      ids = segs.flatMap (Segment.ids tk t)) ∧
    (∀ extra extra' : List (List Char × ℕ), (extra.map (·.1)).Nodup → (extra.map (·.2)).Nodup →
      extra.Perm extra' → ∀ fuel text,
      (tk.absorbAddedTokens extra).1.encode t fuel text = (tk.absorbAddedTokens extra').1.encode t fuel text) ∧
    ∀ extra : List (List Char × ℕ),
      (tk.absorbAddedTokens extra).1.absorbAddedTokens extra = ((tk.absorbAddedTokens extra).1, 0) := by
  refine ⟨fun hne text => ?_, fun extra extra' hnd _ hperm fuel text => ?_, Tokenizer.absorbAddedTokens_twice⟩
  · obtain ⟨ids, hids⟩ : ∃ ids, tk.encode t ((nfc t text).length + 1) text = some ids :=
      Tokenizer.encodeFrom_ends hne (Nat.lt_succ_self _)
    have hnil : Untouched tk.added [] (nfc t text) := fun u v huv hv =>
      absurd (List.append_eq_nil_iff.mp huv.symm).2 hv
    obtain ⟨segs, hsegs, hflat⟩ := Tokenizer.encodeFrom_segmented h.sorted hnil hids
    refine ⟨ids, segs, fun fuel hlt => ?_, hsegs, hsegs.text_eq, hflat⟩
    exact Tokenizer.encodeFrom_mono hids hlt
  · obtain ⟨hbyte, hmerge, hmarks⟩ := @Tokenizer.absorbAddedTokens_fields tk extra
    obtain ⟨hbyte', hmerge', hmarks'⟩ := @Tokenizer.absorbAddedTokens_fields tk extra'
    exact Tokenizer.encodeFrom_congr (Tokenizer.absorbAddedTokens_added hnd hperm)
      (Tokenizer.flush_congr (hbyte.trans hbyte'.symm) (hmerge.trans hmerge'.symm) (hmarks.trans hmarks'.symm))
      fuel [] _ []

/-- The file with an accent for its added token: a text with two of them, and
two markers absorbed in both orders. -/
theorem encode_segmented_accent : ∃ tk : Tokenizer, tk.Loaded asStored (accentFile byteFields) ∧
    (∃ ids segs, (∀ fuel, (nfc accents ['é', 'a', 'é']).length < fuel →
        tk.encode accents fuel ['é', 'a', 'é'] = some ids) ∧
      Segmented [(['é'], 256)] (nfc accents ['é', 'a', 'é']) segs ∧ ids = segs.flatMap (Segment.ids tk accents)) ∧
    (tk.absorbAddedTokens [(['<'], 257), (['<', '<'], 258)]).1.encode accents 5 ['<', 'é', '<', '<'] =
      (tk.absorbAddedTokens [(['<', '<'], 258), (['<'], 257)]).1.encode accents 5 ['<', 'é', '<', '<'] := by
  obtain ⟨-, tk, hread, hadded⟩ := exists_tokenizer
  have hloaded := Tokenizer.Loaded.read hread
  obtain ⟨hsegs, horder, -⟩ := encode_segmented hloaded accents
  have hne : ∀ a ∈ tk.added, a.1 ≠ [] := by
    rw [hadded]
    decide
  obtain ⟨ids, segs, hids, hseg, -, hflat⟩ := hsegs hne ['é', 'a', 'é']
  rw [hadded] at hseg
  exact ⟨tk, hloaded, ⟨ids, segs, hids, hseg, hflat⟩,
    horder [(['<'], 257), (['<', '<'], 258)] _ (by decide) (by decide) (.swap ..) 5 _⟩

end Qwen
end Siphon
