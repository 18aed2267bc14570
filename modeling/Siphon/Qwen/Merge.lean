/-
# Merging to a normal form

`bpe` merges one adjacent pair at a time, one of the lowest rank and of these
the leftmost, until none is in the table. What `from_file` checks of a merge
is that both sides and the merged token are in the vocabulary, by their texts,
but the loop works on ids. So the tokens of the result spell the piece where
ids have one text each, and `from_file` lets a vocabulary pass in which they
have not (`spelling_lost`).

Key definitions: `Tokenizer.symbols`, `rankAt`, `Best`, `MergeBest`.
Key theorems: `bestPair_spec`, `mergeStep_best`, `buildTable_vocab`, `bpe_normal_form`.
-/
import Siphon.Qwen.RoundTrip

namespace Siphon
namespace Qwen

open Fallible

namespace Tokenizer

/-! ### The pair that is merged -/

/-- The rank of the pair at a place, if the table has it. -/
def rankAt (merge : Merges) (syms : List ℕ) (i : ℕ) : Option ℕ := do
  let a ← syms[i]?
  let b ← syms[i + 1]?
  (merge.lookup (a, b)).map (·.1)

/-- The place `i` has the lowest rank `r` that there is, and none before it
has the same. -/
structure Best (merge : Merges) (syms : List ℕ) (i r : ℕ) : Prop where
  rank : rankAt merge syms i = some r
  lowest : ∀ j r', rankAt merge syms j = some r' → r ≤ r'
  leftmost : ∀ j r', j < i → rankAt merge syms j = some r' → r < r'

/-- One merge, at the best place. -/
inductive MergeBest (merge : Merges) : List ℕ → List ℕ → Prop
  | step {pre a b post rank merged} (hpair : merge.lookup (a, b) = some (rank, merged))
      (hbest : Best merge (pre ++ a :: b :: post) pre.length rank) :
      MergeBest merge (pre ++ a :: b :: post) (pre ++ merged :: post)

variable {merge : Merges}

theorem rankAt_cons_cons_zero (a b : ℕ) (syms : List ℕ) :
    rankAt merge (a :: b :: syms) 0 = (merge.lookup (a, b)).map (·.1) := rfl

theorem rankAt_append (pre : List ℕ) (a b : ℕ) (post : List ℕ) :
    rankAt merge (pre ++ a :: b :: post) pre.length = (merge.lookup (a, b)).map (·.1) := by
  unfold rankAt
  rw [List.getElem?_append_right (Nat.le_refl _), List.getElem?_append_right (Nat.le_add_right _ 1),
    Nat.sub_self, Nat.add_sub_cancel_left]
  rfl

/-- There is no pair in fewer than two symbols. -/
theorem rankAt_of_length_lt {syms : List ℕ} (h : syms.length < 2) (i : ℕ) : rankAt merge syms i = none := by
  unfold rankAt
  rw [List.getElem?_eq_none (i := i + 1) (by omega)]
  cases syms[i]? <;> rfl

/-- What the best pair of the rest says of the whole, after a first pair that
is none or has the rank `q`. -/
theorem Best.cons {a : ℕ} {syms : List ℕ} {i r : ℕ} (h : Best merge syms i r)
    (hfirst : ∀ q, rankAt merge (a :: syms) 0 = some q → r < q) : Best merge (a :: syms) (i + 1) r where
  rank := h.rank
  lowest
    | 0, r', hr => Nat.le_of_lt (hfirst r' hr)
    | j + 1, r', hr => h.lowest j r' hr
  leftmost
    | 0, r', _, hr => hfirst r' hr
    | j + 1, r', hj, hr => h.leftmost j r' (Nat.lt_of_succ_lt_succ hj) hr

/-- A first pair of a rank that is nowhere undercut is the best. -/
theorem Best.first {a : ℕ} {syms : List ℕ} {r : ℕ} (hr : rankAt merge (a :: syms) 0 = some r)
    (h : ∀ j r', rankAt merge syms j = some r' → r ≤ r') : Best merge (a :: syms) 0 r where
  rank := hr
  lowest
    | 0, _, hr' => Nat.le_of_eq (Option.some.inj (hr.symm.trans hr'))
    | j + 1, r', hr' => h j r' hr'
  leftmost _ _ hj := absurd hj (Nat.not_lt_zero _)

/-- What the scan for the best pair says, of the symbols from the place `n` on
and of the best pair before them. -/
def Scanned (merge : Merges) (syms : List ℕ) (n : ℕ) (best : Option (ℕ × ℕ)) : Option (ℕ × ℕ) → Prop
  | none => best = none ∧ ∀ j, rankAt merge syms j = none
  | some (r, i) => best = some (r, i) ∧ (∀ j r', rankAt merge syms j = some r' → r ≤ r') ∨
      ∃ k, i = n + k ∧ Best merge syms k r ∧ ∀ br, best = some br → r < br.1

theorem scanned_of_length_lt {syms : List ℕ} (h : syms.length < 2) (n : ℕ) (best : Option (ℕ × ℕ)) :
    Scanned merge syms n best best := by
  obtain _ | ⟨r, i⟩ := best
  · exact ⟨rfl, rankAt_of_length_lt h⟩
  · refine .inl ⟨rfl, fun j r' hr => ?_⟩
    rw [rankAt_of_length_lt h] at hr
    cases hr

/-- The first pair is not taken. -/
theorem Scanned.skip {a : ℕ} {syms : List ℕ} {n : ℕ} {best res : Option (ℕ × ℕ)}
    (hfirst : ∀ q, rankAt merge (a :: syms) 0 = some q → ∃ br, best = some br ∧ br.1 ≤ q)
    (h : Scanned merge syms (n + 1) best res) : Scanned merge (a :: syms) n best res := by
  obtain _ | ⟨r, i⟩ := res
  · obtain ⟨rfl, hnone⟩ := h
    refine ⟨rfl, fun j => ?_⟩
    obtain _ | j := j
    · cases hq : rankAt merge (a :: syms) 0 with
      | none => rfl
      | some q =>
        obtain ⟨_, hbr, -⟩ := hfirst q hq
        cases hbr
    · exact hnone j
  · obtain ⟨hbest, hle⟩ | ⟨k, hi, hk, hlt⟩ := h
    · refine .inl ⟨hbest, fun j r' hr => ?_⟩
      obtain _ | j := j
      · obtain ⟨br, hbr, hq⟩ := hfirst r' hr
        rw [hbest] at hbr
        obtain rfl := Option.some.inj hbr
        exact hq
      · exact hle j r' hr
    · refine .inr ⟨k + 1, by omega, hk.cons fun q hq => ?_, hlt⟩
      obtain ⟨br, hbr, hle⟩ := hfirst q hq
      exact Nat.lt_of_lt_of_le (hlt br hbr) hle

/-- The first pair is taken: its rank is lower than the best before. -/
theorem Scanned.take {a : ℕ} {syms : List ℕ} {n q : ℕ} {best res : Option (ℕ × ℕ)}
    (hq : rankAt merge (a :: syms) 0 = some q) (hlt : ∀ br, best = some br → q < br.1)
    (h : Scanned merge syms (n + 1) (some (q, n)) res) : Scanned merge (a :: syms) n best res := by
  obtain _ | ⟨r, i⟩ := res
  · cases h.1
  · obtain ⟨hbest, hle⟩ | ⟨k, hi, hk, hrq⟩ := h
    · obtain ⟨rfl, rfl⟩ := Prod.mk.inj (Option.some.inj hbest)
      exact .inr ⟨0, rfl, .first hq hle, hlt⟩
    · have hr : r < q := hrq _ rfl
      refine .inr ⟨k + 1, by omega, hk.cons fun q' hq' => ?_, fun br hbr => Nat.lt_trans hr (hlt br hbr)⟩
      rwa [← Option.some.inj (hq.symm.trans hq')]

theorem bestPair_spec : ∀ (syms : List ℕ) (n : ℕ) (best : Option (ℕ × ℕ)),
    Scanned merge syms n best (bestPair merge syms n best)
  | [], n, best => scanned_of_length_lt (by decide) n best
  | [_], n, best => scanned_of_length_lt (Nat.lt_succ_self _) n best
  | a :: b :: syms, n, best => by
    have hfirst := @rankAt_cons_cons_zero merge a b syms
    rw [bestPair]
    cases hpair : merge.lookup (a, b) with
    | none =>
      rw [hpair] at hfirst
      apply Scanned.skip _ (bestPair_spec (b :: syms) (n + 1) best)
      intro q hq
      cases hfirst.symm.trans hq
    | some v =>
      obtain ⟨rank, merged⟩ := v
      rw [hpair, Option.map_some] at hfirst
      dsimp only
      split_ifs with hall
      · refine Scanned.take hfirst (fun br hbr => ?_) (bestPair_spec (b :: syms) (n + 1) _)
        rw [hbr] at hall
        exact of_decide_eq_true hall
      · apply Scanned.skip _ (bestPair_spec (b :: syms) (n + 1) best)
        intro q hq
        obtain rfl := Option.some.inj (hfirst.symm.trans hq)
        obtain _ | br := best
        · exact absurd rfl hall
        · refine ⟨br, rfl, Nat.le_of_not_lt fun hlt => hall ?_⟩
          exact decide_eq_true hlt

theorem bestPair_best {syms : List ℕ} {r i : ℕ} (h : bestPair merge syms 0 none = some (r, i)) :
    Best merge syms i r := by
  have hspec := @bestPair_spec merge syms 0 none
  rw [h] at hspec
  obtain ⟨h, -⟩ | ⟨k, hi, hk, -⟩ := hspec
  · cases h
  · rwa [hi, Nat.zero_add]

/-- A merge is made at the best place. -/
theorem mergeStep_best {syms syms' : List ℕ} (h : mergeStep merge syms = some syms') : MergeBest merge syms syms' := by
  obtain ⟨pre, a, b, post, ⟨rank, merged⟩, hpair, rfl, rfl, r, hbest⟩ := mergeStep_eq_some h
  have hbest := bestPair_best hbest
  have hrank : rankAt merge (pre ++ a :: b :: post) pre.length = some rank := by
    rw [rankAt_append, hpair]
    rfl
  obtain rfl := Option.some.inj (hrank.symm.trans hbest.rank)
  exact .step hpair hbest

/-- Where no merge is made, no pair is in the table. -/
theorem rankAt_of_mergeStep {syms : List ℕ} (h : mergeStep merge syms = none) (j : ℕ) : rankAt merge syms j = none := by
  have hspec := @bestPair_spec merge syms 0 none
  cases hbest : bestPair merge syms 0 none with
  | none =>
    rw [hbest] at hspec
    exact hspec.2 j
  | some ri =>
    -- a best pair is merged
    have hrank := (bestPair_best hbest).rank
    unfold rankAt at hrank
    obtain ⟨a, ha, h1⟩ := Option.bind_eq_some_iff.mp hrank
    obtain ⟨b, hb, h2⟩ := Option.bind_eq_some_iff.mp h1
    obtain ⟨v, hv, -⟩ := Option.map_eq_some_iff.mp h2
    have hstep : mergeStep merge syms = some ((syms.set ri.2 v.2).eraseIdx (ri.2 + 1)) := by
      simp [mergeStep, hbest, ha, hb, hv]
    cases h.symm.trans hstep

/-! ### The merge loop -/

/-- The symbols of the bytes of a piece. -/
def symbols (tk : Tokenizer) (piece : List UInt8) : List ℕ := piece.map fun b => tk.byteCharId.getD b.toNat 0

theorem reaches_mergeFrom : ∀ (fuel : ℕ) (syms : List ℕ),
    Relation.ReflTransGen (MergeBest merge) syms (mergeFrom merge fuel syms)
  | 0, _ => .refl
  | fuel + 1, syms => by
    rw [mergeFrom]
    cases h : mergeStep merge syms with
    | none => exact .refl
    | some syms' => exact (reaches_mergeFrom fuel syms').head (mergeStep_best h)

/-- The loop has ended when no merge is left. -/
theorem mergeFrom_of_mergeStep {syms : List ℕ} (h : mergeStep merge syms = none) :
    ∀ fuel, mergeFrom merge fuel syms = syms
  | 0 => rfl
  | fuel + 1 => by rw [mergeFrom, h]

theorem mergeFrom_add : ∀ (n m : ℕ) (syms : List ℕ),
    mergeFrom merge (n + m) syms = mergeFrom merge m (mergeFrom merge n syms)
  | 0, m, syms => by rw [Nat.zero_add, mergeFrom]
  | n + 1, m, syms => by
    rw [Nat.add_right_comm, mergeFrom, mergeFrom]
    cases h : mergeStep merge syms with
    | none => rw [mergeFrom_of_mergeStep h]
    | some syms' => exact mergeFrom_add n m syms'

variable {tk : Tokenizer}

/-- Fewer than two symbols stay as they are, with or without the loop. -/
theorem bpe_eq_mergeFrom (piece : List UInt8) : tk.bpe piece = mergeFrom tk.merge piece.length (tk.symbols piece) := by
  match piece with
  | [] => rfl
  | [_] => rfl
  | b :: c :: piece =>
    have hlen : (tk.symbols (b :: c :: piece)).length = (b :: c :: piece).length := List.length_map _
    unfold bpe
    dsimp only
    rw [← symbols, hlen]
    exact if_neg (by rw [List.length_cons, List.length_cons]; omega)

/-- The merges of a piece end at its ids. -/
theorem mergeStep_bpe (piece : List UInt8) : mergeStep tk.merge (tk.bpe piece) = none := by
  rw [bpe_eq_mergeFrom]
  exact mergeStep_mergeFrom (Nat.le_of_eq (List.length_map _))

/-- A loop of more passes comes to the same end. -/
theorem mergeFrom_eq_bpe {fuel : ℕ} {piece : List UInt8} (h : piece.length ≤ fuel) :
    mergeFrom tk.merge fuel (tk.symbols piece) = tk.bpe piece := by
  obtain ⟨m, rfl⟩ := Nat.exists_eq_add_of_le h
  rw [mergeFrom_add, ← bpe_eq_mergeFrom, mergeFrom_of_mergeStep (mergeStep_bpe piece)]

/-! ### What the ids spell -/

/-- `token_str`, empty where there is none -/
def tokenStr (tk : Tokenizer) (id : ℕ) : List Char := tk.idToToken.getD id []

/-- The byte-level spelling of a piece. -/
def spelling (piece : List UInt8) : List Char := piece.map fun b => byteToCharTable.getD b.toNat '\x00'

/-- What the tables of a tokenizer say about the texts of its tokens. -/
structure Spelled (tk : Tokenizer) : Prop where
  byte : ∀ b : UInt8, tk.tokenStr (tk.byteCharId.getD b.toNat 0) = [byteToCharTable.getD b.toNat '\x00']
  merge : ∀ k v, tk.merge.lookup k = some v → tk.tokenStr v.2 = tk.tokenStr k.1 ++ tk.tokenStr k.2

theorem symbols_spelling (h : tk.Spelled) (piece : List UInt8) :
    (tk.symbols piece).flatMap tk.tokenStr = spelling piece := by
  unfold symbols spelling
  rw [List.flatMap_map]
  simp only [h.byte]
  exact List.map_eq_flatMap.symm

/-- A merge keeps the text. -/
theorem MergeBest.spelling (h : tk.Spelled) {syms syms' : List ℕ} (hstep : MergeBest tk.merge syms syms') :
    syms'.flatMap tk.tokenStr = syms.flatMap tk.tokenStr := by
  obtain ⟨hpair, -⟩ := hstep
  rw [List.flatMap_append, List.flatMap_append, List.flatMap_cons, List.flatMap_cons, List.flatMap_cons,
    h.merge _ _ hpair, List.append_assoc]

theorem reaches_spelling (h : tk.Spelled) {syms syms' : List ℕ}
    (hreach : Relation.ReflTransGen (MergeBest tk.merge) syms syms') :
    syms'.flatMap tk.tokenStr = syms.flatMap tk.tokenStr := by
  induction hreach with
  | refl => rfl
  | tail _ hstep ih => exact (hstep.spelling h).trans ih

end Tokenizer

/-! ### The vocabulary in the table -/

/-- An added token never takes the place of another. -/
theorem IdTable.foldl_putNew_holds {id : ℕ} {tok : List Char} : ∀ (l : List (List Char × ℕ)) {table : IdTable},
    table.Holds id tok →
    (l.foldl (fun table a => if table.known.getD a.2 false then table else table.put a.1 a.2) table).Holds id tok
  | [], _, h => h
  | a :: l, table, h => by
    rw [List.foldl_cons]
    apply foldl_putNew_holds l
    split_ifs with hknown
    · exact h
    · apply h.put
      intro he
      rw [he, List.getD_eq_getElem?_getD, h.2] at hknown
      exact hknown rfl

/-- With distinct ids the table leads from each id of the vocabulary to its
token, whatever the added tokens are. -/
theorem buildTable_vocab {maxId : ℕ} {entries : List (Σ _ : List Char, ℕ)} (added : List (List Char × ℕ))
    (hnd : (entries.map (·.2)).Nodup) (he : ∀ e ∈ entries, e.2 ≤ maxId) :
    ∀ e ∈ entries, (buildTable maxId entries added).Holds e.2 e.1 := by
  intro e hmem
  have hvocab := (@buildTable_holds maxId entries [] (by simpa using hnd) he (fun _ h => nomatch h)).1 e hmem
  exact IdTable.foldl_putNew_holds added hvocab

/-- A tokenizer read from a file with distinct ids in its vocabulary. -/
theorem spelled_of_fromFile {it : IterationOrder (Σ _ : List Char, ℕ)} {doc : Json} {tk : Tokenizer} {p : Parts}
    (h : fromFile it doc = .ok tk) (hp : readParts doc = .ok p) (hids : (p.vocab.entries.map (·.2)).Nodup) :
    tk.Spelled := by
  obtain ⟨p', arr, merge, marksJoin, hp', hmiss, hmerge, rfl⟩ := fromFile_eq_ok h
  obtain rfl := Except.ok.inj (hp.symm.trans hp')
  have hperm := it.perm p.vocab.entries
  have htable := buildTable_vocab (p.added.insertionSort addedLe) ((hperm.map (·.2)).nodup_iff.mpr hids)
    fun e he => (readParts_le hp).1 e (hperm.mem_iff.mp he)
  have htext : ∀ tok id, p.vocab.lookup tok = some id →
      (buildTable p.maxId (it.order p.vocab.entries) (p.added.insertionSort addedLe)).idToToken.getD id [] = tok := by
    intro tok id hid
    rw [List.getD_eq_getElem?_getD, (htable _ (hperm.mem_iff.mpr (AList.mem_lookup_iff.mp hid))).1]
    rfl
  constructor
  · intro b
    have hb : b.toNat < byteToCharTable.length := length_byteToCharTable ▸ b.toNat_lt
    obtain ⟨id, hid⟩ := lookup_byteChar hmiss hb
    unfold Tokenizer.tokenStr
    dsimp only
    rw [List.getD_eq_getElem?_getD (i := b.toNat), List.getElem?_map, List.getElem?_map,
      List.getElem?_eq_getElem hb, Option.map_some, Option.map_some, Option.getD_some, hid, Option.getD_some,
      htext _ _ hid, List.getD_eq_getElem?_getD, List.getElem?_eq_getElem hb, Option.getD_some]
  · intro k v hk
    obtain ⟨left, right, hl, hr, hlr⟩ := readMerges_spec hmerge k v hk
    unfold Tokenizer.tokenStr
    rw [htext _ _ hl, htext _ _ hr, htext _ _ hlr]

/-- **The merge normal form.** Of every tokenizer read from a file and every
piece: the loop ends, it merges at the best place each time, and no pair that
it leaves is in the table. Where the ids of the vocabulary are distinct, the
tokens spell the piece. -/
theorem bpe_normal_form {it : IterationOrder (Σ _ : List Char, ℕ)} {doc : Json} {tk : Tokenizer} {p : Parts}
    (h : fromFile it doc = .ok tk) (hp : readParts doc = .ok p) (piece : List UInt8) :
    (∀ fuel, piece.length ≤ fuel → Tokenizer.mergeFrom tk.merge fuel (tk.symbols piece) = tk.bpe piece) ∧
    Tokenizer.mergeStep tk.merge (tk.bpe piece) = none ∧
    Relation.ReflTransGen (Tokenizer.MergeBest tk.merge) (tk.symbols piece) (tk.bpe piece) ∧
    (∀ pre a b post, tk.bpe piece = pre ++ a :: b :: post → tk.merge.lookup (a, b) = none) ∧
    ((p.vocab.entries.map (·.2)).Nodup → (tk.bpe piece).flatMap tk.tokenStr = Tokenizer.spelling piece) := by
  have hend := tk.mergeStep_bpe piece
  have hreach : Relation.ReflTransGen (Tokenizer.MergeBest tk.merge) (tk.symbols piece) (tk.bpe piece) := by
    rw [Tokenizer.bpe_eq_mergeFrom]
    exact Tokenizer.reaches_mergeFrom _ _
  refine ⟨fun fuel => Tokenizer.mergeFrom_eq_bpe, hend, hreach, fun pre a b post heq => ?_, fun hids => ?_⟩
  · have hrank := Tokenizer.rankAt_of_mergeStep hend pre.length
    rw [heq, Tokenizer.rankAt_append] at hrank
    exact Option.map_eq_none_iff.mp hrank
  · have hspelled := spelled_of_fromFile h hp hids
    exact (Tokenizer.reaches_spelling hspelled hreach).trans (Tokenizer.symbols_spelling hspelled piece)

/-! ### A vocabulary with one id -/

/-- A vocabulary of the byte characters alone, all with one id. -/
def zeroFields : List (List Char × Json) := byteToCharTable.map fun ch => ([ch], .number (some 0))

theorem exists_zeroVocab : ∃ r : Vocab × ℕ, readVocab zeroFields = .ok r ∧
    r.1.entries = entriesOf (byteToCharTable.map fun ch => ([ch], 0)) := by
  have hkeys : ((byteToCharTable.map fun ch => ([ch], 0)).map (·.1)).Nodup := by
    rw [List.map_map]
    exact nodup_byteToCharTable.map fun _ _ he => List.singleton_inj.mp he
  have hlt : ∀ p ∈ byteToCharTable.map fun ch => ([ch], 0), p.2 < 2 ^ 32 := by
    intro p hp
    obtain ⟨ch, -, rfl⟩ := List.mem_map.mp hp
    exact Nat.two_pow_pos 32
  obtain ⟨r, h1, h2⟩ := readVocab_fields _ (∅, 0) hkeys (fun p _ => AList.notMem_empty p.1) hlt
  rw [List.map_map] at h1
  rw [show (∅ : Vocab).entries = [] from rfl, List.append_nil] at h2
  exact ⟨r, h1, h2⟩

/-- The file with one id is read, and all bytes have that id. -/
theorem exists_zeroTokenizer : ∃ tk, fromFile asStored (accentFile zeroFields) = .ok tk ∧
    ∀ b : UInt8, tk.bpe [b] = [0] := by
  obtain ⟨⟨vocab, maxId⟩, hread, hentries⟩ := exists_zeroVocab
  have hlookup : ∀ ch ∈ byteToCharTable, vocab.lookup [ch] = some 0 := by
    intro ch hch
    apply AList.mem_lookup_iff.mpr
    dsimp only at hentries
    rw [hentries, entriesOf, List.mem_reverse, List.map_map]
    exact List.mem_map.mpr ⟨ch, hch, rfl⟩
  have hfile := fromFile_vocabFile hread (rfl : readMerges vocab [] = .ok ∅) fun ch hch => by
    rw [hlookup ch hch]
    exact Option.some_ne_none 0
  refine ⟨_, hfile, fun b => ?_⟩
  have hb : b.toNat < byteToCharTable.length := length_byteToCharTable ▸ b.toNat_lt
  unfold Tokenizer.bpe
  dsimp only
  rw [List.map_singleton, List.getD_eq_getElem?_getD, List.getElem?_map, List.getElem?_map,
    List.getElem?_eq_getElem hb, Option.map_some, Option.map_some, hlookup _ (List.getElem_mem hb)]
  rfl

/-- With one id for all bytes, two of them are spelled the same. -/
theorem spelling_lost : ¬ ∀ (it : IterationOrder (Σ _ : List Char, ℕ)) (doc : Json) (tk : Tokenizer),
    fromFile it doc = .ok tk → ∀ piece : List UInt8,
    (tk.bpe piece).flatMap tk.tokenStr = Tokenizer.spelling piece := by
  intro h
  obtain ⟨tk, hfile, hbpe⟩ := exists_zeroTokenizer
  have hA := h asStored _ tk hfile [65]
  have hB := h asStored _ tk hfile [66]
  rw [hbpe] at hA hB
  have hspell : Tokenizer.spelling [65] ≠ Tokenizer.spelling [66] := by decide
  exact hspell (hA.symm.trans hB)

/-! ### A vocabulary with a merge -/

/-- The byte characters, each with its own id, and one token of two. -/
def pairFields : List (List Char × Json) := byteFields ++ [(['H', 'i'], .number (some 257))]

/-- The file of these, whose merge makes the token. -/
def pairFile : Json := vocabFile pairFields [.array [.string ['H'], .string ['i']]]

/-- The file is read, its ids are distinct, and its one merge is that of the two bytes. -/
theorem exists_pairTokenizer : ∃ (p : Parts) (tk : Tokenizer), readParts pairFile = .ok p ∧
    fromFile asStored pairFile = .ok tk ∧ (p.vocab.entries.map (·.2)).Nodup ∧
    tk.symbols [72, 105] = [72, 105] ∧ tk.merge = AList.insert (72, 105) (0, 257) ∅ := by
  obtain ⟨⟨vocab, maxId⟩, hread, hentries⟩ := @exists_vocab_append [(['H', 'i'], 257)] (by simp) (by simp) (by simp)
  dsimp only at hentries
  have hH : vocab.lookup ['H'] = some 72 := lookup_byteToCharTable hentries (by decide)
  have hi : vocab.lookup ['i'] = some 105 := lookup_byteToCharTable hentries (by decide)
  have hHi : vocab.lookup ['H', 'i'] = some 257 := by
    apply AList.mem_lookup_iff.mpr
    rw [hentries, entriesOf, List.mem_reverse, List.map_append]
    exact List.mem_append_right _ (List.mem_singleton_self _)
  have hmerges : readMerges vocab [.array [.string ['H'], .string ['i']]] =
      .ok (AList.insert (72, 105) (0, 257) ∅) := by
    simp [readMerges, readMerge, Fallible.orElse, Json.asStr, hH, hi, hHi, bind, Except.bind, pure, Except.pure, asU32]
  have hfile := fromFile_vocabFile hread hmerges fun ch hch => by
    obtain ⟨i, hi⟩ := List.mem_iff_getElem?.mp hch
    rw [lookup_byteToCharTable hentries hi]
    exact Option.some_ne_none i
  refine ⟨_, _, readParts_vocabFile hread _, hfile, ?_, ?_, rfl⟩
  · have hids : (byteTokens ++ [(['H', 'i'], 257)]).map (fun p : List Char × ℕ => p.2) = List.range' 0 256 ++ [257] := by
      rw [byteTokens, List.map_append, List.map_map]
      exact congrArg (· ++ [257]) ((List.zipIdx_map_snd ..).trans (by rw [length_byteToCharTable]))
    have hnodup : (List.range' 0 256 ++ [257]).Nodup := by
      refine List.nodup_append.mpr ⟨List.nodup_range', List.nodup_singleton _, fun a ha b hb => ?_⟩
      rw [List.mem_range'_1] at ha
      obtain rfl := List.mem_singleton.mp hb
      omega
    dsimp only
    rw [hentries, entriesOf, List.map_reverse, List.nodup_reverse, List.map_map]
    exact hids ▸ hnodup
  · have hat : ∀ {i : ℕ} {ch : Char} {id : ℕ}, byteToCharTable[i]? = some ch → vocab.lookup [ch] = some id →
        ((byteToCharTable.map fun ch => vocab.lookup [ch]).map (·.getD 0)).getD i 0 = id := by
      intro i ch id hch hid
      rw [List.getD_eq_getElem?_getD, List.getElem?_map, List.getElem?_map, hch, Option.map_some, Option.map_some, hid]
      rfl
    show [List.getD _ 72 0, List.getD _ 105 0] = [72, 105]
    rw [hat (by decide) hH, hat (by decide) hi]

/-- The merge makes one token of the two bytes, which spells both. -/
theorem bpe_normal_form_bytes : ∃ tk : Tokenizer, fromFile asStored pairFile = .ok tk ∧
    tk.bpe [72, 105] = [257] ∧ (tk.bpe [72, 105]).flatMap tk.tokenStr = ['H', 'i'] := by
  obtain ⟨p, tk, hparts, hfile, hids, hsymbols, hmerge⟩ := exists_pairTokenizer
  obtain ⟨hfuel, -, -, -, hspell⟩ := bpe_normal_form hfile hparts [72, 105]
  refine ⟨tk, hfile, ?_, (hspell hids).trans (by decide)⟩
  rw [← hfuel 2 le_rfl, hsymbols, hmerge]
  decide

end Qwen
end Siphon
