/-
# Text as UTF-8 bytes

`encode` is the UTF-8 form of a list of scalar values. `decodeLossy` reads
bytes back and puts U+FFFD for each maximal subpart that is no character, the
replacement both Python's `errors="replace"` and Rust's `from_utf8_lossy`
document. What was encoded is read back unchanged (`decodeLossy_encode`). A
text with two-byte characters of which some are written as a single byte is
not: what comes out is another text (`decodeLossy_spelled_iff`).
-/
import Mathlib.Data.List.Forall2

namespace Utf8

/-- The UTF-8 bytes of a text. -/
def encode (cs : List Char) : List UInt8 := cs.flatMap String.utf8EncodeChar

/-- The character whose encoding the bytes begin with. -/
def decodeChar? (bs : List UInt8) : Option Char := bs.toByteArray.utf8DecodeChar? 0

/-- How many continuation bytes a lead byte announces and the range of the
first one (the others are in 80..BF); none for a byte that begins no
character. -/
def continuation (b : UInt8) : Option (ℕ × UInt8 × UInt8) :=
  if 0xC2 ≤ b ∧ b ≤ 0xDF then some (1, 0x80, 0xBF)
  else if b = 0xE0 then some (2, 0xA0, 0xBF)
  else if b = 0xED then some (2, 0x80, 0x9F)
  else if 0xE1 ≤ b ∧ b ≤ 0xEF then some (2, 0x80, 0xBF)
  else if b = 0xF0 then some (3, 0x90, 0xBF)
  else if b = 0xF4 then some (3, 0x80, 0x8F)
  else if 0xF1 ≤ b ∧ b ≤ 0xF3 then some (3, 0x80, 0xBF)
  else none

/-- How many of the next `k` bytes, up to the first that does not fit, can
continue a character. -/
def continued : ℕ → UInt8 → UInt8 → List UInt8 → ℕ
  | 0, _, _, _ => 0
  | _ + 1, _, _, [] => 0
  | k + 1, lo, hi, b :: bs => if lo ≤ b ∧ b ≤ hi then continued k 0x80 0xBF bs + 1 else 0

/-- How many bytes one U+FFFD stands for at an ill-formed place: the longest
start of a character there, at least one byte. -/
def maximalSubpart : List UInt8 → ℕ
  | [] => 1
  | b :: bs =>
    match continuation b with
    | none => 1
    | some (k, lo, hi) => 1 + continued k lo hi bs

/-- The decoding loop. Each pass takes at least one byte, so as many passes
as there are bytes are enough. -/
def decodeLossyFrom : ℕ → List UInt8 → List Char
  | 0, _ => []
  | _ + 1, [] => []
  | fuel + 1, bs@(_ :: _) =>
    match decodeChar? bs with
    | some c => c :: decodeLossyFrom fuel (bs.drop c.utf8Size)
    | none => '\uFFFD' :: decodeLossyFrom fuel (bs.drop (maximalSubpart bs))

/-- The text the bytes stand for, with U+FFFD where they are no UTF-8. -/
def decodeLossy (bs : List UInt8) : List Char := decodeLossyFrom bs.length bs

@[simp] theorem encode_nil : encode [] = [] := rfl

@[simp] theorem encode_cons (c : Char) (cs : List Char) :
    encode (c :: cs) = String.utf8EncodeChar c ++ encode cs := rfl

@[simp] theorem encode_append (cs ds : List Char) : encode (cs ++ ds) = encode cs ++ encode ds :=
  List.flatMap_append

/-- A number below the surrogates is the code point of its character. -/
theorem toNat_ofNat {n : ℕ} (h : n < 0xD800) : (Char.ofNat n).toNat = n := by
  have hv : n.isValidChar := Or.inl h
  unfold Char.ofNat
  rw [dif_pos hv]
  rfl

/-- A text has at least as many bytes as characters. -/
theorem length_le_encode : ∀ cs : List Char, cs.length ≤ (encode cs).length
  | [] => Nat.le_refl _
  | c :: cs => by
    have ih := length_le_encode cs
    have hpos := c.utf8Size_pos
    rw [encode_cons, List.length_append, String.length_utf8EncodeChar, List.length_cons]
    omega

/-- A character has at most four bytes. -/
theorem length_encode_le : ∀ cs : List Char, (encode cs).length ≤ 4 * cs.length
  | [] => Nat.le_refl _
  | c :: cs => by
    have ih := length_encode_le cs
    have hfour := c.utf8Size_le_four
    rw [encode_cons, List.length_append, String.length_utf8EncodeChar, List.length_cons]
    omega

theorem decodeChar?_encode_append (c : Char) (bs : List UInt8) :
    decodeChar? (String.utf8EncodeChar c ++ bs) = some c := by
  unfold decodeChar?
  rw [List.toByteArray_append]
  exact ByteArray.utf8DecodeChar?_utf8EncodeChar_append

theorem decodeLossyFrom_encode : ∀ (cs : List Char) (fuel : ℕ), (encode cs).length ≤ fuel →
    decodeLossyFrom fuel (encode cs) = cs
  | [], fuel, _ => by cases fuel <;> rfl
  | c :: cs, fuel, h => by
    have hc := c.utf8Size_pos
    have hlen : (String.utf8EncodeChar c).length = c.utf8Size := String.length_utf8EncodeChar c
    rw [encode_cons, List.length_append] at h
    obtain ⟨fuel, rfl⟩ : ∃ f, fuel = f + 1 := ⟨fuel - 1, by omega⟩
    obtain ⟨b, bs, hb⟩ : ∃ b bs, encode (c :: cs) = b :: bs := by
      rw [← List.ne_nil_iff_exists_cons, ← List.length_pos_iff, encode_cons, List.length_append]
      omega
    have hd : decodeChar? (b :: bs) = some c := by
      rw [← hb, encode_cons]
      exact decodeChar?_encode_append c _
    have hdrop : (b :: bs).drop c.utf8Size = encode cs := by
      rw [← hb, encode_cons, ← hlen]
      exact List.drop_left
    rw [hb, decodeLossyFrom, hd]
    simp only
    rw [hdrop, decodeLossyFrom_encode cs fuel (by omega)]

/-- What was encoded is read back. -/
theorem decodeLossy_encode (cs : List Char) : decodeLossy (encode cs) = cs :=
  decodeLossyFrom_encode cs _ (Nat.le_refl _)

/-! ### One pass -/

/-- A byte that begins no character. -/
def IsContinuation (b : UInt8) : Prop := ¬ b.IsUTF8FirstByte

theorem maximalSubpart_pos (bs : List UInt8) : 0 < maximalSubpart bs := by
  unfold maximalSubpart
  split
  · exact Nat.one_pos
  · split <;> omega

/-- More passes than bytes change nothing. -/
theorem decodeLossyFrom_of_le : ∀ (fuel fuel' : ℕ) (bs : List UInt8), bs.length ≤ fuel → bs.length ≤ fuel' →
    decodeLossyFrom fuel bs = decodeLossyFrom fuel' bs
  | fuel, fuel', [], _, _ => by cases fuel <;> cases fuel' <;> rfl
  | fuel + 1, fuel' + 1, b :: bs, h, h' => by
    rw [List.length_cons] at h h'
    have hstep : ∀ k, 0 < k → decodeLossyFrom fuel ((b :: bs).drop k) = decodeLossyFrom fuel' ((b :: bs).drop k) := by
      intro k hk
      apply decodeLossyFrom_of_le
      all_goals
        rw [List.length_drop, List.length_cons]
        omega
    rw [decodeLossyFrom, decodeLossyFrom]
    cases decodeChar? (b :: bs) with
    | none => rw [hstep _ (maximalSubpart_pos _)]
    | some c => exact congrArg (c :: ·) (hstep _ c.utf8Size_pos)

/-- One pass of the decoder. -/
theorem decodeLossy_cons (b : UInt8) (bs : List UInt8) : decodeLossy (b :: bs) =
    match decodeChar? (b :: bs) with
    | some c => c :: decodeLossy ((b :: bs).drop c.utf8Size)
    | none => '\uFFFD' :: decodeLossy ((b :: bs).drop (maximalSubpart (b :: bs))) := by
  have hrest : ∀ k, 0 < k → decodeLossyFrom bs.length ((b :: bs).drop k) = decodeLossy ((b :: bs).drop k) := by
    intro k hk
    apply decodeLossyFrom_of_le _ _ _ _ (Nat.le_refl _)
    rw [List.length_drop, List.length_cons]
    omega
  rw [decodeLossy, List.length_cons, decodeLossyFrom]
  cases decodeChar? (b :: bs) with
  | none => rw [hrest _ (maximalSubpart_pos _)]
  | some c => exact congrArg (c :: ·) (hrest _ c.utf8Size_pos)

/-- An encoded character begins with its first byte. -/
theorem utf8EncodeChar_eq_cons (c : Char) : ∃ b bs, String.utf8EncodeChar c = b :: bs ∧ ¬ IsContinuation b ∧
    (∀ y ∈ bs, IsContinuation y) ∧ bs.length + 1 = c.utf8Size := by
  have hlen : (String.utf8EncodeChar c).length = c.utf8Size := String.length_utf8EncodeChar c
  have hpos := c.utf8Size_pos
  obtain ⟨b, bs, hb⟩ : ∃ b bs, String.utf8EncodeChar c = b :: bs :=
    List.ne_nil_iff_exists_cons.mp (List.ne_nil_of_length_pos (by omega))
  have hfirst : ∀ i (hi : i < (b :: bs).length), (b :: bs)[i].IsUTF8FirstByte ↔ i = 0 := by
    intro i hi
    simp only [← hb]
    exact UInt8.isUTF8FirstByte_getElem_utf8EncodeChar
  refine ⟨b, bs, hb, not_not.mpr ((hfirst 0 (by simp)).mpr rfl), ?_, by rw [hb] at hlen; exact hlen⟩
  intro y hy
  obtain ⟨i, hi, rfl⟩ := List.getElem_of_mem hy
  intro h
  have h0 := (hfirst (i + 1) (by simpa using hi)).mp h
  omega

theorem decodeLossy_encode_append (c : Char) (bs : List UInt8) :
    decodeLossy (String.utf8EncodeChar c ++ bs) = c :: decodeLossy bs := by
  obtain ⟨b, cs, hb, -, -, hlen⟩ := utf8EncodeChar_eq_cons c
  have hd := decodeChar?_encode_append c bs
  rw [hb, List.cons_append] at hd ⊢
  rw [decodeLossy_cons, hd]
  dsimp only
  rw [← hlen, List.drop_succ_cons, List.drop_left]

/-- What a character that was read was read from. -/
theorem eq_append_of_decodeChar? {bs : List UInt8} {c : Char} (h : decodeChar? bs = some c) :
    ∃ rest, bs = String.utf8EncodeChar c ++ rest := by
  obtain ⟨l, hl⟩ := ByteArray.exists_of_utf8DecodeChar?_eq_some h
  refine ⟨l.data.toList, ?_⟩
  have hdata := congrArg (fun a : ByteArray => a.data.toList) hl
  simpa using hdata

theorem isContinuation_of_mem_range {y : UInt8} (h : 0x80 ≤ y ∧ y ≤ 0xBF) : IsContinuation y := by
  have hall : ∀ n : Fin 256, 0x80 ≤ UInt8.ofFin n ∧ UInt8.ofFin n ≤ 0xBF → ¬ (UInt8.ofFin n).IsUTF8FirstByte := by
    decide +kernel
  exact hall y.toFin h

theorem continuation_range {b lo hi : UInt8} {k : ℕ} (h : continuation b = some (k, lo, hi)) :
    0x80 ≤ lo ∧ hi ≤ 0xBF := by
  unfold continuation at h
  split_ifs at h <;> cases h <;> decide

/-- The bytes that continue a character are continuation bytes. -/
theorem isContinuation_continued : ∀ (k : ℕ) {lo hi : UInt8} (bs : List UInt8), 0x80 ≤ lo → hi ≤ 0xBF →
    ∀ y ∈ bs.take (continued k lo hi bs), IsContinuation y
  | 0, _, _, bs, _, _, y, hy => by
    rw [continued, List.take_zero] at hy
    cases hy
  | k + 1, lo, hi, [], _, _, y, hy => by
    rw [List.take_nil] at hy
    cases hy
  | k + 1, lo, hi, b :: bs, hlo, hhi, y, hy => by
    rw [continued] at hy
    split_ifs at hy with h
    · rw [List.take_succ_cons, List.mem_cons] at hy
      obtain rfl | hy := hy
      · exact isContinuation_of_mem_range ⟨UInt8.le_trans hlo h.1, UInt8.le_trans h.2 hhi⟩
      · exact isContinuation_continued k bs (UInt8.le_refl _) (UInt8.le_refl _) y hy
    · cases hy

/-- A pass takes one byte and, behind it, only continuation bytes. -/
theorem decodeLossy_cons_exists (b : UInt8) (bs : List UInt8) :
    ∃ c m, decodeLossy (b :: bs) = c :: decodeLossy (bs.drop m) ∧ ∀ y ∈ bs.take m, IsContinuation y := by
  rw [decodeLossy_cons]
  cases hd : decodeChar? (b :: bs) with
  | some c =>
    obtain ⟨rest, hrest⟩ := eq_append_of_decodeChar? hd
    obtain ⟨b', cs, hb, -, hcont, hlen⟩ := utf8EncodeChar_eq_cons c
    rw [hb, List.cons_append] at hrest
    obtain ⟨rfl, rfl⟩ := List.cons.inj hrest
    refine ⟨c, cs.length, ?_, ?_⟩
    · dsimp only
      rw [← hlen, List.drop_succ_cons]
    · rw [List.take_left]
      exact hcont
  | none =>
    have hsub : maximalSubpart (b :: bs) = (maximalSubpart (b :: bs) - 1) + 1 := by
      have hpos := maximalSubpart_pos (b :: bs)
      omega
    refine ⟨'\uFFFD', maximalSubpart (b :: bs) - 1, ?_, ?_⟩
    · dsimp only
      rw [hsub, List.drop_succ_cons, Nat.add_sub_cancel]
    · intro y hy
      unfold maximalSubpart at hy
      dsimp only at hy
      cases hc : continuation b with
      | none =>
        rw [hc] at hy
        cases hy
      | some r =>
        obtain ⟨k, lo, hi⟩ := r
        obtain ⟨hlo, hhi⟩ := continuation_range hc
        rw [hc] at hy
        rw [Nat.add_sub_cancel_left] at hy
        exact isContinuation_continued k bs hlo hhi y hy

/-! ### Texts spelled wrong -/

/-- The bytes of a character, or a single byte in the place of two. -/
def Spells (c : Char) (bs : List UInt8) : Prop := bs = String.utf8EncodeChar c ∨ (c.utf8Size = 2 ∧ ∃ b, bs = [b])

/-- Continuation bytes belong to characters that are spelled wrong, so what is
left behind some of them is spelled by the characters left. -/
theorem drop_spelled {cs : List Char} {items : List (List UInt8)} (h : List.Forall₂ Spells cs items) :
    ∀ m, (∀ y ∈ items.flatten.take m, IsContinuation y) →
      ∃ k, items.flatten.drop m = (items.drop k).flatten := by
  induction h with
  | nil => exact fun m _ => ⟨0, by rw [List.flatten_nil, List.drop_nil, List.drop_nil, List.flatten_nil]⟩
  | @cons c it cs items hit _ ih =>
    intro m hm
    cases m with
    | zero => exact ⟨0, rfl⟩
    | succ m =>
      rw [List.flatten_cons] at hm ⊢
      obtain rfl | ⟨-, b, rfl⟩ := hit
      · obtain ⟨b, bs, hb, hfirst, -⟩ := utf8EncodeChar_eq_cons c
        rw [hb] at hm
        exact absurd (hm b (List.mem_cons_self ..)) hfirst
      · obtain ⟨k, hk⟩ := ih m fun y hy => hm y (List.mem_cons_of_mem _ hy)
        exact ⟨k + 1, hk⟩

/-- No more characters are read than were spelled. -/
theorem length_decodeLossy_spelled_le : ∀ (n : ℕ) {cs : List Char} {items : List (List UInt8)}, items.length ≤ n →
    List.Forall₂ Spells cs items → (decodeLossy items.flatten).length ≤ items.length
  | n, _, [], _, _ => Nat.le_refl 0
  | n + 1, c :: cs, it :: items, hn, h => by
    rw [List.forall₂_cons] at h
    obtain ⟨hit, hrest⟩ := h
    rw [List.length_cons] at hn ⊢
    rw [List.flatten_cons]
    obtain rfl | ⟨-, b, rfl⟩ := hit
    · rw [decodeLossy_encode_append, List.length_cons]
      have ih := length_decodeLossy_spelled_le n (by omega) hrest
      omega
    · obtain ⟨d, m, hd, hm⟩ := decodeLossy_cons_exists b items.flatten
      obtain ⟨k, hk⟩ := drop_spelled hrest m hm
      have hdrop : List.Forall₂ Spells (cs.drop k) (items.drop k) := List.forall₂_drop k hrest
      have hlen : (items.drop k).length ≤ items.length := by
        rw [List.length_drop]
        omega
      have ih := length_decodeLossy_spelled_le n (by omega) hdrop
      rw [List.cons_append, List.nil_append, hd, List.length_cons, hk]
      omega

/-- A text is read back exactly if all its characters are spelled right. -/
theorem decodeLossy_spelled_iff {cs : List Char} {items : List (List UInt8)} (h : List.Forall₂ Spells cs items) :
    decodeLossy items.flatten = cs ↔ items = cs.map String.utf8EncodeChar := by
  constructor
  · intro heq
    induction h with
    | nil => rfl
    | @cons c it cs items hit hrest ih =>
      rw [List.flatten_cons] at heq
      obtain rfl | ⟨hsize, b, rfl⟩ := hit
      · rw [decodeLossy_encode_append] at heq
        rw [List.map_cons, ← ih (List.cons.inj heq).2]
      · exfalso
        rw [List.cons_append, List.nil_append, decodeLossy_cons] at heq
        cases hd : decodeChar? (b :: items.flatten) with
        | none =>
          rw [hd] at heq
          rw [← (List.cons.inj heq).1] at hsize
          exact absurd hsize (by decide)
        | some d =>
          rw [hd] at heq
          obtain ⟨rfl, hcs⟩ := List.cons.inj heq
          obtain ⟨rest, hrest'⟩ := eq_append_of_decodeChar? hd
          obtain ⟨b', bs, hb, -, hcont, hlen⟩ := utf8EncodeChar_eq_cons d
          obtain ⟨y, rfl⟩ : ∃ y, bs = [y] := List.length_eq_one_iff.mp (by omega)
          rw [hb, List.cons_append, List.cons_append, List.nil_append] at hrest'
          have hflat := (List.cons.inj hrest').2
          rw [hsize, List.drop_succ_cons, hflat, List.drop_succ_cons, List.drop_zero] at hcs
          -- the second byte of the character has to come from another one that is spelled wrong
          cases hrest with
          | nil => cases hflat
          | @cons c' it' cs' items' hit' hrest'' =>
            rw [List.flatten_cons] at hflat
            obtain rfl | ⟨-, y', rfl⟩ := hit'
            · obtain ⟨z, zs, hz, hfirst, -⟩ := utf8EncodeChar_eq_cons c'
              rw [hz] at hflat
              rw [(List.cons.inj hflat).1] at hfirst
              exact hfirst (hcont y (List.mem_singleton_self y))
            · have hle := length_decodeLossy_spelled_le _ (Nat.le_refl _) hrest''
              have hlen' := hrest''.length_eq
              rw [List.cons_append, List.nil_append] at hflat
              rw [(List.cons.inj hflat).2, hcs, List.length_cons] at hle
              omega
  · rintro rfl
    exact decodeLossy_encode cs

/-! ### White space -/

/-- The property `White_Space` of a character. -/
def isWhiteSpace (c : Char) : Bool :=
  (0x09 ≤ c.toNat ∧ c.toNat ≤ 0x0d) ∨ c.toNat = 0x20 ∨ c.toNat = 0x85 ∨ c.toNat = 0xa0 ∨ c.toNat = 0x1680 ∨
    (0x2000 ≤ c.toNat ∧ c.toNat ≤ 0x200a) ∨ c.toNat = 0x2028 ∨ c.toNat = 0x2029 ∨ c.toNat = 0x202f ∨
    c.toNat = 0x205f ∨ c.toNat = 0x3000

end Utf8
