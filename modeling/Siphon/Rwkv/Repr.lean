/-
# The two spellings of a vocabulary line

A token stands in the vocabulary file as Python's `repr` of its text or of its
bytes. The escapes of the two mean different things: in a text `\xNN` is a
character, in bytes a byte, and only a text has `\uNNNN` and `\UNNNNNNNN`.
`_decode_repr` reads every `\xNN` as a byte and knows no `\u`. Where `int`
converts the id and the length, a line with the bytes is read back always; a
line with the text exactly if all its characters that are not ASCII are
printable (`parseLine_repr`). Any other line fails the check of the length, or
has an unknown escape, and is passed over.

Which characters are printable is a parameter, as the other questions about
characters are (`Python`); of these only the answers for ASCII are assumed.

Key definitions: `reprStr`, `reprBytes`, `vocabLine`, `Python.Converts`.
Key theorems: `parseLine_vocabLine`, `unescape_reprStr`, `parseLine_repr`.
-/
import Siphon.Lib.Fallible
import Siphon.Rwkv.Tokenizer

namespace Siphon
namespace Rwkv

/-! ### Python's `repr` -/

/-- The quotes of a `repr`: double ones for a text with single ones only. -/
def quoteOf (s : List Char) : Char := if '\'' ∈ s ∧ '"' ∉ s then '"' else '\''

/-- The last `width` hexadecimal digits of a number. -/
def hexDigits : ℕ → ℕ → List Char
  | 0, _ => []
  | width + 1, n => hexDigits width (n / 16) ++ [Nat.digitChar (n % 16)]

/-- The escapes that the spellings have in common. -/
def commonEscape (quote c : Char) : Option (List Char) :=
  if c = quote ∨ c = '\\' then some ['\\', c]
  else if c = '\t' then some ['\\', 't']
  else if c = '\n' then some ['\\', 'n']
  else if c = '\r' then some ['\\', 'r']
  else if c.toNat < 0x20 ∨ c.toNat = 0x7f then some ('\\' :: 'x' :: hexDigits 2 c.toNat)
  else if c.toNat < 0x7f then some [c]
  else none

/-- A character in the `repr` of a text. -/
def escapeChar (isprintable : Char → Bool) (quote c : Char) : List Char :=
  (commonEscape quote c).getD
    (if isprintable c then [c]
    else if c.toNat ≤ 0xff then '\\' :: 'x' :: hexDigits 2 c.toNat
    else if c.toNat ≤ 0xffff then '\\' :: 'u' :: hexDigits 4 c.toNat
    else '\\' :: 'U' :: hexDigits 8 c.toNat)

/-- A byte in the `repr` of bytes. -/
def escapeByte (quote : Char) (b : UInt8) : List Char :=
  (commonEscape quote (Char.ofNat b.toNat)).getD ('\\' :: 'x' :: hexDigits 2 b.toNat)

/-- `repr(s)` -/
def reprStr (isprintable : Char → Bool) (s : List Char) : List Char :=
  quoteOf s :: (s.flatMap (escapeChar isprintable (quoteOf s)) ++ [quoteOf s])

/-- `repr(tok)` -/
def reprBytes (tok : List UInt8) : List Char :=
  let quote := quoteOf (tok.map fun b => Char.ofNat b.toNat)
  'b' :: quote :: (tok.flatMap (escapeByte quote) ++ [quote])

/-- `<id> <repr> <byte_len>` -/
def vocabLine (tid : ℕ) (tokRepr : List Char) (byteLen : ℕ) : List Char :=
  Nat.toDigits 10 tid ++ ' ' :: (tokRepr ++ ' ' :: Nat.toDigits 10 byteLen)

/-- The answers for ASCII characters. -/
structure Python.Ascii (u : Python) : Prop where
  isspace : ∀ c : Char, c.toNat < 128 → u.isspace c = ascii.isspace c
  decimal : ∀ c : Char, c.toNat < 128 → u.decimal c = ascii.decimal c

/-- A number with no more decimal digits than `int` converts. -/
def Python.Converts (u : Python) (n : ℕ) : Prop := u.maxStrDigits = 0 ∨ (Nat.toDigits 10 n).length ≤ u.maxStrDigits

/-! ### Numbers -/

/-- What holds of the characters below 128 one by one. -/
theorem ascii_forall {P : Char → Prop} (h : ∀ n : Fin 128, P (Char.ofNat n)) {c : Char} (hc : c.toNat < 128) :
    P c := by
  have hn := h ⟨c.toNat, hc⟩
  rwa [Char.ofNat_toNat] at hn

theorem toNat_of_isDigit {c : Char} (h : c.isDigit) : 48 ≤ c.toNat ∧ c.toNat ≤ 57 := by
  simpa [Char.isDigit, Char.le_def, UInt32.le_iff_toNat_le] using h

section Numbers

variable {u : Python}

/-- Without spaces at its ends a text is stripped of nothing. -/
theorem strip_eq_self {space : Char → Bool} {s : List Char} (hhead : ∀ c ∈ s.head?, space c = false)
    (hlast : ∀ c ∈ s.getLast?, space c = false) : Search.strip space s = s := by
  apply Search.strip_of_tight
  constructor
  · rintro c t rfl
    exact hhead c rfl
  · rintro c t rfl
    exact hlast c List.getLast?_concat

/-- Without a sign and without spaces a number is its digits. -/
theorem pyInt_eq {base : ℕ} {s : List Char} (h : ∀ c ∈ s, intSpace u c = false ∧ c ≠ '-' ∧ c ≠ '+') :
    pyInt u base s =
      match magnitude u base s with
      | some n => .ok n
      | none => .error ⟨base, s⟩ := by
  have hstrip : Search.strip (intSpace u) s = s := strip_eq_self (fun c hc => (h c (List.mem_of_mem_head? hc)).1)
    fun c hc => (h c (List.mem_of_getLast? hc)).1
  have hsign : ∀ c cs, s = c :: cs → c ≠ '-' ∧ c ≠ '+' := by
    rintro c cs rfl
    exact (h c List.mem_cons_self).2
  unfold pyInt
  rw [hstrip]
  split
  · exact absurd rfl (hsign _ _ rfl).1
  · exact absurd rfl (hsign _ _ rfl).2
  · cases magnitude u base s <;> rfl

theorem intSpace_of_ascii {c : Char} (h : c.toNat < 127) : intSpace u c = intSpace ascii c := by
  simp [intSpace, h]

variable (hu : u.Ascii)

include hu

/-- A digit has its value and is no space. -/
theorem Python.Ascii.isDigit {c : Char} (h : c.isDigit) :
    u.decimal c = some (c.toNat - '0'.toNat) ∧ u.isspace c = false ∧ intSpace u c = false := by
  have hlt : c.toNat < 127 := by
    have := toNat_of_isDigit h
    omega
  rw [hu.decimal c (by omega), hu.isspace c (by omega), intSpace_of_ascii hlt]
  have hall : ∀ n : Fin 128, (Char.ofNat n).isDigit →
      ascii.decimal (Char.ofNat n) = some ((Char.ofNat n).toNat - '0'.toNat) ∧
        ascii.isspace (Char.ofNat n) = false ∧ intSpace ascii (Char.ofNat n) = false := by
    decide
  exact ascii_forall (P := fun c => c.isDigit → ascii.decimal c = some (c.toNat - '0'.toNat) ∧
    ascii.isspace c = false ∧ intSpace ascii c = false) hall (by omega) h

theorem digit_eq {c : Char} (h : c.isDigit) : digit u 10 c = some (c.toNat - '0'.toNat) := by
  have hn := toNat_of_isDigit h
  have hlt : c.toNat - '0'.toNat < 10 := by
    show c.toNat - 48 < 10
    omega
  unfold digit
  rw [(hu.isDigit h).1]
  simpa using hlt

theorem moreDigits_eq : ∀ (cs : List Char) (acc : ℕ), (∀ c ∈ cs, c.isDigit) →
    moreDigits u 10 acc cs = some (Nat.ofDigitChars 10 cs acc)
  | [], acc, _ => rfl
  | c :: cs, acc, h => by
    obtain ⟨hc, hcs⟩ := List.forall_mem_cons.mp h
    have hne : c ≠ '_' := by
      rintro rfl
      exact absurd hc (by decide)
    have hstep : moreDigits u 10 acc (c :: cs) =
        (digit u 10 c).bind fun d => moreDigits u 10 (acc * 10 + d) cs := by
      rw [moreDigits]
      exact fun _ _ h _ => hne h
    rw [hstep, digit_eq hu hc, Option.bind_some, moreDigits_eq cs _ hcs, Nat.ofDigitChars_cons, Nat.mul_comm]

theorem digits_toDigits (n : ℕ) : digits u 10 (Nat.toDigits 10 n) = some n := by
  have hdig : ∀ c ∈ Nat.toDigits 10 n, c.isDigit := fun c hc =>
    Nat.isDigit_of_mem_toDigits (by decide) (by decide) hc
  have hof : Nat.ofDigitChars 10 (Nat.toDigits 10 n) 0 = n := Nat.ofDigitChars_ten_toDigits
  cases hd : Nat.toDigits 10 n with
  | nil => exact absurd hd Nat.toDigits_ne_nil
  | cons c cs =>
    rw [hd] at hdig hof
    obtain ⟨hc, hcs⟩ := List.forall_mem_cons.mp hdig
    rw [digits, digit_eq hu hc, Option.bind_some, moreDigits_eq hu cs _ hcs, ← hof, Nat.ofDigitChars_cons,
      Nat.mul_zero, Nat.zero_add]

omit hu in
theorem tooManyDigits_toDigits (n : ℕ) : tooManyDigits u 10 (Nat.toDigits 10 n) = true ↔ ¬ u.Converts n := by
  have hcount : (Nat.toDigits 10 n).countP (· ≠ '_') = (Nat.toDigits 10 n).length := by
    rw [List.countP_eq_length]
    intro c hc
    have hdig := Nat.isDigit_of_mem_toDigits (by decide) (by decide) hc
    apply decide_eq_true
    rintro rfl
    exact absurd hdig (by decide)
  have hbase : 10 ∉ [2, 4, 8, 16, 32] := by decide
  unfold tooManyDigits Python.Converts
  rw [hcount, decide_eq_true_eq, and_iff_right hbase]
  omega

/-- A number is read back from its digits exactly if `int` converts so many. -/
theorem pyInt_toDigits_eq_ok_iff {n : ℕ} {v : ℤ} : pyInt u 10 (Nat.toDigits 10 n) = .ok v ↔ u.Converts n ∧ v = n := by
  have hplain : ∀ c ∈ Nat.toDigits 10 n, intSpace u c = false ∧ c ≠ '-' ∧ c ≠ '+' := by
    intro c hc
    have hdig := Nat.isDigit_of_mem_toDigits (by decide) (by decide) hc
    refine ⟨(hu.isDigit hdig).2.2, ?_, ?_⟩
    · rintro rfl
      exact absurd hdig (by decide)
    · rintro rfl
      exact absurd hdig (by decide)
  have hlimit := tooManyDigits_toDigits (u := u) n
  rw [pyInt_eq hplain, magnitude, digits_toDigits hu]
  by_cases hc : u.Converts n
  · rw [if_neg (by simpa [hc] using hlimit)]
    simp [hc, eq_comm]
  · rw [if_pos (hlimit.mpr hc)]
    simp [hc]

/-- Two hexadecimal digits are read back. -/
theorem pyInt_hexDigits {n : ℕ} (h : n < 256) :
    pyInt u 16 [Nat.digitChar (n / 16), Nat.digitChar (n % 16)] = .ok n := by
  have hall : ∀ k : Fin 16, (Nat.digitChar k).toNat < 127 ∧ digit ascii 16 (Nat.digitChar k) = some k.val ∧
      intSpace ascii (Nat.digitChar k) = false ∧ Nat.digitChar k ≠ '-' ∧ Nat.digitChar k ≠ '+' ∧
      Nat.digitChar k ≠ '_' := by decide
  have hdigit : ∀ k : Fin 16, digit u 16 (Nat.digitChar k) = some k.val := by
    intro k
    rw [← (hall k).2.1]
    unfold digit
    rw [hu.decimal _ ((hall k).1.trans (by decide))]
  have hhigh := hdigit ⟨n / 16, by omega⟩
  have hlow := hdigit ⟨n % 16, by omega⟩
  have hne := (hall ⟨n % 16, by omega⟩).2.2.2.2.2
  have hvalue : digits u 16 [Nat.digitChar (n / 16), Nat.digitChar (n % 16)] = some n := by
    rw [digits, hhigh, Option.bind_some, moreDigits, hlow]
    · simp only [Option.bind_some, moreDigits, Option.some.injEq]
      omega
    · exact fun _ _ _ h => nomatch h
  have hlimit : tooManyDigits u 16 [Nat.digitChar (n / 16), Nat.digitChar (n % 16)] = false := rfl
  have hplain : ∀ c ∈ [Nat.digitChar (n / 16), Nat.digitChar (n % 16)], intSpace u c = false ∧ c ≠ '-' ∧ c ≠ '+' := by
    intro c hc
    have hc : ∃ k : Fin 16, c = Nat.digitChar k := by
      simp only [List.mem_cons, List.not_mem_nil, or_false] at hc
      rcases hc with rfl | rfl
      · exact ⟨⟨n / 16, by omega⟩, rfl⟩
      · exact ⟨⟨n % 16, by omega⟩, rfl⟩
    obtain ⟨k, rfl⟩ := hc
    obtain ⟨h1, -, h2, h3, h4, -⟩ := hall k
    exact ⟨by rw [intSpace_of_ascii h1, h2], h3, h4⟩
  rw [pyInt_eq hplain, magnitude, hlimit, if_neg Bool.false_ne_true, hvalue]

end Numbers

/-! ### The line -/

/-- `rsplit` splits at the last space. -/
theorem rsplit_append (pre : List Char) {post : List Char} (h : ' ' ∉ post) :
    rsplit (pre ++ ' ' :: post) = some (pre, post) := by
  have hpos : ∀ c ∈ post.reverse, decide (c ≠ ' ') = true := by
    intro c hc
    rw [List.mem_reverse] at hc
    exact decide_eq_true fun he => h (he ▸ hc)
  have hrev : (pre ++ ' ' :: post).reverse = post.reverse ++ ' ' :: pre.reverse := by simp
  unfold rsplit List.rdropWhile List.rtakeWhile
  rw [if_pos (by simp), hrev, List.dropWhile_append_of_pos hpos, List.takeWhile_append_of_pos hpos]
  simp

section Line

variable {u : Python} (hu : u.Ascii)

include hu

/-- A written line is read into its parts: what is left is `int` of the two
numbers, `_decode_repr` and the check of the length. -/
theorem parseLine_vocabLine {tid n : ℕ} {tokRepr : List Char} (hhead : ∀ c ∈ tokRepr.head?, u.isspace c = false)
    (hne : tokRepr ≠ []) (hnl : '\n' ∉ tokRepr) : parseLine u (vocabLine tid tokRepr n) = (do
      let i ← pyInt u 10 (Nat.toDigits 10 tid)
      let byteLen ← pyInt u 10 (Nat.toDigits 10 n)
      match decodeRepr u tokRepr with
      | none => .ok none
      | some tok => if (tok.length : ℤ) ≠ byteLen then .ok none else .ok (some (i.toNat, tok))) := by
  have hid : ∀ c ∈ Nat.toDigits 10 tid, c.isDigit := fun c hc =>
    Nat.isDigit_of_mem_toDigits (by decide) (by decide) hc
  have hlen : ∀ c ∈ Nat.toDigits 10 n, c.isDigit := fun c hc =>
    Nat.isDigit_of_mem_toDigits (by decide) (by decide) hc
  have hspace : u.isspace ' ' = true ∧ u.decimal ' ' = none := by
    rw [hu.isspace _ (by decide), hu.decimal _ (by decide)]
    decide
  have hne' : vocabLine tid tokRepr n ≠ [] := by simp [vocabLine]
  have hstrip : strip u (vocabLine tid tokRepr n) = vocabLine tid tokRepr n := by
    refine strip_eq_self (fun c hc => ?_) fun c hc => ?_
    · rw [vocabLine, List.head?_append_of_ne_nil _ Nat.toDigits_ne_nil] at hc
      exact (hu.isDigit (hid c (List.mem_of_mem_head? hc))).2.1
    · have hcat : vocabLine tid tokRepr n = (Nat.toDigits 10 tid ++ ' ' :: (tokRepr ++ [' '])) ++ Nat.toDigits 10 n := by
        simp [vocabLine]
      rw [hcat, List.getLast?_append_of_ne_nil _ Nat.toDigits_ne_nil] at hc
      exact (hu.isDigit (hlen c (List.mem_of_getLast? hc))).2.1
  have hmatch : matchLine u (vocabLine tid tokRepr n) =
      some (Nat.toDigits 10 tid, tokRepr ++ ' ' :: Nat.toDigits 10 n) := by
    have hpos : ∀ c ∈ Nat.toDigits 10 tid, (u.decimal c).isSome = true := by
      intro c hc
      rw [(hu.isDigit (hid c hc)).1]
      rfl
    have hneg : (u.decimal ' ').isSome = false := by rw [hspace.2]; rfl
    have hrest : (tokRepr ++ ' ' :: Nat.toDigits 10 n).dropWhile u.isspace = tokRepr ++ ' ' :: Nat.toDigits 10 n := by
      obtain ⟨c, cs, rfl⟩ := List.exists_cons_of_ne_nil hne
      exact List.dropWhile_cons_of_neg (by simp [hhead c rfl])
    have hnl' : '\n' ∉ tokRepr ++ ' ' :: Nat.toDigits 10 n := by
      intro hmem
      rcases List.mem_append.mp hmem with h | h
      · exact hnl h
      · rcases List.mem_cons.mp h with h | h
        · exact absurd h (by decide)
        · exact absurd (hlen _ h) (by decide)
    unfold matchLine vocabLine
    dsimp only
    rw [List.takeWhile_append_of_pos hpos, List.dropWhile_append_of_pos hpos]
    simp only [List.takeWhile_cons, List.dropWhile_cons, hneg, hspace.1, Bool.false_eq_true, if_true, if_false, hrest]
    rw [if_neg]
    · simp
    · rintro (h | h | h)
      · simp at h
      · cases h
      · exact hnl' h
  have hsplit : rsplit (tokRepr ++ ' ' :: Nat.toDigits 10 n) = some (tokRepr, Nat.toDigits 10 n) :=
    rsplit_append tokRepr fun h => absurd (hlen _ h) (by decide)
  unfold parseLine
  dsimp only
  rw [hstrip, if_neg hne', hmatch]
  dsimp only
  exact hsplit ▸ rfl

/-- A written line gives its id and a token exactly if `int` converts the two
numbers and the token, of the written length, is what the `repr` says. -/
theorem parseLine_vocabLine_iff {tid n : ℕ} {tokRepr : List Char} {tok : List UInt8}
    (hhead : ∀ c ∈ tokRepr.head?, u.isspace c = false) (hne : tokRepr ≠ []) (hnl : '\n' ∉ tokRepr) :
    parseLine u (vocabLine tid tokRepr n) = .ok (some (tid, tok)) ↔
      u.Converts tid ∧ u.Converts n ∧ decodeRepr u tokRepr = some tok ∧ tok.length = n := by
  rw [parseLine_vocabLine hu hhead hne hnl, Fallible.bind_eq_ok_iff]
  constructor
  · rintro ⟨i, hi, h⟩
    obtain ⟨byteLen, hb, h⟩ := Fallible.bind_eq_ok h
    obtain ⟨htid, rfl⟩ := (pyInt_toDigits_eq_ok_iff hu).mp hi
    obtain ⟨hn, rfl⟩ := (pyInt_toDigits_eq_ok_iff hu).mp hb
    cases hd : decodeRepr u tokRepr with
    | none =>
      rw [hd] at h
      cases h
    | some tok' =>
      rw [hd] at h
      dsimp only at h
      split_ifs at h with hlen
      · cases h
      · obtain ⟨-, rfl⟩ := Prod.mk.inj (Option.some.inj (Except.ok.inj h))
        exact ⟨htid, hn, rfl, by exact_mod_cast not_not.mp hlen⟩
  · rintro ⟨htid, hn, hd, rfl⟩
    refine ⟨tid, (pyInt_toDigits_eq_ok_iff hu).mpr ⟨htid, rfl⟩, ?_⟩
    rw [(pyInt_toDigits_eq_ok_iff hu).mpr ⟨hn, rfl⟩, Fallible.ok_bind, hd]
    simp

end Line

/-! ### Escapes -/

section Escapes

variable {u : Python}

theorem unescape_char {c : Char} (h : c ≠ '\\') (s : List Char) :
    unescape u (c :: s) = (unescape u s).map (String.utf8EncodeChar c ++ ·) := by
  rw [unescape]
  · exact fun _ _ _ he => absurd he h
  · exact fun _ _ he => absurd he h
  · exact fun he => absurd he h

theorem unescape_mapping {c : Char} (h : c ≠ 'x') (s : List Char) :
    unescape u ('\\' :: c :: s) = (mapping c).bind fun b => (unescape u s).map (b :: ·) := by
  rw [unescape]
  exact fun _ _ _ he => absurd he h

theorem hexDigits_two {n : ℕ} (h : n < 256) : hexDigits 2 n = [Nat.digitChar (n / 16), Nat.digitChar (n % 16)] := by
  have hmod : n / 16 % 16 = n / 16 := Nat.mod_eq_of_lt (by omega)
  simp [hexDigits, hmod]

theorem unescape_hex (hu : u.Ascii) {n : ℕ} (h : n < 256) (s : List Char) :
    unescape u (('\\' :: 'x' :: hexDigits 2 n) ++ s) = (unescape u s).map (UInt8.ofNat n :: ·) := by
  rw [hexDigits_two h]
  show unescape u ('\\' :: 'x' :: Nat.digitChar (n / 16) :: Nat.digitChar (n % 16) :: s) = _
  rw [unescape, pyInt_hexDigits hu h]
  simp

theorem utf8EncodeChar_ascii {c : Char} (h : c.toNat < 128) : String.utf8EncodeChar c = [UInt8.ofNat c.toNat] := by
  have hall : ∀ n : Fin 128, String.utf8EncodeChar (Char.ofNat n) = [UInt8.ofNat (Char.ofNat n).toNat] := by
    decide
  exact ascii_forall (P := fun c => String.utf8EncodeChar c = [UInt8.ofNat c.toNat]) hall h

/-- A quote of a `repr`. -/
def IsQuote (quote : Char) : Prop := quote = '\'' ∨ quote = '"'

theorem isQuote_quoteOf (s : List Char) : IsQuote (quoteOf s) := by
  unfold quoteOf IsQuote
  split_ifs
  · exact .inr rfl
  · exact .inl rfl

theorem commonEscape_eq_none_iff {quote c : Char} (hq : IsQuote quote) :
    commonEscape quote c = none ↔ 0x7f < c.toNat := by
  have hlt : quote.toNat < 128 := by
    rcases hq with rfl | rfl
    · decide
    · decide
  unfold commonEscape
  split_ifs with h1 h2 h3 h4 h5 h6
  · refine iff_of_false (fun h => nomatch h) ?_
    rcases h1 with rfl | rfl
    · omega
    · decide
  · exact iff_of_false (fun h => nomatch h) (by rw [h2]; decide)
  · exact iff_of_false (fun h => nomatch h) (by rw [h3]; decide)
  · exact iff_of_false (fun h => nomatch h) (by rw [h4]; decide)
  · exact iff_of_false (fun h => nomatch h) (by omega)
  · exact iff_of_false (fun h => nomatch h) (by omega)
  · exact iff_of_true rfl (by omega)

/-- An escape of one letter. -/
theorem unescape_letter {c letter : Char} {b : UInt8} (hx : letter ≠ 'x') (hm : mapping letter = some b)
    (hc : String.utf8EncodeChar c = [b]) (s : List Char) :
    unescape u (['\\', letter] ++ s) = (unescape u s).map (String.utf8EncodeChar c ++ ·) := by
  show unescape u ('\\' :: letter :: s) = _
  rw [unescape_mapping hx, hm, hc]
  rfl

/-- The common escapes are read back as the character. -/
theorem unescape_commonEscape (hu : u.Ascii) {quote c : Char} {e : List Char} (hq : IsQuote quote)
    (h : commonEscape quote c = some e) (s : List Char) :
    unescape u (e ++ s) = (unescape u s).map (String.utf8EncodeChar c ++ ·) := by
  unfold commonEscape at h
  split_ifs at h with h1 h2 h3 h4 h5 h6
  · obtain rfl := Option.some.inj h
    rcases h1 with rfl | rfl
    · rcases hq with rfl | rfl
      · exact unescape_letter (by decide) rfl (by decide) s
      · exact unescape_letter (by decide) rfl (by decide) s
    · exact unescape_letter (by decide) rfl (by decide) s
  · obtain rfl := Option.some.inj h
    exact unescape_letter (by decide) rfl (by rw [h2]; decide) s
  · obtain rfl := Option.some.inj h
    exact unescape_letter (by decide) rfl (by rw [h3]; decide) s
  · obtain rfl := Option.some.inj h
    exact unescape_letter (by decide) rfl (by rw [h4]; decide) s
  · obtain rfl := Option.some.inj h
    rw [unescape_hex hu (by omega), utf8EncodeChar_ascii (by omega)]
    rfl
  · obtain rfl := Option.some.inj h
    exact unescape_char (fun he => h1 (.inr he)) s

/-- What `_decode_repr` makes of a character in the `repr` of a text. -/
def readChar (isprintable : Char → Bool) (c : Char) : Option (List UInt8) :=
  if c.toNat ≤ 0x7f ∨ isprintable c then some (String.utf8EncodeChar c)
  else if c.toNat ≤ 0xff then some [UInt8.ofNat c.toNat]
  else none

theorem unescape_escapeChar (hu : u.Ascii) {quote : Char} (hq : IsQuote quote) (isprintable : Char → Bool) (c : Char)
    (s : List Char) : unescape u (escapeChar isprintable quote c ++ s) =
      (readChar isprintable c).bind fun bs => (unescape u s).map (bs ++ ·) := by
  unfold escapeChar readChar
  cases he : commonEscape quote c with
  | some e =>
    have hc : c.toNat ≤ 0x7f := by
      by_contra hgt
      rw [(commonEscape_eq_none_iff hq).mpr (by omega)] at he
      cases he
    rw [Option.getD_some, if_pos (.inl hc), Option.bind_some]
    exact unescape_commonEscape hu hq he s
  | none =>
    have hc := (commonEscape_eq_none_iff hq).mp he
    rw [Option.getD_none]
    by_cases hp : isprintable c = true
    · rw [if_pos hp, if_pos (.inr hp), Option.bind_some]
      refine unescape_char ?_ s
      rintro rfl
      exact absurd hc (by decide)
    have hnot : ¬ (c.toNat ≤ 0x7f ∨ isprintable c = true) := by
      rintro (h | h)
      · omega
      · exact hp h
    rw [if_neg hp, if_neg hnot]
    by_cases h1 : c.toNat ≤ 0xff
    · rw [if_pos h1, if_pos h1, unescape_hex hu (by omega)]
      rfl
    rw [if_neg h1, if_neg h1]
    -- `\u` and `\U` are no escapes of `_decode_repr`
    split_ifs
    · show unescape u ('\\' :: 'u' :: (hexDigits 4 c.toNat ++ s)) = _
      rw [unescape_mapping (by decide)]
      rfl
    · show unescape u ('\\' :: 'U' :: (hexDigits 8 c.toNat ++ s)) = _
      rw [unescape_mapping (by decide)]
      rfl

theorem unescape_flatMap (hu : u.Ascii) {quote : Char} (hq : IsQuote quote) (isprintable : Char → Bool) :
    ∀ s : List Char, unescape u (s.flatMap (escapeChar isprintable quote)) =
      (s.mapM (readChar isprintable)).map List.flatten
  | [] => by simp [unescape]
  | c :: s => by
    rw [List.flatMap_cons, unescape_escapeChar hu hq, unescape_flatMap hu hq isprintable s, List.mapM_cons]
    cases readChar isprintable c with
    | none => rfl
    | some bs => cases s.mapM (readChar isprintable) <;> rfl

theorem unescape_escapeByte (hu : u.Ascii) {quote : Char} (hq : IsQuote quote) (b : UInt8) (s : List Char) :
    unescape u (escapeByte quote b ++ s) = (unescape u s).map (b :: ·) := by
  have hb : b.toNat < 256 := UInt8.toNat_lt b
  have hvalid : (Char.ofNat b.toNat).toNat = b.toNat := by
    have hall : ∀ n : Fin 256, (Char.ofNat n).toNat = n := by decide +kernel
    exact hall ⟨b.toNat, hb⟩
  unfold escapeByte
  cases he : commonEscape quote (Char.ofNat b.toNat) with
  | some e =>
    have hc : b.toNat < 128 := by
      by_contra hgt
      rw [(commonEscape_eq_none_iff hq).mpr (by omega)] at he
      cases he
    rw [Option.getD_some, unescape_commonEscape hu hq he, utf8EncodeChar_ascii (by omega), hvalid]
    simp
  | none =>
    rw [Option.getD_none, unescape_hex hu hb]
    simp

theorem unescape_flatMap_escapeByte (hu : u.Ascii) {quote : Char} (hq : IsQuote quote) :
    ∀ tok : List UInt8, unescape u (tok.flatMap (escapeByte quote)) = some tok
  | [] => by simp [unescape]
  | b :: tok => by
    rw [List.flatMap_cons, unescape_escapeByte hu hq, unescape_flatMap_escapeByte hu hq tok]
    rfl

theorem decodeRepr_quoted {quote : Char} (hq : IsQuote quote) (body : List Char) :
    decodeRepr u (quote :: (body ++ [quote])) = unescape u body ∧
      decodeRepr u ('b' :: quote :: (body ++ [quote])) = unescape u body := by
  rcases hq with rfl | rfl
  · constructor
    · show unescape u (body ++ ['\'']).dropLast = _
      rw [List.dropLast_concat]
    · show unescape u (body ++ ['\'']).dropLast = _
      rw [List.dropLast_concat]
  · constructor
    · show unescape u (body ++ ['"']).dropLast = _
      rw [List.dropLast_concat]
    · show unescape u (body ++ ['"']).dropLast = _
      rw [List.dropLast_concat]

end Escapes

/-! ### No line end in a `repr` -/

theorem newline_notMem_hexDigits : ∀ width n : ℕ, '\n' ∉ hexDigits width n
  | 0, _ => by simp [hexDigits]
  | width + 1, n => by
    have hall : ∀ k : Fin 16, '\n' ≠ Nat.digitChar k := by decide
    have hlast : '\n' ≠ Nat.digitChar (n % 16) := hall ⟨n % 16, by omega⟩
    rw [hexDigits, List.mem_append, List.mem_singleton]
    rintro (h | h)
    · exact newline_notMem_hexDigits width _ h
    · exact hlast h

theorem newline_notMem_commonEscape {quote c : Char} {e : List Char} (hq : IsQuote quote)
    (h : commonEscape quote c = some e) : '\n' ∉ e := by
  have hquote : '\n' ≠ quote := by
    rcases hq with rfl | rfl
    · decide
    · decide
  have hhex := newline_notMem_hexDigits 2 c.toNat
  unfold commonEscape at h
  split_ifs at h with h1 h2 h3 h4 h5 h6
  · obtain rfl := Option.some.inj h
    rcases h1 with rfl | rfl
    · simp [hquote]
    · decide
  · exact Option.some.inj h ▸ by decide
  · exact Option.some.inj h ▸ by decide
  · exact Option.some.inj h ▸ by decide
  · obtain rfl := Option.some.inj h
    simp [hhex]
  · obtain rfl := Option.some.inj h
    simpa using fun he => h3 he.symm

theorem newline_notMem_escapeChar {quote : Char} (hq : IsQuote quote) (isprintable : Char → Bool) (c : Char) :
    '\n' ∉ escapeChar isprintable quote c := by
  have hhex := newline_notMem_hexDigits
  unfold escapeChar
  cases he : commonEscape quote c with
  | some e => exact newline_notMem_commonEscape hq he
  | none =>
    have hc : '\n' ≠ c := by
      rintro rfl
      exact absurd ((commonEscape_eq_none_iff hq).mp he) (by decide)
    rw [Option.getD_none]
    split_ifs
    · simp [hc]
    · simp [hhex]
    · simp [hhex]
    · simp [hhex]

theorem newline_notMem_escapeByte {quote : Char} (hq : IsQuote quote) (b : UInt8) : '\n' ∉ escapeByte quote b := by
  have hhex := newline_notMem_hexDigits
  unfold escapeByte
  cases he : commonEscape quote (Char.ofNat b.toNat) with
  | some e => exact newline_notMem_commonEscape hq he
  | none => simp [hhex]

theorem newline_notMem_quoted {quote : Char} (hq : IsQuote quote) {body : List Char} (h : '\n' ∉ body) :
    '\n' ∉ quote :: (body ++ [quote]) := by
  have hquote : '\n' ≠ quote := by
    rcases hq with rfl | rfl
    · decide
    · decide
  simp [h, hquote]

/-! ### Lengths -/

/-- No character is read with more bytes than it has, and with as many only
if it is ASCII or printable. -/
theorem length_readChar {isprintable : Char → Bool} {c : Char} {bs : List UInt8} (h : readChar isprintable c = some bs) :
    bs.length ≤ (String.utf8EncodeChar c).length ∧
      (bs.length = (String.utf8EncodeChar c).length → c.toNat ≤ 0x7f ∨ isprintable c) := by
  unfold readChar at h
  split_ifs at h with h1 h2
  · obtain rfl := Option.some.inj h
    exact ⟨le_rfl, fun _ => h1⟩
  · obtain rfl := Option.some.inj h
    have hall : ∀ n : Fin 256, 0x7f < n.val → (String.utf8EncodeChar (Char.ofNat n)).length = 2 := by decide +kernel
    have htwo := hall ⟨c.toNat, by omega⟩ (by
      show 0x7f < c.toNat
      omega)
    rw [Char.ofNat_toNat] at htwo
    rw [htwo, List.length_singleton]
    exact ⟨by decide, fun h => absurd h (by decide)⟩

theorem length_mapM_readChar {isprintable : Char → Bool} : ∀ {s : List Char} {items : List (List UInt8)},
    s.mapM (readChar isprintable) = some items → items.flatten.length ≤ (Utf8.encode s).length ∧
      (items.flatten.length = (Utf8.encode s).length → ∀ c ∈ s, c.toNat ≤ 0x7f ∨ isprintable c)
  | [], items, h => by
    obtain rfl : [] = items := by simpa using h
    simp [Utf8.encode]
  | c :: s, items, h => by
    rw [List.mapM_cons] at h
    obtain ⟨bs, hbs, h1⟩ := Option.bind_eq_some_iff.mp h
    obtain ⟨rest, hrest, h2⟩ := Option.bind_eq_some_iff.mp h1
    obtain rfl := Option.some.inj h2
    obtain ⟨ih1, ih2⟩ := length_mapM_readChar hrest
    obtain ⟨hle, heq⟩ := length_readChar hbs
    have henc : (Utf8.encode (c :: s)).length = (String.utf8EncodeChar c).length + (Utf8.encode s).length := by
      unfold Utf8.encode
      rw [List.flatMap_cons, List.length_append]
    rw [List.flatten_cons, List.length_append, henc]
    refine ⟨by omega, fun h => List.forall_mem_cons.mpr ⟨heq (by omega), ih2 (by omega)⟩⟩

/-! ### Both spellings -/

/-- What `_decode_repr` makes of the `repr` of a text has the bytes of the text
exactly if the characters that are not ASCII are printable. -/
theorem decodeRepr_reprStr {u : Python} (hu : u.Ascii) (isprintable : Char → Bool) (s : List Char) :
    decodeRepr u (reprStr isprintable s) = some (Utf8.encode s) ↔ ∀ c ∈ s, 0x7f < c.toNat → isprintable c := by
  have hq := isQuote_quoteOf s
  unfold reprStr
  rw [(decodeRepr_quoted hq _).1, unescape_flatMap hu hq]
  constructor
  · intro h c hc hgt
    obtain ⟨items, hitems, hflat⟩ := Option.map_eq_some_iff.mp h
    exact ((length_mapM_readChar hitems).2 (congrArg List.length hflat) c hc).resolve_left (by omega)
  · intro hall
    have hread : s.mapM (readChar isprintable) = some (s.map String.utf8EncodeChar) :=
      Fallible.mapM_eq_map s fun c hc => if_pos (by
        by_cases hgt : 0x7f < c.toNat
        · exact .inr (hall c hc hgt)
        · exact .inl (by omega))
    rw [hread]
    rfl

theorem decodeRepr_reprBytes {u : Python} (hu : u.Ascii) (tok : List UInt8) :
    decodeRepr u (reprBytes tok) = some tok := by
  have hq := isQuote_quoteOf (tok.map fun b => Char.ofNat b.toNat)
  unfold reprBytes
  rw [(decodeRepr_quoted hq _).2, unescape_flatMap_escapeByte hu hq]

/-- **A line is read back exactly if `int` converts its numbers and, where it
has the text, the characters that are not ASCII are printable.** A line with
the bytes of a token needs the numbers only. -/
theorem parseLine_repr {u : Python} (hu : u.Ascii) (isprintable : Char → Bool) (tid : ℕ) :
    (∀ s : List Char, parseLine u (vocabLine tid (reprStr isprintable s) (Utf8.encode s).length) =
        .ok (some (tid, Utf8.encode s)) ↔
      u.Converts tid ∧ u.Converts (Utf8.encode s).length ∧ ∀ c ∈ s, 0x7f < c.toNat → isprintable c) ∧
    ∀ tok : List UInt8, parseLine u (vocabLine tid (reprBytes tok) tok.length) = .ok (some (tid, tok)) ↔
      u.Converts tid ∧ u.Converts tok.length := by
  constructor
  · intro s
    have hq := isQuote_quoteOf s
    have hnl : '\n' ∉ s.flatMap (escapeChar isprintable (quoteOf s)) := by
      rw [List.mem_flatMap]
      rintro ⟨c, -, hc⟩
      exact newline_notMem_escapeChar hq isprintable c hc
    have hhead : ∀ c ∈ (reprStr isprintable s).head?, u.isspace c = false := by
      intro c hc
      obtain rfl : quoteOf s = c := Option.some.inj hc
      rcases hq with h | h
      · rw [h, hu.isspace _ (by decide)]
        decide
      · rw [h, hu.isspace _ (by decide)]
        decide
    rw [parseLine_vocabLine_iff hu hhead (List.cons_ne_nil _ _) (newline_notMem_quoted hq hnl),
      decodeRepr_reprStr hu]
    simp
  · intro tok
    have hq := isQuote_quoteOf (tok.map fun b => Char.ofNat b.toNat)
    have hhead : ∀ c ∈ (reprBytes tok).head?, u.isspace c = false := by
      intro c hc
      obtain rfl : 'b' = c := Option.some.inj hc
      rw [hu.isspace _ (by decide)]
      decide
    have hnl : '\n' ∉ tok.flatMap (escapeByte (quoteOf (tok.map fun b => Char.ofNat b.toNat))) := by
      rw [List.mem_flatMap]
      rintro ⟨b, -, hmem⟩
      exact newline_notMem_escapeByte hq b hmem
    have hnl' : '\n' ∉ reprBytes tok := by
      unfold reprBytes
      rw [List.mem_cons]
      rintro (h | h)
      · exact absurd h (by decide)
      · exact newline_notMem_quoted hq hnl h
    rw [parseLine_vocabLine_iff hu hhead (List.cons_ne_nil _ _) hnl', decodeRepr_reprBytes hu]
    simp

theorem ascii_ascii : ascii.Ascii := ⟨fun _ _ => rfl, fun _ _ => rfl⟩

/-- A text with a printable character that is not ASCII, both quotes, a
backslash and a zero byte. -/
theorem parseLine_repr_mixed : parseLine ascii (vocabLine 4711 (reprStr (fun c => c == 'é')
    ['é', '\'', '"', '\\', '\x00']) 6) = .ok (some (4711, [0xC3, 0xA9, 0x27, 0x22, 0x5C, 0x00])) :=
  ((parseLine_repr ascii_ascii (fun c => c == 'é') 4711).1 ['é', '\'', '"', '\\', '\x00']).mpr
    ⟨.inr (by decide), .inr (by decide), by simp⟩

/-- The ideographic space is not printable, and its line is passed over. -/
theorem ideographic_space_dropped : ¬ ∀ (u : Python) (isprintable : Char → Bool), u.Ascii → ∀ (tid : ℕ) (s : List Char),
    parseLine u (vocabLine tid (reprStr isprintable s) (Utf8.encode s).length) = .ok (some (tid, Utf8.encode s)) := by
  intro h
  have hline := h ascii (fun _ => false) ascii_ascii 10464 ['\u3000']
  have hnone : (parseLine ascii (vocabLine 10464 (reprStr (fun _ => false) ['\u3000'])
      (Utf8.encode ['\u3000']).length)).toOption = some none := by decide
  rw [hline] at hnone
  cases hnone

end Rwkv
end Siphon
