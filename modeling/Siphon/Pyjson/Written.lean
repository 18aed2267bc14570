/-
# What the writer writes is in the grammar

A written integer, float or string is a phrase of the relaxed grammar for the
value it came from. Of Rust's formatter for `{:e}` a float needs
(`WritesBack`) that the text has the form `[-]d[.ddd]e[-]dd`, with the first
digit zero for zero alone, and that the number nearest to it is the float.
-/
import Siphon.Pyjson.Document

namespace Siphon
namespace Pyjson

/-! ### Digits -/

theorem isDigit_of_char {c : Char} (h : c.isDigit) : isDigit c := by
  unfold isDigit
  rw [decide_eq_true_eq]
  simpa [Char.isDigit, Char.le_def] using h

theorem isDigit_showNat {n : ℕ} {c : Char} (h : c ∈ showNat n) : isDigit c :=
  isDigit_of_char (Nat.isDigit_of_mem_toDigits (by decide) (by decide) h)

theorem isDigit_replicate {k : ℕ} {c : Char} (h : c ∈ List.replicate k '0') : isDigit c := by
  rw [List.eq_of_mem_replicate h]
  rfl

/-- A positive number does not begin with a zero. -/
theorem head_showNat (n : ℕ) (hn : n ≠ 0) : (showNat n).head? ≠ some '0' := by
  unfold showNat
  induction n using Nat.strong_induction_on with
  | h n ih =>
    by_cases hb : n < 10
    · rw [Nat.toDigits_of_lt_base hb]
      have hdigit : ∀ k : Fin 10, k.val ≠ 0 → [Nat.digitChar k].head? ≠ some '0' := by decide
      exact hdigit ⟨n, hb⟩ hn
    · have hdiv : n / 10 ≠ 0 := by omega
      rw [Nat.toDigits_of_base_le (by decide) (by omega), List.head?_append_of_ne_nil _ Nat.toDigits_ne_nil]
      exact ih (n / 10) (by omega) hdiv

theorem showNat_zero_or (n : ℕ) : 1 < (showNat n).length → (showNat n).head? ≠ some '0' := by
  intro h
  by_cases hn : n = 0
  · rw [hn] at h
    exact absurd h (by decide)
  · exact head_showNat n hn

/-! ### Integers -/

/-- An integer as it is written. -/
def intText (i : ℤ) : NumberText := ⟨i < 0, showNat i.natAbs, none, none⟩

theorem intText_text (i : ℤ) : (intText i).text = showInt i := by
  unfold intText NumberText.text showInt
  by_cases hi : i < 0
  · simp [hi]
  · simp [hi]

theorem intText_ok (i : ℤ) : (intText i).Ok lax where
  int_digits := fun _ hc => isDigit_showNat hc
  int_zero := showNat_zero_or _
  int_ne := .inl Nat.toDigits_ne_nil
  frac_ne := by simp [intText]
  frac_digits := by simp [intText]
  exp_letter := by simp [intText]
  exp_sign := by simp [intText]
  exp_ne := by simp [intText]
  exp_digits := by simp [intText]

theorem intText_toInt {i : ℤ} (h1 : -2 ^ 127 ≤ i) (h2 : i < 2 ^ 127) : (intText i).toInt = some i := by
  have hval : (if (intText i).neg then -(Nat.ofDigitChars 10 (intText i).int 0 : ℤ)
      else Nat.ofDigitChars 10 (intText i).int 0) = i := by
    unfold intText showNat
    simp only [Nat.ofDigitChars_ten_toDigits, decide_eq_true_eq]
    by_cases hi : i < 0
    · rw [if_pos hi]
      omega
    · rw [if_neg hi]
      omega
  have hne : (intText i).int ≠ [] := Nat.toDigits_ne_nil
  unfold NumberText.toInt
  simp only
  rw [hval, if_neg]
  rintro (h | h | h)
  · exact hne h
  · omega
  · omega

theorem reads_showInt {i : ℤ} (h1 : -2 ^ 127 ≤ i) (h2 : i < 2 ^ 127) (r : List Char) :
    Reads lax (.value (.int i)) (showInt i ++ r) r := by
  rw [← intText_text]
  exact .number r (intText_ok i) (.int rfl rfl (intText_toInt h1 h2))

/-! ### Floats -/

/-- What the formatter writes for a finite float. -/
structure LowerExpText where
  neg : Bool
  digit : Char
  digits : List Char
  exp : ℤ

def LowerExpText.text (s : LowerExpText) : List Char :=
  (if s.neg then ['-'] else []) ++ s.digit :: (if s.digits = [] then [] else '.' :: s.digits) ++
    'e' :: showInt s.exp

/-- The form, with a first digit zero for zero alone. -/
structure LowerExpText.Ok (s : LowerExpText) : Prop where
  digit : isDigit s.digit
  digits : ∀ c ∈ s.digits, isDigit c
  zero : s.digit = '0' → s.digits = [] ∧ s.exp = 0

/-- The magnitude it writes. -/
def LowerExpText.magnitude (s : LowerExpText) : ℚ :=
  Binary64.decimal (Nat.ofDigitChars 10 (s.digit :: s.digits) 0) (s.exp - s.digits.length)

/-- The formatter writes a float in a text that reads back to it. -/
def WritesBack (lowerExp : LowerExp) (x : Binary64) : Prop :=
  ∃ s : LowerExpText, s.Ok ∧ lowerExp x = s.text ∧ Binary64.nearest s.neg s.magnitude = x

theorem ne_of_isDigit {c : Char} (h : isDigit c) (d : Char) (hd : isDigit d = false) : c ≠ d := by
  rintro rfl
  rw [hd] at h
  cases h

section Split

variable {s : LowerExpText}

/-- The mantissa as it is written. -/
def mantissa (s : LowerExpText) : List Char :=
  (if s.neg then ['-'] else []) ++ s.digit :: (if s.digits = [] then [] else '.' :: s.digits)

theorem not_e_of_mem_mantissa (hs : s.Ok) : ∀ c ∈ mantissa s, c ≠ 'e' := by
  intro c hc
  unfold mantissa at hc
  rw [List.mem_append, List.mem_cons] at hc
  rcases hc with hc | rfl | hc
  · split at hc
    · rw [List.mem_singleton.mp hc]
      decide
    · cases hc
  · exact ne_of_isDigit hs.digit 'e' (by decide)
  · split at hc
    · cases hc
    · rcases List.mem_cons.mp hc with rfl | hc
      · decide
      · exact ne_of_isDigit (hs.digits c hc) 'e' (by decide)

theorem span_mantissa (hs : s.Ok) : (s.text.takeWhile (· ≠ 'e')) = mantissa s ∧
    (s.text.dropWhile (· ≠ 'e')) = 'e' :: showInt s.exp := by
  have ht : s.text = mantissa s ++ 'e' :: showInt s.exp := rfl
  have hm : ∀ c ∈ mantissa s, (decide (c ≠ 'e')) = true := fun c hc =>
    decide_eq_true (not_e_of_mem_mantissa hs c hc)
  rw [ht, List.takeWhile_append_of_pos hm, List.dropWhile_append_of_pos hm,
    List.takeWhile_cons_of_neg (by simp), List.dropWhile_cons_of_neg (by simp), List.append_nil]
  exact ⟨rfl, rfl⟩

theorem parseExp_showInt (e : ℤ) : parseExp (showInt e) = e := by
  unfold showInt
  by_cases he : e < 0
  · rw [if_pos he]
    show -(Nat.ofDigitChars 10 (Nat.toDigits 10 e.natAbs) 0 : ℤ) = e
    rw [Nat.ofDigitChars_ten_toDigits]
    omega
  · rw [if_neg he]
    unfold parseExp
    split
    · next ds hds =>
      have : isDigit '-' := isDigit_showNat (n := e.natAbs) (by rw [hds]; simp)
      cases this
    · show (Nat.ofDigitChars 10 (Nat.toDigits 10 e.natAbs) 0 : ℤ) = e
      rw [Nat.ofDigitChars_ten_toDigits]
      omega

theorem filter_digits {ds : List Char} (h : ∀ c ∈ ds, isDigit c) : ds.filter (· ≠ '.') = ds := by
  rw [List.filter_eq_self]
  intro c hc
  exact decide_eq_true (ne_of_isDigit (h c hc) '.' (by decide))

theorem filter_mantissa (hs : s.Ok) :
    (s.digit :: if s.digits = [] then [] else '.' :: s.digits).filter (· ≠ '.') = s.digit :: s.digits := by
  have h : decide (s.digit ≠ '.') = true := decide_eq_true (ne_of_isDigit hs.digit '.' (by decide))
  rw [List.filter_cons, if_pos h]
  split
  · next he => rw [he, List.filter_nil]
  · rw [List.filter_cons_of_neg (by simp), filter_digits hs.digits]

theorem splitExp_text (hs : s.Ok) : splitExp s.text = (s.neg, s.digit :: s.digits, s.exp) := by
  obtain ⟨h1, h2⟩ := span_mantissa hs
  unfold splitExp
  simp only
  rw [h1, h2, List.tail_cons, parseExp_showInt]
  unfold mantissa
  cases hn : s.neg with
  | true =>
    show (true, (s.digit :: if s.digits = [] then [] else '.' :: s.digits).filter (· ≠ '.'), s.exp) = _
    rw [filter_mantissa hs]
  | false =>
    rw [if_neg Bool.false_ne_true, List.nil_append]
    split
    · next he => exact absurd (List.cons.inj he).1 (ne_of_isDigit hs.digit '-' (by decide))
    · rw [filter_mantissa hs]

end Split

/-- `t` is a number of the grammar that `body` writes behind the sign, for the
float that `s` stands for. -/
structure Spells (t : NumberText) (s : LowerExpText) (body : List Char) : Prop where
  ok : t.Ok lax
  text : t.text = (if s.neg then ['-'] else []) ++ body
  float : t.frac.isSome ∨ t.exp.isSome
  value : t.toFloat = some (.nearest s.neg s.magnitude)

/-- The magnitude that a number of the grammar writes. -/
def NumberText.magnitude (t : NumberText) : ℚ :=
  Binary64.decimal (Nat.ofDigitChars 10 (t.int ++ t.frac.getD []) 0) (exponentValue t.exp - (t.frac.getD []).length)

/-- `t` is the number of the grammar that is laid out for `s`: with an exponent, of at least two digits behind a sign,
where the point would be too far out, and with a fraction else. -/
structure LaidOut (t : NumberText) (s : LowerExpText) : Prop where
  ok : t.Ok lax
  int_ne : t.int ≠ []
  text : t.text = (if s.neg then ['-'] else []) ++ layout (s.digit :: s.digits) (s.exp + 1)
  neg : t.neg = s.neg
  magnitude : t.magnitude = s.magnitude
  form : t.exp.isSome ↔ s.exp + 1 ≤ -4 ∨ 16 < s.exp + 1
  exponent : ∀ e ∈ t.exp, e.1 = 'e' ∧ (e.2.1 = ['+'] ∨ e.2.1 = ['-']) ∧ 2 ≤ e.2.2.length
  point : t.exp = none → t.frac.isSome

theorem LaidOut.spells {t : NumberText} {s : LowerExpText} (h : LaidOut t s) :
    Spells t s (layout (s.digit :: s.digits) (s.exp + 1)) where
  ok := h.ok
  text := h.text
  float := by
    cases he : t.exp with
    | none => exact .inl (h.point he)
    | some e => exact .inr rfl
  value := by
    have hval : t.toFloat = some (.nearest t.neg t.magnitude) := if_neg fun hc => h.int_ne hc.1
    rw [hval, h.neg, h.magnitude]

section Layout

variable {s : LowerExpText} (hs : s.Ok)

include hs

theorem isDigit_of_mem : ∀ c ∈ s.digit :: s.digits, isDigit c := by
  intro c hc
  rcases List.mem_cons.mp hc with rfl | hc
  · exact hs.digit
  · exact hs.digits c hc

omit hs in
/-- The digits of an exponent: the number, with at least two digits. -/
theorem exponent_digits (e : ℤ) :
    Nat.ofDigitChars 10 ((if e.natAbs < 10 then ['0'] else []) ++ showNat e.natAbs) 0 = e.natAbs ∧
    (∀ c ∈ (if e.natAbs < 10 then ['0'] else []) ++ showNat e.natAbs, isDigit c) ∧
    2 ≤ ((if e.natAbs < 10 then ['0'] else []) ++ showNat e.natAbs).length := by
  have hval : Nat.ofDigitChars 10 (showNat e.natAbs) 0 = e.natAbs := Nat.ofDigitChars_ten_toDigits
  have hlen : 0 < (showNat e.natAbs).length := List.length_pos_iff.mpr Nat.toDigits_ne_nil
  by_cases hp : e.natAbs < 10
  · rw [if_pos hp]
    refine ⟨by simpa [Nat.ofDigitChars_cons] using hval, fun c hc => ?_, ?_⟩
    · rcases List.mem_cons.mp hc with rfl | hc
      · rfl
      · exact isDigit_showNat hc
    · rw [List.length_append, List.length_singleton]
      omega
  · rw [if_neg hp, List.nil_append]
    refine ⟨hval, fun c hc => isDigit_showNat hc, ?_⟩
    have hfirst : 0 < (Nat.toDigits 10 (e.natAbs / 10)).length := List.length_pos_iff.mpr Nat.toDigits_ne_nil
    rw [showNat, Nat.toDigits_of_base_le (by decide) (by omega), List.length_append, List.length_singleton]
    omega

/-- The digits, with the point behind the first and an exponent. -/
theorem laidOut_exponent (h : s.exp + 1 ≤ -4 ∨ 16 < s.exp + 1) : ∃ t, LaidOut t s := by
  obtain ⟨hval, hdigits, hlen⟩ := exponent_digits s.exp
  generalize hds : (if s.exp.natAbs < 10 then ['0'] else []) ++ showNat s.exp.natAbs = ds at hval hdigits hlen
  let frac : Option (List Char) := if s.digits = [] then none else some s.digits
  have hfrac : frac.getD [] = s.digits := by
    by_cases hd : s.digits = []
    · simp [frac, hd]
    · simp [frac, hd]
  have hsign : ([if s.exp < 0 then '-' else '+'] = ['+']) ∨ [if s.exp < 0 then '-' else '+'] = ['-'] := by
    by_cases hn : s.exp < 0
    · simp [hn]
    · simp [hn]
  refine ⟨⟨s.neg, [s.digit], frac, some ('e', [if s.exp < 0 then '-' else '+'], ds)⟩, {
    ok := ⟨by simpa using hs.digit, by simp, by simp, ?_, ?_, by simp, ?_, ?_, by simpa using hdigits⟩
    int_ne := by simp
    text := ?_
    neg := rfl
    magnitude := ?_
    form := by simpa using h
    exponent := ?_
    point := by simp }⟩
  · by_cases hd : s.digits = []
    · simp [frac, hd]
    · simp [frac, hd]
  · intro l hl
    by_cases hd : s.digits = []
    · simp [frac, hd] at hl
    · obtain rfl : s.digits = l := by simpa [frac, hd] using hl
      exact hs.digits
  · rintro e he
    obtain rfl := Option.mem_some.mp he
    exact .inr hsign
  · rintro e he
    obtain rfl := Option.mem_some.mp he
    exact List.ne_nil_of_length_pos (by dsimp only; omega)
  · rw [layout, if_pos h, NumberText.text]
    by_cases hd : s.digits = []
    · simp [frac, hd, ← hds]
    · have : 0 < s.digits.length := List.length_pos_iff.mpr hd
      simp [frac, hd, ← hds, this]
  · have hexp : exponentValue (some ('e', [if s.exp < 0 then '-' else '+'], ds)) = s.exp := by
      by_cases hn : s.exp < 0
      · rw [if_pos hn]
        show -(Nat.ofDigitChars 10 ds 0 : ℤ) = s.exp
        rw [hval]
        omega
      · rw [if_neg hn]
        show (Nat.ofDigitChars 10 ds 0 : ℤ) = s.exp
        rw [hval]
        omega
    unfold NumberText.magnitude LowerExpText.magnitude
    simp only [hfrac, hexp]
    rfl
  · rintro e he
    obtain rfl := Option.mem_some.mp he
    exact ⟨rfl, hsign, hlen⟩

/-- All digits behind the point. -/
theorem laidOut_small (h : ¬(s.exp + 1 ≤ -4 ∨ 16 < s.exp + 1)) (h0 : s.exp + 1 ≤ 0) : ∃ t, LaidOut t s := by
  refine ⟨⟨s.neg, ['0'], some (List.replicate (-(s.exp + 1)).toNat '0' ++ s.digit :: s.digits), none⟩, {
    ok := ⟨by simp; rfl, by simp, by simp, by simp, ?_, by simp, by simp, by simp, by simp⟩
    int_ne := by simp
    text := ?_
    neg := rfl
    magnitude := ?_
    form := by simpa using h
    exponent := by simp
    point := by simp }⟩
  · rintro ds hds c hc
    obtain rfl := Option.mem_some.mp hds
    rcases List.mem_append.mp hc with hc | hc
    · exact isDigit_replicate hc
    · exact isDigit_of_mem hs c hc
  · rw [layout, if_neg h, if_pos h0, NumberText.text]
    simp
  · have hv : Nat.ofDigitChars 10 (['0'] ++ (List.replicate (-(s.exp + 1)).toNat '0' ++ s.digit :: s.digits)) 0 =
        Nat.ofDigitChars 10 (s.digit :: s.digits) 0 := by
      rw [Nat.ofDigitChars_append, Nat.ofDigitChars_append, Nat.ofDigitChars_replicate_zero]
      rfl
    unfold NumberText.magnitude LowerExpText.magnitude exponentValue
    simp only [Option.getD_some]
    rw [hv]
    congr 1
    simp only [List.length_append, List.length_replicate, List.length_cons]
    omega

/-- All digits before the point. -/
theorem laidOut_whole (h : ¬(s.exp + 1 ≤ -4 ∨ 16 < s.exp + 1)) (h0 : ¬s.exp + 1 ≤ 0)
    (hl : (s.digit :: s.digits).length ≤ (s.exp + 1).toNat) : ∃ t, LaidOut t s := by
  let k := (s.exp + 1).toNat - (s.digit :: s.digits).length
  refine ⟨⟨s.neg, s.digit :: s.digits ++ List.replicate k '0', some ['0'], none⟩, {
    ok := ⟨?_, ?_, by simp, by simp, by simp; rfl, by simp, by simp, by simp, by simp⟩
    int_ne := by simp
    text := ?_
    neg := rfl
    magnitude := ?_
    form := by simpa using h
    exponent := by simp
    point := by simp }⟩
  · rintro c hc
    rcases List.mem_append.mp hc with hc | hc
    · exact isDigit_of_mem hs c hc
    · exact isDigit_replicate hc
  · intro hlen hz
    obtain ⟨hd, hexp⟩ := hs.zero (by simpa using hz)
    simp [hd, hexp, k] at hlen
  · rw [layout, if_neg h, if_neg h0, if_pos hl, NumberText.text]
    simp [k]
  · have hv : Nat.ofDigitChars 10 (s.digit :: s.digits ++ List.replicate k '0' ++ ['0']) 0 =
        Nat.ofDigitChars 10 (s.digit :: s.digits) 0 * 10 ^ (k + 1) := by
      rw [Nat.ofDigitChars_append, Nat.ofDigitChars_append, Nat.ofDigitChars_replicate_zero,
        Nat.ofDigitChars_cons, Nat.ofDigitChars_nil]
      simp only [Nat.sub_self, Nat.add_zero]
      ring
    unfold NumberText.magnitude LowerExpText.magnitude exponentValue
    simp only [Option.getD_some]
    rw [hv, Binary64.decimal_mul_pow]
    congr 1
    simp only [List.length_cons, List.length_nil, k]
    rw [List.length_cons] at hl
    omega

/-- The point between two digits. -/
theorem laidOut_point (h : ¬(s.exp + 1 ≤ -4 ∨ 16 < s.exp + 1)) (h0 : ¬s.exp + 1 ≤ 0)
    (hl : ¬(s.digit :: s.digits).length ≤ (s.exp + 1).toNat) : ∃ t, LaidOut t s := by
  obtain ⟨k, hk⟩ : ∃ k, (s.exp + 1).toNat = k + 1 := ⟨(s.exp + 1).toNat - 1, by omega⟩
  have hl' := hl
  rw [List.length_cons] at hl
  refine ⟨⟨s.neg, (s.digit :: s.digits).take (s.exp + 1).toNat, some ((s.digit :: s.digits).drop (s.exp + 1).toNat),
    none⟩, {
    ok := ⟨fun c hc => isDigit_of_mem hs c (List.mem_of_mem_take hc), ?_, .inl ?_, ?_, ?_, by simp, by simp, by simp,
      by simp⟩
    int_ne := ?_
    text := ?_
    neg := rfl
    magnitude := ?_
    form := by simpa using h
    exponent := by simp
    point := by simp }⟩
  · intro _ hz
    rw [hk, List.take_succ_cons, List.head?_cons, Option.some.injEq] at hz
    rw [(hs.zero hz).1, List.length_nil] at hl
    omega
  · rw [hk, List.take_succ_cons]
    simp
  · simp only [ne_eq, Option.some.injEq, List.drop_eq_nil_iff, List.length_cons]
    exact hl
  · rintro ds hds c hc
    obtain rfl := Option.mem_some.mp hds
    exact isDigit_of_mem hs c (List.mem_of_mem_drop hc)
  · rw [hk, List.take_succ_cons]
    simp
  · rw [layout, if_neg h, if_neg h0, if_neg hl', NumberText.text]
    simp
  · unfold NumberText.magnitude LowerExpText.magnitude exponentValue
    simp only [Option.getD_some]
    rw [List.take_append_drop]
    congr 1
    simp only [List.length_drop, List.length_cons]
    omega

theorem exists_laidOut : ∃ t, LaidOut t s := by
  by_cases h : s.exp + 1 ≤ -4 ∨ 16 < s.exp + 1
  · exact laidOut_exponent hs h
  by_cases h0 : s.exp + 1 ≤ 0
  · exact laidOut_small hs h h0
  by_cases hl : (s.digit :: s.digits).length ≤ (s.exp + 1).toNat
  · exact laidOut_whole hs h h0 hl
  · exact laidOut_point hs h h0 hl

end Layout

theorem spells_layout {s : LowerExpText} (hs : s.Ok) :
    ∃ t, Spells t s (layout (s.digit :: s.digits) (s.exp + 1)) := by
  obtain ⟨t, ht⟩ := exists_laidOut hs
  exact ⟨t, ht.spells⟩

theorem pyReprF64_finite {lowerExp : LowerExp} {x : Binary64} (hx : x.isFinite) {s : LowerExpText} (hs : s.Ok)
    (ht : lowerExp x = s.text) :
    pyReprF64 lowerExp x = (if s.neg then ['-'] else []) ++ layout (s.digit :: s.digits) (s.exp + 1) := by
  cases x with
  | finite neg bits =>
    unfold pyReprF64
    simp only
    rw [ht, splitExp_text hs]
  | infinite neg => cases hx
  | nan => cases hx

/-- A finite float is written as a number that denotes it. -/
theorem reads_pyReprF64 {lowerExp : LowerExp} {x : Binary64} (hx : x.isFinite) (hw : WritesBack lowerExp x)
    (r : List Char) : Reads lax (.value (.float x)) (pyReprF64 lowerExp x ++ r) r := by
  obtain ⟨s, hs, ht, rfl⟩ := hw
  obtain ⟨t, h⟩ := spells_layout hs
  rw [pyReprF64_finite hx hs ht, ← h.text]
  exact .number r h.ok (.float h.float h.value (.inl rfl))

/-! ### Strings -/

theorem hexVal_hexDigit : ∀ k : Fin 16, hexVal (hexDigit k) = some k.val := by decide

/-- A control character is written as an escape for it. -/
theorem hex4_control {c : Char} (hc : c.toNat < 0x20) :
    Hex4 lax ['0', '0', hexDigit (c.toNat / 16), hexDigit (c.toNat % 16)] c.toNat := by
  have h1 := hexVal_hexDigit ⟨c.toNat / 16, by omega⟩
  have h2 := hexVal_hexDigit ⟨c.toNat % 16, by omega⟩
  have h0 : hexVal '0' = some 0 := by decide
  refine .inl ⟨rfl, ?_⟩
  simp only at h1 h2
  simp only [hexDigits, h0, h1, h2, Option.bind_some, Option.some.injEq]
  omega

theorem chars_jsonEscape (c : Char) {s t r : List Char} (h : Chars lax s t r) :
    Chars lax (c :: s) (jsonEscape c ++ t) r := by
  unfold jsonEscape
  split_ifs with h1 h2 h3 h4 h5 h6 h7 h8
  · rw [h1]
    exact .escape rfl h
  · rw [h2]
    exact .escape rfl h
  · rw [h3]
    exact .escape rfl h
  · rw [h4]
    exact .escape rfl h
  · rw [h5]
    exact .escape rfl h
  · rw [h6]
    exact .escape rfl h
  · rw [h7]
    exact .escape rfl h
  · exact .unicode (hex4_control h8) h
  · exact .raw h1 h2 (.inl rfl) h

/-- A written text is read back. -/
theorem chars_escaped (s r : List Char) : Chars lax s (s.flatMap jsonEscape ++ '"' :: r) r := by
  induction s with
  | nil => exact .close r
  | cons c s ih =>
    rw [List.flatMap_cons, List.append_assoc]
    exact chars_jsonEscape c ih

theorem quoted_append (s r : List Char) : quoted s ++ r = '"' :: (s.flatMap jsonEscape ++ '"' :: r) := by
  unfold quoted
  simp

end Pyjson
end Siphon
