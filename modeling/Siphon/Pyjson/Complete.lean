/-
# The reader takes every document of the relaxed grammar

A phrase of the dialect `lax` is read whole, with the value it denotes, by
any function that is given enough fuel. A number goes as far as it can, so
what follows it must not continue it (`Follow`); what follows a value in a
document never does. With `document_of_parse` the accepted texts are exactly
the documents of `lax` (`parse_iff_lax`).
-/
import Siphon.Pyjson.Sound

namespace Siphon
namespace Pyjson

open Fallible

/-! ### White space and what follows -/

/-- A text that begins with no white space. -/
def NoWs (t : List Char) : Prop := ∀ c u, t = c :: u → isWs c = false

/-- A text that does not continue a number. -/
def Follow (t : List Char) : Prop :=
  ∀ c u, t = c :: u → isDigit c = false ∧ c ≠ '.' ∧ c ≠ 'e' ∧ c ≠ 'E'

theorem noWs_cons {c : Char} (h : isWs c = false) (t : List Char) : NoWs (c :: t) := by
  rintro d u he
  rw [← (List.cons.inj he).1]
  exact h

theorem noWs_nil : NoWs [] := by
  intro c u h
  cases h

theorem follow_nil : Follow [] := by
  intro c u h
  cases h

theorem follow_cons {c : Char} (h : isDigit c = false ∧ c ≠ '.' ∧ c ≠ 'e' ∧ c ≠ 'E') (t : List Char) :
    Follow (c :: t) := by
  rintro d u he
  rw [← (List.cons.inj he).1]
  exact h

theorem ws_eq {t u : List Char} (h : Ws t u) (hu : NoWs u) : ws t = u := by
  induction h with
  | nil r =>
    cases r with
    | nil => rfl
    | cons c r =>
      unfold ws
      rw [List.dropWhile_cons_of_neg (by rw [hu c r rfl]; exact Bool.false_ne_true)]
  | cons hc _ ih =>
    unfold ws
    rw [List.dropWhile_cons_of_pos hc]
    exact ih hu

theorem Ws.length_le {t u : List Char} (h : Ws t u) : u.length ≤ t.length := by
  induction h with
  | nil => exact le_rfl
  | cons _ _ ih => exact ih.trans (Nat.le_succ _)

theorem follow_of_isWs {c : Char} (h : isWs c) : isDigit c = false ∧ c ≠ '.' ∧ c ≠ 'e' ∧ c ≠ 'E' := by
  unfold isWs at h
  rw [decide_eq_true_eq] at h
  rcases h with rfl | rfl | rfl | rfl <;> decide

/-- White space does not continue a number. -/
theorem Ws.follow {t u : List Char} (h : Ws t u) (hu : Follow u) : Follow t := by
  cases h with
  | nil => exact hu
  | cons hc _ => exact follow_cons (follow_of_isWs hc) _

/-! ### Escapes and strings -/

theorem takeBytes_append (s r : List Char) : takeBytes (bytes s) (s ++ r) = some (s, r) := by
  induction s with
  | nil => cases r <;> rfl
  | cons c s ih =>
    have hpos := c.utf8Size_pos
    rw [bytes_cons, List.cons_append]
    obtain ⟨k, hk⟩ : ∃ k, c.utf8Size + bytes s = k + 1 := ⟨c.utf8Size + bytes s - 1, by omega⟩
    rw [hk, takeBytes, if_pos (by omega), show k + 1 - c.utf8Size = bytes s by omega, ih]
    rfl

theorem Hex4.bytes_eq {h : List Char} {v : ℕ} (hx : Hex4 lax h v) : bytes h = 4 := by
  rcases hx with ⟨hl, hv⟩ | ⟨-, ds, rfl, hl, hv⟩
  · rw [bytes_of_hexDigits hv, hl]
  · rw [bytes_cons, bytes_of_hexDigits hv, hl, utf8Size_of_ascii (by decide)]

theorem Hex4.fromStrRadix {h : List Char} {v : ℕ} (hx : Hex4 lax h v) : fromStrRadix h = some v := by
  rcases hx with ⟨hl, hv⟩ | ⟨-, ds, rfl, hl, hv⟩
  · unfold Pyjson.fromStrRadix
    split
    · cases hl
    · cases hl
    · next cs _ =>
      rw [hexDigits, hexVal_plus] at hv
      cases hv
    · exact hv
  · unfold Pyjson.fromStrRadix
    split
    · next he => cases he
    · next he =>
      cases he
      cases hl
    · next cs _ he =>
      cases he
      exact hv
    · next h1 h2 => exact absurd rfl (h2 ds)

theorem Hex4.hex4_append {h : List Char} {v : ℕ} (hx : Hex4 lax h v) (r : List Char) :
    hex4 (h ++ r) = .ok (v, r) := by
  unfold hex4
  rw [if_neg (by rw [bytes_append, hx.bytes_eq]; omega)]
  have := takeBytes_append h r
  rw [hx.bytes_eq] at this
  rw [this]
  simp only
  rw [hx.fromStrRadix]

theorem charFromU32_toNat (c : Char) : charFromU32 c.toNat = some c := by
  have hv : c.toNat.isValidChar := c.valid
  unfold charFromU32
  rw [dif_pos hv]
  rfl

theorem lit_append (n : ℕ) (s r : List Char) : lit n s (s ++ r) = .ok r := by
  unfold lit
  rw [if_pos (List.prefix_append s r), List.drop_left]

theorem unicodeEscape_of_unicode {n : ℕ} {h r : List Char} {c : Char} (hx : Hex4 lax h c.toNat) :
    unicodeEscape n (h ++ r) = .ok (c, r) := by
  unfold unicodeEscape
  rw [hx.hex4_append]
  have hv : c.toNat.isValidChar := c.valid
  unfold Nat.isValidChar at hv
  show (if _ then _ else _) = _
  rw [if_neg (by omega), charFromU32_toNat]
  rfl

theorem unicodeEscape_of_pair {n : ℕ} {h l r : List Char} {hi lo : ℕ} {c : Char} (hx : Hex4 lax h hi)
    (lx : Hex4 lax l lo) (h1 : 0xd800 ≤ hi) (h2 : hi < 0xdc00) (h3 : 0xdc00 ≤ lo) (h4 : lo < 0xe000)
    (hc : c.toNat = 0x10000 + (hi - 0xd800) * 1024 + (lo - 0xdc00)) :
    unicodeEscape n (h ++ '\\' :: 'u' :: (l ++ r)) = .ok (c, r) := by
  have hlit : lit n ['\\', 'u'] ('\\' :: 'u' :: (l ++ r)) = .ok (l ++ r) := lit_append n ['\\', 'u'] _
  have hp : surrogatePair hi lo = .ok c := by
    unfold surrogatePair
    rw [if_pos ⟨h3, h4⟩, ← hc, charFromU32_toNat]
    rfl
  have hlow : lowSurrogate n hi ('\\' :: 'u' :: (l ++ r)) = .ok (c, r) := by
    unfold lowSurrogate
    rw [hlit]
    show (hex4 (l ++ r) >>= _) = _
    rw [lx.hex4_append]
    show (surrogatePair hi lo >>= _) = _
    rw [hp]
    rfl
  unfold unicodeEscape
  rw [hx.hex4_append]
  show (if _ then _ else _) = _
  rw [if_pos ⟨h1, h2⟩]
  exact hlow

section StringLoop

variable {n fuel : ℕ} {out r t : List Char} {c d e : Char}

theorem stringLoop_quote : stringLoop n (fuel + 1) out ('"' :: r) = .ok (out, r) := by
  simp [stringLoop]

theorem stringLoop_raw (h1 : c ≠ '"') (h2 : c ≠ '\\') :
    stringLoop n (fuel + 1) out (c :: t) = stringLoop n fuel (out ++ [c]) t := by
  simp [stringLoop, h1, h2]

theorem stringLoop_escape (h : escapeOf e = some d) :
    stringLoop n (fuel + 1) out ('\\' :: e :: t) = stringLoop n fuel (out ++ [d]) t := by
  have hu : e ≠ 'u' := by
    rintro rfl
    cases h
  simp [stringLoop, hu, h]

theorem stringLoop_unicode (h : unicodeEscape n t = .ok (d, r)) :
    stringLoop n (fuel + 1) out ('\\' :: 'u' :: t) = stringLoop n fuel (out ++ [d]) r := by
  simp only [stringLoop, h]
  rfl

end StringLoop

theorem stringLoop_of_chars {n : ℕ} {s t r : List Char} (h : Chars lax s t r) :
    ∀ (fuel : ℕ) (out : List Char), t.length < fuel → stringLoop n fuel out t = .ok (out ++ s, r) := by
  induction h with
  | close r =>
    intro fuel out hf
    obtain ⟨fuel, rfl⟩ : ∃ f, fuel = f + 1 := Nat.exists_eq_add_one.mpr (by omega)
    rw [stringLoop_quote, List.append_nil]
  | raw h1 h2 _ _ ih =>
    intro fuel out hf
    rw [List.length_cons] at hf
    obtain ⟨fuel, rfl⟩ : ∃ f, fuel = f + 1 := Nat.exists_eq_add_one.mpr (by omega)
    rw [stringLoop_raw h1 h2, ih fuel _ (by omega), List.append_assoc]
    rfl
  | escape h1 _ ih =>
    intro fuel out hf
    rw [List.length_cons, List.length_cons] at hf
    obtain ⟨fuel, rfl⟩ : ∃ f, fuel = f + 1 := Nat.exists_eq_add_one.mpr (by omega)
    rw [stringLoop_escape h1, ih fuel _ (by omega), List.append_assoc]
    rfl
  | unicode h1 _ ih =>
    intro fuel out hf
    simp only [List.length_cons, List.length_append] at hf
    obtain ⟨fuel, rfl⟩ : ∃ f, fuel = f + 1 := Nat.exists_eq_add_one.mpr (by omega)
    rw [stringLoop_unicode (unicodeEscape_of_unicode h1), ih fuel _ (by omega), List.append_assoc]
    rfl
  | pair h1 h2 h3 h4 h5 h6 h7 _ ih =>
    intro fuel out hf
    simp only [List.length_cons, List.length_append] at hf
    obtain ⟨fuel, rfl⟩ : ∃ f, fuel = f + 1 := Nat.exists_eq_add_one.mpr (by omega)
    rw [stringLoop_unicode (unicodeEscape_of_pair h1 h2 h3 h4 h5 h6 h7), ih fuel _ (by omega),
      List.append_assoc]
    rfl
  | lone h1 => cases h1

theorem string_of_chars {n : ℕ} {s t r : List Char} (h : Chars lax s t r) :
    string n ('"' :: t) = .ok (s, r) := by
  unfold string
  rw [eat, if_pos rfl]
  exact stringLoop_of_chars h _ [] (Nat.lt_succ_self _)

/-! ### Numbers -/

theorem span_digits {ds r : List Char} (hd : ∀ c ∈ ds, isDigit c) (hr : ∀ c u, r = c :: u → isDigit c = false) :
    (ds ++ r).takeWhile isDigit = ds ∧ (ds ++ r).dropWhile isDigit = r := by
  induction ds with
  | nil =>
    cases r with
    | nil => exact ⟨rfl, rfl⟩
    | cons c r =>
      have hc : ¬isDigit c = true := by rw [hr c r rfl]; exact Bool.false_ne_true
      exact ⟨List.takeWhile_cons_of_neg hc, List.dropWhile_cons_of_neg hc⟩
  | cons d ds ih =>
    have hd' := hd d (by simp)
    obtain ⟨h1, h2⟩ := ih fun c hc => hd c (by simp [hc])
    rw [List.cons_append, List.takeWhile_cons_of_pos hd', List.dropWhile_cons_of_pos hd', h1, h2]
    exact ⟨rfl, rfl⟩

theorem exponent_plus {n : ℕ} {e : Char} (he : e = 'e' ∨ e = 'E') (t : List Char) :
    exponent n (e :: '+' :: t) = exponentDigits n e ['+'] t := if_pos he

theorem exponent_minus {n : ℕ} {e : Char} (he : e = 'e' ∨ e = 'E') (t : List Char) :
    exponent n (e :: '-' :: t) = exponentDigits n e ['-'] t := if_pos he

theorem exponent_digit {n : ℕ} {e d : Char} (he : e = 'e' ∨ e = 'E') (hd : isDigit d) (t : List Char) :
    exponent n (e :: d :: t) = exponentDigits n e [] (d :: t) := by
  rw [exponent, if_pos he]
  · rintro cs h
    rw [(List.cons.inj h).1] at hd
    cases hd
  · rintro cs h
    rw [(List.cons.inj h).1] at hd
    cases hd

theorem exponent_append {n : ℕ} {exp : Option (Char × List Char × List Char)} (h : ExponentOk exp)
    {r : List Char} (hr : Follow r) :
    exponent n ((exp.elim [] fun x => x.1 :: x.2.1 ++ x.2.2) ++ r) = .ok (exp, r) := by
  cases exp with
  | none =>
    show exponent n r = _
    unfold exponent
    split
    · next e cs =>
      have := hr e cs rfl
      rw [if_neg (not_or.mpr ⟨this.2.2.1, this.2.2.2⟩)]
    · rfl
  | some x =>
    obtain ⟨e, sign, ds⟩ := x
    have he := h.letter _ rfl
    have hne := h.ne _ rfl
    obtain ⟨h1, h2⟩ := span_digits (h.digits _ rfl) fun c u he => (hr c u he).1
    have hdig : exponentDigits n e sign (ds ++ r) = .ok (some (e, sign, ds), r) := by
      unfold exponentDigits
      rw [h1, h2, if_neg hne]
    rcases h.sign _ rfl with hs | hs | hs
    · obtain rfl : sign = [] := hs
      obtain ⟨d, ds, rfl⟩ := List.exists_cons_of_ne_nil hne
      exact (exponent_digit he (h.digits _ rfl d (by simp)) (ds ++ r)).trans hdig
    · obtain rfl : sign = ['+'] := hs
      exact (exponent_plus he (ds ++ r)).trans hdig
    · obtain rfl : sign = ['-'] := hs
      exact (exponent_minus he (ds ++ r)).trans hdig

theorem fraction_append {n : ℕ} {frac : Option (List Char)} (hne : frac ≠ some [])
    (hd : ∀ ds ∈ frac, ∀ c ∈ ds, isDigit c) {r : List Char}
    (hr : ∀ c u, r = c :: u → isDigit c = false ∧ c ≠ '.') :
    fraction n ((frac.elim [] fun ds => '.' :: ds) ++ r) = .ok (frac, r) := by
  cases frac with
  | none =>
    show fraction n r = _
    unfold fraction
    split
    · next cs => exact absurd rfl (hr '.' cs rfl).2
    · rfl
  | some ds =>
    obtain ⟨h1, h2⟩ := span_digits (hd _ rfl) fun c u he => (hr c u he).1
    show fraction n ('.' :: (ds ++ r)) = _
    rw [fraction, h1, h2, if_neg (fun he => hne (congrArg some he))]

theorem numberValue_of_denotes {t : NumberText} {v : Value} (h : t.Denotes lax v)
    (hint : t.int ≠ [] ∨ t.frac.isSome) : numberValue t = .ok v := by
  unfold numberValue
  simp only
  cases h with
  | int h1 h2 h3 =>
    have hi : t.int ≠ [] := hint.resolve_right (by rw [h1]; exact Bool.false_ne_true)
    rw [if_neg (fun hc => hi hc.1), if_neg (by rw [h1, h2]; simp), h3]
  | float h1 h2 _ =>
    rw [if_neg (fun hc => hc.2 h1), if_pos h1, h2]

theorem NumberText.Ok.exponentOk {D : Dialect} {t : NumberText} (h : t.Ok D) : ExponentOk t.exp :=
  ⟨h.exp_letter, h.exp_sign, h.exp_ne, h.exp_digits⟩

theorem number_of_ok {n : ℕ} {t : NumberText} {v : Value} (hok : t.Ok lax) (hden : t.Denotes lax v)
    {r : List Char} (hr : Follow r) : number n (t.text ++ r) = .ok (v, r) := by
  obtain ⟨neg, int, frac, exp⟩ := t
  have hexp := hok.exponentOk
  -- what stands behind the fraction, and behind the integer digits
  have hr₁ : ∀ c u, (exp.elim [] fun x => x.1 :: x.2.1 ++ x.2.2) ++ r = c :: u →
      isDigit c = false ∧ c ≠ '.' := by
    intro c u he
    cases exp with
    | none => exact ⟨(hr c u he).1, (hr c u he).2.1⟩
    | some x =>
      rw [← (List.cons.inj he).1]
      rcases hexp.letter x rfl with h | h <;> rw [h] <;> decide
  have hr₂ : ∀ c u, (frac.elim [] fun ds => '.' :: ds) ++ ((exp.elim [] fun x => x.1 :: x.2.1 ++ x.2.2) ++ r) =
      c :: u → isDigit c = false := by
    intro c u he
    cases frac with
    | none => exact (hr₁ c u he).1
    | some ds =>
      rw [← (List.cons.inj he).1]
      decide
  obtain ⟨h1, h2⟩ := span_digits hok.int_digits hr₂
  have hdigits : numberDigits n neg (int ++ ((frac.elim [] fun ds => '.' :: ds) ++
      ((exp.elim [] fun x => x.1 :: x.2.1 ++ x.2.2) ++ r))) = .ok (v, r) := by
    unfold numberDigits
    simp only
    rw [h1, h2, if_neg (fun hc => hok.int_zero hc.1 hc.2), fraction_append hok.frac_ne hok.frac_digits hr₁]
    show (exponent n _ >>= _) = _
    rw [exponent_append hexp hr]
    show (numberValue ⟨neg, int, frac, exp⟩ >>= _) = _
    rw [numberValue_of_denotes hden (hok.int_ne.imp_right fun h => h.2.2)]
    rfl
  unfold NumberText.text
  simp only [List.append_assoc]
  cases neg with
  | true => exact hdigits
  | false =>
    -- a number without a sign begins with a digit
    have hi : int ≠ [] := hok.int_ne.resolve_right fun h => (by cases h.2.1)
    obtain ⟨d, ds, rfl⟩ := List.exists_cons_of_ne_nil hi
    have hd := hok.int_digits d (by simp)
    have : ∀ cs, number n (d :: cs) = numberDigits n false (d :: cs) := by
      intro cs
      unfold number
      split
      · next he =>
        rw [(List.cons.inj he).1] at hd
        cases hd
      · rfl
    exact (this _).trans hdigits

/-! ### The first character of a value -/

/-- The characters a value begins with. -/
def StartsValue (c : Char) : Prop :=
  c = 'n' ∨ c = 't' ∨ c = 'f' ∨ c = '"' ∨ c = '[' ∨ c = '{' ∨ c = '-' ∨ isDigit c

theorem not_isWs_of_isDigit {c : Char} (h : isDigit c) : isWs c = false := by
  by_contra hc
  rw [Bool.not_eq_false] at hc
  rw [(follow_of_isWs hc).1] at h
  cases h

theorem StartsValue.not_isWs {c : Char} (h : StartsValue c) : isWs c = false := by
  rcases h with rfl | rfl | rfl | rfl | rfl | rfl | rfl | h
  all_goals first | decide | exact not_isWs_of_isDigit h

theorem StartsValue.ne_bracket {c : Char} (h : StartsValue c) : c ≠ ']' := by
  rintro rfl
  revert h
  unfold StartsValue
  decide

theorem NumberText.Ok.starts {t : NumberText} (h : t.Ok lax) (r : List Char) :
    ∃ c u, t.text ++ r = c :: u ∧ (c = '-' ∨ isDigit c) := by
  obtain ⟨neg, int, frac, exp⟩ := t
  cases neg with
  | true => exact ⟨'-', _, rfl, .inl rfl⟩
  | false =>
    have hi : int ≠ [] := h.int_ne.resolve_right fun h => (by cases h.2.1)
    obtain ⟨d, ds, rfl⟩ := List.exists_cons_of_ne_nil hi
    exact ⟨d, _, rfl, .inr (h.int_digits d (by simp))⟩

theorem Reads.starts {v : Value} {t r : List Char} (h : Reads lax (.value v) t r) :
    ∃ c u, t = c :: u ∧ StartsValue c := by
  cases h with
  | null => exact ⟨_, _, rfl, .inl rfl⟩
  | true => exact ⟨_, _, rfl, .inr (.inl rfl)⟩
  | false => exact ⟨_, _, rfl, .inr (.inr (.inl rfl))⟩
  | number r hok _ =>
    obtain ⟨c, u, he, hc⟩ := hok.starts r
    refine ⟨c, u, he, ?_⟩
    unfold StartsValue
    rcases hc with hc | hc
    · simp [hc]
    · simp [hc]
  | string _ => exact ⟨_, _, rfl, .inr (.inr (.inr (.inl rfl)))⟩
  | arrayEmpty _ => exact ⟨_, _, rfl, .inr (.inr (.inr (.inr (.inl rfl))))⟩
  | array _ => exact ⟨_, _, rfl, .inr (.inr (.inr (.inr (.inl rfl))))⟩
  | objectEmpty _ => exact ⟨_, _, rfl, .inr (.inr (.inr (.inr (.inr (.inl rfl)))))⟩
  | object _ => exact ⟨_, _, rfl, .inr (.inr (.inr (.inr (.inr (.inl rfl)))))⟩

theorem Reads.noWs {v : Value} {t r : List Char} (h : Reads lax (.value v) t r) : NoWs t := by
  obtain ⟨c, u, rfl, hc⟩ := h.starts
  exact noWs_cons hc.not_isWs u

/-! ### Lengths -/

theorem Chars.length_lt {D : Dialect} {s t r : List Char} (h : Chars D s t r) : r.length < t.length := by
  induction h with
  | close => simp
  | raw _ _ _ _ ih => simp only [List.length_cons]; omega
  | escape _ _ ih => simp only [List.length_cons]; omega
  | unicode _ _ ih => simp only [List.length_cons, List.length_append]; omega
  | pair _ _ _ _ _ _ _ _ ih => simp only [List.length_cons, List.length_append]; omega
  | lone _ _ _ _ _ ih => simp only [List.length_cons, List.length_append]; omega

theorem Reads.length_lt {i : Item} {t r : List Char} (h : Reads lax i t r) : r.length < t.length := by
  induction h with
  | null => simp only [List.length_cons]; omega
  | true => simp only [List.length_cons]; omega
  | false => simp only [List.length_cons]; omega
  | number r hok _ =>
    obtain ⟨c, u, he, -⟩ := hok.starts []
    rw [List.append_nil] at he
    rw [List.length_append, he, List.length_cons]
    omega
  | string h => have := h.length_lt; simp only [List.length_cons]; omega
  | arrayEmpty h => have := h.length_le; simp only [List.length_cons] at this ⊢; omega
  | array _ ih => simp only [List.length_cons] at ih ⊢; omega
  | objectEmpty h => have := h.length_le; simp only [List.length_cons] at this ⊢; omega
  | object _ ih => simp only [List.length_cons] at ih ⊢; omega
  | lastElement h1 _ h3 ih =>
    have := h1.length_le
    have := h3.length_le
    omega
  | element h1 _ h3 _ ih ih' =>
    have := h1.length_le
    have := h3.length_le
    simp only [List.length_cons] at this
    omega
  | keyValue h1 h2 h3 h4 _ ih =>
    have e1 := h1.length_le
    have e2 := h2.length_lt
    have e3 := h3.length_le
    have e4 := h4.length_le
    simp only [List.length_cons] at e1 e3
    omega
  | lastMember _ h2 ih =>
    have := h2.length_le
    omega
  | memberList _ h2 _ ih ih' =>
    have := h2.length_le
    simp only [List.length_cons] at this
    omega

/-! ### Values -/

theorem ws_ws (t : List Char) : ws (ws t) = ws t := by
  unfold ws
  induction t with
  | nil => rfl
  | cons c t ih =>
    by_cases hc : isWs c
    · rw [List.dropWhile_cons_of_pos hc, ih]
    · rw [List.dropWhile_cons_of_neg hc, List.dropWhile_cons_of_neg hc]

theorem array_ws (n fuel : ℕ) (a : List Value) (t : List Char) : array n fuel a (ws t) = array n fuel a t := by
  cases fuel with
  | zero => rfl
  | succ fuel => rw [array, array, ws_ws]

theorem object_ws (n fuel : ℕ) (kv : List (List Char × Value)) (t : List Char) :
    object n fuel kv (ws t) = object n fuel kv t := by
  cases fuel with
  | zero => rfl
  | succ fuel => rw [object, object, ws_ws]

theorem value_number {n fuel : ℕ} {c : Char} (h : c = '-' ∨ isDigit c) (t : List Char) :
    value n (fuel + 1) (c :: t) = number n (c :: t) := by
  have hne : ∀ d : Char, d ≠ '-' → isDigit d = false → c ≠ d := by
    rintro d hd hd' rfl
    rcases h with h | h
    · exact hd h
    · rw [hd'] at h
      cases h
  rw [value, if_neg (hne _ (by decide) (by decide)), if_neg (hne _ (by decide) (by decide)),
    if_neg (hne _ (by decide) (by decide)), if_neg (hne _ (by decide) (by decide)),
    if_neg (hne _ (by decide) (by decide)), if_neg (hne _ (by decide) (by decide)), if_pos h]

theorem value_array {n fuel : ℕ} {t : List Char} (h : ∀ u, ws t ≠ ']' :: u) :
    value n (fuel + 1) ('[' :: t) = array n fuel [] t := by
  rw [value, if_neg (by decide), if_pos rfl, ← array_ws n fuel [] t]
  split
  · next u hu => exact absurd hu (h u)
  · rfl

theorem value_object {n fuel : ℕ} {t : List Char} (h : ∀ u, ws t ≠ '}' :: u) :
    value n (fuel + 1) ('{' :: t) = object n fuel [] t := by
  rw [value, if_pos rfl, ← object_ws n fuel [] t]
  split
  · next u hu => exact absurd hu (h u)
  · rfl

/-- The elements begin with a value, behind white space. -/
theorem Reads.elements_starts {vs : List Value} {t r : List Char} (h : Reads lax (.elements vs) t r) :
    ∀ u, ws t ≠ ']' :: u := by
  have key : ∀ {v : Value} {u w : List Char}, Ws t u → Reads lax (.value v) u w → ∀ x, ws t ≠ ']' :: x := by
    intro v u w hw hv x hx
    rw [ws_eq hw hv.noWs] at hx
    obtain ⟨c, y, he, hc⟩ := hv.starts
    rw [hx] at he
    exact hc.ne_bracket (List.cons.inj he).1.symm
  cases h with
  | lastElement h1 h2 _ => exact key h1 h2
  | element h1 h2 _ _ => exact key h1 h2

theorem Reads.member_starts {k : List Char} {v : Value} {t r : List Char} (h : Reads lax (.member k v) t r) :
    ∃ u, ws t = '"' :: u := by
  cases h with
  | @keyValue _ _ _ u _ _ _ _ h1 _ _ _ _ => exact ⟨u, ws_eq h1 (noWs_cons (by decide) u)⟩

theorem Reads.members_starts {kvs : List (List Char × Value)} {t r : List Char}
    (h : Reads lax (.members kvs) t r) : ∀ u, ws t ≠ '}' :: u := by
  have key : ∀ {k : List Char} {v : Value} {w : List Char}, Reads lax (.member k v) t w →
      ∀ x, ws t ≠ '}' :: x := by
    intro k v w hm x hx
    obtain ⟨u, hu⟩ := hm.member_starts
    rw [hx] at hu
    exact absurd (List.cons.inj hu).1 (by decide)
  cases h with
  | lastMember h1 _ => exact key h1
  | memberList h1 _ _ => exact key h1

/-- What the reader does with a phrase. -/
def Accepts (n : ℕ) : Item → List Char → List Char → Prop
  | .value v, t, r => Follow r → ∀ fuel, 2 * t.length < fuel → value n fuel t = .ok (v, r)
  | .elements vs, t, r => ∀ r', r = ']' :: r' → ∀ fuel a, 2 * t.length + 1 < fuel →
      array n fuel a t = .ok (.array (a ++ vs), r')
  | .member k v, t, r => Follow r → ∀ fuel, 2 * t.length < fuel → ∃ w x,
      string n (ws t) = .ok (k, w) ∧ eat n ':' (ws w) = .ok x ∧ value n fuel (ws x) = .ok (v, r)
  | .members kvs, t, r => ∀ r', r = '}' :: r' → ∀ fuel kv, 2 * t.length + 1 < fuel →
      object n fuel kv t = .ok (.object (kv ++ kvs), r')

theorem accepts_lastElement {n : ℕ} {v : Value} {t u w r : List Char} (h1 : Ws t u)
    (h2 : Reads lax (.value v) u w) (h3 : Ws w r) (ih : Accepts n (.value v) u w) :
    Accepts n (.elements [v]) t r := by
  rintro r' rfl fuel a hf
  obtain ⟨fuel, rfl⟩ : ∃ f, fuel = f + 1 := Nat.exists_eq_add_one.mpr (by omega)
  have hlen := h1.length_le
  rw [array, ws_eq h1 h2.noWs, ih (h3.follow (follow_cons (by decide) r')) fuel (by omega)]
  rw [ok_bind]
  dsimp only
  rw [ws_eq h3 (noWs_cons (by decide) r')]
  rfl

theorem accepts_element {n : ℕ} {v : Value} {vs : List Value} {t u w x r : List Char} (h1 : Ws t u)
    (h2 : Reads lax (.value v) u w) (h3 : Ws w (',' :: x)) (ih : Accepts n (.value v) u w)
    (ih' : Accepts n (.elements vs) x r) : Accepts n (.elements (v :: vs)) t r := by
  rintro r' rfl fuel a hf
  obtain ⟨fuel, rfl⟩ : ∃ f, fuel = f + 1 := Nat.exists_eq_add_one.mpr (by omega)
  have e1 := h1.length_le
  have e2 := h2.length_lt
  have e3 := h3.length_le
  rw [List.length_cons] at e3
  rw [array, ws_eq h1 h2.noWs, ih (h3.follow (follow_cons (by decide) x)) fuel (by omega)]
  rw [ok_bind]
  dsimp only
  rw [ws_eq h3 (noWs_cons (by decide) x)]
  show array n fuel (a ++ [v]) x = _
  rw [ih' r' rfl fuel (a ++ [v]) (by omega), List.append_assoc]
  rfl

theorem accepts_member {n : ℕ} {k : List Char} {v : Value} {t u w x y r : List Char} (h1 : Ws t ('"' :: u))
    (h2 : Chars lax k u w) (h3 : Ws w (':' :: x)) (h4 : Ws x y) (h5 : Reads lax (.value v) y r)
    (ih : Accepts n (.value v) y r) : Accepts n (.member k v) t r := by
  intro hr fuel hf
  have e1 := h1.length_le
  have e2 := h2.length_lt
  have e3 := h3.length_le
  have e4 := h4.length_le
  rw [List.length_cons] at e1 e3
  refine ⟨w, x, ?_, ?_, ?_⟩
  · rw [ws_eq h1 (noWs_cons (by decide) u)]
    exact string_of_chars h2
  · rw [ws_eq h3 (noWs_cons (by decide) x), eat, if_pos rfl]
  · rw [ws_eq h4 h5.noWs]
    exact ih hr fuel (by omega)

theorem accepts_lastMember {n : ℕ} {k : List Char} {v : Value} {t w r : List Char} (h2 : Ws w r)
    (ih : Accepts n (.member k v) t w) : Accepts n (.members [(k, v)]) t r := by
  rintro r' rfl fuel kv hf
  obtain ⟨fuel, rfl⟩ : ∃ f, fuel = f + 1 := Nat.exists_eq_add_one.mpr (by omega)
  obtain ⟨w', x, hs, he, hv⟩ := ih (h2.follow (follow_cons (by decide) r')) fuel (by omega)
  rw [object, hs]
  show (eat n ':' (ws w') >>= _) = _
  rw [he]
  show (value n fuel (ws x) >>= _) = _
  rw [hv]
  rw [ok_bind]
  dsimp only
  rw [ws_eq h2 (noWs_cons (by decide) r')]
  rfl

theorem accepts_memberList {n : ℕ} {k : List Char} {v : Value} {kvs : List (List Char × Value)}
    {t w x r : List Char} (h1 : Reads lax (.member k v) t w) (h2 : Ws w (',' :: x))
    (ih : Accepts n (.member k v) t w) (ih' : Accepts n (.members kvs) x r) :
    Accepts n (.members ((k, v) :: kvs)) t r := by
  rintro r' rfl fuel kv hf
  obtain ⟨fuel, rfl⟩ : ∃ f, fuel = f + 1 := Nat.exists_eq_add_one.mpr (by omega)
  have e1 := h1.length_lt
  have e2 := h2.length_le
  rw [List.length_cons] at e2
  obtain ⟨w', y, hs, he, hv⟩ := ih (h2.follow (follow_cons (by decide) x)) fuel (by omega)
  rw [object, hs]
  show (eat n ':' (ws w') >>= _) = _
  rw [he]
  show (value n fuel (ws y) >>= _) = _
  rw [hv]
  rw [ok_bind]
  dsimp only
  rw [ws_eq h2 (noWs_cons (by decide) x)]
  show object n fuel (kv ++ [(k, v)]) x = _
  rw [ih' r' rfl fuel (kv ++ [(k, v)]) (by omega), List.append_assoc]
  rfl

/-- Every phrase of the relaxed grammar is read. -/
theorem Reads.accepts {n : ℕ} {i : Item} {t r : List Char} (h : Reads lax i t r) : Accepts n i t r := by
  induction h with
  | null r =>
    intro _ fuel hf
    obtain ⟨fuel, rfl⟩ : ∃ f, fuel = f + 1 := Nat.exists_eq_add_one.mpr (by omega)
    show ((lit n ['n', 'u', 'l', 'l'] (['n', 'u', 'l', 'l'] ++ r)) >>= _) = _
    rw [lit_append]
    rfl
  | true r =>
    intro _ fuel hf
    obtain ⟨fuel, rfl⟩ : ∃ f, fuel = f + 1 := Nat.exists_eq_add_one.mpr (by omega)
    show ((lit n ['t', 'r', 'u', 'e'] (['t', 'r', 'u', 'e'] ++ r)) >>= _) = _
    rw [lit_append]
    rfl
  | false r =>
    intro _ fuel hf
    obtain ⟨fuel, rfl⟩ : ∃ f, fuel = f + 1 := Nat.exists_eq_add_one.mpr (by omega)
    show ((lit n ['f', 'a', 'l', 's', 'e'] (['f', 'a', 'l', 's', 'e'] ++ r)) >>= _) = _
    rw [lit_append]
    rfl
  | number r hok hden =>
    intro hr fuel hf
    obtain ⟨fuel, rfl⟩ : ∃ f, fuel = f + 1 := Nat.exists_eq_add_one.mpr (by omega)
    obtain ⟨c, u, he, hc⟩ := hok.starts r
    rw [he, value_number hc, ← he]
    exact number_of_ok hok hden hr
  | string h =>
    intro _ fuel hf
    obtain ⟨fuel, rfl⟩ : ∃ f, fuel = f + 1 := Nat.exists_eq_add_one.mpr (by omega)
    show (Pyjson.string n _ >>= _) = _
    rw [string_of_chars h]
    rfl
  | @arrayEmpty t r h =>
    intro _ fuel hf
    obtain ⟨fuel, rfl⟩ : ∃ f, fuel = f + 1 := Nat.exists_eq_add_one.mpr (by omega)
    rw [value, ws_eq h (noWs_cons (by decide) r)]
    rfl
  | array h ih =>
    intro _ fuel hf
    rw [List.length_cons] at hf
    obtain ⟨fuel, rfl⟩ : ∃ f, fuel = f + 1 := Nat.exists_eq_add_one.mpr (by omega)
    rw [value_array h.elements_starts]
    exact ih _ rfl fuel [] (by omega)
  | @objectEmpty t r h =>
    intro _ fuel hf
    obtain ⟨fuel, rfl⟩ : ∃ f, fuel = f + 1 := Nat.exists_eq_add_one.mpr (by omega)
    rw [value, ws_eq h (noWs_cons (by decide) r)]
    rfl
  | object h ih =>
    intro _ fuel hf
    rw [List.length_cons] at hf
    obtain ⟨fuel, rfl⟩ : ∃ f, fuel = f + 1 := Nat.exists_eq_add_one.mpr (by omega)
    rw [value_object h.members_starts]
    exact ih _ rfl fuel [] (by omega)
  | lastElement h1 h2 h3 ih => exact accepts_lastElement h1 h2 h3 ih
  | element h1 h2 h3 _ ih ih' => exact accepts_element h1 h2 h3 ih ih'
  | keyValue h1 h2 h3 h4 h5 ih => exact accepts_member h1 h2 h3 h4 h5 ih
  | lastMember _ h2 ih => exact accepts_lastMember h2 ih
  | memberList h1 h2 _ ih ih' => exact accepts_memberList h1 h2 ih ih'

/-- A document of the relaxed grammar is accepted, with its value. -/
theorem parse_of_document {t : List Char} {v : Value} (h : Document lax t v) : parse t = .ok v := by
  obtain ⟨u, w, h1, h2, h3⟩ := h
  have hlen := h1.length_le
  have hacc : Accepts (bytes t) (.value v) u w := h2.accepts
  unfold parse
  simp only
  rw [ws_eq h1 h2.noWs, hacc (h3.follow follow_nil) (2 * t.length + 1) (by omega)]
  rw [ok_bind]
  dsimp only
  rw [ws_eq h3 noWs_nil]

/-- The accepted texts are the documents of the relaxed grammar. -/
theorem parse_iff_lax {t : List Char} {v : Value} : parse t = .ok v ↔ Document lax t v :=
  ⟨document_of_parse, parse_of_document⟩

end Pyjson
end Siphon
