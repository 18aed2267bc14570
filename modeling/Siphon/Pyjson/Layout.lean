/-
# The layout of a written float

`py_repr_f64` lays out the digits of `{:e}` as Python does: an exponent where
the point is at -4 or further to the left, or beyond the sixteenth digit, and
else a point with digits on both sides of it. The text is a number of the
grammar, it is read as a float, and it writes exactly the number that the
digits and the exponent of `{:e}` write.

Key definitions: `NumberText.value`, `LowerExpText.value`.
Key theorem: `pyReprF64_layout`.
-/
import Mathlib.Tactic.FieldSimp
import Siphon.Pyjson.Written

namespace Siphon
namespace Pyjson

/-! ### What digits write -/

/-- What the digits behind a point write. -/
def fracValue : List Char → ℚ
  | [] => 0
  | c :: cs => (Nat.ofDigitChars 10 [c] 0 + fracValue cs) / 10

/-- What a number of the grammar writes: digits, a point, digits, and a power of ten. -/
def NumberText.value (t : NumberText) : ℚ :=
  (if t.neg then -1 else 1) * (Nat.ofDigitChars 10 t.int 0 + fracValue (t.frac.getD [])) * 10 ^ exponentValue t.exp

/-- What the text of `{:e}` writes: a digit, a point, digits, and a power of ten. -/
def LowerExpText.value (s : LowerExpText) : ℚ :=
  (if s.neg then -1 else 1) * (Nat.ofDigitChars 10 [s.digit] 0 + fracValue s.digits) * 10 ^ s.exp

theorem ofDigitChars_append_zero (a b : List Char) :
    Nat.ofDigitChars 10 (a ++ b) 0 = Nat.ofDigitChars 10 a 0 * 10 ^ b.length + Nat.ofDigitChars 10 b 0 := by
  rw [Nat.ofDigitChars_append, Nat.ofDigitChars_eq_ofDigitChars_zero, Nat.mul_comm]

/-- Digits behind a point are their number, divided. -/
theorem fracValue_eq : ∀ cs : List Char, fracValue cs = (Nat.ofDigitChars 10 cs 0 : ℚ) / 10 ^ cs.length
  | [] => by simp [fracValue]
  | c :: cs => by
    have h : Nat.ofDigitChars 10 (c :: cs) 0 = _ := ofDigitChars_append_zero [c] cs
    rw [fracValue, fracValue_eq cs, h, List.length_cons, pow_succ]
    push_cast
    field_simp

/-- The point splits the digits. -/
theorem decimal_point (int frac : List Char) (e : ℤ) :
    Binary64.decimal (Nat.ofDigitChars 10 (int ++ frac) 0) (e - frac.length) =
      (Nat.ofDigitChars 10 int 0 + fracValue frac) * 10 ^ e := by
  have hpow : (10 : ℚ) ^ (e - (frac.length : ℤ)) = 10 ^ e / 10 ^ frac.length := by
    rw [zpow_sub₀ (by norm_num), zpow_natCast]
  rw [Binary64.decimal_eq, hpow, fracValue_eq, ofDigitChars_append_zero]
  push_cast
  field_simp

theorem NumberText.value_eq (t : NumberText) : t.value = (if t.neg then -1 else 1) * t.magnitude := by
  unfold value magnitude
  rw [decimal_point, mul_assoc]

theorem LowerExpText.value_eq (s : LowerExpText) : s.value = (if s.neg then -1 else 1) * s.magnitude := by
  have h := decimal_point [s.digit] s.digits s.exp
  unfold value magnitude
  rw [mul_assoc, ← h]
  rfl

/-! ### The layout -/

/-- **The layout.** The text of a finite float, whose digits and exponent `{:e}` writes as `s`, is a number of the
grammar that writes exactly what `s` writes; the reader takes all of it, for a float; and it has an exponent, with a
sign and at least two digits, exactly where the point is at most at -4 or beyond 16, and a fraction else. -/
theorem pyReprF64_layout {lowerExp : LowerExp} {x : Binary64} (hx : x.isFinite) {s : LowerExpText} (hs : s.Ok)
    (hl : lowerExp x = s.text) :
    ∃ t : NumberText, t.Ok lax ∧ t.int ≠ [] ∧ pyReprF64 lowerExp x = t.text ∧ t.value = s.value ∧
      (∀ n r, Follow r → number n (pyReprF64 lowerExp x ++ r) = .ok (.float (.nearest s.neg s.magnitude), r)) ∧
      (t.exp.isSome ↔ s.exp + 1 ≤ -4 ∨ 16 < s.exp + 1) ∧
      (∀ e ∈ t.exp, e.1 = 'e' ∧ (e.2.1 = ['+'] ∨ e.2.1 = ['-']) ∧ 2 ≤ e.2.2.length) ∧
      (t.exp = none → ∃ ds ∈ t.frac, ds ≠ []) := by
  obtain ⟨t, h⟩ := exists_laidOut hs
  have htext : pyReprF64 lowerExp x = t.text := by rw [pyReprF64_finite hx hs hl, h.text]
  refine ⟨t, h.ok, h.int_ne, htext, ?_, fun n r hr => ?_, h.form, h.exponent, fun he => ?_⟩
  · rw [t.value_eq, s.value_eq, h.neg, h.magnitude]
  · rw [htext]
    exact number_of_ok h.ok (.float h.spells.float h.spells.value (.inl rfl)) hr
  · obtain ⟨ds, hds⟩ := Option.isSome_iff_exists.mp (h.point he)
    exact ⟨ds, hds, fun hnil => h.ok.frac_ne (by rw [hds, hnil])⟩

theorem pyReprF64_layout_three_halves :
    let lowerExp : LowerExp := fun _ => ['1', '.', '5', 'e', '0']
    let x : Binary64 := .finite false ⟨0x3FF8000000000000, by decide⟩
    ∃ t : NumberText, t.Ok lax ∧ t.int ≠ [] ∧ pyReprF64 lowerExp x = t.text ∧
      t.value = LowerExpText.value ⟨false, '1', ['5'], 0⟩ := by
  intro lowerExp x
  have hs : LowerExpText.Ok ⟨false, '1', ['5'], 0⟩ :=
    ⟨rfl, List.forall_mem_singleton.mpr rfl, fun h => absurd h (by decide)⟩
  have hx : x.isFinite := rfl
  have hl : lowerExp x = LowerExpText.text ⟨false, '1', ['5'], 0⟩ := rfl
  obtain ⟨t, h1, h2, h3, h4, -⟩ := pyReprF64_layout hx hs hl
  exact ⟨t, h1, h2, h3, h4⟩

end Pyjson
end Siphon
