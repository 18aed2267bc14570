/-
# Widening binary formats

The bits of a number in one format and in a wider one: where the fraction is
moved up by `d` places and the exponent is raised by the difference of the
biases, the units grow by a power of two (`units_widen`), and two finite numbers
have one value exactly if the units grow as those of one do (`sameValue_finite`).

Key definitions: `Ieee.stored`, `Ieee.SameValue`.
Key theorems: `Ieee.units_widen`, `Ieee.sameValue_finite`, `Ieee.stored_split`.
-/
import Siphon.Lib.Ieee

namespace Ieee

variable {f g : Format}

/-- The weight of the sign in the bits of a format. -/
def Format.signBit (f : Format) : ℕ := (2 * f.bias + 2) * 2 ^ f.mantissa

/-- The number that bits stand for. -/
def stored (bits : ℕ) : Ieee f := ofBits (decide (f.signBit ≤ bits)) (bits % f.signBit)

/-- Two numbers of the same value: a zero has its sign, and any two that are
no numbers agree. -/
def SameValue : Ieee f → Ieee g → Prop
  | finite s a, finite s' b => s = s' ∧ toRat (finite s a) = toRat (finite s' b)
  | infinite s, infinite s' => s = s'
  | nan, nan => True
  | _, _ => False

/-- Bits moved up by `d` places, with an exponent raised by `k`: a normal
number, or any if the exponent stays. -/
theorem units_widen {m b k : ℕ} (d : ℕ) (h : 2 ^ m ≤ b ∨ k = 0) :
    units (m + d) (b * 2 ^ d + k * 2 ^ (m + d)) = units m b * 2 ^ (d + k) := by
  have hdiv : (b * 2 ^ d + k * 2 ^ (m + d)) / 2 ^ (m + d) = b / 2 ^ m + k := by
    rw [Nat.add_mul_div_right _ _ (Nat.two_pow_pos _), Nat.pow_add, Nat.mul_div_mul_right _ _ (Nat.two_pow_pos _)]
  unfold units
  rw [hdiv]
  obtain hb | rfl := h
  · have hpos : 1 ≤ b / 2 ^ m := (Nat.one_le_div_iff (Nat.two_pow_pos m)).mpr hb
    have hle : (b / 2 ^ m - 1) * 2 ^ m ≤ b :=
      (Nat.mul_le_mul_right _ (Nat.sub_le _ 1)).trans (Nat.div_mul_le_self b (2 ^ m))
    have hsub : b / 2 ^ m + k - 1 = (b / 2 ^ m - 1) + k := by omega
    have hfrac : b * 2 ^ d + k * 2 ^ (m + d) - (b / 2 ^ m - 1 + k) * 2 ^ (m + d) =
        (b - (b / 2 ^ m - 1) * 2 ^ m) * 2 ^ d := by
      rw [Nat.add_mul, Nat.add_sub_add_right, Nat.pow_add, ← Nat.mul_assoc, ← Nat.sub_mul]
    rw [hsub, hfrac, Nat.mul_assoc, Nat.mul_assoc, ← Nat.pow_add, ← Nat.pow_add]
    congr 2
    omega
  · rw [Nat.zero_mul, Nat.add_zero, Nat.add_zero, Nat.add_zero, Nat.pow_add, ← Nat.mul_assoc, ← Nat.sub_mul]
    ring

/-- A finite magnitude that is `2 ^ e` times as many units, where one is `2 ^ e`
times as many of them. -/
theorem sameValue_finite {s : Bool} {a : Fin f.magnitudes} {b : Fin g.magnitudes} {e : ℕ}
    (hone : g.unitsPerOne = f.unitsPerOne * 2 ^ e) :
    SameValue (finite s a) (finite s b) ↔ units g.mantissa b = units f.mantissa a * 2 ^ e := by
  have hf := @unitsPerOne_pos f
  have he : (0 : ℚ) < 2 ^ e := by positivity
  have hval : (units f.mantissa a / f.unitsPerOne : ℚ) = units g.mantissa b / g.unitsPerOne ↔
      units g.mantissa b = units f.mantissa a * 2 ^ e := by
    rw [hone, Nat.cast_mul, Nat.cast_pow, Nat.cast_two, div_eq_div_iff hf.ne' (mul_pos hf he).ne',
      mul_left_comm, mul_comm (f.unitsPerOne : ℚ), mul_eq_mul_right_iff, or_iff_left hf.ne']
    norm_cast
    exact eq_comm
  unfold SameValue
  rw [← hval]
  cases s with
  | false => exact and_iff_right rfl
  | true => exact (and_iff_right rfl).trans neg_inj

/-- A sign and the bits below it. -/
theorem stored_split {s rest : ℕ} (hs : s ≤ 1) (hrest : rest < f.signBit) :
    (stored (s * f.signBit + rest) : Ieee f) = ofBits (decide (s = 1)) rest := by
  unfold stored
  rw [Nat.mul_add_mod_of_lt hrest]
  congr 2
  obtain rfl | rfl := Nat.le_one_iff_eq_zero_or_eq_one.mp hs
  · exact propext ⟨fun h => by omega, fun h => by cases h⟩
  · exact propext ⟨fun _ => rfl, fun _ => by omega⟩

theorem ofBits_of_lt {s : Bool} {b : ℕ} (h : b < f.magnitudes) : (ofBits s b : Ieee f) = finite s ⟨b, h⟩ := dif_pos h

theorem ofBits_infinite (s : Bool) : (ofBits s f.magnitudes : Ieee f) = infinite s := by
  unfold ofBits
  rw [dif_neg (Nat.lt_irrefl _), if_pos rfl]

theorem ofBits_of_gt {s : Bool} {b : ℕ} (h : f.magnitudes < b) : (ofBits s b : Ieee f) = nan := by
  unfold ofBits
  rw [dif_neg (Nat.lt_asymm h), if_neg (Nat.ne_of_gt h)]

/-- The units of bits without an exponent, or with the first. -/
theorem units_of_lt {m b : ℕ} (h : b < 2 ^ (m + 1)) : units m b = b := by
  have hdiv : b / 2 ^ m - 1 = 0 := by
    have : b / 2 ^ m < 2 := Nat.div_lt_of_lt_mul (by rwa [Nat.pow_succ] at h)
    omega
  unfold units
  rw [hdiv, Nat.zero_mul, Nat.sub_zero, Nat.pow_zero, Nat.mul_one]

end Ieee
