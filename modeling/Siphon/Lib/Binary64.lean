/-
# Binary floating point of 64 bits

A number of the format by its sign and the 63 bits below it, which count the
magnitudes in increasing order; the nearest one to a rational number, with
ties to the even one; and decimal numbers, an integer times a power of ten.
-/
import Mathlib.Algebra.Field.Rat
import Mathlib.Algebra.Order.Ring.Rat
import Mathlib.Tactic.NormNum
import Mathlib.Tactic.Ring

namespace Binary64

/-- How many finite magnitudes there are: the bits of infinity. -/
def magnitudes : ℕ := 2047 * 2 ^ 52

end Binary64

open Binary64 in
/-- A number of the format. -/
inductive Binary64 where
  | finite (neg : Bool) (bits : Fin magnitudes)
  | infinite (neg : Bool)
  | nan
  deriving DecidableEq

namespace Binary64

/-- The integer nearest to `n / d`, the even one of two. -/
def roundHalfEven (n d : ℕ) : ℕ :=
  if 2 * (n % d) < d ∨ (2 * (n % d) = d ∧ n / d % 2 = 0) then n / d else n / d + 1

/-- The exponent of the greatest power of two that is at most `n / d`. -/
def binade (n d : ℕ) : ℤ :=
  let l : ℤ := n.log2 - d.log2
  if d * 2 ^ l.toNat ≤ n * 2 ^ (-l).toNat then l else l - 1

/-- The bits of the magnitude nearest to `n / d`, without a bound. `k` counts
the binades above the least normal one; in it one unit of the last place is
`2 ^ (k - 1074)`. -/
def nearestBits (n d : ℕ) : ℕ :=
  if n = 0 then 0
  else
    let k := (binade n d + 1022).toNat
    k * 2 ^ 52 + roundHalfEven (n * 2 ^ (1074 - k)) (d * 2 ^ (k - 1074))

/-- The number nearest to a magnitude, with a sign. -/
def nearest (neg : Bool) (q : ℚ) : Binary64 :=
  if h : nearestBits q.num.natAbs q.den < magnitudes then finite neg ⟨_, h⟩ else infinite neg

/-- Whether a number is finite. -/
def isFinite : Binary64 → Bool
  | finite _ _ => true
  | _ => false

/-- `m` times ten to the `e`. -/
def decimal (m : ℕ) (e : ℤ) : ℚ :=
  if 0 ≤ e then ((m * 10 ^ e.toNat : ℕ) : ℚ) else mkRat m (10 ^ (-e).toNat)

theorem decimal_eq (m : ℕ) (e : ℤ) : decimal m e = m * (10 : ℚ) ^ e := by
  unfold decimal
  by_cases he : 0 ≤ e
  · rw [if_pos he]
    obtain ⟨n, rfl⟩ := Int.eq_ofNat_of_zero_le he
    simp
  · rw [if_neg he]
    obtain ⟨n, rfl⟩ : ∃ n : ℕ, e = -(n : ℤ) := ⟨(-e).toNat, by omega⟩
    rw [Rat.mkRat_eq_div, zpow_neg]
    simp [div_eq_mul_inv]

/-- Zeros behind the digits move the exponent. -/
theorem decimal_mul_pow (m k : ℕ) (e : ℤ) : decimal (m * 10 ^ k) e = decimal m (e + k) := by
  rw [decimal_eq, decimal_eq, zpow_add₀ (by norm_num)]
  push_cast
  rw [zpow_natCast]
  ring

end Binary64
