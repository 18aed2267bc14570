/-
# Rounding to a multiple

Integer division rounded up, and rounding a size up or down to a multiple of
an alignment, over the natural numbers: the least multiple above
(`le_roundUp`, `roundUp_le_of_dvd`), how rounding moves with a shift by whole
multiples (`roundUp_add_of_dvd`), and the split of a number at the last
multiple below it (`roundDown_add_mod`).
-/
import Mathlib.Algebra.Order.Group.Nat
import Mathlib.Tactic.Ring

namespace Rounding

/-- `x / y`, rounded up. -/
def divCeil (x y : ℕ) : ℕ := (x + y - 1) / y

/-- The least multiple of `y` that is at least `x`. -/
def roundUp (x y : ℕ) : ℕ := divCeil x y * y

/-- The greatest multiple of `y` that is at most `x`. -/
def roundDown (x y : ℕ) : ℕ := x / y * y

theorem dvd_roundUp (x y : ℕ) : y ∣ roundUp x y := Dvd.intro_left _ rfl

theorem dvd_roundDown (x y : ℕ) : y ∣ roundDown x y := Dvd.intro_left _ rfl

theorem roundDown_add_mod (x y : ℕ) : roundDown x y + x % y = x := by
  rw [roundDown, Nat.mul_comm]
  exact Nat.div_add_mod x y

theorem roundDown_le (x y : ℕ) : roundDown x y ≤ x := Nat.div_mul_le_self x y

theorem roundDown_mono {a b y : ℕ} (h : a ≤ b) : roundDown a y ≤ roundDown b y :=
  Nat.mul_le_mul_right y (Nat.div_le_div_right h)

theorem roundDown_add_of_dvd {a y : ℕ} (hy : 0 < y) (h : y ∣ a) (x : ℕ) :
    roundDown (a + x) y = a + roundDown x y := by
  obtain ⟨k, rfl⟩ := h
  rw [roundDown, roundDown, Nat.mul_add_div hy]
  ring

/-- Two numbers with the same remainder are a multiple apart. -/
theorem add_le_of_mod_eq {y j k : ℕ} (hlt : j < k) (h : j % y = k % y) : j + y ≤ k := by
  have hd : y ∣ k - j := Nat.dvd_of_mod_eq_zero (Nat.sub_mod_eq_zero_of_mod_eq h.symm)
  have := Nat.le_of_dvd (by omega) hd
  omega

section Positive

variable {y : ℕ} (hy : 0 < y)
include hy

theorem le_roundUp (x : ℕ) : x ≤ roundUp x y := by
  have h := Nat.div_add_mod (x + y - 1) y
  have hm := Nat.mod_lt (x + y - 1) hy
  rw [roundUp, divCeil, Nat.mul_comm]
  omega

theorem roundUp_lt (x : ℕ) : roundUp x y < x + y := by
  have h := Nat.div_mul_le_self (x + y - 1) y
  rw [roundUp, divCeil]
  omega

theorem roundUp_le_of_dvd {x m : ℕ} (hm : y ∣ m) (hx : x ≤ m) : roundUp x y ≤ m := by
  obtain ⟨k, rfl⟩ := hm
  obtain ⟨j, hj⟩ := dvd_roundUp x y
  have hlt := roundUp_lt hy x
  rw [hj] at hlt ⊢
  have : j < k + 1 := by
    by_contra hc
    have hc' : y * (k + 1) ≤ y * j := Nat.mul_le_mul_left y (not_lt.mp hc)
    rw [Nat.mul_add, Nat.mul_one] at hc'
    omega
  exact Nat.mul_le_mul_left y (Nat.lt_succ_iff.mp this)

theorem roundUp_mono {a b : ℕ} (h : a ≤ b) : roundUp a y ≤ roundUp b y :=
  roundUp_le_of_dvd hy (dvd_roundUp b y) (h.trans (le_roundUp hy b))

theorem roundUp_of_dvd {m : ℕ} (h : y ∣ m) : roundUp m y = m :=
  le_antisymm (roundUp_le_of_dvd hy h le_rfl) (le_roundUp hy m)

theorem roundUp_zero : roundUp 0 y = 0 := roundUp_of_dvd hy (dvd_zero y)

theorem roundUp_add_of_dvd {a : ℕ} (h : y ∣ a) (x : ℕ) : roundUp (a + x) y = a + roundUp x y := by
  have hle := le_roundUp hy x
  have hle' := le_roundUp hy (a + x)
  apply le_antisymm
  · exact roundUp_le_of_dvd hy ((Nat.dvd_add_right h).mpr (dvd_roundUp x y)) (by omega)
  · obtain ⟨d, hd⟩ := Nat.exists_eq_add_of_le (show a ≤ roundUp (a + x) y by omega)
    have hdd : y ∣ d := (Nat.dvd_add_right h).mp (hd ▸ dvd_roundUp (a + x) y)
    have := roundUp_le_of_dvd hy hdd (show x ≤ d by omega)
    omega

end Positive

end Rounding
