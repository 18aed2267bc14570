/-
# Unsigned 64-bit arithmetic

The checked and saturating operations of a 64-bit unsigned integer, on
natural numbers: `none` or the greatest value where the exact result does not
fit, the exact result where it does.
-/
import Mathlib.Algebra.BigOperators.Group.List.Basic
import Mathlib.Algebra.Order.Group.Nat

namespace U64

/-- The greatest value. -/
def maxValue : ℕ := 2 ^ 64 - 1

def checkedAdd (a b : ℕ) : Option ℕ := if a + b ≤ maxValue then some (a + b) else none

def checkedSub (a b : ℕ) : Option ℕ := if b ≤ a then some (a - b) else none

def checkedMul (a b : ℕ) : Option ℕ := if a * b ≤ maxValue then some (a * b) else none

def wrappingMul (a b : ℕ) : ℕ := a * b % 2 ^ 64

def saturatingAdd (a b : ℕ) : ℕ := min (a + b) maxValue

def saturatingMul (a b : ℕ) : ℕ := min (a * b) maxValue

theorem checkedAdd_of_le {a b : ℕ} (h : a + b ≤ maxValue) : checkedAdd a b = some (a + b) := if_pos h

theorem checkedSub_of_le {a b : ℕ} (h : b ≤ a) : checkedSub a b = some (a - b) := if_pos h

theorem checkedMul_of_le {a b : ℕ} (h : a * b ≤ maxValue) : checkedMul a b = some (a * b) := if_pos h

theorem checkedAdd_eq_some {a b c : ℕ} (h : checkedAdd a b = some c) : c = a + b := by
  unfold checkedAdd at h
  split_ifs at h
  exact (Option.some.inj h).symm

theorem checkedMul_eq_some {a b c : ℕ} (h : checkedMul a b = some c) : c = a * b := by
  unfold checkedMul at h
  split_ifs at h
  exact (Option.some.inj h).symm

theorem wrappingMul_of_lt {a b : ℕ} (h : a * b < 2 ^ 64) : wrappingMul a b = a * b := Nat.mod_eq_of_lt h

/-- A product that fits is the only one that comes out exact. -/
theorem wrappingMul_eq_iff {a b : ℕ} : wrappingMul a b = a * b ↔ a * b < 2 ^ 64 :=
  ⟨fun h => h ▸ Nat.mod_lt _ (Nat.two_pow_pos 64), wrappingMul_of_lt⟩

/-- A product whose partial products all fit. -/
theorem foldlM_checkedMul : ∀ {ds : List ℕ} {a n : ℕ}, ds.foldlM checkedMul a = some n → n = a * ds.prod
  | [], a, n, h => by
    rw [List.prod_nil, Nat.mul_one]
    exact (Option.some.inj h).symm
  | d :: ds, a, n, h => by
    rw [List.foldlM_cons] at h
    obtain ⟨m, hm, hn⟩ := Option.bind_eq_some_iff.mp h
    rw [foldlM_checkedMul hn, checkedMul_eq_some hm, List.prod_cons, Nat.mul_assoc]

theorem saturatingAdd_of_le {a b : ℕ} (h : a + b ≤ maxValue) : saturatingAdd a b = a + b :=
  min_eq_left h

theorem saturatingMul_of_le {a b : ℕ} (h : a * b ≤ maxValue) : saturatingMul a b = a * b :=
  min_eq_left h

/-- A value is below a saturated sum exactly when it is below the sum. -/
theorem le_saturatingAdd_iff {a b c : ℕ} (h : c ≤ maxValue) : c ≤ saturatingAdd a b ↔ c ≤ a + b := by
  rw [saturatingAdd, le_min_iff]
  exact and_iff_left h

end U64
