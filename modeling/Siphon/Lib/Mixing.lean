/-
# Invertible mixing of words

Words of `w` bits. A word is not lost when it is shifted to the right and
xored to itself (`Mixing.xorShift_injective`): the difference of two words
that become one would be its own shift. It is not lost either when it is
multiplied by a word with an inverse, and the multiples of such a word, added
to a word, go through all of them (`Mixing.existsUnique_weyl`).
-/
import Mathlib.Data.BitVec
import Mathlib.Data.Fintype.EquivFin
import Mathlib.Logic.ExistsUnique

namespace Mixing

variable {w : ℕ}

/-- A mixing that loses no word reaches every word. -/
theorem bijective_of_injective {g : BitVec w → BitVec w} (hg : Function.Injective g) : Function.Bijective g := by
  have hfinite : Finite (BitVec w) := Finite.of_injective BitVec.toFin BitVec.toFin_injective
  exact Finite.injective_iff_bijective.mp hg

/-- A word that is its own shift is zero. -/
theorem eq_zero_of_ushiftRight {x : BitVec w} {k : ℕ} (hk : 0 < k) (h : x = x >>> k) : x = 0#w := by
  have hdiv : x.toNat = x.toNat / 2 ^ k := by
    rw [← Nat.shiftRight_eq_div_pow, ← BitVec.toNat_ushiftRight, ← h]
  have hzero : x.toNat = 0 := by
    by_contra hx
    have hlt := Nat.div_lt_self (Nat.pos_of_ne_zero hx) (Nat.one_lt_two_pow hk.ne')
    omega
  apply BitVec.eq_of_toNat_eq
  simpa using hzero

theorem xorShift_injective {k : ℕ} (hk : 0 < k) : Function.Injective fun x : BitVec w => x ^^^ (x >>> k) := by
  intro x y h
  have hdiff : x ^^^ y = (x ^^^ y) >>> k := by
    rw [BitVec.ushiftRight_xor_distrib]
    calc x ^^^ y = x ^^^ y ^^^ (x ^^^ (x >>> k) ^^^ (x ^^^ (x >>> k))) := by simp
      _ = x ^^^ y ^^^ (x ^^^ (x >>> k) ^^^ (y ^^^ (y >>> k))) := by rw [show x ^^^ (x >>> k) = y ^^^ (y >>> k) from h]
      _ = (x ^^^ x) ^^^ (y ^^^ y) ^^^ ((x >>> k) ^^^ (y >>> k)) := by ac_rfl
      _ = (x >>> k) ^^^ (y >>> k) := by simp
  exact BitVec.xor_eq_zero_iff.mp (eq_zero_of_ushiftRight hk hdiff)

theorem mul_injective {a b : BitVec w} (h : a * b = 1#w) : Function.Injective fun x : BitVec w => x * a := by
  intro x y hxy
  calc x = x * a * b := by rw [BitVec.mul_assoc, h, BitVec.mul_one]
    _ = y * a * b := by rw [show x * a = y * a from hxy]
    _ = y := by rw [BitVec.mul_assoc, h, BitVec.mul_one]

/-- Three shifts with two factors between them. -/
theorem shiftMulShift_injective {a a' b b' : BitVec w} (ha : a * a' = 1#w) (hb : b * b' = 1#w) {i j k : ℕ}
    (hi : 0 < i) (hj : 0 < j) (hk : 0 < k) : Function.Injective fun x : BitVec w =>
      let y := (x ^^^ (x >>> i)) * a
      let z := (y ^^^ (y >>> j)) * b
      z ^^^ (z >>> k) :=
  (xorShift_injective hk).comp ((mul_injective hb).comp ((xorShift_injective hj).comp
    ((mul_injective ha).comp (xorShift_injective hi))))

/-- The multiples of a word that has an inverse reach every word once. -/
theorem existsUnique_weyl {a b : BitVec w} (h : a * b = 1#w) (s v : BitVec w) :
    ∃! n, n < 2 ^ w ∧ s + BitVec.ofNat w n * a = v := by
  refine ⟨((v - s) * b).toNat, ⟨BitVec.isLt _, ?_⟩, ?_⟩
  · have hba : b * a = 1#w := by rw [BitVec.mul_comm, h]
    rw [BitVec.ofNat_toNat, BitVec.setWidth_eq, BitVec.mul_assoc, hba, BitVec.mul_one, BitVec.add_comm,
      BitVec.sub_add_cancel]
  · rintro n ⟨hn, rfl⟩
    have hdiff : s + BitVec.ofNat w n * a - s = BitVec.ofNat w n * a := by
      rw [BitVec.add_comm, BitVec.add_sub_cancel]
    rw [hdiff, BitVec.mul_assoc, h, BitVec.mul_one, BitVec.toNat_ofNat, Nat.mod_eq_of_lt hn]

end Mixing
