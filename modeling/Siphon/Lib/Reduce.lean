/-
# Reductions in parts

A sum that many threads compute is cut into parts: into chunks of consecutive
terms (`sum_chunks`, `sum_blocks`), over accumulators that take turns
(`sum_turns`), or over lanes that exchange their partial sums in a butterfly
(`butterfly_eq`). In a commutative monoid each of them is the plain sum.
-/
import Mathlib.Algebra.BigOperators.Intervals
import Mathlib.Tactic.Abel

namespace Reduce

open Finset

variable {α : Type} [AddCommMonoid α]

/-- Chunks of `c` terms up to `n`, the last of them cut short or empty. -/
theorem sum_chunks_min (f : ℕ → α) (c n : ℕ) : ∀ s : ℕ,
    ∑ i ∈ range s, ∑ k ∈ Ico (i * c) (min (i * c + c) n), f k = ∑ k ∈ range (min (s * c) n), f k
  | 0 => by rw [Nat.zero_mul, Nat.zero_min, sum_range_zero, sum_range_zero]
  | s + 1 => by
    rw [sum_range_succ, sum_chunks_min f c n s, Nat.succ_mul]
    rcases Nat.le_total (s * c) n with h | h
    · rw [Nat.min_eq_left h]
      exact sum_range_add_sum_Ico f (by omega)
    · rw [Nat.min_eq_right h, Nat.min_eq_right (by omega), Ico_eq_empty (by omega), sum_empty, add_zero]

/-- Enough chunks are the whole sum. -/
theorem sum_chunks (f : ℕ → α) {c n s : ℕ} (h : n ≤ s * c) :
    ∑ i ∈ range s, ∑ k ∈ Ico (i * c) (min (i * c + c) n), f k = ∑ k ∈ range n, f k := by
  rw [sum_chunks_min, Nat.min_eq_right h]

/-- A loop over blocks of `c` terms. -/
theorem sum_blocks (f : ℕ → α) (a c : ℕ) : ∀ m : ℕ,
    ∑ j ∈ range m, ∑ i ∈ range c, f (a + j * c + i) = ∑ k ∈ Ico a (a + m * c), f k
  | 0 => by rw [Nat.zero_mul, Nat.add_zero, Ico_self, sum_range_zero, sum_empty]
  | m + 1 => by
    rw [sum_range_succ, sum_blocks f a c m, Nat.succ_mul, ← Nat.add_assoc,
      ← sum_Ico_consecutive f (Nat.le_add_right a (m * c)) (Nat.le_add_right (a + m * c) c), sum_Ico_eq_sum_range f]
    congr 1
    rw [sum_Ico_eq_sum_range, Nat.add_sub_cancel_left]

/-- Four accumulators take turns, and the first takes what is left over. -/
theorem sum_turns (f : ℕ → α) (n : ℕ) :
    (∑ j ∈ range (n / 4), f (4 * j) + ∑ i ∈ Ico (4 * (n / 4)) n, f i + ∑ j ∈ range (n / 4), f (4 * j + 1)) +
      (∑ j ∈ range (n / 4), f (4 * j + 2) + ∑ j ∈ range (n / 4), f (4 * j + 3)) = ∑ i ∈ range n, f i := by
  have hturn : ∀ m, ∑ j ∈ range m, f (4 * j) + ∑ j ∈ range m, f (4 * j + 1) +
      (∑ j ∈ range m, f (4 * j + 2) + ∑ j ∈ range m, f (4 * j + 3)) = ∑ i ∈ range (4 * m), f i := by
    intro m
    induction m with
    | zero => simp
    | succ m ih =>
      rw [Nat.mul_succ, sum_range_succ _ (4 * m + 3), sum_range_succ _ (4 * m + 2), sum_range_succ _ (4 * m + 1),
        sum_range_succ _ (4 * m), ← ih]
      simp only [sum_range_succ]
      abel
  rw [← sum_range_add_sum_Ico f (Nat.mul_div_le n 4), ← hturn (n / 4)]
  abel

/-! ### Butterflies -/

/-- Each lane adds what the lane across holds (`__shfl_xor_sync`). -/
def exchange (f : ℕ → α) (mask lane : ℕ) : α := f lane + f (lane ^^^ mask)

/-- Two exchanges give each of four lanes the sum of all. -/
theorem butterfly_eq (f : ℕ → α) {lane : ℕ} (h : lane < 4) :
    exchange (exchange f 1) 2 lane = ∑ i ∈ range 4, f i := by
  have h4 : ∑ i ∈ range 4, f i = f 0 + f 1 + f 2 + f 3 := by
    rw [sum_range_succ, sum_range_succ, sum_range_succ, sum_range_one]
  rw [h4]
  unfold exchange
  match lane, h with
  | 0, _ => show f 0 + f 1 + (f 2 + f 3) = _; abel
  | 1, _ => show f 1 + f 0 + (f 3 + f 2) = _; abel
  | 2, _ => show f 2 + f 3 + (f 0 + f 1) = _; abel
  | 3, _ => show f 3 + f 2 + (f 1 + f 0) = _; abel

end Reduce
