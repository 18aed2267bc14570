/-
# Copying between memories

A memory is a function from addresses to values. `copy` is the effect of a
read, a `memcpy` or a DMA transfer of `n` values.
-/
import Mathlib.Data.Nat.Notation

namespace Memory

variable {β : Type}

/-- The memory `dst` after the `n` values from `i` on in `src` were copied to
`j`. -/
def copy (src : ℕ → β) (i : ℕ) (dst : ℕ → β) (j n : ℕ) : ℕ → β :=
  fun a => if j ≤ a ∧ a < j + n then src (i + (a - j)) else dst a

theorem copy_inside (src dst : ℕ → β) (i j : ℕ) {n k : ℕ} (h : k < n) :
    copy src i dst j n (j + k) = src (i + k) := by
  rw [copy, if_pos ⟨by omega, by omega⟩, Nat.add_sub_cancel_left]

end Memory
