/-
# Cutting a range into pieces

The range `[0, n)` cut from the left into pieces of `w` bytes, the last one
shorter or as long: (offset, length) pairs. `fullPieces` are the pieces a
loop has cut so far; `fullCount_eq` says how many there are when what is left
fits one piece.
-/
import Mathlib.Algebra.Order.Group.Nat
import Mathlib.Data.List.Basic

namespace Pieces

/-- The pieces of length `w` before the last piece of `n` bytes. -/
def fullCount (w n : ℕ) : ℕ := (n - 1) / w

/-- The first `j` pieces of length `w`. -/
def fullPieces (w j : ℕ) : List (ℕ × ℕ) := (List.range j).map fun i => (i * w, w)

/-- The pieces of `[0, n)`. -/
def pieces (w n : ℕ) : List (ℕ × ℕ) :=
  if n = 0 then []
  else fullPieces w (fullCount w n) ++ [(fullCount w n * w, n - fullCount w n * w)]

theorem fullPieces_succ (w j : ℕ) : fullPieces w (j + 1) = fullPieces w j ++ [(j * w, w)] := by
  simp [fullPieces, List.range_succ]

theorem mem_fullPieces {w j : ℕ} {p : ℕ × ℕ} (h : p ∈ fullPieces w j) :
    p.2 = w ∧ ∃ i < j, p.1 = i * w := by
  obtain ⟨i, hi, rfl⟩ := List.mem_map.mp h
  exact ⟨rfl, i, List.mem_range.mp hi, rfl⟩

theorem pieces_zero (w : ℕ) : pieces w 0 = [] := rfl

theorem pieces_pos {w n : ℕ} (h : 0 < n) : pieces w n =
    fullPieces w (fullCount w n) ++ [(fullCount w n * w, n - fullCount w n * w)] :=
  if_neg (by omega)

theorem fullCount_mul_lt {w n : ℕ} (h : 0 < n) : fullCount w n * w < n := by
  have := Nat.div_mul_le_self (n - 1) w
  unfold fullCount
  omega

/-- The first pieces are the numbers in front of the next one. -/
theorem flatMap_fullPieces (w : ℕ) : ∀ j, (fullPieces w j).flatMap (fun p => List.range' p.1 p.2) = List.range (j * w)
  | 0 => by
    rw [Nat.zero_mul]
    rfl
  | j + 1 => by
    rw [fullPieces_succ, List.flatMap_append, flatMap_fullPieces w j, List.flatMap_singleton, Nat.succ_mul,
      List.range_eq_range', List.range_eq_range', ← List.range'_append_1, Nat.zero_add]

/-- The pieces are the numbers below `n`, in order. -/
theorem flatMap_pieces (w n : ℕ) : (pieces w n).flatMap (fun p => List.range' p.1 p.2) = List.range n := by
  rcases Nat.eq_zero_or_pos n with rfl | hn
  · rfl
  · have hlt := fullCount_mul_lt (w := w) hn
    have hsum : fullCount w n * w + (n - fullCount w n * w) = n := by omega
    rw [pieces_pos hn, List.flatMap_append, flatMap_fullPieces, List.flatMap_singleton, List.range_eq_range',
      List.range_eq_range']
    calc List.range' 0 (fullCount w n * w) ++ List.range' (fullCount w n * w) (n - fullCount w n * w)
        = List.range' 0 (fullCount w n * w + (n - fullCount w n * w)) := by
          rw [← List.range'_append_1, Nat.zero_add]
      _ = List.range' 0 n := by rw [hsum]

section Positive

variable {w : ℕ} (hw : 0 < w)
include hw

/-- A loop that cuts a piece while more than `w` is left has cut `j` pieces
when it stops. -/
theorem fullCount_eq {n j : ℕ} (hlt : j = 0 ∨ j * w < n) (hle : n ≤ (j + 1) * w) :
    fullCount w n = j := by
  rw [Nat.add_mul, Nat.one_mul] at hle
  refine Nat.div_eq_of_lt_le ?_ ?_
  · rcases hlt with rfl | hlt
    · rw [Nat.zero_mul]; exact Nat.zero_le _
    · omega
  · rw [Nat.add_mul, Nat.one_mul]
    omega

theorem le_fullCount_mul_add (n : ℕ) : n ≤ fullCount w n * w + w := by
  have h := Nat.div_add_mod (n - 1) w
  have hm := Nat.mod_lt (n - 1) hw
  rw [Nat.mul_comm] at h
  unfold fullCount
  omega

/-- Every piece is non-empty, at most `w` long, inside the range, and starts
at a multiple of `w`. -/
theorem mem_pieces {n : ℕ} {p : ℕ × ℕ} (h : p ∈ pieces w n) :
    0 < p.2 ∧ p.2 ≤ w ∧ p.1 + p.2 ≤ n ∧ w ∣ p.1 := by
  rcases Nat.eq_zero_or_pos n with rfl | hn
  · cases h
  have h1 := fullCount_mul_lt (w := w) hn
  have h2 := le_fullCount_mul_add hw n
  rw [pieces_pos hn, List.mem_append, List.mem_singleton] at h
  rcases h with h | rfl
  · obtain ⟨e, i, hi, e1⟩ := mem_fullPieces h
    have hle : (i + 1) * w ≤ fullCount w n * w := Nat.mul_le_mul_right w hi
    rw [Nat.add_mul, Nat.one_mul] at hle
    exact ⟨by omega, by omega, by omega, e1 ▸ Nat.dvd_mul_left _ _⟩
  · exact ⟨by simp only; omega, by simp only; omega, by simp only; omega, Nat.dvd_mul_left _ _⟩

end Positive

end Pieces
