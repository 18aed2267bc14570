/-
# Row-major buffers

A buffer of `n` rows of `dim` entries is one list. `row x dim r` is a row of
it and `rows n g` puts rows one after another; `scan` is the loop that carries
a state and writes one row in each round. A buffer that grows by whole
rows is an append, and its rows are those of the two parts
(`row_append_left`, `row_append_right`, `rows_add`); rows of rows are read
through `row_row`.
-/
import Mathlib.Algebra.Order.Group.Nat
import Mathlib.Data.List.Basic

namespace Rows

variable {α β γ σ : Type}

/-- Row `r` of a buffer with rows of `dim` entries. -/
def row (x : List α) (dim r : ℕ) : List α := (x.drop (r * dim)).take dim

/-- The rows `g 0`, ..., `g (n - 1)`. -/
def rows (n : ℕ) (g : ℕ → List α) : List α := (List.range n).flatMap g

/-- `n` rounds that carry a state and write one row each. -/
def scan (step : σ → ℕ → σ × List α) (s : σ) : ℕ → σ × List α
  | 0 => (s, [])
  | n + 1 => ((step (scan step s n).1 n).1, (scan step s n).2 ++ (step (scan step s n).1 n).2)

/-! ### Rows of a buffer -/

/-- Position `(r, i)` lies in a buffer of `n` rows of `k`. -/
theorem index_lt {n k r i : ℕ} (hr : r < n) (hi : i < k) : r * k + i < n * k := by
  calc r * k + i < r * k + k := Nat.add_lt_add_left hi _
    _ = (r + 1) * k := (Nat.succ_mul r k).symm
    _ ≤ n * k := Nat.mul_le_mul_right k hr

theorem index_div {r k i : ℕ} (hi : i < k) : (r * k + i) / k = r := by
  rw [Nat.mul_comm, Nat.mul_add_div (Nat.zero_lt_of_lt hi), Nat.div_eq_of_lt hi, Nat.add_zero]

theorem index_mod {r k i : ℕ} (hi : i < k) : (r * k + i) % k = i := by
  rw [Nat.mul_comm, Nat.mul_add_mod, Nat.mod_eq_of_lt hi]

theorem length_row {x : List α} {dim r : ℕ} (h : r * dim + dim ≤ x.length) : (row x dim r).length = dim := by
  unfold row
  rw [List.length_take, List.length_drop]
  omega

theorem length_row_of_lt {x : List α} {dim m r : ℕ} (hx : x.length = m * dim) (hr : r < m) :
    (row x dim r).length = dim := by
  apply length_row
  calc r * dim + dim = (r + 1) * dim := (Nat.succ_mul r dim).symm
    _ ≤ m * dim := Nat.mul_le_mul_right dim hr
    _ = x.length := hx.symm

theorem row_append_left {x y : List α} {dim m r : ℕ} (hx : x.length = m * dim) (hr : r < m) :
    row (x ++ y) dim r = row x dim r := by
  have hle : r * dim + dim ≤ x.length := by
    calc r * dim + dim = (r + 1) * dim := (Nat.succ_mul r dim).symm
      _ ≤ m * dim := Nat.mul_le_mul_right dim hr
      _ = x.length := hx.symm
  unfold row
  rw [List.drop_append_of_le_length (by omega), List.take_append_of_le_length]
  rw [List.length_drop]
  omega

theorem row_append_right {x y : List α} {dim m r : ℕ} (hx : x.length = m * dim) :
    row (x ++ y) dim (m + r) = row y dim r := by
  unfold row
  rw [Nat.add_mul, ← hx, ← List.drop_drop, List.drop_left]

/-- A row of a row. -/
theorem row_row {x : List α} {m k i j : ℕ} (hj : j < m) : row (row x (m * k) i) k j = row x k (i * m + j) := by
  have hle : k ≤ m * k - j * k := by
    have h1 : (j + 1) * k ≤ m * k := Nat.mul_le_mul_right k hj
    rw [Nat.succ_mul] at h1
    omega
  unfold row
  rw [List.drop_take, List.drop_drop, List.take_take, Nat.min_eq_left hle, Nat.add_mul, Nat.mul_assoc]

theorem row_self {x : List α} {dim : ℕ} (h : x.length = dim) : row x dim 0 = x := by
  unfold row
  rw [Nat.zero_mul, List.drop_zero, List.take_of_length_le (by omega)]

theorem row_zero (x : List α) (r : ℕ) : row x 0 r = [] := by
  unfold row
  rw [List.take_zero]

theorem getD_row {x : List α} {dim r i : ℕ} (z : α) (h : i < dim) : (row x dim r).getD i z = x.getD (r * dim + i) z := by
  unfold row
  rw [List.getD_eq_getElem?_getD, List.getD_eq_getElem?_getD, List.getElem?_take_of_lt h, List.getElem?_drop]

/-! ### Buffers of rows -/

theorem rows_one (g : ℕ → List α) : rows 1 g = g 0 := by simp [rows]

theorem rows_congr {n : ℕ} {g g' : ℕ → List α} (h : ∀ r < n, g r = g' r) : rows n g = rows n g' := by
  unfold rows
  rw [List.flatMap_def, List.flatMap_def, List.map_congr_left fun r hr => h r (List.mem_range.mp hr)]

theorem rows_add (m n : ℕ) (g : ℕ → List α) : rows (m + n) g = rows m g ++ rows n fun r => g (m + r) := by
  unfold rows
  rw [List.range_add, List.flatMap_append, List.flatMap_map]

/-- A buffer whose rows come from two parts. -/
theorem rows_append {m n : ℕ} {g g1 g2 : ℕ → List α} (h1 : ∀ r < m, g r = g1 r) (h2 : ∀ r < n, g (m + r) = g2 r) :
    rows (m + n) g = rows m g1 ++ rows n g2 := by
  rw [rows_add, rows_congr h1, rows_congr h2]

theorem length_rows {n k : ℕ} {g : ℕ → List α} (h : ∀ r < n, (g r).length = k) : (rows n g).length = n * k := by
  induction n with
  | zero => rw [Nat.zero_mul]; rfl
  | succ n ih =>
    rw [rows_add, List.length_append, ih fun r hr => h r (by omega), Nat.succ_mul]
    congr 1
    rw [← h n (Nat.lt_succ_self n)]
    simp [rows]

/-- The rows that were put together are the rows of the buffer. -/
theorem row_rows {n k r : ℕ} {g : ℕ → List α} (h : ∀ i < n, (g i).length = k) (hr : r < n) :
    row (rows n g) k r = g r := by
  obtain ⟨m, rfl⟩ : ∃ m, n = r + (1 + m) := ⟨n - r - 1, by omega⟩
  have hlen : (rows r g).length = r * k := length_rows fun i hi => h i (by omega)
  have hone : (g r).length = 1 * k := by rw [Nat.one_mul]; exact h r (by omega)
  have hfirst : (rows 1 fun i => g (r + i)) = g r := by simp [rows]
  calc row (rows (r + (1 + m)) g) k r = row (rows r g ++ rows (1 + m) fun i => g (r + i)) k (r + 0) := by
        rw [rows_add, Nat.add_zero]
    _ = row (rows (1 + m) fun i => g (r + i)) k 0 := row_append_right hlen
    _ = row (g r) k 0 := by rw [rows_add, hfirst, row_append_left hone Nat.one_pos]
    _ = g r := row_self (by omega)

/-- A buffer of blocks of `m` rows each, read row by row. -/
theorem row_blocks {n m k i j : ℕ} {g : ℕ → List α} (h : ∀ i < n, (g i).length = m * k) (hi : i < n) (hj : j < m) :
    row (rows n g) k (i * m + j) = row (g i) k j := by
  rw [← row_row hj, row_rows h hi]

/-- An entry of a buffer of rows. -/
theorem getD_rows {n k r i : ℕ} {g : ℕ → List α} (z : α) (h : ∀ i < n, (g i).length = k) (hr : r < n) (hi : i < k) :
    (rows n g).getD (r * k + i) z = (g r).getD i z := by
  rw [← getD_row z hi, row_rows h hr]

theorem row_rows_rows {n m k i j : ℕ} {g : ℕ → ℕ → List α} (h : ∀ i < n, ∀ j < m, (g i j).length = k) (hi : i < n)
    (hj : j < m) : row (rows n fun i => rows m (g i)) k (i * m + j) = g i j := by
  rw [← row_row hj, row_rows (fun i hi => length_rows (h i hi)) hi, row_rows (h i hi) hj]

theorem row_replicate {n k r : ℕ} (z : α) (hr : r < n) : row (List.replicate (n * k) z) k r = List.replicate k z := by
  have hle : r * k + k ≤ n * k := by
    calc r * k + k = (r + 1) * k := (Nat.succ_mul r k).symm
      _ ≤ n * k := Nat.mul_le_mul_right k hr
  unfold row
  rw [List.drop_replicate, List.take_replicate, Nat.min_eq_left (by omega)]

/-! ### Rounds -/

/-- Rounds in two parts: the second goes on from the state of the first. -/
theorem scan_add (step : σ → ℕ → σ × List α) (s : σ) (m n : ℕ) :
    scan step s (m + n) =
      ((scan (fun st i => step st (m + i)) (scan step s m).1 n).1,
        (scan step s m).2 ++ (scan (fun st i => step st (m + i)) (scan step s m).1 n).2) := by
  induction n with
  | zero => simp only [Nat.add_zero, scan, List.append_nil]
  | succ n ih =>
    rw [← Nat.add_assoc]
    simp only [scan, ih, List.append_assoc]

theorem scan_congr {step step' : σ → ℕ → σ × List α} {s : σ} {n : ℕ} (h : ∀ i < n, ∀ st, step st i = step' st i) :
    scan step s n = scan step' s n := by
  induction n with
  | zero => rfl
  | succ n ih => simp only [scan, ih fun i hi => h i (by omega), h n (Nat.lt_succ_self n)]

theorem length_scan {step : σ → ℕ → σ × List α} {k : ℕ} (h : ∀ st i, (step st i).2.length = k) (s : σ) (n : ℕ) :
    (scan step s n).2.length = n * k := by
  induction n with
  | zero => rw [Nat.zero_mul]; rfl
  | succ n ih =>
    simp only [scan, List.length_append, ih, h]
    rw [Nat.succ_mul]

/-- Rounds whose rows do not depend on the state they carry. -/
theorem scan_rows {step : σ → ℕ → σ × List α} {g : ℕ → List α} {n : ℕ} (h : ∀ i < n, ∀ st, (step st i).2 = g i) (s : σ) :
    (scan step s n).2 = rows n g := by
  induction n with
  | zero => rfl
  | succ n ih =>
    calc (scan step s (n + 1)).2 = (scan step s n).2 ++ (step (scan step s n).1 n).2 := rfl
      _ = rows n g ++ g n := by rw [ih fun i hi => h i (Nat.lt_succ_of_lt hi), h n (Nat.lt_succ_self n)]
      _ = rows (n + 1) g := by rw [rows_add, rows_one, Nat.add_zero]

/-- What every round keeps holds of the last state. -/
theorem scan_state {step : σ → ℕ → σ × List α} {P : σ → Prop} (h : ∀ st i, P (step st i).1) {s : σ} (hs : P s) :
    ∀ n, P (scan step s n).1
  | 0 => hs
  | _ + 1 => h _ _

/-! ### Row by row -/

/-- A function of each row. -/
def mapRows (f : List α → List β) (dim n : ℕ) (x : List α) : List β := rows n fun r => f (row x dim r)

/-- A function of the rows of two buffers. -/
def zipRows (f : List α → List β → List γ) (dim dim' n : ℕ) (x : List α) (y : List β) : List γ :=
  rows n fun r => f (row x dim r) (row y dim' r)

theorem length_mapRows {f : List α → List β} {dim n k : ℕ} (x : List α) (h : ∀ v, (f v).length = k) :
    (mapRows f dim n x).length = n * k := length_rows fun _ _ => h _

theorem length_zipRows {f : List α → List β → List γ} {dim dim' n k : ℕ} (x : List α) (y : List β)
    (h : ∀ v w, (f v w).length = k) : (zipRows f dim dim' n x y).length = n * k := length_rows fun _ _ => h _ _

theorem length_mapRows_of_length {f : List α → List β} {dim n k : ℕ} {x : List α} (hx : x.length = n * dim)
    (h : ∀ v, v.length = dim → (f v).length = k) : (mapRows f dim n x).length = n * k :=
  length_rows fun _ hr => h _ (length_row_of_lt hx hr)

theorem mapRows_append {f : List α → List β} {dim m n : ℕ} {x y : List α} (hx : x.length = m * dim) :
    mapRows f dim (m + n) (x ++ y) = mapRows f dim m x ++ mapRows f dim n y := by
  apply rows_append
  · intro r hr
    rw [row_append_left hx hr]
  · intro r _
    rw [row_append_right hx]

theorem zipRows_append {f : List α → List β → List γ} {dim dim' m n : ℕ} {x y : List α} {z w : List β}
    (hx : x.length = m * dim) (hz : z.length = m * dim') :
    zipRows f dim dim' (m + n) (x ++ y) (z ++ w) = zipRows f dim dim' m x z ++ zipRows f dim dim' n y w := by
  apply rows_append
  · intro r hr
    rw [row_append_left hx hr, row_append_left hz hr]
  · intro r _
    rw [row_append_right hx, row_append_right hz]

/-! ### Batches

A batch is a buffer of blocks, one for each of its sequences. Row by row it is the rows of the blocks, block after
block. -/

theorem rows_mul (m n : ℕ) (g : ℕ → List α) : rows (m * n) g = rows m fun i => rows n fun j => g (i * n + j) := by
  induction m with
  | zero => rw [Nat.zero_mul]; rfl
  | succ m ih =>
    calc rows ((m + 1) * n) g = rows (m * n) g ++ rows n fun j => g (m * n + j) := by rw [Nat.succ_mul, rows_add]
      _ = rows (m + 1) fun i => rows n fun j => g (i * n + j) := by rw [ih, rows_add m 1, rows_one, Nat.add_zero]

/-- A buffer is its blocks, one after another. -/
theorem rows_row {n k : ℕ} {x : List α} (hx : x.length = n * k) : rows n (row x k) = x := by
  induction n generalizing x with
  | zero =>
    rw [Nat.zero_mul] at hx
    exact (List.length_eq_zero_iff.mp hx).symm
  | succ n ih =>
    have htake : (x.take (n * k)).length = n * k := by
      rw [List.length_take, hx, Nat.min_eq_left (Nat.mul_le_mul_right k (Nat.le_succ n))]
    have hdrop : (x.drop (n * k)).length = k := by
      rw [List.length_drop, hx, Nat.succ_mul, Nat.add_sub_cancel_left]
    have hrow : ∀ i < n, row x k i = row (x.take (n * k)) k i := fun i hi => by
      rw [← row_append_left (y := x.drop (n * k)) htake hi, List.take_append_drop]
    calc rows (n + 1) (row x k) = rows n (row (x.take (n * k)) k) ++ row x k n := by
          rw [rows_add, rows_one, Nat.add_zero, rows_congr hrow]
      _ = x.take (n * k) ++ x.drop (n * k) := by
          rw [ih htake]
          unfold row
          rw [List.take_of_length_le hdrop.le]
      _ = x := List.take_append_drop _ _

theorem rows_replicate (n k : ℕ) (z : α) : (rows n fun _ => List.replicate k z) = List.replicate (n * k) z := by
  calc (rows n fun _ => List.replicate k z) = rows n (row (List.replicate (n * k) z) k) :=
        rows_congr fun _ hi => (row_replicate z hi).symm
    _ = List.replicate (n * k) z := rows_row List.length_replicate

theorem map_rows (f : α → β) (n : ℕ) (g : ℕ → List α) : (rows n g).map f = rows n fun i => (g i).map f := by
  unfold rows
  rw [List.map_flatMap]

section Batch

variable {b t dim dim' k : ℕ} {xs : ℕ → List α}

theorem mapRows_rows {f : List α → List β} (hx : ∀ i < b, (xs i).length = t * dim) :
    mapRows f dim (b * t) (rows b xs) = rows b fun i => mapRows f dim t (xs i) := by
  unfold mapRows
  rw [rows_mul]
  refine rows_congr fun i hi => rows_congr fun j hj => ?_
  rw [row_blocks hx hi hj]

theorem zipRows_rows {f : List α → List β → List γ} {ys : ℕ → List β} (hx : ∀ i < b, (xs i).length = t * dim)
    (hy : ∀ i < b, (ys i).length = t * dim') :
    zipRows f dim dim' (b * t) (rows b xs) (rows b ys) = rows b fun i => zipRows f dim dim' t (xs i) (ys i) := by
  unfold zipRows
  rw [rows_mul]
  refine rows_congr fun i hi => rows_congr fun j hj => ?_
  rw [row_blocks hx hi hj, row_blocks hy hi hj]

theorem zipWith_rows (f : α → β → γ) {ys : ℕ → List β} : ∀ {b : ℕ}, (∀ i < b, (xs i).length = k) →
    (∀ i < b, (ys i).length = k) → (rows b xs).zipWith f (rows b ys) = rows b fun i => (xs i).zipWith f (ys i)
  | 0, _, _ => rfl
  | b + 1, hx, hy => by
    have hx' : ∀ i < b, (xs i).length = k := fun i hi => hx i (Nat.lt_succ_of_lt hi)
    have hy' : ∀ i < b, (ys i).length = k := fun i hi => hy i (Nat.lt_succ_of_lt hi)
    rw [rows_add b 1 xs, rows_add b 1 ys, List.zipWith_append ((length_rows hx').trans (length_rows hy').symm),
      zipWith_rows f hx' hy', rows_add b 1, rows_one, rows_one, rows_one]

end Batch

end Rows
