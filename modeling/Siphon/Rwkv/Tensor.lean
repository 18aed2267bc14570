/-
# Rows of numbers

The forward pass of `rwkv7_engine` over exact arithmetic: the numbers are a
field with an order, `exp`, `tanh` and `sqrt` are any functions. A row of a
tensor is a list, a tensor `[B, T, C]` the list of its `B * T` rows, and a
matrix one row-major list.
-/
import Mathlib.Algebra.BigOperators.Group.Finset.Basic
import Mathlib.Algebra.Order.Field.Basic

namespace Siphon
namespace Rwkv

open Finset

/-- The functions that stay opaque. -/
structure Functions (F : Type) where
  exp : F → F
  tanh : F → F
  sqrt : F → F

section Entry

variable {F : Type}

/-- The buffer of `n` entries. -/
def tab (n : ℕ) (f : ℕ → F) : List F := (List.range n).map f

@[simp]
theorem length_tab (n : ℕ) (f : ℕ → F) : (tab n f).length = n := by
  unfold tab
  rw [List.length_map, List.length_range]

theorem tab_congr {n : ℕ} {f g : ℕ → F} (h : ∀ i < n, f i = g i) : tab n f = tab n g :=
  List.map_congr_left fun i hi => h i (List.mem_range.mp hi)

/-- The rows of a tensor in memory. -/
theorem getElem?_flatten {C i : ℕ} (hi : i < C) : ∀ {l : List (List F)} (t : ℕ), (∀ x ∈ l, x.length = C) →
    l.flatten[t * C + i]? = l[t]?.bind fun x => x[i]?
  | [], t, _ => by simp
  | x :: l, 0, h => by
    have hx : x.length = C := h x List.mem_cons_self
    rw [List.flatten_cons, Nat.zero_mul, Nat.zero_add, List.getElem?_append_left (by omega)]
    rfl
  | x :: l, t + 1, h => by
    have hx : x.length = C := h x List.mem_cons_self
    rw [List.flatten_cons, Nat.succ_mul, List.getElem?_append_right (by omega), List.getElem?_cons_succ,
      ← getElem?_flatten hi t fun y hy => h y (List.mem_cons_of_mem x hy)]
    congr 1
    omega

theorem length_flatten_rows {C : ℕ} {l : List (List F)} (h : ∀ x ∈ l, x.length = C) :
    l.flatten.length = l.length * C := by
  rw [List.length_flatten, List.map_congr_left h, List.map_const', List.sum_replicate]
  rfl

/-- Reading a buffer row by row. -/
theorem rows_flatten {C : ℕ} : ∀ {l : List (List F)}, (∀ x ∈ l, x.length = C) →
    (List.range l.length).map (fun t => (l.flatten.drop (t * C)).take C) = l
  | [], _ => rfl
  | x :: l, h => by
    have hx : x.length = C := h x List.mem_cons_self
    rw [List.length_cons, List.range_succ_eq_map, List.map_cons, List.map_map, List.flatten_cons, Nat.zero_mul,
      List.drop_zero, List.take_left' hx]
    congr 1
    conv_rhs => rw [← rows_flatten fun y hy => h y (List.mem_cons_of_mem x hy)]
    refine List.map_congr_left fun t _ => ?_
    rw [Function.comp_apply, Nat.succ_mul, Nat.add_comm, ← hx, ← List.drop_drop, List.drop_left]

variable [Zero F]

/-- An entry of a buffer. -/
def entry (x : List F) (i : ℕ) : F := x.getD i 0

theorem entry_tab (f : ℕ → F) {n i : ℕ} (h : i < n) : entry (tab n f) i = f i := by
  unfold entry tab
  rw [List.getD_eq_getElem?_getD, List.getElem?_map, List.getElem?_range h]
  rfl

theorem getElem?_entry {x : List F} {i : ℕ} (h : i < x.length) : x[i]? = some (entry x i) := by
  unfold entry
  rw [List.getD_eq_getElem?_getD, List.getElem?_eq_getElem h, Option.getD_some]

/-- Column `c` of the rows. -/
theorem entry_flatten {C c t : ℕ} {l : List (List F)} (hl : ∀ x ∈ l, x.length = C) (hc : c < C) :
    entry l.flatten (t * C + c) = entry (l.map fun x => entry x c) t := by
  unfold entry
  rw [List.getD_eq_getElem?_getD, List.getD_eq_getElem?_getD, getElem?_flatten hc t hl, List.getElem?_map]
  cases ht : l[t]? with
  | none => rfl
  | some x => rw [Option.bind_some, Option.map_some, Option.getD_some, List.getD_eq_getElem?_getD]

/-- A buffer is known by its entries. -/
theorem tab_entry {x : List F} {n : ℕ} (h : x.length = n) : tab n (entry x) = x := by
  apply List.ext_getElem?
  intro i
  by_cases hi : i < n
  · rw [getElem?_entry (by rw [length_tab]; exact hi), entry_tab _ hi, getElem?_entry (h ▸ hi)]
  · rw [List.getElem?_eq_none (by rw [length_tab]; omega), List.getElem?_eq_none (by omega)]

theorem eq_of_entry {x y : List F} {n : ℕ} (hx : x.length = n) (hy : y.length = n)
    (h : ∀ i < n, entry x i = entry y i) : x = y := by
  rw [← tab_entry hx, ← tab_entry hy, tab_congr h]

/-- An operation on the `n` entries of a row, and of two rows. -/
def vmap (n : ℕ) (f : F → F) (x : List F) : List F := tab n fun i => f (entry x i)

def vzip (n : ℕ) (f : F → F → F) (x y : List F) : List F := tab n fun i => f (entry x i) (entry y i)

@[simp]
theorem length_vmap (n : ℕ) (f : F → F) (x : List F) : (vmap n f x).length = n := length_tab _ _

@[simp]
theorem length_vzip (n : ℕ) (f : F → F → F) (x y : List F) : (vzip n f x y).length = n := length_tab _ _

end Entry

variable {F : Type} [Field F] [LinearOrder F] (fn : Functions F)

/-- `torch.sigmoid` -/
def sigmoid (x : F) : F := 1 / (1 + fn.exp (-x))

/-- `sqrelu` -/
def sqrelu (x : F) : F := x * max x 0

/-- A row of `x @ W`, for `W` `[K, N]`. -/
def vecMat (W : List F) (K N : ℕ) (x : List F) : List F :=
  tab N fun n => ∑ k ∈ range K, entry x k * entry W (k * N + n)

/-- A row of `F.layer_norm`. -/
def layerNorm (C : ℕ) (w b : List F) (eps : F) (x : List F) : List F :=
  let mean := (∑ i ∈ range C, entry x i) / C
  let var := (∑ i ∈ range C, (entry x i - mean) * (entry x i - mean)) / C
  tab C fun i => (entry x i - mean) * (1 / fn.sqrt (var + eps)) * entry w i + entry b i

/-- A row of `F.group_norm` with `H` groups of `D`. -/
def groupNorm (H D : ℕ) (w b : List F) (eps : F) (x : List F) : List F :=
  tab (H * D) fun i =>
    let mean := (∑ d ∈ range D, entry x (i / D * D + d)) / D
    let var := (∑ d ∈ range D, (entry x (i / D * D + d) - mean) * (entry x (i / D * D + d) - mean)) / D
    (entry x i - mean) * (1 / fn.sqrt (var + eps)) * entry w i + entry b i

/-- A row of `F.normalize(x.view(.., H, D), p=2.0, dim=-1, eps=1e-12)`. -/
def normalize (H D : ℕ) (x : List F) : List F :=
  tab (H * D) fun i =>
    entry x i / max (fn.sqrt (∑ d ∈ range D, entry x (i / D * D + d) * entry x (i / D * D + d))) (1 / 10 ^ 12)

/-- A row of `(k * r * r_k).sum(-1)` per head, times the head's `v`. -/
def bonus (H D : ℕ) (k r rK v : List F) : List F :=
  tab (H * D) fun i =>
    (∑ d ∈ range D, entry k (i / D * D + d) * entry r (i / D * D + d) * entry rK (i / D * D + d)) * entry v i

end Rwkv
end Siphon
