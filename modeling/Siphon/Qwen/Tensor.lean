/-
# Scalars and the primitives of the forward pass

The forward pass of `qwen35-forward` computes with `f32` and `f64` numbers.
Here the two are any types with any operations (`Arith`): what is proved
depends only on which operations are applied to which entries in which order.
Buffers are row-major lists (`Rows`). A size check that fails is a `panic`.
-/
import Siphon.Lib.Fallible
import Siphon.Lib.Ieee
import Siphon.Lib.Rows
import Mathlib.Data.List.GetD

namespace Siphon
namespace Qwen

open Rows

/-- The operations on `f32` (`F`) and `f64` (`D`). -/
structure Arith (F D : Type) where
  zero : F
  one : F
  add : F → F → F
  sub : F → F → F
  mul : F → F → F
  div : F → F → F
  neg : F → F
  exp : F → F
  ln : F → F
  sin : F → F
  cos : F → F
  sqrt : F → F
  pow : F → F → F
  lt : F → F → Bool
  negInfinity : F
  ofNat : ℕ → F
  /-- `20.0`, `-0.5` and `1e-6` -/
  twenty : F
  minusHalf : F
  millionth : F
  zeroD : D
  addD : D → D → D
  mulD : D → D → D
  divD : D → D → D
  ofNatD : ℕ → D
  /-- `as f64` and `as f32` -/
  widen : F → D
  narrow : D → F

/-- Integer scalars, with the transcendental functions left out. -/
def intArith : Arith ℤ ℤ where
  zero := 0
  one := 1
  add := (· + ·)
  sub := (· - ·)
  mul := (· * ·)
  div := (· / ·)
  neg := (- ·)
  exp x := x
  ln x := x
  sin x := x
  cos x := x
  sqrt x := x
  pow x _ := x
  lt x y := x < y
  negInfinity := -1000
  ofNat n := n
  twenty := 20
  minusHalf := -1
  millionth := 1
  zeroD := 0
  addD := (· + ·)
  mulD := (· * ·)
  divD := (· / ·)
  ofNatD n := n
  widen x := x
  narrow x := x

/-- Floating-point scalars, with the transcendental functions left out. -/
def floatArith : Arith Ieee.F32 Ieee.F64 where
  zero := Ieee.zero
  one := Ieee.ofNat 1
  add := Ieee.add
  sub := Ieee.sub
  mul := Ieee.mul
  div := Ieee.div
  neg := Ieee.neg
  exp x := x
  ln x := x
  sin x := x
  cos x := x
  sqrt x := x
  pow x _ := x
  lt x y := x < y
  negInfinity := Ieee.infinite true
  ofNat := Ieee.ofNat
  twenty := Ieee.ofNat 20
  minusHalf := Ieee.ofRat true (-1 / 2)
  millionth := Ieee.ofRat false (1 / 1000000)
  zeroD := Ieee.zero
  addD := Ieee.add
  mulD := Ieee.mul
  divD := Ieee.div
  ofNatD := Ieee.ofNat
  widen := Ieee.convert _
  narrow := Ieee.convert _

/-- What a call may end with. -/
inductive Fault where
  | emptyInput
  | emptyChunk
  | embedSize (got want : ℕ)
  | tokenRange (id vocab : ℕ)
  | noGdnWeights
  | noAttnWeights
  | needsRope
  | cacheSize (states layers : ℕ)
  | linearStateForFull
  | fullStateForLinear
  | layer (i : ℕ) (e : Fault)
  | panic (what : String)
  deriving DecidableEq

/-- `assert_eq!` -/
def require (p : Prop) [Decidable p] (what : String) : Except Fault Unit :=
  if p then .ok () else .error (.panic what)

theorem require_ok {p : Prop} [Decidable p] {what : String} (h : p) : require p what = .ok () := if_pos h

theorem of_require {p : Prop} [Decidable p] {what : String} {u : Unit} (h : require p what = .ok u) : p := by
  by_contra hp
  have herr : require p what = .error (.panic what) := if_neg hp
  rw [herr] at h
  cases h

variable {F D : Type} (a : Arith F D)

/-- The entry of a buffer. -/
def at' (x : List F) (i : ℕ) : F := x.getD i a.zero

theorem at'_append_left {x : List F} {i : ℕ} (y : List F) (h : i < x.length) : at' a (x ++ y) i = at' a x i :=
  List.getD_append x y a.zero i h

theorem at'_append_right {x : List F} {m : ℕ} (y : List F) (i : ℕ) (h : x.length = m) :
    at' a (x ++ y) (m + i) = at' a y i := by
  unfold at'
  rw [List.getD_append_right x y a.zero (m + i) (by omega), h, Nat.add_sub_cancel_left]

theorem at'_map_range (f : ℕ → F) {n i : ℕ} (h : i < n) : at' a ((List.range n).map f) i = f i := by
  unfold at'
  rw [List.getD_eq_getElem?_getD, List.getElem?_map, List.getElem?_range h]
  rfl

/-- `silu` -/
def silu (x : F) : F := a.div x (a.add a.one (a.exp (a.neg x)))

/-- `sigmoid` -/
def sigmoid (x : F) : F := a.div a.one (a.add a.one (a.exp (a.neg x)))

/-- `softplus` -/
def softplus (x : F) : F := if a.lt a.twenty x then x else a.ln (a.add a.one (a.exp x))

/-! ### Linear maps -/

/-- One row of `linear`. -/
def linearRow (w : List F) (bias : Option (List F)) (inDim outDim : ℕ) (xr : List F) : List F :=
  (List.range outDim).map fun o =>
    let wo := row w inDim o
    let acc := (List.range inDim).foldl
      (fun acc i => a.addD acc (a.mulD (a.widen (at' a wo i)) (a.widen (at' a xr i)))) a.zeroD
    a.narrow (match bias with
      | some b => a.addD acc (a.widen (at' a b o))
      | none => acc)

/-- `linear` -/
def linear (w : List F) (bias : Option (List F)) (x : List F) (n inDim outDim : ℕ) : Except Fault (List F) := do
  require (w.length = outDim * inDim) "linear weight size"
  require (x.length = n * inDim) "linear input size"
  .ok (mapRows (linearRow a w bias inDim outDim) inDim n x)

theorem length_linearRow (w : List F) (bias : Option (List F)) (inDim outDim : ℕ) (xr : List F) :
    (linearRow a w bias inDim outDim xr).length = outDim := by
  unfold linearRow
  rw [List.length_map, List.length_range]

theorem linear_ok {w x : List F} {bias : Option (List F)} {n inDim outDim : ℕ} (hw : w.length = outDim * inDim)
    (hx : x.length = n * inDim) :
    linear a w bias x n inDim outDim = .ok (mapRows (linearRow a w bias inDim outDim) inDim n x) := by
  unfold linear
  rw [require_ok hw, require_ok hx]
  rfl

/-! ### Norms -/

/-- `1 / sqrt(mean(x^2) + eps)`, with the mean in `f64`. -/
def inverseRms (xr : List F) (dim : ℕ) (eps : F) : F :=
  let ss := xr.foldl (fun ss v => a.addD ss (a.mulD (a.widen v) (a.widen v))) a.zeroD
  a.div a.one (a.sqrt (a.add (a.narrow (a.divD ss (a.ofNatD dim))) eps))

/-- One row of `rmsnorm_1plus`. -/
def rmsnorm1plusRow (w : List F) (dim : ℕ) (eps : F) (xr : List F) : List F :=
  (List.range dim).map fun i => a.mul (a.mul (at' a xr i) (inverseRms a xr dim eps)) (a.add a.one (at' a w i))

/-- `rmsnorm_1plus` -/
def rmsnorm1plus (w x : List F) (n dim : ℕ) (eps : F) : Except Fault (List F) := do
  require (w.length = dim) "rmsnorm weight size"
  require (x.length = n * dim) "rmsnorm input size"
  .ok (mapRows (rmsnorm1plusRow a w dim eps) dim n x)

/-- One row of `rmsnorm_gated`. -/
def rmsnormGatedRow (w : List F) (dim : ℕ) (eps : F) (xr zr : List F) : List F :=
  (List.range dim).map fun i =>
    a.mul (a.mul (at' a w i) (a.mul (at' a xr i) (inverseRms a xr dim eps))) (silu a (at' a zr i))

/-- `rmsnorm_gated` -/
def rmsnormGated (w x z : List F) (n dim : ℕ) (eps : F) : Except Fault (List F) := do
  require (w.length = dim) "rmsnorm weight size"
  require (x.length = n * dim) "rmsnorm input size"
  require (z.length = n * dim) "rmsnorm gate size"
  .ok (zipRows (rmsnormGatedRow a w dim eps) dim dim n x z)

theorem length_rmsnorm1plusRow (w : List F) (dim : ℕ) (eps : F) (xr : List F) :
    (rmsnorm1plusRow a w dim eps xr).length = dim := by
  unfold rmsnorm1plusRow
  rw [List.length_map, List.length_range]

theorem length_rmsnormGatedRow (w : List F) (dim : ℕ) (eps : F) (xr zr : List F) :
    (rmsnormGatedRow a w dim eps xr zr).length = dim := by
  unfold rmsnormGatedRow
  rw [List.length_map, List.length_range]

theorem rmsnorm1plus_ok {w x : List F} {n dim : ℕ} {eps : F} (hw : w.length = dim) (hx : x.length = n * dim) :
    rmsnorm1plus a w x n dim eps = .ok (mapRows (rmsnorm1plusRow a w dim eps) dim n x) := by
  unfold rmsnorm1plus
  rw [require_ok hw, require_ok hx]
  rfl

theorem rmsnormGated_ok {w x z : List F} {n dim : ℕ} {eps : F} (hw : w.length = dim) (hx : x.length = n * dim)
    (hz : z.length = n * dim) :
    rmsnormGated a w x z n dim eps = .ok (zipRows (rmsnormGatedRow a w dim eps) dim dim n x z) := by
  unfold rmsnormGated
  rw [require_ok hw, require_ok hx, require_ok hz]
  rfl

/-! ### Batches -/

section Batch

variable {b n : ℕ} {xs : ℕ → List F}

theorem linear_batch {w : List F} {bias : Option (List F)} {inDim outDim : ℕ} (hw : w.length = outDim * inDim)
    (hx : ∀ i < b, (xs i).length = n * inDim) : linear a w bias (rows b xs) (b * n) inDim outDim =
      .ok (rows b fun i => mapRows (linearRow a w bias inDim outDim) inDim n (xs i)) := by
  rw [linear_ok a hw (by rw [length_rows hx, Nat.mul_assoc]), mapRows_rows hx]

theorem rmsnorm1plus_batch {w : List F} {dim : ℕ} {eps : F} (hw : w.length = dim)
    (hx : ∀ i < b, (xs i).length = n * dim) : rmsnorm1plus a w (rows b xs) (b * n) dim eps =
      .ok (rows b fun i => mapRows (rmsnorm1plusRow a w dim eps) dim n (xs i)) := by
  rw [rmsnorm1plus_ok a hw (by rw [length_rows hx, Nat.mul_assoc]), mapRows_rows hx]

theorem rmsnormGated_batch {w : List F} {zs : ℕ → List F} {dim : ℕ} {eps : F} (hw : w.length = dim)
    (hx : ∀ i < b, (xs i).length = n * dim) (hz : ∀ i < b, (zs i).length = n * dim) :
    rmsnormGated a w (rows b xs) (rows b zs) (b * n) dim eps =
      .ok (rows b fun i => zipRows (rmsnormGatedRow a w dim eps) dim dim n (xs i) (zs i)) := by
  rw [rmsnormGated_ok a hw (by rw [length_rows hx, Nat.mul_assoc]) (by rw [length_rows hz, Nat.mul_assoc]),
    zipRows_rows hx hz]

end Batch

end Qwen
end Siphon
