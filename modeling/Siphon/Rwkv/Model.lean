/-
# The forward pass

`RWKV7Model.forward` over a batch of sequences. A call with one token of one
sequence takes the fused path, where the gates and the epilogue of a layer are
kernels of their own; any other call takes the plain one. The state that is
read and the state that is written may be the same tensors.

Key definitions: `Model`, `mm`, `gates`, `post`, `attention`, `ffn`, `forward`.
-/
import Siphon.Rwkv.Lora
import Siphon.Rwkv.Post
import Siphon.Rwkv.Wkv
import Mathlib.Data.List.Defs

namespace Siphon
namespace Rwkv

open Launch

/-! ### Parameters -/

/-- A row of `n` entries, and a matrix `[K, N]`, row by row. -/
abbrev Row (α : Type) (n : ℕ) : Type := { x : List α // x.length = n }

abbrev Mat (F : Type) (K N : ℕ) : Type := Row F (K * N)

/-- The fields of `RWKV7Config` that the pass reads. The hidden size is that of all heads, or the views would raise. -/
structure Config (F : Type) where
  numHeads : ℕ
  headDim : ℕ
  normFirst : Bool
  normEps : F
  wScale : F

def Config.hiddenSize {F : Type} (cfg : Config F) : ℕ := cfg.numHeads * cfg.headDim

def Config.groupNormEps {F : Type} [Field F] (cfg : Config F) : F := cfg.headDim * cfg.normEps

/-- A product down to `rank` and back. -/
structure Lora (F : Type) (C : ℕ) where
  rank : ℕ
  l0 : Mat F C rank
  l1 : Mat F rank C

/-- `_LayerParams` -/
structure LayerParams (F : Type) (C : ℕ) where
  attnNormW : Row F C
  attnNormB : Row F C
  xR : Row F C
  xW : Row F C
  xK : Row F C
  xV : Row F C
  xA : Row F C
  xG : Row F C
  rW : Mat F C C
  kW : Mat F C C
  vW : Mat F C C
  oW : Mat F C C
  wL : Lora F C
  wLb : Row F C
  aL : Lora F C
  aLb : Row F C
  vL : Option (Lora F C × Row F C)
  gL : Lora F C
  kK : Row F C
  kA : Row F C
  rK : Row F C
  gnW : Row F C
  gnB : Row F C
  ffnNormW : Row F C
  ffnNormB : Row F C
  ffnXK : Row F C
  inter : ℕ
  ffnKey : Mat F C inter
  ffnValue : Mat F inter C

/-- `RWKV7Model`, where only the first layer has no `v_lora`. -/
structure Model (F : Type) where
  config : Config F
  vocab : ℕ
  embed : List (Row F config.hiddenSize)
  preNormW : Row F config.hiddenSize
  preNormB : Row F config.hiddenSize
  finalNormW : Row F config.hiddenSize
  finalNormB : Row F config.hiddenSize
  lmHead : Mat F config.hiddenSize vocab
  layers : List (LayerParams F config.hiddenSize)
  vL : ∀ i lp, layers[i]? = some lp → (lp.vL.isSome ↔ i ≠ 0)

/-- The rows of one layer in `RWKV7State`. -/
structure LayerState (F : Type) where
  wkv : List F
  attnPrev : List F
  ffnPrev : List F

/-- `state_out`: tensors of its own, with whatever they hold, or those of `state`. -/
inductive StateOut (F : Type) where
  | other (layers : List (LayerState F))
  | same

/-- The rows of one layer that are read and those that are written. -/
inductive Slot (F : Type) where
  | separate (state out : LayerState F)
  | inPlace (state : LayerState F)

def Slot.state {F : Type} : Slot F → LayerState F
  | .separate st _ => st
  | .inPlace st => st

/-- What the rows hold that the layer would write. -/
def Slot.unwritten {F : Type} : Slot F → LayerState F
  | .separate _ out => out
  | .inPlace st => st

/-- `state.wkv[i]` and `new_wkv[i]`. -/
def Slot.wkv {F : Type} : Slot F → WkvState F
  | .separate st out => .separate (some st.wkv) (some out.wkv)
  | .inPlace st => .inPlace st.wkv

def slots {F : Type} (st : List (LayerState F)) : StateOut F → List (Slot F)
  | .other out => List.zipWith .separate st out
  | .same => st.map .inPlace

/-- `_FUSED`, `SIPHON_GEMV_OFF`, and the shape of `input_ids`. -/
structure Env where
  fused : Bool
  gemvOff : Bool

structure Call extends Env where
  B : ℕ
  T : ℕ

/-- `z == 0 ? w : (z == 1 ? a : (z == 2 ? g : v))` -/
def gate4 {α : Type} (w a g v : α) (z : ℕ) : α := if z = 0 then w else if z = 1 then a else if z = 2 then g else v

/-! ### Operations on the rows of a tensor -/

section Rows

variable {F : Type} [Field F]

/-- The floats of `workspace`. -/
def workspace : ℕ := 48 * 1024 * 1024 / 4

/-- `gemv16` -/
def gemv16 {K N : ℕ} (W : Mat F K N) (x : List F) : Option (List F) :=
  if K % 8 ≠ 0 ∨ N % 8 ≠ 0 then if x.length = K then some (vecMat W.1 K N x) else none
  else (gemv16Launch W.1 x K N workspace).bind contents

/-- `torch.matmul` -/
def matmul {K N : ℕ} (x : List (List F)) (W : Mat F K N) : List (List F) := x.map (vecMat W.1 K N)

/-- `_mm` -/
def mm (call : Call) (C : ℕ) {K N : ℕ} (x : List (List F)) (W : Mat F K N) : Option (List (List F)) :=
  if call.B = 1 ∧ call.T = 1 ∧ call.gemvOff = false ∧ K = C ∧ C ≤ N then
    (gemv16 W x.flatten).map fun y => [y]
  else some (matmul x W)

/-- `h_prev`: before the first row of each sequence is the saved row. -/
def shift (T : ℕ) (prev : List F) (h : List (List F)) : List (List F) :=
  (List.range h.length).map fun i => if i % T = 0 then prev else h.getD (i - 1) []

/-- A row of `h + (h_prev - h) * x`. -/
def mix (C : ℕ) (x h prev : List F) : List F := tab C fun c => entry h c + (entry prev c - entry h c) * entry x c

/-- A row of `v + (v_first - v) * t`. -/
def blend (C : ℕ) (v vFirst t : List F) : List F :=
  tab C fun c => entry v c + (entry vFirst c - entry v c) * entry t c

/-- A row of `k * (1.0 + (a - 1.0) * k_a)`. -/
def scaleKey (C : ℕ) (kA k a : List F) : List F := tab C fun c => entry k c * (1 + (entry a c - 1) * entry kA c)

/-- Two tensors entry by entry. -/
def zipRows (C : ℕ) (f : F → F → F) : List (List F) → List (List F) → List (List F) := List.zipWith (vzip C f)

end Rows

/-! ### The gates -/

/-- `w`, `a`, `g`, and `t` where there is a `v_lora`. -/
structure Gates (F : Type) where
  w : List (List F)
  a : List (List F)
  g : List (List F)
  t : Option (List (List F))

section Layer

variable {F : Type} [Field F] [LinearOrder F] (fn : Functions F)

/-- The first activations of `lora_h1`: `acts=(1, 0, 2, 0)`. -/
def act1 (z : ℕ) (acc : F) : F :=
  gate4 (fn.tanh acc) acc (1 / (1 + fn.exp (-acc))) acc z

/-- What `lora_gates_reduce_kernel` makes of a sum, with the biases it loads. -/
def act2 (wScale : F) (bW bA bV : List F) (z n : ℕ) (acc : F) : Option F :=
  gate4 (bW[n]?.map fun b => wScale / (1 + fn.exp (-(acc + b)))) (bA[n]?.map fun b => 1 / (1 + fn.exp (-(acc + b))))
    (some acc) (bV[n]?.map fun b => 1 / (1 + fn.exp (-(acc + b)))) z

variable {cfg : Config F}

/-- The gates of one token from `lora_h1` and `lora_gates`, in layer `i`. -/
def fusedGates (i : ℕ) (lp : LayerParams F cfg.hiddenSize) (xw xa xg xv : List F) : Option (Gates F) := do
  let vL0 := (lp.vL.map fun v => v.1.l0.1).getD []
  let vL1 := (lp.vL.map fun v => v.1.l1.1).getD []
  let vLb := (lp.vL.map fun v => v.2.1).getD []
  let R := gate4 lp.wL.rank lp.aL.rank lp.gL.rank ((lp.vL.map fun v => v.1.rank).getD 0)
  let xvUse := if i = 0 then [] else xv
  let h1 ← loraH1 (act1 fn) (gate4 xw xa xg xvUse) (gate4 lp.wL.l0.1 lp.aL.l0.1 lp.gL.l0.1 vL0) R cfg.hiddenSize loraPhases
  let out ← loraGates (act2 fn cfg.wScale lp.wLb.1 lp.aLb.1 vLb) (fun z => h1.getD z [])
    (gate4 lp.wL.l1.1 lp.aL.l1.1 lp.gL.l1.1 vL1) R cfg.hiddenSize loraSplitR
  let w ← contents (out.getD 0 [])
  let a ← contents (out.getD 1 [])
  let g ← contents (out.getD 2 [])
  -- the first layer leaves `t` as it was allocated and does not read it
  let t ← if i = 0 then some none else (contents (out.getD 3 [])).map fun t => some [t]
  some { w := [w], a := [a], g := [g], t := t }

/-- `f(act(x @ l0) @ l1)`, the first product by `_mm`. -/
def plainGate (call : Call) {C : ℕ} (act : F → F) (l : Lora F C) (f : ℕ → F → F) (x : List (List F)) :
    Option (List (List F)) := do
  let h1 ← mm call C x l.l0
  some ((matmul (h1.map (vmap l.rank act)) l.l1).map fun y => tab C fun n => f n (entry y n))

/-- The gates of the plain path, in layer `i`. -/
def plainGates (call : Call) (i : ℕ) (lp : LayerParams F cfg.hiddenSize) (xw xa xg xv : List (List F)) :
    Option (Gates F) := do
  let w ← plainGate call fn.tanh lp.wL (fun n y => cfg.wScale * sigmoid fn (y + entry lp.wLb.1 n)) xw
  let a ← plainGate call id lp.aL (fun n y => sigmoid fn (y + entry lp.aLb.1 n)) xa
  let t ←
    if i = 0 then some none
    else lp.vL.bind fun v => (plainGate call id v.1 (fun n y => sigmoid fn (y + entry v.2.1 n)) xv).map some
  let g ← plainGate call (sigmoid fn) lp.gL (fun _ y => y) xg
  some { w := w, a := a, g := g, t := t }

/-- `if B == 1 and T == 1 and _FUSED` -/
def Call.takesFused (call : Call) : Prop := call.B = 1 ∧ call.T = 1 ∧ call.fused

instance (call : Call) : Decidable call.takesFused := inferInstanceAs (Decidable (_ ∧ _))

/-- The gates, on the path the call takes. -/
def gates (call : Call) (i : ℕ) (lp : LayerParams F cfg.hiddenSize) (xw xa xg xv : List (List F)) : Option (Gates F) :=
  if call.takesFused then fusedGates fn i lp xw.flatten xa.flatten xg.flatten xv.flatten
  else plainGates fn call i lp xw xa xg xv

/-! ### A layer -/

/-- `v` and `v_first` after the gates: the first layer sets `v_first`, the others mix it in. -/
def valueResidual (C i : ℕ) (v : List (List F)) (t : Option (List (List F))) (vFirst : Option (List (List F))) :
    Option (List (List F) × List (List F)) :=
  if i = 0 then some (v, v)
  else do
    let vf ← vFirst
    let t ← t
    some (List.zipWith3 (blend C) v vf t, vf)

/-- Group norm, the bonus term and the gate, on the path the call takes. -/
def post (call : Call) (lp : LayerParams F cfg.hiddenSize) (o k r v g : List (List F)) : Option (List (List F)) :=
  let C := cfg.hiddenSize
  let H := cfg.numHeads
  let D := cfg.headDim
  if call.takesFused then
    (wkv7Post fn o.flatten k.flatten r.flatten v.flatten g.flatten lp.gnW.1 lp.gnB.1 lp.rK.1 H D
      cfg.groupNormEps).map fun og => [og]
  else
    let o := o.map (groupNorm fn H D lp.gnW.1 lp.gnB.1 cfg.groupNormEps)
    let o := zipRows C (· + ·) o (List.zipWith3 (fun k r v => bonus H D k r lp.rK.1 v) k r v)
    some (zipRows C (· * ·) o g)

/-- The first half of a layer. -/
def attention (call : Call) (i : ℕ) (lp : LayerParams F cfg.hiddenSize) (slot : Slot F) (x : List (List F))
    (vFirst : Option (List (List F))) : Option (List F × List F × List (List F) × List (List F)) := do
  let C := cfg.hiddenSize
  let h := x.map (layerNorm fn C lp.attnNormW.1 lp.attnNormB.1 cfg.normEps)
  let hPrev := shift call.T slot.state.attnPrev h
  let attnPrev ← h[call.B * call.T - 1]?
  let xr := List.zipWith (mix C lp.xR.1) h hPrev
  let xw := List.zipWith (mix C lp.xW.1) h hPrev
  let xk := List.zipWith (mix C lp.xK.1) h hPrev
  let xv := List.zipWith (mix C lp.xV.1) h hPrev
  let xa := List.zipWith (mix C lp.xA.1) h hPrev
  let xg := List.zipWith (mix C lp.xG.1) h hPrev
  let r ← mm call C xr lp.rW
  let k ← mm call C xk lp.kW
  let v ← mm call C xv lp.vW
  let gates ← gates fn call i lp xw xa xg xv
  let (v, vFirst) ← valueResidual C i v gates.t vFirst
  let kk := (k.map fun k => vzip C (· * ·) k lp.kK.1).map (normalize fn cfg.numHeads cfg.headDim)
  let k := List.zipWith (scaleKey C lp.kA.1) k gates.a
  let (o, wkv) ← wkv7 fn.exp C r gates.w k v (kk.map (vmap C fun y => -y)) (zipRows C (· * ·) kk gates.a) slot.wkv
  let og ← post fn call lp o k r v gates.g
  let y ← mm call C og lp.oW
  let wkv ← wkv
  some (wkv, attnPrev, zipRows C (· + ·) x y, vFirst)

/-- The second half of a layer. -/
def ffn (call : Call) (lp : LayerParams F cfg.hiddenSize) (slot : Slot F) (x : List (List F)) :
    Option (List F × List (List F)) := do
  let C := cfg.hiddenSize
  let h := x.map (layerNorm fn C lp.ffnNormW.1 lp.ffnNormB.1 cfg.normEps)
  let hPrev := shift call.T slot.state.ffnPrev h
  let ffnPrev ← h[call.B * call.T - 1]?
  let hf := List.zipWith (mix C lp.ffnXK.1) h hPrev
  let f ← mm call C hf lp.ffnKey
  let y ← mm call C (f.map (vmap lp.inter sqrelu)) lp.ffnValue
  some (ffnPrev, zipRows C (· + ·) x y)

/-- The loop over the layers from layer `i` on. -/
def layersForward (call : Call) : ℕ → List (LayerParams F cfg.hiddenSize) → List (Slot F) → List (List F) →
    Option (List (List F)) → Option (List (LayerState F) × List (List F))
  | _, [], slots, x, _ => some (slots.map Slot.unwritten, x)
  | _, _ :: _, [], _, _ => none
  | i, lp :: layers, slot :: slots, x, vFirst => do
    let (wkv, attnPrev, x, vFirst) ← attention fn call i lp slot x vFirst
    let (ffnPrev, x) ← ffn fn call lp slot x
    let (new, x) ← layersForward call (i + 1) layers slots x (some vFirst)
    some ({ wkv := wkv, attnPrev := attnPrev, ffnPrev := ffnPrev } :: new, x)

end Layer

section Forward

variable {F : Type} [Field F] [LinearOrder F] (fn : Functions F)

/-- `self.embed[id]`, counting from the end for a negative index. -/
def Model.embedRow (m : Model F) (id : ℤ) : Option (List F) :=
  let j := if id < 0 then id + m.embed.length else id
  if j < 0 then none else m.embed[j.toNat]?.map fun x => x.1

/-- The logits: for one token a product with the first row that is in memory. -/
def head (m : Model F) (T : ℕ) (x : List (List F)) : Option (List (List F)) :=
  if 1 < T then some (matmul x m.lmHead) else (gemv16 m.lmHead x.flatten).map fun y => [y]

/-- `forward` on `input_ids` `[B, T]`: the rows of the logits and the new state. -/
def forward (env : Env) (m : Model F) {T : ℕ} (ids : List (Row ℤ T)) (st : List (LayerState F)) (out : StateOut F) :
    Option (List (List F) × List (LayerState F)) := do
  let cfg := m.config
  let C := cfg.hiddenSize
  let call : Call := { env with B := ids.length, T := T }
  let x ← (ids.map fun row => row.1).flatten.mapM m.embedRow
  let x := if cfg.normFirst then x.map (layerNorm fn C m.preNormW.1 m.preNormB.1 cfg.normEps) else x
  let (new, x) ← layersForward fn call 0 m.layers (slots st out) x none
  let x := x.map (layerNorm fn C m.finalNormW.1 m.finalNormB.1 cfg.normEps)
  let logits ← head m T x
  some (logits, new)

end Forward

end Rwkv
end Siphon
