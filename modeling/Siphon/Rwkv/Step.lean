/-
# What a layer computes

Each half of a layer as a function of one token and the row before it: what the
recurrence reads of the token, and what becomes of it with what the recurrence
gives. The two paths of a call, with their different kernels, compute the same.

Key definitions: `Model.Supported`, `tokenInputs`, `attnOut`, `ffnOut`.
Key theorems: `fusedGates_eq`, `plainGates_eq`, `attention_eq`, `ffn_eq`.
-/
import Siphon.Lib.Mealy
import Siphon.Rwkv.Model
import Mathlib.Data.List.Zip

namespace Siphon
namespace Rwkv

open Finset Launch Rounding Fallible

/-! ### The sizes the kernels are written for -/

/-- A rank in whole vectors of 8, up to `LORA_RMAX`. -/
structure Lora.Fits {F : Type} {C : ℕ} (l : Lora F C) : Prop where
  pos : 0 < l.rank
  vec : l.rank % 8 = 0
  le : l.rank ≤ loraRmax

/-- The ranks fit, and the workspace has room for the partial sums of all gates. -/
structure LayerParams.Supported {F : Type} {C : ℕ} (lp : LayerParams F C) : Prop where
  w : lp.wL.Fits
  a : lp.aL.Fits
  g : lp.gL.Fits
  v : ∀ v ∈ lp.vL, v.1.Fits
  room : (if lp.vL.isSome then 4 else 3) * divCeil C (divCeil C loraPhases) * loraRmax ≤ gateWs C

/-- Heads of `WKV_D`, and layers the gate kernels can run. -/
structure Model.Supported {F : Type} (m : Model F) : Prop where
  heads : 0 < m.config.numHeads
  headDim : m.config.headDim = 64
  layers : ∀ lp ∈ m.layers, lp.Supported

/-- From this hidden size on there is room for the partial sums of any four gates that fit. -/
theorem LayerParams.Supported.of_le {F : Type} {C : ℕ} {lp : LayerParams F C} (hC : 384 ≤ C) (hw : lp.wL.Fits)
    (ha : lp.aL.Fits) (hg : lp.gL.Fits) (hv : ∀ v ∈ lp.vL, v.1.Fits) : lp.Supported := by
  refine ⟨hw, ha, hg, hv, ?_⟩
  have hchunk : C ≤ divCeil C loraPhases * loraPhases := le_roundUp (by decide) C
  have hpos : 0 < divCeil C loraPhases := Nat.div_pos (by unfold loraPhases; omega) (by decide)
  have hsplit : divCeil C (divCeil C loraPhases) < 129 := by
    apply (Nat.div_lt_iff_lt_mul hpos).mpr
    unfold loraPhases at hchunk hpos ⊢
    omega
  have hgates : (if lp.vL.isSome then 4 else 3) ≤ 4 := by split <;> decide
  calc (if lp.vL.isSome then 4 else 3) * divCeil C (divCeil C loraPhases) * loraRmax ≤ 4 * 128 * 512 :=
        Nat.mul_le_mul_right _ (Nat.mul_le_mul hgates (Nat.lt_succ_iff.mp hsplit))
    _ ≤ gateWs C := by unfold gateWs; omega

/-! ### Products -/

section Product

variable {F : Type} [Field F]

theorem gemv16_eq {K N : ℕ} (W : Mat F K N) {x : List F} (hK : 0 < K) (hx : x.length = K) :
    gemv16 W x = some (vecMat W.1 K N x) := by
  unfold gemv16
  by_cases h : K % 8 ≠ 0 ∨ N % 8 ≠ 0
  · rw [if_pos h, if_pos hx]
  · rw [if_neg h]
    have hK8 : K % 8 = 0 := by omega
    have hN8 : N % 8 = 0 := by omega
    rw [gemv16Launch_eq hK8 hN8 hx.ge W.2 workspace hK, Option.bind_some, contents_map_some]

/-- Both products are the product. -/
theorem mm_eq {call : Call} {C K N : ℕ} (hC : 0 < C) {x : List (List F)} (W : Mat F K N) (hx : ∀ y ∈ x, y.length = K)
    (hlen : x.length = call.B * call.T) : mm call C x W = some (matmul x W) := by
  unfold mm
  by_cases h : call.B = 1 ∧ call.T = 1 ∧ call.gemvOff = false ∧ K = C ∧ C ≤ N
  · obtain ⟨hB, hT, -, hK, -⟩ := id h
    rw [hB, hT] at hlen
    obtain ⟨y, rfl⟩ := List.length_eq_one_iff.mp hlen
    have hy : y.length = K := hx y List.mem_cons_self
    rw [if_pos h, List.flatten_singleton, gemv16_eq W (hK ▸ hC) hy]
    rfl
  · rw [if_neg h]

/-- `_mm` on rows that come from a list. -/
theorem mm_map {ι : Type} {call : Call} {C K N : ℕ} (hC : 0 < C) (W : Mat F K N) {f : ι → List F}
    (hf : ∀ i, (f i).length = K) {l : List ι} (hlen : l.length = call.B * call.T) :
    mm call C (l.map f) W = some (l.map fun i => vecMat W.1 K N (f i)) := by
  have hx : ∀ y ∈ l.map f, y.length = K := by
    intro y hy
    obtain ⟨i, -, rfl⟩ := List.mem_map.mp hy
    exact hf i
  rw [mm_eq hC W hx (by rw [List.length_map, hlen]), matmul, List.map_map]
  rfl

@[simp]
theorem length_mix (C : ℕ) (x h prev : List F) : (mix C x h prev).length = C := length_tab _ _

@[simp]
theorem length_vecMat (W : List F) (K N : ℕ) (x : List F) : (vecMat W K N x).length = N := length_tab _ _

theorem entry_vzip {n c : ℕ} (f : F → F → F) (x y : List F) (hc : c < n) :
    entry (vzip n f x y) c = f (entry x c) (entry y c) := entry_tab _ hc

end Product

/-! ### The gates -/

section Gate

variable {F : Type} [Field F] (fn : Functions F)

/-- A gate of one token. -/
def gateRow {C : ℕ} (act : F → F) (l : Lora F C) (f : ℕ → F → F) (x : List F) : List F :=
  tab C fun n => f n (entry (vecMat l.l1.1 l.rank C (vmap l.rank act (vecMat l.l0.1 C l.rank x))) n)

variable {cfg : Config F} (lp : LayerParams F cfg.hiddenSize)

def gateW : List F → List F := gateRow fn.tanh lp.wL fun n y => cfg.wScale * sigmoid fn (y + entry lp.wLb.1 n)

def gateA : List F → List F := gateRow id lp.aL fun n y => sigmoid fn (y + entry lp.aLb.1 n)

def gateG : List F → List F := gateRow (sigmoid fn) lp.gL fun _ y => y

def gateT (xv : List F) : List F :=
  (lp.vL.map fun v => gateRow id v.1 (fun n y => sigmoid fn (y + entry v.2.1 n)) xv).getD []

variable {lp}

theorem plainGate_eq {ι : Type} {call : Call} {C : ℕ} (hC : 0 < C) (act : F → F) (l : Lora F C) (f : ℕ → F → F)
    {x : ι → List F} (hx : ∀ i, (x i).length = C) {l' : List ι} (hlen : l'.length = call.B * call.T) :
    plainGate call act l f (l'.map x) = some (l'.map fun i => gateRow act l f (x i)) := by
  unfold plainGate
  rw [mm_map hC l.l0 hx hlen, Option.bind_eq_bind, Option.bind_some, matmul, List.map_map, List.map_map, List.map_map]
  rfl

/-- **The plain gates**, token by token. -/
theorem plainGates_eq {ι : Type} {call : Call} {i : ℕ} (hC : 0 < cfg.hiddenSize) (hv : lp.vL.isSome ↔ i ≠ 0)
    {xw xa xg xv : ι → List F} (hw : ∀ j, (xw j).length = cfg.hiddenSize) (ha : ∀ j, (xa j).length = cfg.hiddenSize)
    (hg : ∀ j, (xg j).length = cfg.hiddenSize) (hxv : ∀ j, (xv j).length = cfg.hiddenSize) {l : List ι}
    (hlen : l.length = call.B * call.T) :
    plainGates fn call i lp (l.map xw) (l.map xa) (l.map xg) (l.map xv) = some {
      w := l.map fun j => gateW fn lp (xw j)
      a := l.map fun j => gateA fn lp (xa j)
      g := l.map fun j => gateG fn lp (xg j)
      t := if i = 0 then none else some (l.map fun j => gateT fn lp (xv j)) } := by
  unfold plainGates
  rw [plainGate_eq hC fn.tanh lp.wL _ hw hlen, plainGate_eq hC id lp.aL _ ha hlen,
    plainGate_eq hC (sigmoid fn) lp.gL _ hg hlen]
  by_cases hi : i = 0
  · simp only [if_pos hi, Option.bind_eq_bind, Option.bind_some]
    rfl
  · obtain ⟨v, hvL⟩ := Option.isSome_iff_exists.mp (hv.mpr hi)
    simp only [if_neg hi, hvL, Option.bind_eq_bind, Option.bind_some, plainGate_eq hC id v.1 _ hxv hlen, Option.map_some,
      gateT, Option.getD_some]
    rfl

/-! The gates of the fused path. -/

theorem forall_gates {P : ℕ → Prop} (h0 : P 0) (h1 : P 1) (h2 : P 2) (h3 : P 3) : ∀ z < 4, P z := by
  intro z hz
  have hz' : z = 0 ∨ z = 1 ∨ z = 2 ∨ z = 3 := by omega
  rcases hz' with rfl | rfl | rfl | rfl <;> assumption

section Gate4

variable {α : Type} (w a g v : α)

@[simp]
theorem gate4_zero : gate4 w a g v 0 = w := rfl

@[simp]
theorem gate4_one : gate4 w a g v 1 = a := rfl

@[simp]
theorem gate4_two : gate4 w a g v 2 = g := rfl

@[simp]
theorem gate4_three : gate4 w a g v 3 = v := rfl

end Gate4

omit [Field F] in
/-- The workspace holds the partial sums of the first products. -/
theorem LayerParams.Supported.fits {C : ℕ} {lp : LayerParams F C} (h : lp.Supported) {z : ℕ}
    (hz : z < if lp.vL.isSome then 4 else 3) :
    (z + 1) * divCeil C (divCeil C loraPhases) * loraRmax ≤ gateWs C :=
  (Nat.mul_le_mul_right _ (Nat.mul_le_mul_right _ hz)).trans h.room

/-- **The fused gates** are the gates of the token. -/
theorem fusedGates_eq {i : ℕ} (hC : 0 < cfg.hiddenSize) (hC8 : cfg.hiddenSize % 8 = 0) (hs : lp.Supported)
    (hv : lp.vL.isSome ↔ i ≠ 0) {xw xa xg xv : List F} (hw : xw.length = cfg.hiddenSize)
    (ha : xa.length = cfg.hiddenSize) (hg : xg.length = cfg.hiddenSize) (hxv : xv.length = cfg.hiddenSize) :
    fusedGates fn i lp xw xa xg xv = some {
      w := [gateW fn lp xw]
      a := [gateA fn lp xa]
      g := [gateG fn lp xg]
      t := if i = 0 then none else some [gateT fn lp xv] } := by
  have hfits : ∀ z < 4, 0 < gate4 lp.wL.rank lp.aL.rank lp.gL.rank ((lp.vL.map fun v => v.1.rank).getD 0) z →
      GateFits (gate4 xw xa xg (if i = 0 then [] else xv) z)
        (gate4 lp.wL.l0.1 lp.aL.l0.1 lp.gL.l0.1 ((lp.vL.map fun v => v.1.l0.1).getD []) z)
        (gate4 lp.wL.l1.1 lp.aL.l1.1 lp.gL.l1.1 ((lp.vL.map fun v => v.1.l1.1).getD []) z) cfg.hiddenSize loraPhases
        (gate4 lp.wL.rank lp.aL.rank lp.gL.rank ((lp.vL.map fun v => v.1.rank).getD 0) z) z := by
    have hroom : ∀ z < 3, z < if lp.vL.isSome then 4 else 3 := fun z hz => by split <;> omega
    refine forall_gates (fun _ => ?_) (fun _ => ?_) (fun _ => ?_) fun hpos => ?_
    · exact ⟨hs.w.vec, hs.w.le, hs.fits (hroom 0 (by omega)), hw.ge, lp.wL.l0.2, lp.wL.l1.2⟩
    · exact ⟨hs.a.vec, hs.a.le, hs.fits (hroom 1 (by omega)), ha.ge, lp.aL.l0.2, lp.aL.l1.2⟩
    · exact ⟨hs.g.vec, hs.g.le, hs.fits (hroom 2 (by omega)), hg.ge, lp.gL.l0.2, lp.gL.l1.2⟩
    · rw [gate4_three] at hpos
      obtain ⟨v, hvL⟩ : ∃ v, lp.vL = some v := by
        cases hvL : lp.vL with
        | none => rw [hvL] at hpos; simp at hpos
        | some v => exact ⟨v, rfl⟩
      have hsome : lp.vL.isSome := by rw [hvL]; rfl
      have hfit := hs.v v hvL
      have hthree := hs.fits (z := 3) (by rw [if_pos hsome]; omega)
      simp only [gate4_three, hvL, if_neg (hv.mp hsome)]
      exact ⟨hfit.vec, hfit.le, hthree, hxv.ge, v.1.l0.2, v.1.l1.2⟩
  have hact : ∀ z < 4, 0 < gate4 lp.wL.rank lp.aL.rank lp.gL.rank ((lp.vL.map fun v => v.1.rank).getD 0) z →
      ∀ n < cfg.hiddenSize, ∀ acc, act2 fn cfg.wScale lp.wLb.1 lp.aLb.1 ((lp.vL.map fun v => v.2.1).getD []) z n acc =
        some (gate4 (cfg.wScale * sigmoid fn (acc + entry lp.wLb.1 n)) (sigmoid fn (acc + entry lp.aLb.1 n)) acc
          (sigmoid fn (acc + entry ((lp.vL.map fun v => v.2.1).getD []) n)) z) := by
    have hbias : ∀ {b : List F}, b.length = cfg.hiddenSize → ∀ n < cfg.hiddenSize, b[n]? = some (entry b n) :=
      fun hb n hn => getElem?_entry (by omega)
    refine forall_gates (fun _ n hn acc => ?_) (fun _ n hn acc => ?_) (fun _ n hn acc => rfl) fun hpos n hn acc => ?_
    · rw [act2, gate4_zero, gate4_zero, hbias lp.wLb.2 n hn, Option.map_some, sigmoid, mul_one_div]
    · rw [act2, gate4_one, gate4_one, hbias lp.aLb.2 n hn, Option.map_some, sigmoid]
    · rw [gate4_three] at hpos
      cases hvL : lp.vL with
      | none => rw [hvL] at hpos; simp at hpos
      | some v =>
        rw [Option.map_some, Option.getD_some, act2, gate4_three, gate4_three, hbias v.2.2 n hn, Option.map_some, sigmoid]
  have hgates := lora_eq (act1 fn) hC hC8 (Nat.succ_pos 127) hfits hact
  unfold fusedGates
  simp only [Option.bind_eq_bind]
  rw [← Option.bind_assoc, loraPhases, hgates, Option.bind_some]
  rw [contents_gate (by omega) hs.w.pos, contents_gate (by omega) hs.a.pos, contents_gate (by omega) hs.g.pos]
  by_cases hi : i = 0
  · simp only [if_pos hi, Option.bind_some]
    rfl
  · obtain ⟨v, hvL⟩ := Option.isSome_iff_exists.mp (hv.mpr hi)
    have hpos : 0 < gate4 lp.wL.rank lp.aL.rank lp.gL.rank ((lp.vL.map fun v => v.1.rank).getD 0) 3 := by
      rw [hvL]
      exact (hs.v v hvL).pos
    rw [contents_gate (by omega) hpos]
    simp only [if_neg hi, Option.map_some, Option.bind_some, gateT, hvL, Option.getD_some]
    rfl

end Gate

/-! ### A token in a layer -/

/-- What goes from layer to layer with a token. -/
structure Token (F : Type) where
  x : List F
  vFirst : List F

section Layer

variable {F : Type} [Field F] (fn : Functions F) {cfg : Config F} (i : ℕ)
  (lp : LayerParams F cfg.hiddenSize)

/-- The row that the shift of the next token sees. -/
def attnHidden (x : List F) : List F := layerNorm fn cfg.hiddenSize lp.attnNormW.1 lp.attnNormB.1 cfg.normEps x

/-- The token mixed with the row before it. -/
def attnMix (w : Row F cfg.hiddenSize) (q : Token F × List F) : List F :=
  mix cfg.hiddenSize w.1 (attnHidden fn lp q.1.x) q.2

def tokenR (q : Token F × List F) : List F := vecMat lp.rW.1 cfg.hiddenSize cfg.hiddenSize (attnMix fn lp lp.xR q)

def tokenK (q : Token F × List F) : List F := vecMat lp.kW.1 cfg.hiddenSize cfg.hiddenSize (attnMix fn lp lp.xK q)

def tokenV (q : Token F × List F) : List F := vecMat lp.vW.1 cfg.hiddenSize cfg.hiddenSize (attnMix fn lp lp.xV q)

def tokenA (q : Token F × List F) : List F := gateA fn lp (attnMix fn lp lp.xA q)

/-- `v` after the value residual, and `v_first`. -/
def tokenValue (q : Token F × List F) : List F :=
  if i = 0 then tokenV fn lp q
  else blend cfg.hiddenSize (tokenV fn lp q) q.1.vFirst (gateT fn lp (attnMix fn lp lp.xV q))

def tokenFirst (q : Token F × List F) : List F := if i = 0 then tokenV fn lp q else q.1.vFirst

theorem length_tokenValue (q : Token F × List F) : (tokenValue fn i lp q).length = cfg.hiddenSize := by
  unfold tokenValue
  split
  · exact length_tab _ _
  · exact length_tab _ _

def tokenKey (q : Token F × List F) : List F := scaleKey cfg.hiddenSize lp.kA.1 (tokenK fn lp q) (tokenA fn lp q)

variable [LinearOrder F]

def tokenKK (q : Token F × List F) : List F :=
  normalize fn cfg.numHeads cfg.headDim (vzip cfg.hiddenSize (· * ·) (tokenK fn lp q) lp.kK.1)

/-- What the recurrence reads of a token. -/
def tokenInputs (q : Token F × List F) : WkvInputs F where
  r := tokenR fn lp q
  w := gateW fn lp (attnMix fn lp lp.xW q)
  k := tokenKey fn lp q
  v := tokenValue fn i lp q
  a := vmap cfg.hiddenSize (fun y => -y) (tokenKK fn lp q)
  b := vzip cfg.hiddenSize (· * ·) (tokenKK fn lp q) (tokenA fn lp q)

/-- The row that goes to the last product, from what the recurrence gave. -/
def epilogue (q : Token F × List F) (o : List F) : List F :=
  vzip cfg.hiddenSize (· * ·)
    (vzip cfg.hiddenSize (· + ·)
      (groupNorm fn cfg.numHeads cfg.headDim lp.gnW.1 lp.gnB.1 cfg.groupNormEps o)
      (bonus cfg.numHeads cfg.headDim (tokenKey fn lp q) (tokenR fn lp q) lp.rK.1 (tokenValue fn i lp q)))
    (gateG fn lp (attnMix fn lp lp.xG q))

/-- The token after the first half of the layer. -/
def attnOut (q : Token F × List F) (o : List F) : Token F where
  x := vzip cfg.hiddenSize (· + ·) q.1.x (vecMat lp.oW.1 cfg.hiddenSize cfg.hiddenSize (epilogue fn i lp q o))
  vFirst := tokenFirst fn i lp q

/-- Every row the recurrence reads has the width of the model. -/
theorem tokenInputs_wide (q : Token F × List F) : (tokenInputs fn i lp q).Wide cfg.hiddenSize := by
  refine ⟨length_tab _ _, length_tab _ _, length_tab _ _, ?_, length_tab _ _, length_tab _ _⟩
  exact length_tokenValue fn i lp q

end Layer

/-! ### The first half of a layer -/

/-- The rows of a slot have the sizes of the model. -/
structure LayerState.Sized {F : Type} (C : ℕ) (st : LayerState F) : Prop where
  wkv : st.wkv.length = C * 64
  attnPrev : st.attnPrev.length = C
  ffnPrev : st.ffnPrev.length = C

def Slot.Sized {F : Type} (C : ℕ) : Slot F → Prop
  | .separate st out => st.Sized C ∧ out.Sized C
  | .inPlace st => st.Sized C

section Slot

variable {F : Type} {C : ℕ}

theorem Slot.wkv_sized {slot : Slot F} (h : slot.Sized C) : slot.wkv.Sized C := by
  cases slot with
  | separate st out => exact ⟨fun _ hs => Option.some.inj hs ▸ h.1.wkv, fun _ hs => Option.some.inj hs ▸ h.2.wkv⟩
  | inPlace st => exact h.wkv

@[simp]
theorem Slot.wkv_initial [Field F] (slot : Slot F) : slot.wkv.initial C = slot.state.wkv := by
  cases slot <;> rfl

@[simp]
theorem Slot.wkv_final (slot : Slot F) (S : List F) : slot.wkv.final S = some S := by
  cases slot <;> rfl

end Slot

/-- Three rows that come from one list. -/
theorem zipWith3_map {ι α β γ δ : Type} (f : α → β → γ → δ) (g : ι → α) (h : ι → β) (k : ι → γ) : ∀ l : List ι,
    List.zipWith3 f (l.map g) (l.map h) (l.map k) = l.map fun i => f (g i) (h i) (k i)
  | [] => rfl
  | i :: l => by rw [List.map_cons, List.map_cons, List.map_cons, List.zipWith3, zipWith3_map f g h k l, List.map_cons]

section Attention

variable {F : Type} [Field F] (fn : Functions F) {cfg : Config F} {i : ℕ}
  {lp : LayerParams F cfg.hiddenSize}

/-- Both paths have the same gates. -/
theorem gates_eq {call : Call} {qs : List (Token F × List F)} (hC : 0 < cfg.hiddenSize) (hC8 : cfg.hiddenSize % 8 = 0)
    (hs : call.takesFused → lp.Supported) (hv : lp.vL.isSome ↔ i ≠ 0) (hlen : qs.length = call.B * call.T) :
    gates fn call i lp (qs.map (attnMix fn lp lp.xW)) (qs.map (attnMix fn lp lp.xA)) (qs.map (attnMix fn lp lp.xG))
        (qs.map (attnMix fn lp lp.xV)) = some {
      w := qs.map fun q => gateW fn lp (attnMix fn lp lp.xW q)
      a := qs.map (tokenA fn lp)
      g := qs.map fun q => gateG fn lp (attnMix fn lp lp.xG q)
      t := if i = 0 then none else some (qs.map fun q => gateT fn lp (attnMix fn lp lp.xV q)) } := by
  have hmix : ∀ w q, (attnMix fn lp w q).length = cfg.hiddenSize := fun _ _ => length_mix _ _ _ _
  unfold gates
  by_cases hf : call.takesFused
  · obtain ⟨q, rfl⟩ : ∃ q, qs = [q] := List.length_eq_one_iff.mp (by rw [hlen, hf.1, hf.2.1])
    simp only [if_pos hf, List.map_singleton, List.flatten_singleton]
    exact fusedGates_eq fn hC hC8 (hs hf) hv (hmix _ q) (hmix _ q) (hmix _ q) (hmix _ q)
  · rw [if_neg hf]
    exact plainGates_eq fn hC hv (hmix lp.xW) (hmix lp.xA) (hmix lp.xG) (hmix lp.xV) hlen

theorem valueResidual_eq (qs : List (Token F × List F)) :
    valueResidual cfg.hiddenSize i (qs.map (tokenV fn lp))
        (if i = 0 then none else some (qs.map fun q => gateT fn lp (attnMix fn lp lp.xV q)))
        (if i = 0 then none else some (qs.map fun q => q.1.vFirst)) =
      some (qs.map (tokenValue fn i lp), qs.map (tokenFirst fn i lp)) := by
  unfold valueResidual tokenValue tokenFirst
  by_cases hi : i = 0
  · simp only [if_pos hi]
  · simp only [if_neg hi, Option.bind_eq_bind, Option.bind_some, zipWith3_map]

variable [LinearOrder F] [IsStrictOrderedRing F]

/-- Both paths have the same epilogue. -/
theorem post_eq {call : Call} {qs : List (Token F × List F)} {os : List (List F)} (hD : cfg.headDim = 64)
    (hlen : qs.length = call.B * call.T) (hos : os.length = qs.length)
    (hwide : ∀ o ∈ os, o.length = cfg.hiddenSize) :
    post fn call lp os (qs.map (tokenKey fn lp)) (qs.map (tokenR fn lp)) (qs.map (tokenValue fn i lp))
        (qs.map fun q => gateG fn lp (attnMix fn lp lp.xG q)) =
      some (List.zipWith (epilogue fn i lp) qs os) := by
  unfold post
  dsimp only
  by_cases hf : call.takesFused
  · obtain ⟨q, rfl⟩ : ∃ q, qs = [q] := List.length_eq_one_iff.mp (by rw [hlen, hf.1, hf.2.1])
    obtain ⟨o, rfl⟩ : ∃ o, os = [o] := List.length_eq_one_iff.mp hos
    have ho : o.length = cfg.hiddenSize := hwide o List.mem_cons_self
    simp only [if_pos hf, List.map_singleton, List.flatten_singleton]
    have hpost := @wkv7Post_eq F _ _ _ fn o (tokenKey fn lp q) (tokenR fn lp q) (tokenValue fn i lp q)
      (gateG fn lp (attnMix fn lp lp.xG q)) lp.gnW.1 lp.gnB.1 lp.rK.1 cfg.numHeads cfg.headDim cfg.groupNormEps
      (by omega) (by omega) ho (length_tab _ _) (length_tab _ _) (length_tokenValue fn i lp q) (length_tab _ _)
      lp.gnW.2 lp.gnB.2 lp.rK.2
    rw [hpost]
    refine congrArg (fun y => some [y]) (tab_congr fun c hc => ?_)
    rw [entry_vzip _ _ _ (show c < cfg.hiddenSize from hc)]
  · rw [if_neg hf]
    unfold zipRows epilogue
    rw [zipWith3_map, List.zipWith_map, List.zipWith_map_right, List.zipWith_zipWith_left, List.zipWith3_same_right,
      List.zipWith_comm]

/-- **The first half of a layer**, on rows and the rows before them: both paths run the recurrence over the tokens. -/
theorem attention_eq (call : Call) {slot : Slot F} (qs : List (Token F × List F)) {last : List F}
    (hH : 0 < cfg.numHeads) (hD : cfg.headDim = 64) (hs : call.takesFused → lp.Supported) (hv : lp.vL.isSome ↔ i ≠ 0)
    (hslot : slot.Sized cfg.hiddenSize) (hlen : qs.length = call.B * call.T)
    (hshift : shift call.T slot.state.attnPrev (qs.map fun q => attnHidden fn lp q.1.x) = qs.map Prod.snd)
    (hlast : (qs.map fun q => attnHidden fn lp q.1.x)[call.B * call.T - 1]? = some last) :
    attention fn call i lp slot (qs.map fun q => q.1.x)
        (if i = 0 then none else some (qs.map fun q => q.1.vFirst)) =
      some ((Mealy.run (wkvStep fn.exp cfg.hiddenSize) slot.state.wkv (qs.map (tokenInputs fn i lp))).1, last,
        List.zipWith (fun q o => (attnOut fn i lp q o).x) qs
          (Mealy.run (wkvStep fn.exp cfg.hiddenSize) slot.state.wkv (qs.map (tokenInputs fn i lp))).2,
        qs.map (tokenFirst fn i lp)) := by
  have hCH : cfg.numHeads * 64 = cfg.hiddenSize := by rw [Config.hiddenSize, hD]
  have hC : 0 < cfg.hiddenSize := by omega
  have hh : (qs.map fun q => q.1.x).map (layerNorm fn cfg.hiddenSize lp.attnNormW.1 lp.attnNormB.1 cfg.normEps) =
      qs.map fun q => attnHidden fn lp q.1.x := by
    rw [List.map_map]
    rfl
  have hmix : ∀ w : Row F cfg.hiddenSize, List.zipWith (mix cfg.hiddenSize w.1)
      (qs.map fun q => attnHidden fn lp q.1.x) (qs.map Prod.snd) = qs.map (attnMix fn lp w) := by
    intro w
    rw [List.zipWith_map, List.zipWith_self]
    rfl
  have hr : mm call cfg.hiddenSize (qs.map (attnMix fn lp lp.xR)) lp.rW = some (qs.map (tokenR fn lp)) :=
    mm_map hC lp.rW (fun _ => length_mix _ _ _ _) hlen
  have hk : mm call cfg.hiddenSize (qs.map (attnMix fn lp lp.xK)) lp.kW = some (qs.map (tokenK fn lp)) :=
    mm_map hC lp.kW (fun _ => length_mix _ _ _ _) hlen
  have hv' : mm call cfg.hiddenSize (qs.map (attnMix fn lp lp.xV)) lp.vW = some (qs.map (tokenV fn lp)) :=
    mm_map hC lp.vW (fun _ => length_mix _ _ _ _) hlen
  have hkk : List.map (normalize fn cfg.numHeads cfg.headDim) (List.map (fun k => vzip cfg.hiddenSize (· * ·) k lp.kK.1)
      (qs.map (tokenK fn lp))) = qs.map (tokenKK fn lp) := by
    rw [List.map_map, List.map_map]
    rfl
  have hkey : List.zipWith (scaleKey cfg.hiddenSize lp.kA.1) (qs.map (tokenK fn lp)) (qs.map (tokenA fn lp)) =
      qs.map (tokenKey fn lp) := by
    rw [List.zipWith_map, List.zipWith_self]
    rfl
  have hb : zipRows cfg.hiddenSize (· * ·) (qs.map (tokenKK fn lp)) (qs.map (tokenA fn lp)) =
      qs.map fun q => (tokenInputs fn i lp q).b := by
    rw [zipRows, List.zipWith_map, List.zipWith_self]
    rfl
  have hwide : ∀ x ∈ qs.map (tokenInputs fn i lp), x.Wide (cfg.numHeads * 64) := by
    intro x hx
    obtain ⟨q, -, rfl⟩ := List.mem_map.mp hx
    rw [hCH]
    exact tokenInputs_wide fn i lp q
  have hwkv := wkv7_eq fn.exp hwide (hCH ▸ Slot.wkv_sized hslot)
  rw [hCH, Slot.wkv_initial, Slot.wkv_final] at hwkv
  simp only [List.map_map] at hwkv
  unfold attention
  dsimp only
  rw [hh, hshift, hlast, hmix, hmix, hmix, hmix, hmix, hmix, hr, hk, hv', gates_eq fn hC (by omega) hs hv hlen]
  simp only [Option.bind_eq_bind, Option.bind_some]
  rw [valueResidual_eq, hkk, hkey, hb, List.map_map, Option.bind_some]
  have hlenO : (Mealy.run (wkvStep fn.exp cfg.hiddenSize) slot.state.wkv (qs.map (tokenInputs fn i lp))).2.length =
      qs.length := by rw [Mealy.length_run, List.length_map]
  have hwideO := Mealy.run_output (f := wkvStep fn.exp cfg.hiddenSize) (P := fun _ => True)
    (Q := fun o => o.length = cfg.hiddenSize) (fun _ _ _ => trivial) (fun S x _ => (length_wkvStep fn.exp _ S x).2)
    (s := slot.state.wkv) (qs.map (tokenInputs fn i lp)) trivial
  refine (congrArg (fun o => Option.bind o _) hwkv).trans ?_
  generalize Mealy.run (wkvStep fn.exp cfg.hiddenSize) slot.state.wkv (qs.map (tokenInputs fn i lp)) = r at hlenO hwideO ⊢
  have hrows : ∀ y ∈ List.zipWith (epilogue fn i lp) qs r.2, y.length = cfg.hiddenSize := by
    intro y hy
    rw [← List.map_uncurry_zip_eq_zipWith] at hy
    obtain ⟨q, -, rfl⟩ := List.mem_map.mp hy
    exact length_tab _ _
  have hlenY : (List.zipWith (epilogue fn i lp) qs r.2).length = call.B * call.T := by
    rw [List.length_zipWith, hlenO, Nat.min_self, hlen]
  rw [Option.bind_some, post_eq fn hD hlen hlenO hwideO, Option.bind_some, mm_eq hC lp.oW hrows hlenY, Option.bind_some,
    Option.bind_some, matmul, List.map_zipWith, zipRows, List.zipWith_map_left, List.zipWith_zipWith_right,
    List.zipWith3_same_left]
  rfl

end Attention

/-! ### The second half of a layer -/

section Ffn

variable {F : Type} [Field F] [LinearOrder F] (fn : Functions F) {cfg : Config F} (lp : LayerParams F cfg.hiddenSize)

def ffnHidden (x : List F) : List F := layerNorm fn cfg.hiddenSize lp.ffnNormW.1 lp.ffnNormB.1 cfg.normEps x

def ffnKey (q : List F × List F) : List F :=
  vecMat lp.ffnKey.1 cfg.hiddenSize lp.inter (mix cfg.hiddenSize lp.ffnXK.1 (ffnHidden fn lp q.1) q.2)

/-- The token after the second half of the layer. -/
def ffnOut (q : List F × List F) : List F :=
  vzip cfg.hiddenSize (· + ·) q.1
    (vecMat lp.ffnValue.1 lp.inter cfg.hiddenSize (vmap lp.inter sqrelu (ffnKey fn lp q)))

variable {lp}

/-- **The second half of a layer**, on rows and the rows before them. -/
theorem ffn_eq (call : Call) {slot : Slot F} {qs : List (List F × List F)} {last : List F} (hC : 0 < cfg.hiddenSize)
    (hlen : qs.length = call.B * call.T)
    (hshift : shift call.T slot.state.ffnPrev (qs.map fun q => ffnHidden fn lp q.1) = qs.map Prod.snd)
    (hlast : (qs.map fun q => ffnHidden fn lp q.1)[call.B * call.T - 1]? = some last) :
    ffn fn call lp slot (qs.map Prod.fst) = some (last, qs.map (ffnOut fn lp)) := by
  have hh : (qs.map Prod.fst).map (layerNorm fn cfg.hiddenSize lp.ffnNormW.1 lp.ffnNormB.1 cfg.normEps) =
      qs.map fun q => ffnHidden fn lp q.1 := by
    rw [List.map_map]
    rfl
  have hkey : mm call cfg.hiddenSize (List.zipWith (mix cfg.hiddenSize lp.ffnXK.1) (qs.map fun q => ffnHidden fn lp q.1)
      (qs.map Prod.snd)) lp.ffnKey = some (qs.map (ffnKey fn lp)) := by
    rw [List.zipWith_map, List.zipWith_self]
    exact mm_map hC lp.ffnKey (fun _ => length_mix _ _ _ _) hlen
  have hvalue : mm call cfg.hiddenSize ((qs.map (ffnKey fn lp)).map (vmap lp.inter sqrelu)) lp.ffnValue =
      some (qs.map fun q => vecMat lp.ffnValue.1 lp.inter cfg.hiddenSize (vmap lp.inter sqrelu (ffnKey fn lp q))) := by
    rw [List.map_map]
    exact mm_map hC lp.ffnValue (fun _ => length_vmap _ _ _) hlen
  unfold ffn
  dsimp only
  rw [hh, hshift, hlast, Option.bind_eq_bind, Option.bind_some, hkey, Option.bind_eq_bind, Option.bind_some, hvalue,
    Option.bind_some, zipRows, List.zipWith_map, List.zipWith_self]
  rfl

end Ffn

end Rwkv
end Siphon
