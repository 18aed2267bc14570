/-
# Cached decoding is the full pass

`forward` runs the model over a whole sequence, `forwardCached` over one piece
of it at a time. Every stage of the model, from the mixers up to the stack of
layers, is continued and not restarted: a chunk and then the next one from the
state it left give what the two give at once. So a sequence cut into pieces in
any way is decoded to the trace of the full pass.

Key definitions: `WellShaped`, `Cache.Fits`.
Key theorems: `layerStep_append`, `runLayersCached_resume`, `forwardCached_resume`,
`decode_eq_forward`.
-/
import Siphon.Qwen.Model

namespace Siphon
namespace Qwen

open Rows Fallible Gdn Attention

variable {F D : Type} (a : Arith F D)

/-! ### Chunks -/

/-- The input of a layer: `t` positions with their rotary tables. -/
structure Chunk (F : Type) where
  t : ℕ
  x : List F
  cos : List F
  sin : List F

/-- Two chunks, one after the other. -/
def Chunk.append (c c' : Chunk F) : Chunk F := ⟨c.t + c'.t, c.x ++ c'.x, c.cos ++ c'.cos, c.sin ++ c'.sin⟩

/-- The buffers hold `t` rows each. -/
structure Chunk.Fits (hidden rotaryDim : ℕ) (c : Chunk F) : Prop where
  x : c.x.length = c.t * hidden
  cos : c.cos.length = c.t * rotaryDim
  sin : c.sin.length = c.t * rotaryDim

theorem Chunk.Fits.append {hidden rd : ℕ} {c c' : Chunk F} (h : c.Fits hidden rd) (h' : c'.Fits hidden rd) :
    (c.append c').Fits hidden rd where
  x := by simp only [Chunk.append, List.length_append, h.x, h'.x, Nat.add_mul]
  cos := by simp only [Chunk.append, List.length_append, h.cos, h'.cos, Nat.add_mul]
  sin := by simp only [Chunk.append, List.length_append, h.sin, h'.sin, Nat.add_mul]

/-! ### The mixers -/

/-- The weights pass every size check of the mixer. -/
def Mixer.Shaped (hidden rotaryDim : ℕ) : Mixer F → Prop
  | .linearAttention cfg w => cfg.hidden = hidden ∧ Gdn.Shaped cfg w
  | .fullAttention cfg w => cfg.hidden = hidden ∧ cfg.rotaryDim = rotaryDim ∧ Attention.Shaped cfg w

/-- The state is one of the mixer's kind and sizes. -/
def Mixer.Holds : Mixer F → MixerState F → Prop
  | .linearAttention cfg _, .linearAttention st => st.Fits cfg
  | .fullAttention cfg _, .fullAttention st => st.Fits cfg
  | _, _ => False

/-- The state a mixer starts from. -/
def Mixer.newState (b : ℕ) : Mixer F → MixerState F
  | .linearAttention cfg _ => .linearAttention (GdnState.new a cfg b)
  | .fullAttention _ _ => .fullAttention AttnState.new

/-- The mixer on a chunk of one sequence. -/
def mixOf (m : Mixer F) (c : Chunk F) (st : MixerState F) : List F × MixerState F :=
  match m, st with
  | .linearAttention cfg w, .linearAttention st =>
    ((Gdn.mix a cfg w c.t st c.x).1, .linearAttention (Gdn.mix a cfg w c.t st c.x).2)
  | .fullAttention cfg w, .fullAttention st =>
    ((Attention.mix a cfg w c.t c.cos c.sin st c.x).1, .fullAttention (Attention.mix a cfg w c.t c.cos c.sin st c.x).2)
  | _, st => ([], st)

theorem Mixer.newState_holds (m : Mixer F) : m.Holds (m.newState a 1) := by
  cases m with
  | linearAttention cfg w => exact GdnState.new_fits a cfg
  | fullAttention cfg w => exact AttnState.new_fits cfg

section Mixer

variable {m : Mixer F} {hidden rd : ℕ} {st : MixerState F} {c : Chunk F}

/-- **What a mixer does on a chunk**, whichever kind it is: it ends well, keeps the sizes, and goes on. -/
theorem mixOf_spec (hm : m.Shaped hidden rd) (hst : m.Holds st) (hc : c.Fits hidden rd) :
    mixerForward a m c.x 1 c.t (some (c.cos, c.sin)) (some st) = .ok ((mixOf a m c st).1, some (mixOf a m c st).2) ∧
      (mixOf a m c st).1.length = c.t * hidden ∧ m.Holds (mixOf a m c st).2 ∧
      ∀ c' : Chunk F, mixOf a m (c.append c') st =
        ((mixOf a m c st).1 ++ (mixOf a m c' (mixOf a m c st).2).1, (mixOf a m c' (mixOf a m c st).2).2) := by
  cases m with
  | linearAttention cfg w =>
    cases st with
    | linearAttention st =>
      obtain ⟨rfl, hw⟩ := hm
      refine ⟨?_, Gdn.length_mix a, Gdn.mix_fits a hst, fun c' => ?_⟩
      · simp only [mixerForward, Gdn.forwardWithState, Gdn.forwardImpl_some a hw hst hc.x, ok_bind]
        rfl
      · simp only [mixOf, Chunk.append, Gdn.mix_append a c'.x hw hst hc.x]
    | fullAttention st => exact hst.elim
  | fullAttention cfg w =>
    cases st with
    | linearAttention st => exact hst.elim
    | fullAttention st =>
      obtain ⟨rfl, rfl, hw⟩ := hm
      refine ⟨?_, Attention.length_mix a, Attention.mix_fits a hw hst, fun c' => ?_⟩
      · simp only [mixerForward, Attention.forwardWithState, Attention.forwardImpl_some a hw hst hc.x hc.cos hc.sin, ok_bind]
        rfl
      · simp only [mixOf, Chunk.append, Attention.mix_append a c'.x hw hst hc.x hc.cos hc.sin]

/-- Without a state a mixer starts from the new one. -/
theorem mixerForward_none (m : Mixer F) (ln : List F) (b t : ℕ) (rope : List F × List F) :
    mixerForward a m ln b t (some rope) none =
      (do
        let (out, _) ← mixerForward a m ln b t (some rope) (some (m.newState a b))
        .ok (out, none)) := by
  cases m with
  | linearAttention cfg w =>
    simp only [mixerForward, Mixer.newState, Gdn.forward, Gdn.forwardWithState, Gdn.forwardImpl_none, bind_assoc, ok_bind]
  | fullAttention cfg w =>
    simp only [mixerForward, Mixer.newState, Attention.forward, Attention.forwardWithState, Attention.forwardImpl_none,
      bind_assoc, ok_bind]

end Mixer

/-! ### The layer -/

/-- The weights of a layer pass every size check. -/
structure LayerWeights.Shaped (hidden : ℕ) (lw : LayerWeights F) : Prop where
  pos : hidden ≠ 0
  inputLayernorm : lw.inputLayernorm.length = hidden
  postAttentionLayernorm : lw.postAttentionLayernorm.length = hidden
  gateProj : lw.mlp.gateProj.length = lw.mlp.gateProj.length / hidden * hidden
  upProj : lw.mlp.upProj.length = lw.mlp.gateProj.length / hidden * hidden
  downProj : lw.mlp.downProj.length = hidden * (lw.mlp.gateProj.length / hidden)

/-- What a layer makes of its input and the output of its mixer. -/
def residual (lw : LayerWeights F) (hidden : ℕ) (eps : F) (t : ℕ) (x mixerOut : List F) : List F :=
  let afterFirst := x.zipWith a.add mixerOut
  let postLn := mapRows (rmsnorm1plusRow a lw.postAttentionLayernorm hidden eps) hidden t afterFirst
  let intermediate := lw.mlp.gateProj.length / hidden
  let gate := mapRows (linearRow a lw.mlp.gateProj none hidden intermediate) hidden t postLn
  let up := mapRows (linearRow a lw.mlp.upProj none hidden intermediate) hidden t postLn
  let product := gate.zipWith (fun g u => a.mul (silu a g) u) up
  afterFirst.zipWith a.add (mapRows (linearRow a lw.mlp.downProj none intermediate hidden) intermediate t product)

/-- A layer on a chunk of one sequence. -/
def layerStep (m : Mixer F) (lw : LayerWeights F) (hidden : ℕ) (eps : F) (c : Chunk F) (st : MixerState F) :
    List F × MixerState F :=
  let ln := mapRows (rmsnorm1plusRow a lw.inputLayernorm hidden eps) hidden c.t c.x
  let r := mixOf a m { c with x := ln } st
  (residual a lw hidden eps c.t c.x r.1, r.2)

section Residual

variable {lw : LayerWeights F} {hidden t : ℕ} {eps : F} {x y : List F}

theorem length_zipWith_add (hx : x.length = t * hidden) (hy : y.length = t * hidden) :
    (x.zipWith a.add y).length = t * hidden := by
  rw [List.length_zipWith, hx, hy, Nat.min_self]

theorem length_product {post : List F} (hgate : List F) (up : List F) (n : ℕ) :
    ((mapRows (linearRow a hgate none hidden n) hidden t post).zipWith (fun g u => a.mul (silu a g) u)
      (mapRows (linearRow a up none hidden n) hidden t post)).length = t * n := by
  rw [List.length_zipWith, length_mapRows _ (length_linearRow a _ _ _ _), length_mapRows _ (length_linearRow a _ _ _ _),
    Nat.min_self]

theorem length_residual (hx : x.length = t * hidden) (hy : y.length = t * hidden) :
    (residual a lw hidden eps t x y).length = t * hidden :=
  length_zipWith_add a (length_zipWith_add a hx hy) (length_mapRows _ (length_linearRow a _ _ _ _))

theorem layerForwardFromMixer_ok {ln : List F} (hlw : lw.Shaped hidden) (hx : x.length = t * hidden)
    (hln : ln.length = t * hidden) (hy : y.length = t * hidden) :
    layerForwardFromMixer a lw x ln y t eps = .ok (residual a lw hidden eps t x y) := by
  have hafter := length_zipWith_add a hx hy
  have hpost : (mapRows (rmsnorm1plusRow a lw.postAttentionLayernorm hidden eps) hidden t (x.zipWith a.add y)).length =
      t * hidden := length_mapRows _ (length_rmsnorm1plusRow a _ _ _)
  unfold layerForwardFromMixer mlpForward
  simp only [hlw.inputLayernorm, require_ok hx, require_ok hy, require_ok hln, ok_bind,
    rmsnorm1plus_ok a hlw.postAttentionLayernorm hafter, require_ok hlw.pos, linear_ok a hlw.gateProj hpost,
    linear_ok a hlw.upProj hpost, linear_ok a hlw.downProj (length_product a _ _ _)]
  rfl

theorem residual_append {t' : ℕ} (x' y' : List F) (hx : x.length = t * hidden) (hy : y.length = t * hidden) :
    residual a lw hidden eps (t + t') (x ++ x') (y ++ y') =
      residual a lw hidden eps t x y ++ residual a lw hidden eps t' x' y' := by
  have hafter := length_zipWith_add a hx hy
  have hpost : (mapRows (rmsnorm1plusRow a lw.postAttentionLayernorm hidden eps) hidden t (x.zipWith a.add y)).length =
      t * hidden := length_mapRows _ (length_rmsnorm1plusRow a _ _ _)
  unfold residual
  simp only [List.zipWith_append (hx.trans hy.symm), mapRows_append hafter, mapRows_append hpost]
  rw [List.zipWith_append, mapRows_append (length_product a _ _ _), List.zipWith_append]
  · rw [hafter, length_mapRows _ (length_linearRow a _ _ _ _)]
  · rw [length_mapRows _ (length_linearRow a _ _ _ _), length_mapRows _ (length_linearRow a _ _ _ _)]

end Residual

section Layer

variable {m : Mixer F} {lw : LayerWeights F} {hidden rd : ℕ} {c : Chunk F} {st : MixerState F}

/-- **What a layer does on a chunk**: it ends well, keeps the sizes, and goes on. -/
theorem layerStep_spec (eps : F) (hm : m.Shaped hidden rd) (hlw : lw.Shaped hidden) (hst : m.Holds st) (hc : c.Fits hidden rd) :
    layerForwardInner a m lw c.x 1 c.t eps (some (c.cos, c.sin)) (some st) =
        .ok ((layerStep a m lw hidden eps c st).1, some (layerStep a m lw hidden eps c st).2) ∧
      (layerStep a m lw hidden eps c st).1.length = c.t * hidden ∧ m.Holds (layerStep a m lw hidden eps c st).2 ∧
      ∀ c' : Chunk F, layerStep a m lw hidden eps (c.append c') st =
        ((layerStep a m lw hidden eps c st).1 ++ (layerStep a m lw hidden eps c' (layerStep a m lw hidden eps c st).2).1,
          (layerStep a m lw hidden eps c' (layerStep a m lw hidden eps c st).2).2) := by
  have hln : (mapRows (rmsnorm1plusRow a lw.inputLayernorm hidden eps) hidden c.t c.x).length = c.t * hidden :=
    length_mapRows _ (length_rmsnorm1plusRow a _ _ _)
  have hnormed : ({ c with x := mapRows (rmsnorm1plusRow a lw.inputLayernorm hidden eps) hidden c.t c.x } : Chunk F).Fits
      hidden rd := ⟨hln, hc.cos, hc.sin⟩
  obtain ⟨hrun, hlen, hkeep, hgoes⟩ := mixOf_spec a hm hst hnormed
  refine ⟨?_, length_residual a hc.x hlen, hkeep, fun c' => ?_⟩
  · unfold layerForwardInner
    simp only [hlw.inputLayernorm, Nat.one_mul, require_ok hc.x, ok_bind, rmsnorm1plus_ok a hlw.inputLayernorm hc.x, hrun,
      layerForwardFromMixer_ok a hlw hc.x hln hlen]
    rfl
  · have hnext := hgoes { c' with x := mapRows (rmsnorm1plusRow a lw.inputLayernorm hidden eps) hidden c'.t c'.x }
    unfold Chunk.append at hnext ⊢
    unfold layerStep
    simp only [mapRows_append hc.x] at hnext ⊢
    rw [hnext, residual_append a _ _ hc.x hlen]

/-- Without a state a layer starts from the new one. -/
theorem layerForwardInner_none (m : Mixer F) (lw : LayerWeights F) (x : List F) (b t : ℕ) (eps : F)
    (rope : List F × List F) : layerForwardInner a m lw x b t eps (some rope) none =
      (do
        let (out, _) ← layerForwardInner a m lw x b t eps (some rope) (some (m.newState a b))
        .ok (out, none)) := by
  unfold layerForwardInner
  simp only [mixerForward_none, bind_assoc, ok_bind]

end Layer

/-! ### The stack of layers -/

/-- A layer has the weights of its kind, and they pass every size check. -/
structure LayerWeightsAll.Shaped (mcfg : ModelConfig F) (lw : LayerWeightsAll F) : Prop where
  layer : lw.layer.Shaped mcfg.hidden
  mixer : ∃ m, lw.mixer mcfg = .ok m ∧ m.Shaped mcfg.hidden mcfg.attn.rotaryDim

/-- The state is one of the layer's. -/
def LayerWeightsAll.Holds (mcfg : ModelConfig F) (lw : LayerWeightsAll F) (st : MixerState F) : Prop :=
  ∀ m, lw.mixer mcfg = .ok m → m.Holds st

theorem LayerWeightsAll.newState_eq {mcfg : ModelConfig F} {lw : LayerWeightsAll F} {m : Mixer F} (b : ℕ)
    (h : lw.mixer mcfg = .ok m) : lw.newState a mcfg b = m.newState a b := by
  unfold LayerWeightsAll.mixer at h
  unfold LayerWeightsAll.newState
  cases hk : lw.kind with
  | linearAttention =>
    rw [hk] at h
    obtain ⟨w, _, hw⟩ := bind_eq_ok h
    rw [← Except.ok.inj hw]
    rfl
  | fullAttention =>
    rw [hk] at h
    obtain ⟨w, _, hw⟩ := bind_eq_ok h
    rw [← Except.ok.inj hw]
    rfl

/-- A layer of the loop, on a chunk. -/
theorem layerAt_some {mcfg : ModelConfig F} {lw : LayerWeightsAll F} {m : Mixer F} {c : Chunk F} {st : MixerState F}
    (hm : lw.mixer mcfg = .ok m) (hlw : lw.Shaped mcfg) (hst : lw.Holds mcfg st)
    (hc : c.Fits mcfg.hidden mcfg.attn.rotaryDim) (i : ℕ) :
    layerAt a mcfg c.t (c.cos, c.sin) i lw c.x (some st) =
      .ok ((layerStep a m lw.layer mcfg.hidden mcfg.eps c st).1,
        some (layerStep a m lw.layer mcfg.hidden mcfg.eps c st).2) := by
  obtain ⟨m', hm', hshaped⟩ := hlw.mixer
  obtain rfl : m = m' := Except.ok.inj (hm.symm.trans hm')
  unfold layerAt
  rw [hm, ok_bind, (layerStep_spec a mcfg.eps hshaped hlw.layer (hst m hm) hc).1]
  rfl

theorem layerAt_none {mcfg : ModelConfig F} {lw : LayerWeightsAll F} {t i : ℕ} {rope : List F × List F} {x out : List F}
    {next : Option (MixerState F)}
    (h : layerAt a mcfg t rope i lw x (some (lw.newState a mcfg 1)) = .ok (out, next)) :
    layerAt a mcfg t rope i lw x none = .ok (out, none) := by
  obtain ⟨m, hm, hrun⟩ := bind_eq_ok (mapError_eq_ok h)
  rw [LayerWeightsAll.newState_eq a 1 hm] at hrun
  unfold layerAt
  rw [hm, ok_bind, layerForwardInner_none, hrun]
  rfl

theorem runLayersCached_cons {mcfg : ModelConfig F} {t i : ℕ} {rope : List F × List F} {lw : LayerWeightsAll F}
    {lws : List (LayerWeightsAll F)} {st next : MixerState F} {states states' : List (MixerState F)}
    {x out last : List F} {outs : List (List F)} (h : layerAt a mcfg t rope i lw x (some st) = .ok (out, some next))
    (hrest : runLayersCached a mcfg t rope (i + 1) lws states out = (.ok (outs, last), states')) :
    runLayersCached a mcfg t rope i (lw :: lws) (st :: states) x = (.ok (out :: outs, last), next :: states') := by
  rw [runLayersCached, h]
  dsimp only
  rw [hrest]
  rfl

/-- **What the stack does on a chunk**: it ends well, keeps the sizes, and goes on. -/
theorem runLayersCached_resume {mcfg : ModelConfig F} : ∀ {lws : List (LayerWeightsAll F)} {states : List (MixerState F)}
    {c : Chunk F} (i : ℕ), (∀ lw ∈ lws, lw.Shaped mcfg) → List.Forall₂ (LayerWeightsAll.Holds mcfg) lws states →
    c.Fits mcfg.hidden mcfg.attn.rotaryDim →
    ∃ outs last states', runLayersCached a mcfg c.t (c.cos, c.sin) i lws states c.x = (.ok (outs, last), states') ∧
      outs.length = lws.length ∧ (∀ o ∈ outs, o.length = c.t * mcfg.hidden) ∧ last.length = c.t * mcfg.hidden ∧
      List.Forall₂ (LayerWeightsAll.Holds mcfg) lws states' ∧
      ∀ c' : Chunk F, c'.Fits mcfg.hidden mcfg.attn.rotaryDim → ∃ outs' last' states'',
        last'.length = c'.t * mcfg.hidden ∧
        runLayersCached a mcfg c'.t (c'.cos, c'.sin) i lws states' c'.x = (.ok (outs', last'), states'') ∧
        runLayersCached a mcfg (c.append c').t ((c.append c').cos, (c.append c').sin) i lws states (c.append c').x =
          (.ok (outs.zipWith (· ++ ·) outs', last ++ last'), states'')
  | [], [], c, i, _, _, hc => by
    have hnone : ∀ o ∈ ([] : List (List F)), o.length = c.t * mcfg.hidden := fun o ho => (nomatch ho)
    exact ⟨[], c.x, [], rfl, rfl, hnone, hc.x, .nil, fun c' hc' => ⟨[], c'.x, [], hc'.x, rfl, rfl⟩⟩
  | lw :: lws, st :: states, c, i, hlws, hstates, hc => by
    obtain ⟨hst, hsts⟩ := List.forall₂_cons.mp hstates
    have hlw := hlws lw (List.mem_cons_self ..)
    obtain ⟨m, hm, hshaped⟩ := hlw.mixer
    obtain ⟨-, hlen, hkeep, hgoes⟩ := layerStep_spec a mcfg.eps hshaped hlw.layer (hst m hm) hc
    have hnext : lw.Holds mcfg (layerStep a m lw.layer mcfg.hidden mcfg.eps c st).2 := by
      intro m' hm'
      obtain rfl : m = m' := Except.ok.inj (hm.symm.trans hm')
      exact hkeep
    obtain ⟨outs, last, states', hrun, hcount, hsize, hlast, hfit, hrest⟩ :=
      runLayersCached_resume (c := { c with x := (layerStep a m lw.layer mcfg.hidden mcfg.eps c st).1 }) (i + 1)
        (fun lw' h => hlws lw' (List.mem_cons_of_mem lw h)) hsts ⟨hlen, hc.cos, hc.sin⟩
    refine ⟨(layerStep a m lw.layer mcfg.hidden mcfg.eps c st).1 :: outs, last,
      (layerStep a m lw.layer mcfg.hidden mcfg.eps c st).2 :: states', ?_, ?_, ?_, hlast, .cons hnext hfit, ?_⟩
    · exact runLayersCached_cons a (layerAt_some a hm hlw hst hc i) hrun
    · rw [List.length_cons, List.length_cons, hcount]
    · exact List.forall_mem_cons.mpr ⟨hlen, hsize⟩
    · intro c' hc'
      obtain ⟨-, hlen', -, -⟩ := layerStep_spec a mcfg.eps hshaped hlw.layer (hnext m hm) hc'
      obtain ⟨outs', last', states'', hlast', hrun', hboth⟩ := hrest
        { c' with x := (layerStep a m lw.layer mcfg.hidden mcfg.eps c'
          (layerStep a m lw.layer mcfg.hidden mcfg.eps c st).2).1 } ⟨hlen', hc'.cos, hc'.sin⟩
      refine ⟨_, last', _, hlast', runLayersCached_cons a (layerAt_some a hm hlw hnext hc' i) hrun', ?_⟩
      have hwhole := layerAt_some a hm hlw hst (hc.append hc') i
      rw [hgoes c'] at hwhole
      exact runLayersCached_cons a hwhole hboth

/-- Without a cache the stack starts from the new one. -/
theorem runLayers_eq_cached {mcfg : ModelConfig F} {t : ℕ} {rope : List F × List F} :
    ∀ {lws : List (LayerWeightsAll F)} {i : ℕ} {x last : List F} {outs : List (List F)} {states : List (MixerState F)},
      runLayersCached a mcfg t rope i lws (lws.map (LayerWeightsAll.newState a mcfg 1)) x = (.ok (outs, last), states) →
        runLayers a mcfg t rope i lws x = .ok (outs, last)
  | [], i, x, last, outs, states, h => (Prod.mk.inj h).1
  | lw :: lws, i, x, last, outs, states, h => by
    rw [List.map_cons, runLayersCached] at h
    cases hl : layerAt a mcfg t rope i lw x (some (lw.newState a mcfg 1)) with
    | error e =>
      rw [hl] at h
      cases (Prod.mk.inj h).1
    | ok p =>
      rw [hl] at h
      dsimp only at h
      cases hr : runLayersCached a mcfg t rope (i + 1) lws (lws.map (LayerWeightsAll.newState a mcfg 1)) p.1 with
      | mk r states' =>
        rw [hr] at h
        cases r with
        | error e => cases (Prod.mk.inj h).1
        | ok q =>
          rw [runLayers, layerAt_none a hl, ok_bind]
          dsimp only
          rw [runLayers_eq_cached hr]
          exact (Prod.mk.inj h).1

/-! ### The model -/

/-- Every size check of the model passes. -/
structure WellShaped (mcfg : ModelConfig F) (w : ModelWeights F) : Prop where
  embedTokens : w.embedTokens.length = mcfg.vocab * mcfg.hidden
  finalNorm : w.finalNorm.length = mcfg.hidden
  lmHead : w.lmHead.length = mcfg.vocab * mcfg.hidden
  layers : ∀ lw ∈ w.layers, lw.Shaped mcfg

/-- The cache holds a state for each layer. -/
def Cache.Fits (mcfg : ModelConfig F) (w : ModelWeights F) (cache : Cache F) : Prop :=
  List.Forall₂ (LayerWeightsAll.Holds mcfg) w.layers cache.states

/-- The traces of two chunks, one after the other. -/
def ModelTrace.append (tr tr' : ModelTrace F) : ModelTrace F where
  embedding := tr.embedding ++ tr'.embedding
  layers := tr.layers.zipWith (· ++ ·) tr'.layers
  finalNorm := tr.finalNorm ++ tr'.finalNorm
  logits := tr.logits ++ tr'.logits
  t := tr.t + tr'.t
  vocab := tr.vocab

/-- The trace has `n` rows of logits, and `n` rows for each of `k` layers. -/
structure ModelTrace.Sized (mcfg : ModelConfig F) (k n : ℕ) (tr : ModelTrace F) : Prop where
  t : tr.t = n
  logits : tr.logits.length = n * mcfg.vocab
  count : tr.layers.length = k
  layers : ∀ o ∈ tr.layers, o.length = n * mcfg.hidden

theorem Cache.new_fits {mcfg : ModelConfig F} {w : ModelWeights F} : (Cache.new a mcfg w 1).Fits mcfg w := by
  unfold Cache.Fits Cache.new
  rw [List.forall₂_map_right_iff, List.forall₂_same]
  intro lw _ m hm
  rw [LayerWeightsAll.newState_eq a 1 hm]
  exact m.newState_holds a

section Embed

variable {w : List F} {vocab hidden : ℕ}

theorem embed_ok (hw : w.length = vocab * hidden) : ∀ {ids : List ℕ}, (∀ id ∈ ids, id < vocab) →
    ∃ e, embed w vocab hidden ids = .ok e ∧ e.length = ids.length * hidden
  | [], _ => ⟨[], rfl, by rw [List.length_nil, List.length_nil, Nat.zero_mul]⟩
  | id :: ids, h => by
    obtain ⟨hid, hids⟩ := List.forall_mem_cons.mp h
    obtain ⟨e, he, hlen⟩ := embed_ok hw hids
    have hrow : (id + 1) * hidden ≤ w.length := by
      rw [hw]
      exact Nat.mul_le_mul_right hidden hid
    refine ⟨row w hidden id ++ e, ?_, ?_⟩
    · rw [embed, if_neg (Nat.not_le.mpr hid), require_ok hrow, he]
      rfl
    · rw [List.length_append, length_row_of_lt hw hid, hlen, List.length_cons, Nat.succ_mul, Nat.add_comm]

theorem embed_append (ids ids' : List ℕ) : embed w vocab hidden (ids ++ ids') =
    (do
      let e ← embed w vocab hidden ids
      let e' ← embed w vocab hidden ids'
      .ok (e ++ e')) := by
  induction ids with
  | nil =>
    rw [List.nil_append, embed, ok_bind]
    cases embed w vocab hidden ids' with
    | error e => rfl
    | ok e => rfl
  | cons id ids ih =>
    rw [List.cons_append, embed, embed, ih]
    by_cases hid : vocab ≤ id
    · rw [if_pos hid, if_pos hid]
      rfl
    · rw [if_neg hid, if_neg hid]
      simp only [bind_assoc, ok_bind, List.append_assoc]

theorem embed_range : ∀ {ids : List ℕ} {e : List F}, embed w vocab hidden ids = .ok e → ∀ id ∈ ids, id < vocab
  | [], _, _ => fun id h => (nomatch h)
  | id :: ids, e, h => by
    by_cases hid : vocab ≤ id
    · rw [embed, if_pos hid] at h
      cases h
    · rw [embed, if_neg hid] at h
      obtain ⟨_, _, hrest⟩ := bind_eq_ok h
      obtain ⟨_, hrest', _⟩ := bind_eq_ok hrest
      exact List.forall_mem_cons.mpr ⟨Nat.lt_of_not_le hid, embed_range hrest'⟩

/-- An embedding refuses tokens outside the vocabulary only. -/
theorem embed_error (hw : w.length = vocab * hidden) {ids : List ℕ} {e : Fault} (h : embed w vocab hidden ids = .error e) :
    ∃ id ∈ ids, vocab ≤ id := by
  by_contra! hno
  obtain ⟨_, hok, _⟩ := embed_ok hw hno
  rw [hok] at h
  cases h

end Embed

section Model

variable {mcfg : ModelConfig F} {w : ModelWeights F}

/-- The end of a pass, on a chunk: it ends well, keeps the sizes, and goes on. -/
theorem finish_resume (hw : WellShaped mcfg w) {t : ℕ} {h : List F} (e : List F)
    (layers : List (List F)) (hh : h.length = t * mcfg.hidden) : ∃ tr,
      finish a mcfg w t e layers h = .ok tr ∧ tr.t = t ∧ tr.layers = layers ∧ tr.logits.length = t * mcfg.vocab ∧
      ∀ {t' : ℕ} {h' : List F} (e' : List F) (layers' : List (List F)), h'.length = t' * mcfg.hidden → ∃ tr',
        finish a mcfg w t' e' layers' h' = .ok tr' ∧
        finish a mcfg w (t + t') (e ++ e') (layers.zipWith (· ++ ·) layers') (h ++ h') = .ok (tr.append tr') := by
  have hrun (t : ℕ) (e h : List F) (layers : List (List F)) (hh : h.length = t * mcfg.hidden) :
      finish a mcfg w t e layers h = .ok ⟨e, layers,
        mapRows (rmsnorm1plusRow a w.finalNorm mcfg.hidden mcfg.eps) mcfg.hidden t h,
        mapRows (linearRow a w.lmHead none mcfg.hidden mcfg.vocab) mcfg.hidden t
          (mapRows (rmsnorm1plusRow a w.finalNorm mcfg.hidden mcfg.eps) mcfg.hidden t h), t, mcfg.vocab⟩ := by
    unfold finish
    simp only [Nat.one_mul, rmsnorm1plus_ok a hw.finalNorm hh, ok_bind,
      linear_ok a hw.lmHead (length_mapRows h (length_rmsnorm1plusRow a w.finalNorm mcfg.hidden mcfg.eps))]
  refine ⟨_, hrun t e h layers hh, rfl, rfl, length_mapRows _ (length_linearRow a _ _ _ _), fun e' layers' hh' => ?_⟩
  refine ⟨_, hrun _ _ _ _ hh', ?_⟩
  rw [hrun (t + _) (e ++ _) (h ++ _) _ (by rw [List.length_append, hh, hh', Nat.add_mul]), mapRows_append hh,
    mapRows_append (length_mapRows h (length_rmsnorm1plusRow a w.finalNorm mcfg.hidden mcfg.eps))]
  rfl

/-- The chunk of a piece with embedding `e` behind `start` positions. -/
def chunkOf (mcfg : ModelConfig F) (start t : ℕ) (e : List F) : Chunk F :=
  ⟨t, e, (buildRope a mcfg.attn t start).1, (buildRope a mcfg.attn t start).2⟩

theorem chunkOf_fits (start : ℕ) {t : ℕ} {e : List F} (he : e.length = t * mcfg.hidden) :
    (chunkOf a mcfg start t e).Fits mcfg.hidden mcfg.attn.rotaryDim :=
  ⟨he, (length_buildRope a mcfg.attn t start).1, (length_buildRope a mcfg.attn t start).2⟩

theorem chunkOf_append (start t t' : ℕ) (e e' : List F) :
    (chunkOf a mcfg start t e).append (chunkOf a mcfg (start + t) t' e') = chunkOf a mcfg start (t + t') (e ++ e') := by
  unfold chunkOf Chunk.append
  rw [buildRope_append]

theorem forwardCached_eq {cache : Cache F} (hcache : cache.Fits mcfg w) {ids : List ℕ} {e last : List F}
    {outs : List (List F)} {states : List (MixerState F)} (hne : ids ≠ [])
    (he : embed w.embedTokens mcfg.vocab mcfg.hidden ids = .ok e)
    (hr : runLayersCached a mcfg ids.length (buildRope a mcfg.attn ids.length cache.len) 0 w.layers cache.states e =
      (.ok (outs, last), states)) :
    forwardCached a mcfg w cache ids = (finish a mcfg w ids.length e outs last, ⟨states, cache.len + ids.length⟩) := by
  have hcount : ¬cache.states.length ≠ w.layers.length := fun h => h hcache.length_eq.symm
  unfold forwardCached
  dsimp only
  rw [if_neg fun h => hne (List.length_eq_zero_iff.mp h), if_neg hcount, he]
  dsimp only
  rw [hr]

/-- **What the model does on a piece**: it ends well, keeps the sizes, advances the cache, and goes on. -/
theorem forwardCached_resume (hw : WellShaped mcfg w) {cache : Cache F} (hcache : cache.Fits mcfg w) {ids : List ℕ}
    (hne : ids ≠ []) (hids : ∀ id ∈ ids, id < mcfg.vocab) :
    ∃ tr cache', forwardCached a mcfg w cache ids = (.ok tr, cache') ∧ tr.Sized mcfg w.layers.length ids.length ∧
      cache'.Fits mcfg w ∧ cache'.len = cache.len + ids.length ∧
      ∀ {ids' : List ℕ}, ids' ≠ [] → (∀ id ∈ ids', id < mcfg.vocab) → ∃ tr' cache'',
        forwardCached a mcfg w cache' ids' = (.ok tr', cache'') ∧
        forwardCached a mcfg w cache (ids ++ ids') = (.ok (tr.append tr'), cache'') := by
  obtain ⟨e, he, helen⟩ := embed_ok hw.embedTokens hids
  obtain ⟨outs, last, states, hrun, hcount, hsize, hlast, hfit, hrest⟩ :=
    runLayersCached_resume a 0 hw.layers hcache (chunkOf_fits a cache.len helen)
  obtain ⟨tr, htr, ht, hlayers, hlogits, hgoes⟩ := finish_resume a hw e outs hlast
  have hcall := forwardCached_eq a hcache hne he hrun
  refine ⟨tr, ⟨states, cache.len + ids.length⟩, ?_, ⟨ht, hlogits, ?_, ?_⟩, hfit, rfl, fun {ids'} hne' hids' => ?_⟩
  · rw [hcall]
    exact congrArg (·, _) htr
  · rw [hlayers, hcount]
  · rw [hlayers]
    exact hsize
  · obtain ⟨e', he', helen'⟩ := embed_ok hw.embedTokens hids'
    obtain ⟨outs', last', states', hlast', hrun', hboth⟩ := hrest _ (chunkOf_fits a _ helen')
    obtain ⟨tr', htr', hjoin⟩ := hgoes e' outs' hlast'
    have hfit' : (⟨states, cache.len + ids.length⟩ : Cache F).Fits mcfg w := hfit
    refine ⟨tr', ⟨states', cache.len + ids.length + ids'.length⟩, ?_, ?_⟩
    · rw [forwardCached_eq a hfit' hne' he' hrun']
      exact congrArg (·, _) htr'
    · have hemb : embed w.embedTokens mcfg.vocab mcfg.hidden (ids ++ ids') = .ok (e ++ e') := by
        rw [embed_append, he, he']
        rfl
      rw [chunkOf_append] at hboth
      have hboth' : runLayersCached a mcfg (ids ++ ids').length (buildRope a mcfg.attn (ids ++ ids').length cache.len) 0
          w.layers cache.states (e ++ e') = (.ok (outs.zipWith (· ++ ·) outs', last ++ last'), states') := by
        rw [List.length_append]
        exact hboth
      rw [forwardCached_eq a hcache (List.append_ne_nil_of_left_ne_nil hne ids') hemb hboth', List.length_append,
        ← Nat.add_assoc]
      exact congrArg (·, _) hjoin

/-- The full pass starts from the new cache. -/
theorem forward_eq_cached (hw : WellShaped mcfg w) {ids : List ℕ} {tr : ModelTrace F} {cache : Cache F} (hne : ids ≠ [])
    (h : forwardCached a mcfg w (Cache.new a mcfg w 1) ids = (.ok tr, cache)) : forward a mcfg w ids = .ok tr := by
  have hlen : ids.length ≠ 0 := fun h => hne (List.length_eq_zero_iff.mp h)
  have hcount : ¬(w.layers.map (LayerWeightsAll.newState a mcfg 1)).length ≠ w.layers.length := by simp
  have hsize : ¬mcfg.vocab * mcfg.hidden ≠ w.embedTokens.length := fun h => h hw.embedTokens.symm
  unfold forwardCached Cache.new at h
  dsimp only at h
  rw [if_neg hlen, if_neg hcount] at h
  unfold forward
  dsimp only
  rw [if_neg hlen, if_neg hsize]
  cases he : embed w.embedTokens mcfg.vocab mcfg.hidden ids with
  | error e =>
    rw [he] at h
    cases (Prod.mk.inj h).1
  | ok e =>
    rw [he] at h
    dsimp only at h
    cases hr : runLayersCached a mcfg ids.length (buildRope a mcfg.attn ids.length 0) 0 w.layers
      (w.layers.map (LayerWeightsAll.newState a mcfg 1)) e with
    | mk r states =>
      rw [hr] at h
      cases r with
      | error e' => cases (Prod.mk.inj h).1
      | ok p =>
        rw [ok_bind, runLayers_eq_cached a hr]
        exact (Prod.mk.inj h).1

/-! ### Pieces -/

/-- The traces of all pieces, one after another. -/
def ModelTrace.joined (tr : ModelTrace F) : List (ModelTrace F) → ModelTrace F
  | [] => tr
  | tr' :: trs => tr.append (tr'.joined trs)

theorem joined_logits : ∀ (trs : List (ModelTrace F)) (tr : ModelTrace F),
    (tr.joined trs).logits = (tr :: trs).flatMap (·.logits)
  | [], tr => (List.append_nil tr.logits).symm
  | tr' :: trs, tr => congrArg (tr.logits ++ ·) (joined_logits trs tr')

/-- Layer `i` of the joined trace has the outputs of layer `i` of each piece. -/
theorem joined_layers {k i : ℕ} (hi : i < k) : ∀ {trs : List (ModelTrace F)} {tr : ModelTrace F},
    (∀ tr' ∈ tr :: trs, tr'.layers.length = k) → (tr.joined trs).layers.length = k ∧
      (tr.joined trs).layers.getD i [] = (tr :: trs).flatMap fun tr' => tr'.layers.getD i []
  | [], tr, h => ⟨h tr (List.mem_cons_self ..), (List.append_nil _).symm⟩
  | tr' :: trs, tr, h => by
    obtain ⟨htr, htrs⟩ := List.forall_mem_cons.mp h
    obtain ⟨hlen, hlayer⟩ := joined_layers hi htrs
    have hboth : ((tr.joined (tr' :: trs)).layers).length = k := by
      unfold ModelTrace.joined ModelTrace.append
      rw [List.length_zipWith, htr, hlen, Nat.min_self]
    refine ⟨hboth, ?_⟩
    rw [List.flatMap_cons, ← hlayer, List.getD_eq_getElem _ _ (hboth ▸ hi), List.getD_eq_getElem _ _ (htr ▸ hi),
      List.getD_eq_getElem _ _ (hlen ▸ hi)]
    exact List.getElem_zipWith

/-- The pieces of a sequence give together what the sequence gives at once, and leave the same cache. -/
theorem decode_joined (hw : WellShaped mcfg w) : ∀ {pieces : List (List ℕ)} {p : List ℕ} {cache : Cache F},
    cache.Fits mcfg w → p ≠ [] → (∀ q ∈ pieces, q ≠ []) → (∀ id ∈ p ++ pieces.flatten, id < mcfg.vocab) →
    ∃ tr trs cache', decode a mcfg w cache (p :: pieces) = (.ok (tr :: trs), cache') ∧
      forwardCached a mcfg w cache (p ++ pieces.flatten) = (.ok (tr.joined trs), cache') ∧
      List.Forall₂ (fun tr p => tr.Sized mcfg w.layers.length p.length) (tr :: trs) (p :: pieces) ∧
      cache'.len = cache.len + (p ++ pieces.flatten).length
  | [], p, cache, hcache, hp, _, hids => by
    rw [List.flatten_nil, List.append_nil] at hids ⊢
    obtain ⟨tr, cache', hrun, hsize, -, hlen, -⟩ := forwardCached_resume a hw hcache hp hids
    refine ⟨tr, [], cache', ?_, hrun, .cons hsize .nil, hlen⟩
    rw [decode, hrun]
    rfl
  | q :: pieces, p, cache, hcache, hp, hpieces, hids => by
    obtain ⟨hq, hpieces⟩ := List.forall_mem_cons.mp hpieces
    rw [List.flatten_cons] at hids ⊢
    obtain ⟨hidp, hidq⟩ := List.forall_mem_append.mp hids
    obtain ⟨tr, cache1, hrun, hsize, hfit, hlen, hrest⟩ := forwardCached_resume a hw hcache hp hidp
    obtain ⟨tr', cache', hrest, hboth⟩ := hrest (List.append_ne_nil_of_left_ne_nil hq pieces.flatten) hidq
    obtain ⟨tr1, trs, cache2, hdecode, hrun', hsizes, hlen'⟩ := decode_joined hw hfit hq hpieces hidq
    obtain ⟨htr, rfl⟩ := Prod.mk.inj (hrest.symm.trans hrun')
    obtain rfl := Except.ok.inj htr
    refine ⟨tr, tr1 :: trs, cache', ?_, hboth, .cons hsize hsizes, ?_⟩
    · rw [decode, hrun]
      dsimp only
      rw [hdecode]
      rfl
    · have hsum := @List.length_append _ p (q ++ pieces.flatten)
      rw [hlen', hlen, hsum, Nat.add_assoc]

/-- A token outside the vocabulary is refused by its piece with the error of the full pass. -/
theorem decode_error (hw : WellShaped mcfg w) {e : Fault} : ∀ {pieces : List (List ℕ)} {cache : Cache F},
    cache.Fits mcfg w → (∀ q ∈ pieces, q ≠ []) →
    embed w.embedTokens mcfg.vocab mcfg.hidden pieces.flatten = .error e → (decode a mcfg w cache pieces).1 = .error e
  | [], _, _, _, h => (nomatch h)
  | p :: pieces, cache, hcache, hpieces, h => by
    obtain ⟨hp, hpieces⟩ := List.forall_mem_cons.mp hpieces
    rw [List.flatten_cons, embed_append] at h
    cases hemb : embed w.embedTokens mcfg.vocab mcfg.hidden p with
    | error e' =>
      rw [hemb] at h
      have hlen : p.length ≠ 0 := fun h => hp (List.length_eq_zero_iff.mp h)
      have hcount : ¬cache.states.length ≠ w.layers.length := fun h => h hcache.length_eq.symm
      have hrun : forwardCached a mcfg w cache p = (.error e', cache) := by
        unfold forwardCached
        dsimp only
        rw [if_neg hlen, if_neg hcount, hemb]
      obtain rfl : e' = e := Except.error.inj h
      rw [decode, hrun]
    | ok e0 =>
      rw [hemb, ok_bind] at h
      obtain ⟨tr, cache1, hrun, -, hfit, -, -⟩ := forwardCached_resume a hw hcache hp (embed_range hemb)
      have hrest : embed w.embedTokens mcfg.vocab mcfg.hidden pieces.flatten = .error e := by
        cases hr : embed w.embedTokens mcfg.vocab mcfg.hidden pieces.flatten with
        | error e' =>
          rw [hr] at h
          exact h
        | ok e1 =>
          rw [hr] at h
          cases h
      rw [decode, hrun]
      dsimp only
      rw [decode_error hw hfit hpieces hrest]
      rfl

theorem forward_refuses (hw : WellShaped mcfg w) {ids : List ℕ} {e : Fault} (hne : ids ≠ [])
    (h : embed w.embedTokens mcfg.vocab mcfg.hidden ids = .error e) : forward a mcfg w ids = .error e := by
  have hlen : ids.length ≠ 0 := fun h => hne (List.length_eq_zero_iff.mp h)
  have hsize : ¬mcfg.vocab * mcfg.hidden ≠ w.embedTokens.length := fun h => h hw.embedTokens.symm
  unfold forward
  dsimp only
  rw [if_neg hlen, if_neg hsize, h]
  rfl

theorem forward_error (hw : WellShaped mcfg w) {ids : List ℕ} {e : Fault} (hne : ids ≠ [])
    (h : forward a mcfg w ids = .error e) : embed w.embedTokens mcfg.vocab mcfg.hidden ids = .error e := by
  cases hemb : embed w.embedTokens mcfg.vocab mcfg.hidden ids with
  | error e' =>
    obtain rfl : e' = e := Except.error.inj ((forward_refuses a hw hne hemb).symm.trans h)
    rfl
  | ok e0 =>
    obtain ⟨tr, cache, hrun, -⟩ := forwardCached_resume a hw (Cache.new_fits a) hne (embed_range hemb)
    rw [forward_eq_cached a hw hne hrun] at h
    cases h

/-- **Cached decoding is the full pass.** -/
theorem decode_eq_forward (hw : WellShaped mcfg w) {pieces : List (List ℕ)} (hp : ∀ p ∈ pieces, p ≠ []) :
    (∀ full, forward a mcfg w pieces.flatten = .ok full → ∃ trs cache,
      decode a mcfg w (Cache.new a mcfg w 1) pieces = (.ok trs, cache) ∧
      full.logits = trs.flatMap (·.logits) ∧
      (∀ i < w.layers.length, full.layers.getD i [] = trs.flatMap fun tr => tr.layers.getD i []) ∧
      full.Sized mcfg w.layers.length pieces.flatten.length ∧
      List.Forall₂ (fun tr p => tr.Sized mcfg w.layers.length p.length) trs pieces ∧
      cache.len = pieces.flatten.length) ∧
    (∀ e, forward a mcfg w pieces.flatten = .error e → pieces = [] ∨
      (decode a mcfg w (Cache.new a mcfg w 1) pieces).1 = .error e ∧ ∃ id ∈ pieces.flatten, mcfg.vocab ≤ id) := by
  cases pieces with
  | nil => exact ⟨fun full h => (nomatch h), fun e _ => .inl rfl⟩
  | cons p pieces =>
    have hall := List.forall_mem_cons.mp hp
    have hne : (p :: pieces).flatten ≠ [] := List.append_ne_nil_of_left_ne_nil hall.1 pieces.flatten
    refine ⟨fun full h => ?_, fun e h => .inr ?_⟩
    · have hids : ∀ id ∈ (p :: pieces).flatten, id < mcfg.vocab := by
        cases hemb : embed w.embedTokens mcfg.vocab mcfg.hidden (p :: pieces).flatten with
        | ok e => exact embed_range hemb
        | error e =>
          rw [forward_refuses a hw hne hemb] at h
          cases h
      obtain ⟨tr, trs, cache, hdecode, hrun, hsizes, hlen⟩ :=
        decode_joined a hw (Cache.new_fits a) hall.1 hall.2 hids
      have hfull : forward a mcfg w (p :: pieces).flatten = .ok (tr.joined trs) := forward_eq_cached a hw hne hrun
      obtain rfl : full = tr.joined trs := Except.ok.inj (h.symm.trans hfull)
      obtain ⟨tr', cache', hwhole, hsize, -⟩ := forwardCached_resume a hw (Cache.new_fits a) hne hids
      obtain rfl : tr.joined trs = tr' := Except.ok.inj (Prod.mk.inj (hrun.symm.trans hwhole)).1
      have hcount : ∀ tr' ∈ tr :: trs, tr'.layers.length = w.layers.length :=
        ((List.forall₂_and_left _ _).mp (hsizes.imp fun _ _ h => ⟨h.count, h⟩)).1
      refine ⟨tr :: trs, cache, hdecode, joined_logits trs tr, fun i hi => (joined_layers hi hcount).2, hsize, hsizes, ?_⟩
      rw [hlen]
      exact Nat.zero_add _
    · have hemb := forward_error a hw hne h
      exact ⟨decode_error a hw (Cache.new_fits a) hp hemb, embed_error hw.embedTokens hemb⟩

end Model

/-! ### A small model -/

/-- Two tokens, a linear-attention layer with two value heads over one key head, and a full-attention layer. -/
def smallConfig : ModelConfig ℤ where
  vocab := 2
  hidden := 1
  eps := 1
  gdn := ⟨1, 1, 2, 1, 1, 2, 1⟩
  attn := ⟨1, 2, 1, 2, 2, 2, 1⟩

/-- The norms and the MLP of a layer. -/
def smallLayer : LayerWeights ℤ := ⟨[1], [1], ⟨[1, 2], [2, 1], [1, 1]⟩⟩

def smallWeights : ModelWeights ℤ where
  embedTokens := [3, 5]
  finalNorm := [1]
  lmHead := [1, 2]
  layers :=
    [⟨.linearAttention, smallLayer,
        some ⟨[1, 2, 3, 4], [1, 2], [1, 1], [2, 1], [1, 2, 3, 4, 5, 6, 7, 8], [1, 1], [1, 2], [1], [1, 1]⟩, none⟩,
      ⟨.fullAttention, smallLayer, none,
        some ⟨[1, 2, 3, 4, 5, 6, 7, 8], [1, 2], [2, 1], [1, 2, 3, 4], [1, 1], [1, 1]⟩⟩]

theorem smallWeights_wellShaped : WellShaped smallConfig smallWeights := by
  have hlayer : smallLayer.Shaped smallConfig.hidden := by constructor <;> decide
  refine ⟨rfl, rfl, rfl, List.forall_mem_cons.mpr ⟨⟨hlayer, _, rfl, rfl, ?_⟩, List.forall_mem_cons.mpr
    ⟨⟨hlayer, _, rfl, rfl, rfl, ?_⟩, fun _ h => (nomatch h)⟩⟩⟩
  · constructor <;> decide
  · constructor <;> decide

theorem decode_eq_forward_small : ∃ full trs cache, forward intArith smallConfig smallWeights [0, 1, 0] = .ok full ∧
    decode intArith smallConfig smallWeights (Cache.new intArith smallConfig smallWeights 1) [[0], [1, 0]] =
      (.ok trs, cache) ∧ full.logits = trs.flatMap (·.logits) ∧ cache.len = 3 := by
  have hspec := decode_eq_forward intArith smallWeights_wellShaped
    (show ∀ p ∈ [[0], [1, 0]], p ≠ [] by decide)
  cases hrun : forward intArith smallConfig smallWeights [0, 1, 0] with
  | error e =>
    rcases hspec.2 e hrun with hnil | ⟨-, hid⟩
    · cases hnil
    · exact absurd hid (by decide)
  | ok full =>
    obtain ⟨trs, cache, hdecode, hlogits, -, -, -, hlen⟩ := hspec.1 full hrun
    exact ⟨full, trs, cache, rfl, hdecode, hlogits, hlen⟩

end Qwen
end Siphon
