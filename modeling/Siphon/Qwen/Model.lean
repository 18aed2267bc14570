/-
# Layers and the whole model

The decoder layer of `gdn/src/layer.rs` (norm, mixer, residual, norm, MLP,
residual) and the model of `gdn/src/model.rs`: `forward` runs the stack over a
whole sequence, `forwardCached` over the next chunk of one, with one mixer
state for each layer carried in a `Cache`.

A call on a cache may end with an error after some layers have advanced, so
`forwardCached` gives the cache it leaves in either case.
-/
import Siphon.Qwen.Attention
import Siphon.Qwen.Gdn

namespace Siphon
namespace Qwen

open Rows Fallible Gdn Attention

variable {F D : Type} (a : Arith F D)

/-! ### The layer -/

/-- `MlpWeights` -/
structure MlpWeights (F : Type) where
  gateProj : List F
  upProj : List F
  downProj : List F

/-- `mlp_forward` -/
def mlpForward (w : MlpWeights F) (x : List F) (n hidden intermediate : ℕ) : Except Fault (List F) := do
  let gate ← linear a w.gateProj none x n hidden intermediate
  let up ← linear a w.upProj none x n hidden intermediate
  let product := gate.zipWith (fun g u => a.mul (silu a g) u) up
  linear a w.downProj none product n intermediate hidden

/-- `Mixer` -/
inductive Mixer (F : Type) where
  | linearAttention (cfg : GdnConfig F) (w : GdnWeights F)
  | fullAttention (cfg : AttnConfig F) (w : AttnWeights F)

/-- `MixerState` -/
inductive MixerState (F : Type) where
  | linearAttention (st : GdnState F)
  | fullAttention (st : AttnState F)

/-- `LayerWeights` -/
structure LayerWeights (F : Type) where
  inputLayernorm : List F
  postAttentionLayernorm : List F
  mlp : MlpWeights F

/-- `layer_forward_from_mixer` -/
def layerForwardFromMixer (lw : LayerWeights F) (layerInput inputLayernormOut mixerOut : List F) (n : ℕ) (eps : F) :
    Except Fault (List F) := do
  let hidden := lw.inputLayernorm.length
  require (layerInput.length = n * hidden) "layer input size"
  require (mixerOut.length = n * hidden) "mixer output size"
  require (inputLayernormOut.length = n * hidden) "layernorm output size"
  let afterFirst := layerInput.zipWith a.add mixerOut
  let postLn ← rmsnorm1plus a lw.postAttentionLayernorm afterFirst n hidden eps
  require (hidden ≠ 0) "attempt to divide by zero"
  let intermediate := lw.mlp.gateProj.length / hidden
  let down ← mlpForward a lw.mlp postLn n hidden intermediate
  .ok (afterFirst.zipWith a.add down)

/-- The mixer of a layer, with the state it continues from. -/
def mixerForward (mixer : Mixer F) (ln : List F) (b t : ℕ) (rope : Option (List F × List F))
    (state : Option (MixerState F)) : Except Fault (List F × Option (MixerState F)) :=
  match mixer, state with
  | .linearAttention cfg gw, none => do
    let out ← Gdn.forward a cfg gw ln b t
    .ok (out, none)
  | .linearAttention cfg gw, some (.linearAttention st) => do
    let (out, st') ← Gdn.forwardWithState a cfg gw ln b t st
    .ok (out, some (.linearAttention st'))
  | .fullAttention cfg aw, st =>
    match rope with
    | none => .error .needsRope
    | some (cos, sin) =>
      match st with
      | none => do
        let out ← Attention.forward a cfg aw ln b t cos sin
        .ok (out, none)
      | some (.fullAttention st) => do
        let (out, st') ← Attention.forwardWithState a cfg aw ln b t cos sin st
        .ok (out, some (.fullAttention st'))
      | some (.linearAttention _) => .error .linearStateForFull
  | .linearAttention _ _, some (.fullAttention _) => .error .fullStateForLinear

/-- `layer_forward_inner`: the layer's output, and the advanced state if there was one. -/
def layerForwardInner (mixer : Mixer F) (lw : LayerWeights F) (hiddenIn : List F) (b t : ℕ) (eps : F)
    (rope : Option (List F × List F)) (state : Option (MixerState F)) :
    Except Fault (List F × Option (MixerState F)) := do
  let n := b * t
  let hidden := lw.inputLayernorm.length
  require (hiddenIn.length = n * hidden) "layer input size"
  let ln ← rmsnorm1plus a lw.inputLayernorm hiddenIn n hidden eps
  let (mixerOut, next) ← mixerForward a mixer ln b t rope state
  let out ← layerForwardFromMixer a lw hiddenIn ln mixerOut n eps
  .ok (out, next)

/-! ### The model -/

/-- `LayerKind` -/
inductive LayerKind where
  | linearAttention
  | fullAttention
  deriving DecidableEq

/-- `ModelConfig` -/
structure ModelConfig (F : Type) where
  vocab : ℕ
  hidden : ℕ
  eps : F
  gdn : GdnConfig F
  attn : AttnConfig F

/-- `LayerWeightsAll` -/
structure LayerWeightsAll (F : Type) where
  kind : LayerKind
  layer : LayerWeights F
  gdn : Option (GdnWeights F)
  attn : Option (AttnWeights F)

/-- `LayerWeightsAll::mixer` -/
def LayerWeightsAll.mixer (lw : LayerWeightsAll F) (mcfg : ModelConfig F) : Except Fault (Mixer F) :=
  match lw.kind with
  | .linearAttention => do
    let w ← orElse .noGdnWeights lw.gdn
    .ok (.linearAttention mcfg.gdn w)
  | .fullAttention => do
    let w ← orElse .noAttnWeights lw.attn
    .ok (.fullAttention mcfg.attn w)

/-- `ModelWeights` -/
structure ModelWeights (F : Type) where
  embedTokens : List F
  finalNorm : List F
  lmHead : List F
  layers : List (LayerWeightsAll F)

/-- `ModelTrace`, with the output of each layer. -/
structure ModelTrace (F : Type) where
  embedding : List F
  layers : List (List F)
  finalNorm : List F
  logits : List F
  t : ℕ
  vocab : ℕ

/-- `embed` -/
def embed (w : List F) (vocab hidden : ℕ) : List ℕ → Except Fault (List F)
  | [] => .ok []
  | id :: ids => do
    if vocab ≤ id then .error (.tokenRange id vocab)
    require ((id + 1) * hidden ≤ w.length) "embedding row"
    let rest ← embed w vocab hidden ids
    .ok (row w hidden id ++ rest)

/-- One round of the layer loop: layer `i`, with its error under the layer's number. -/
def layerAt (mcfg : ModelConfig F) (t : ℕ) (rope : List F × List F) (i : ℕ) (lw : LayerWeightsAll F) (h : List F)
    (state : Option (MixerState F)) : Except Fault (List F × Option (MixerState F)) :=
  Except.mapError (.layer i) do
    let mixer ← lw.mixer mcfg
    layerForwardInner a mixer lw.layer h 1 t mcfg.eps (some rope) state

/-- The layer loop of `forward`: the output of each layer, and the last one. -/
def runLayers (mcfg : ModelConfig F) (t : ℕ) (rope : List F × List F) :
    ℕ → List (LayerWeightsAll F) → List F → Except Fault (List (List F) × List F)
  | _, [], h => .ok ([], h)
  | i, lw :: lws, h => do
    let (out, _) ← layerAt a mcfg t rope i lw h none
    let (outs, last) ← runLayers mcfg t rope (i + 1) lws out
    .ok (out :: outs, last)

/-- The end of a pass: the final norm and the head. -/
def finish (mcfg : ModelConfig F) (w : ModelWeights F) (t : ℕ) (embedding : List F) (layers : List (List F)) (h : List F) :
    Except Fault (ModelTrace F) := do
  let n := 1 * t
  let finalNorm ← rmsnorm1plus a w.finalNorm h n mcfg.hidden mcfg.eps
  let logits ← linear a w.lmHead none finalNorm n mcfg.hidden mcfg.vocab
  .ok ⟨embedding, layers, finalNorm, logits, t, mcfg.vocab⟩

/-- `forward` -/
def forward (mcfg : ModelConfig F) (w : ModelWeights F) (inputIds : List ℕ) : Except Fault (ModelTrace F) := do
  let t := inputIds.length
  if t = 0 then .error .emptyInput
  if mcfg.vocab * mcfg.hidden ≠ w.embedTokens.length then
    .error (.embedSize w.embedTokens.length (mcfg.vocab * mcfg.hidden))
  let embedding ← embed w.embedTokens mcfg.vocab mcfg.hidden inputIds
  let rope := buildRope a mcfg.attn t 0
  let (layers, h) ← runLayers a mcfg t rope 0 w.layers embedding
  finish a mcfg w t embedding layers h

/-! ### The cache -/

/-- `Cache` -/
structure Cache (F : Type) where
  states : List (MixerState F)
  len : ℕ

/-- The state a layer starts from. -/
def LayerWeightsAll.newState (mcfg : ModelConfig F) (b : ℕ) (lw : LayerWeightsAll F) : MixerState F :=
  match lw.kind with
  | .linearAttention => .linearAttention (GdnState.new a mcfg.gdn b)
  | .fullAttention => .fullAttention AttnState.new

/-- `Cache::new` -/
def Cache.new (mcfg : ModelConfig F) (w : ModelWeights F) (b : ℕ) : Cache F :=
  ⟨w.layers.map (LayerWeightsAll.newState a mcfg b), 0⟩

/-- The layer loop of `forward_cached`, with the states it leaves. -/
def runLayersCached (mcfg : ModelConfig F) (t : ℕ) (rope : List F × List F) :
    ℕ → List (LayerWeightsAll F) → List (MixerState F) → List F →
      Except Fault (List (List F) × List F) × List (MixerState F)
  | _, [], states, h => (.ok ([], h), states)
  | _, _ :: _, [], _ => (.error (.panic "cache state index"), [])
  | i, lw :: lws, st :: states, h =>
    match layerAt a mcfg t rope i lw h (some st) with
    | .error e => (.error e, st :: states)
    | .ok (out, next) =>
      let r := runLayersCached mcfg t rope (i + 1) lws states out
      (r.1.map fun p => (out :: p.1, p.2), next.getD st :: r.2)

/-- `forward_cached` -/
def forwardCached (mcfg : ModelConfig F) (w : ModelWeights F) (cache : Cache F) (tokens : List ℕ) :
    Except Fault (ModelTrace F) × Cache F :=
  let t := tokens.length
  let start := cache.len
  if t = 0 then (.error .emptyChunk, cache)
  else if cache.states.length ≠ w.layers.length then
    (.error (.cacheSize cache.states.length w.layers.length), cache)
  else match embed w.embedTokens mcfg.vocab mcfg.hidden tokens with
    | .error e => (.error e, cache)
    | .ok embedding =>
      let rope := buildRope a mcfg.attn t start
      match runLayersCached a mcfg t rope 0 w.layers cache.states embedding with
      | (.error e, states) => (.error e, { cache with states })
      | (.ok (layers, h), states) => (finish a mcfg w t embedding layers h, ⟨states, start + t⟩)

/-- `forward_cached` on chunks, one after another. -/
def decode (mcfg : ModelConfig F) (w : ModelWeights F) : Cache F → List (List ℕ) →
    Except Fault (List (ModelTrace F)) × Cache F
  | cache, [] => (.ok [], cache)
  | cache, piece :: pieces =>
    match forwardCached a mcfg w cache piece with
    | (.error e, cache') => (.error e, cache')
    | (.ok tr, cache') =>
      let r := decode mcfg w cache' pieces
      (r.1.map (tr :: ·), r.2)

end Qwen
end Siphon
