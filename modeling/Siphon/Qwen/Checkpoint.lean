/-
# Loading a checkpoint

`load` of `gdn/src/real.rs` takes a `config.json` and the shards of a directory
to the configuration and the weights of the forward pass. It reads sizes off
the first axes of some tensors, others from the configuration, compares some
of the ones with some of the others, and asks each tensor for the number of
values that goes with them.

A shape that is indexed beyond its rank and a remainder by zero are panics
(`LoadFault.panic`). Products wrap, as in a release build. A float is printed
by `Display`, which is a parameter of the messages.

Key definitions: `detectPrefix`, `readSizes`, `crossCheck`, `readLayer`, `load`.
-/
import Siphon.Qwen.Model
import Siphon.Qwen.Shard

namespace Siphon
namespace Qwen
namespace Checkpoint

open U64 Fallible Stloader Safetensors Ieee Gdn Attention

/-! ### Errors -/

/-- Why a checkpoint is refused. -/
inductive LoadError where
  | noConfig
  | readConfig (e : String)
  | parseConfig (e : String)
  | modelType (modelType : String)
  | openModel (e : ModelError)
  | noEmbedding
  | ambiguous (found : List String)
  | noLayerTypes
  | noKey (key : String)
  | fewLayerTypes (entries layers : ℕ)
  | missing (name : String)
  | embeddingShape (name : String) (shape : List ℕ)
  | oneKind
  | convNoAxes
  | convBelowValue
  | disagree (problems : List String)
  | rotary (rotaryDim headDim : ℕ) (factor : F32)
  | noHead
  | unknownType (layer : ℕ) (other : String)
  | layerTypesShort (layer : ℕ)
  | tensor (e : TensorError)
  | count (name : String) (got want : ℕ)

/-- How a load ends without a model. -/
inductive LoadFault where
  | err (e : LoadError)
  | panic (what : String)

/-- `{found:?}` -/
def debugStrings (found : List String) : String := "[" ++ ", ".intercalate (found.map String.quote) ++ "]"

def LoadError.message (display : F32 → String) (dir : String) : LoadError → String
  | noConfig => dir ++ ": no config.json"
  | readConfig e => dir ++ "/config.json: " ++ e
  | parseConfig e => dir ++ "/config.json: " ++ e
  | modelType t => "model_type is \x60" ++ t ++ "\x60; this forward pass implements qwen3_5"
  | openModel e => e.message dir
  | noEmbedding => "no tensor ending in \x60embed_tokens.weight\x60"
  | ambiguous found =>
    "ambiguous: " ++ toString found.length ++ " tensors end in \x60embed_tokens.weight\x60 (" ++ debugStrings found ++ ")"
  | noLayerTypes => "config has no layer_types; cannot tell linear from full layers"
  | noKey key => "config has no " ++ key
  | fewLayerTypes entries layers =>
    "layer_types has " ++ toString entries ++ " entries but num_hidden_layers is " ++ toString layers
  | missing name => "missing tensor " ++ name
  | embeddingShape name shape => name ++ " has shape " ++ toString shape ++ ", expected 2 axes"
  | oneKind => "the checkpoint has only one kind of layer; nothing to cross-check against"
  | convNoAxes => "conv1d weight has no axes"
  | convBelowValue => "conv_dim < value_dim"
  | disagree problems =>
    "the config and the tensor shapes disagree, so one of them is not what the forward pass should use:\n  " ++
      "\n  ".intercalate problems
  | rotary rotaryDim headDim factor =>
    "rotary_dim " ++ toString rotaryDim ++ " (head_dim " ++ toString headDim ++ " * partial " ++ display factor ++
      ") is not a positive even number <= head_dim"
  | noHead => "tie_word_embeddings is false and the checkpoint has no lm_head.weight"
  | unknownType layer other => "layer " ++ toString layer ++ ": unknown layer type " ++ other
  | layerTypesShort layer => "layer " ++ toString layer ++ ": layer_types is too short"
  | tensor e => e.message
  | count name got want => name ++ ": got " ++ toString got ++ " values, expected " ++ toString want

/-- `shape[i]` -/
def index (shape : List ℕ) (i : ℕ) : Except LoadFault ℕ := orElse (.panic "index out of bounds") shape[i]?

/-- `a % b` -/
def remainder (a b : ℕ) : Except LoadFault ℕ :=
  if b = 0 then .error (.panic "attempt to calculate the remainder with a divisor of zero") else .ok (a % b)

/-! ### The configuration -/

/-- `Value::as_f64` -/
def asF64? : Value → Option F64
  | .number (.posInt n) => some (ofNat n.toNat)
  | .number (.negInt i) => some (ofRat (i.toInt < 0) i.toInt)
  | .number (.float bits) => some (ofBits (2 ^ 63 ≤ bits.toNat) (bits.toNat % 2 ^ 63))
  | _ => none

/-- `Value::as_bool` -/
def asBool? : Value → Option Bool
  | .bool b => some b
  | _ => none

/-- `x as usize` -/
def toUsize : F32 → ℕ
  | .finite false b => min ⌊toRat (.finite false b : F32)⌋₊ maxValue
  | .infinite false => maxValue
  | _ => 0

/-- `cfg_usize` -/
def cfgUsize (cfg : Value) (key : String) : Option ℕ := (get cfg key).bind Value.asU64?

/-- `cfg_usize(..).ok_or(..)?` -/
def need (cfg : Value) (key : String) : Except LoadFault ℕ := orElse (.err (.noKey key)) (cfgUsize cfg key)

/-- `text_config` -/
def textConfig (root : Value) : Value × String :=
  match get root "text_config" with
  | some t => if t.asObject?.isSome then (t, "text_config") else (root, "top level")
  | none => (root, "top level")

def modelTypeOf (root : Value) : String :=
  (((get (textConfig root).1 "model_type").or (get root "model_type")).bind Value.asStr?).getD ""

/-- The strings of `layer_types`; entries of another kind are passed over. -/
def layerTypesOf (tc : Value) : List String :=
  (((get tc "layer_types").bind Value.asArray?).map fun a => a.filterMap Value.asStr?).getD []

/-- `kind_of` -/
def kindOf (layerTypes : List String) (layer : ℕ) : Except LoadFault LayerKind :=
  match layerTypes[layer]? with
  | some t =>
    if t = "linear_attention" then .ok .linearAttention
    else if t = "full_attention" then .ok .fullAttention
    else .error (.err (.unknownType layer t))
  | none => .error (.err (.layerTypesShort layer))

/-- The first layer of a kind. -/
def firstOf (layerTypes : List String) (numLayers : ℕ) (kind : LayerKind) : Option ℕ :=
  (List.range numLayers).find? fun l => (kindOf layerTypes l).toOption = some kind

/-! ### The tensors -/

/-- `Model::names` -/
def names (m : Safetensors.Model) : List String := m.index.keys.insertionSort (· ≤ ·)

/-- `Model::entry` -/
def entry (m : Safetensors.Model) (name : String) : Option Entry := (m.index.lookup name).map (·.2)

/-- `Model::contains` -/
def contains (m : Safetensors.Model) (name : String) : Bool := (m.index.lookup name).isSome

/-- What stands before the end of a name. -/
def stripSuffix (suffix name : String) : Option String :=
  if suffix.toList <:+ name.toList then
    some (String.ofList (name.toList.take (name.toList.length - suffix.toList.length)))
  else none

/-- `detect_prefix` -/
def detectPrefix (m : Safetensors.Model) : Except LoadFault String :=
  match (names m).filterMap (stripSuffix "embed_tokens.weight") with
  | [] => .error (.err .noEmbedding)
  | [base] => .ok base
  | found => .error (.err (.ambiguous (found.map (· ++ "embed_tokens.weight"))))

/-- `is_unused` -/
def isUnused (name : String) : Option String :=
  if "model.visual.".toList <+: name.toList ∨ "visual.".toList <+: name.toList then some "vision tower"
  else if "mtp.".toList <+: name.toList then some "multi-token-prediction head"
  else none

/-- `shape_of` -/
def shapeOf (m : Safetensors.Model) (name : String) : Except LoadFault (List ℕ) :=
  orElse (.err (.missing name)) ((entry m name).map Entry.shape)

/-- `shape_of(..)?[0]` -/
def firstAxis (m : Safetensors.Model) (name : String) : Except LoadFault ℕ := do
  let shape ← shapeOf m name
  index shape 0

/-- `f32::from_bits` -/
def f32OfBits (bits : ℕ) : F32 := ofBits (2 ^ 31 ≤ bits) (bits % 2 ^ 31)

/-- `want` -/
def want (m : Safetensors.Model) (name : String) (expect : ℕ) : Except LoadFault (List F32) := do
  let r ← orElse (.panic "range end index out of range") (m.tensor name)
  let v ← r.mapError fun e => .err (.tensor e)
  if v.length ≠ expect then .error (.err (.count name v.length expect)) else .ok (v.map f32OfBits)

/-! ### The sizes -/

/-- What is read of the first linear layer. -/
structure LinearShapes where
  convDim : ℕ
  valueDim : ℕ
  numVHeads : ℕ
  headVDim : ℕ
  convKernel : ℕ

/-- What the configuration says of the full layers. -/
structure AttnHeads where
  headDim : ℕ
  numHeads : ℕ
  numKvHeads : ℕ

/-- What the configuration says of the linear layers. -/
structure LinearHeads where
  numKHeads : ℕ
  numVHeads : ℕ
  headKDim : ℕ
  headVDim : ℕ

structure Sizes where
  vocab : ℕ
  hidden : ℕ
  intermediate : ℕ
  numLayers : ℕ
  linear : LinearShapes
  heads : AttnHeads
  qOut : ℕ
  kvOut : ℕ
  keyDim : ℕ
  config : LinearHeads

def readLinear (m : Safetensors.Model) (lin : String) : Except LoadFault LinearShapes := do
  let convDim ← firstAxis m (lin ++ "in_proj_qkv.weight")
  let valueDim ← firstAxis m (lin ++ "in_proj_z.weight")
  let numVHeads ← firstAxis m (lin ++ "in_proj_b.weight")
  let headVDim ← firstAxis m (lin ++ "norm.weight")
  let convShape ← shapeOf m (lin ++ "conv1d.weight")
  let convKernel ← orElse (.err .convNoAxes) convShape.getLast?
  .ok ⟨convDim, valueDim, numVHeads, headVDim, convKernel⟩

def readAttnHeads (tc : Value) : Except LoadFault AttnHeads := do
  let headDim ← need tc "head_dim"
  let numHeads ← need tc "num_attention_heads"
  let numKvHeads ← need tc "num_key_value_heads"
  .ok ⟨headDim, numHeads, numKvHeads⟩

def readLinearHeads (tc : Value) : Except LoadFault LinearHeads := do
  let numKHeads ← need tc "linear_num_key_heads"
  let numVHeads ← need tc "linear_num_value_heads"
  let headKDim ← need tc "linear_key_head_dim"
  let headVDim ← need tc "linear_value_head_dim"
  .ok ⟨numKHeads, numVHeads, headKDim, headVDim⟩

def layerName (base : String) (layer : ℕ) : String := base ++ "layers." ++ toString layer ++ "."

/-- `num_layers`, of enough `layer_types` -/
def readLayerCount (tc : Value) : Except LoadFault ℕ :=
  if layerTypesOf tc = [] then .error (.err .noLayerTypes)
  else do
    let numLayers ← need tc "num_hidden_layers"
    if (layerTypesOf tc).length < numLayers then
      .error (.err (.fewLayerTypes (layerTypesOf tc).length numLayers))
    else .ok numLayers

/-- `(vocab, hidden)` -/
def readEmbedding (m : Safetensors.Model) (base : String) : Except LoadFault (ℕ × ℕ) := do
  let shape ← shapeOf m (base ++ "embed_tokens.weight")
  match shape with
  | [vocab, hidden] => .ok (vocab, hidden)
  | _ => .error (.err (.embeddingShape (base ++ "embed_tokens.weight") shape))

/-- `(first_linear, first_full)` -/
def firstLayers (layerTypes : List String) (numLayers : ℕ) : Except LoadFault (ℕ × ℕ) :=
  match firstOf layerTypes numLayers .linearAttention, firstOf layerTypes numLayers .fullAttention with
  | some firstLinear, some firstFull => .ok (firstLinear, firstFull)
  | _, _ => .error (.err .oneKind)

def linName (base : String) (layer : ℕ) : String := layerName base layer ++ "linear_attn."

def attName (base : String) (layer : ℕ) : String := layerName base layer ++ "self_attn."

/-- The sizes, of the tensors and of the configuration, and the first full layer. -/
def readSizes (tc : Value) (m : Safetensors.Model) (base : String) : Except LoadFault (Sizes × ℕ) := do
  let numLayers ← readLayerCount tc
  let emb ← readEmbedding m base
  let intermediate ← firstAxis m (layerName base 0 ++ "mlp.gate_proj.weight")
  let first ← firstLayers (layerTypesOf tc) numLayers
  let linear ← readLinear m (linName base first.1)
  let heads ← readAttnHeads tc
  let qOut ← firstAxis m (attName base first.2 ++ "q_proj.weight")
  let kvOut ← firstAxis m (attName base first.2 ++ "k_proj.weight")
  let keyDim ← orElse (.err .convBelowValue) ((checkedSub linear.convDim linear.valueDim).map (· / 2))
  let config ← readLinearHeads tc
  .ok (⟨emb.1, emb.2, intermediate, numLayers, linear, heads, qOut, kvOut, keyDim, config⟩, first.2)

/-- `check!` -/
def check (what : String) (fromConfig fromShapes : ℕ) : List String :=
  if fromConfig ≠ fromShapes then
    [what ++ ": config says " ++ toString fromConfig ++ ", the tensors imply " ++ toString fromShapes]
  else []

/-- The cross-checks that need no other tensor. -/
def Sizes.problems (s : Sizes) : List String :=
  check "num_v_heads" s.config.numVHeads s.linear.numVHeads ++
  check "head_v_dim" s.config.headVDim s.linear.headVDim ++
  check "key_dim = num_k_heads * head_k_dim" (wrappingMul s.config.numKHeads s.config.headKDim) s.keyDim ++
  check "value_dim = num_v_heads * head_v_dim" (wrappingMul s.config.numVHeads s.config.headVDim) s.linear.valueDim ++
  check "conv_dim = 2*key_dim + value_dim" ((wrappingMul 2 s.keyDim + s.linear.valueDim) % 2 ^ 64) s.linear.convDim ++
  check "q_proj out = num_heads * head_dim * 2" (wrappingMul (wrappingMul s.heads.numHeads s.heads.headDim) 2) s.qOut ++
  check "k_proj out = num_kv_heads * head_dim" (wrappingMul s.heads.numKvHeads s.heads.headDim) s.kvOut

/-- The cross-checks. -/
def crossCheck (m : Safetensors.Model) (att : String) (s : Sizes) : Except LoadFault Unit := do
  let groups ← remainder s.heads.numHeads s.heads.numKvHeads
  let heads := if groups ≠ 0 then
      ["num_attention_heads " ++ toString s.heads.numHeads ++ " is not a multiple of num_key_value_heads " ++
        toString s.heads.numKvHeads]
    else []
  let ratio ← remainder s.linear.numVHeads s.config.numKHeads
  let linearHeads := if ratio ≠ 0 then
      ["num_v_heads " ++ toString s.linear.numVHeads ++ " is not a multiple of num_k_heads " ++
        toString s.config.numKHeads]
    else []
  let oShape ← shapeOf m (att ++ "o_proj.weight")
  let oIn ← index oShape 1
  let oOut ← index oShape 0
  let problems := s.problems ++ heads ++ linearHeads ++
    check "o_proj in = num_heads * head_dim" oIn (wrappingMul s.heads.numHeads s.heads.headDim) ++
    check "o_proj out = hidden" oOut s.hidden
  if problems ≠ [] then .error (.err (.disagree problems)) else .ok ()

/-! ### The weights -/

/-- The rotary settings: `rope_theta` and `rotary_dim` -/
def readRope (tc : Value) (headDim : ℕ) : Except LoadFault (F32 × ℕ) :=
  let rope := get tc "rope_parameters"
  let ropeTheta := convert ⟨23, 127⟩ (((rope.bind (get · "rope_theta")).bind asF64?).getD (ofNat 10000))
  let factor := convert ⟨23, 127⟩ (((rope.bind (get · "partial_rotary_factor")).bind asF64?).getD (ofNat 1))
  let rotaryDim := toUsize (mul (ofNat headDim) factor)
  if rotaryDim = 0 ∨ headDim < rotaryDim ∨ rotaryDim % 2 ≠ 0 then .error (.err (.rotary rotaryDim headDim factor))
  else .ok (ropeTheta, rotaryDim)

/-- `eps` -/
def readEps (tc : Value) : Except LoadFault F32 :=
  orElse (.err (.noKey "rms_norm_eps")) (((get tc "rms_norm_eps").bind asF64?).map (convert ⟨23, 127⟩))

/-- `lm_name` -/
def lmName (tc : Value) (m : Safetensors.Model) (base : String) : Except LoadFault String :=
  if contains m (base ++ "lm_head.weight") then .ok (base ++ "lm_head.weight")
  else if contains m "lm_head.weight" then .ok "lm_head.weight"
  else if ((get tc "tie_word_embeddings").bind asBool?).getD true then .ok (base ++ "embed_tokens.weight")
  else .error (.err .noHead)

def readGdn (m : Safetensors.Model) (lp : String) (s : Sizes) : Except LoadFault (GdnWeights F32) := do
  let inProjQkv ← want m (lp ++ "in_proj_qkv.weight") (wrappingMul s.linear.convDim s.hidden)
  let inProjZ ← want m (lp ++ "in_proj_z.weight") (wrappingMul s.linear.valueDim s.hidden)
  let inProjB ← want m (lp ++ "in_proj_b.weight") (wrappingMul s.linear.numVHeads s.hidden)
  let inProjA ← want m (lp ++ "in_proj_a.weight") (wrappingMul s.linear.numVHeads s.hidden)
  let conv1d ← want m (lp ++ "conv1d.weight") (wrappingMul s.linear.convDim s.linear.convKernel)
  let aLog ← want m (lp ++ "A_log") s.linear.numVHeads
  let dtBias ← want m (lp ++ "dt_bias") s.linear.numVHeads
  let norm ← want m (lp ++ "norm.weight") s.linear.headVDim
  let outProj ← want m (lp ++ "out_proj.weight") (wrappingMul s.hidden s.linear.valueDim)
  .ok { inProjQkv, inProjZ, inProjB, inProjA, conv1d, aLog, dtBias, norm, outProj }

def readAttn (m : Safetensors.Model) (ap : String) (s : Sizes) : Except LoadFault (AttnWeights F32) := do
  let qProj ← want m (ap ++ "q_proj.weight") (wrappingMul s.qOut s.hidden)
  let kProj ← want m (ap ++ "k_proj.weight") (wrappingMul s.kvOut s.hidden)
  let vProj ← want m (ap ++ "v_proj.weight") (wrappingMul s.kvOut s.hidden)
  let oProj ← want m (ap ++ "o_proj.weight") (wrappingMul (wrappingMul s.hidden s.heads.numHeads) s.heads.headDim)
  let qNorm ← want m (ap ++ "q_norm.weight") s.heads.headDim
  let kNorm ← want m (ap ++ "k_norm.weight") s.heads.headDim
  .ok { qProj, kProj, vProj, oProj, qNorm, kNorm }

def readLayerWeights (m : Safetensors.Model) (p : String) (s : Sizes) : Except LoadFault (LayerWeights F32) := do
  let inputLayernorm ← want m (p ++ "input_layernorm.weight") s.hidden
  let postAttentionLayernorm ← want m (p ++ "post_attention_layernorm.weight") s.hidden
  let gateProj ← want m (p ++ "mlp.gate_proj.weight") (wrappingMul s.intermediate s.hidden)
  let upProj ← want m (p ++ "mlp.up_proj.weight") (wrappingMul s.intermediate s.hidden)
  let downProj ← want m (p ++ "mlp.down_proj.weight") (wrappingMul s.hidden s.intermediate)
  .ok { inputLayernorm, postAttentionLayernorm, mlp := { gateProj, upProj, downProj } }

/-- A round of the loop over the layers. -/
def readLayer (m : Safetensors.Model) (base : String) (layerTypes : List String) (s : Sizes) (layer : ℕ) :
    Except LoadFault (LayerWeightsAll F32) := do
  let kind ← kindOf layerTypes layer
  let lw ← readLayerWeights m (layerName base layer) s
  match kind with
  | .linearAttention => do
    let g ← readGdn m (linName base layer) s
    .ok ⟨kind, lw, some g, none⟩
  | .fullAttention => do
    let a ← readAttn m (attName base layer) s
    .ok ⟨kind, lw, none, some a⟩

/-! ### The load -/

/-- Each key with the number of times it comes, in the order of a `BTreeMap`. -/
def tally (keys : List String) : List (String × ℕ) :=
  (keys.dedup.insertionSort (· ≤ ·)).map fun k => (k, keys.count k)

/-- `Model::tensor_bytes` -/
def tensorBytes (m : Safetensors.Model) : ℕ :=
  (m.shards.map fun s => (s.tensors.entries.map fun e => e.2.stop - e.2.start).sum % 2 ^ 64).sum % 2 ^ 64

/-- `LoadInfo` -/
structure LoadInfo where
  dir : String
  base : String
  configSource : String
  shards : ℕ
  tensorsTotal : ℕ
  tensorBytes : ℕ
  dtypeCounts : List (String × ℕ)
  skipped : List (String × ℕ)
  tiedEmbeddings : Bool
  derived : List (String × ℕ)

/-- `RealModel` -/
structure RealModel where
  config : ModelConfig F32
  weights : ModelWeights F32
  info : LoadInfo

/-- `derived` -/
def Sizes.derived (s : Sizes) : List (String × ℕ) :=
  [("vocab", s.vocab), ("hidden", s.hidden), ("intermediate", s.intermediate), ("num_layers", s.numLayers),
    ("conv_dim", s.linear.convDim), ("key_dim", s.keyDim), ("value_dim", s.linear.valueDim),
    ("num_v_heads", s.linear.numVHeads), ("head_v_dim", s.linear.headVDim), ("conv_kernel", s.linear.convKernel),
    ("head_dim", s.heads.headDim), ("num_heads", s.heads.numHeads), ("num_kv_heads", s.heads.numKvHeads),
    ("per_layer_tensors", 0)]

/-- `config` -/
def Sizes.modelConfig (s : Sizes) (rope : F32 × ℕ) (eps : F32) : ModelConfig F32 where
  vocab := s.vocab
  hidden := s.hidden
  eps := eps
  gdn := ⟨s.hidden, s.config.numKHeads, s.linear.numVHeads, s.config.headKDim, s.linear.headVDim, s.linear.convKernel, eps⟩
  attn := ⟨s.hidden, s.heads.numHeads, s.heads.numKvHeads, s.heads.headDim, rope.2, rope.1, eps⟩

/-- `load`, from the tensors on -/
def loadTensors (dir : String) (root : Value) (m : Safetensors.Model) : Except LoadFault RealModel := do
  let tc := (textConfig root).1
  let base ← detectPrefix m
  let sizes ← readSizes tc m base
  let s := sizes.1
  crossCheck m (attName base sizes.2) s
  let rope ← readRope tc s.heads.headDim
  let eps ← readEps tc
  let lm ← lmName tc m base
  let embedTokens ← want m (base ++ "embed_tokens.weight") (wrappingMul s.vocab s.hidden)
  let lmHead ← want m lm (wrappingMul s.vocab s.hidden)
  let layers ← (List.range s.numLayers).mapM (readLayer m base (layerTypesOf tc) s)
  let finalNorm ← want m (base ++ "norm.weight") s.hidden
  let info : LoadInfo :=
    { dir, base, configSource := (textConfig root).2, shards := m.shards.length, tensorsTotal := (names m).length
      tensorBytes := tensorBytes m
      dtypeCounts := tally (m.index.entries.map fun e => e.2.2.dtype.asStr)
      skipped := tally ((names m).filterMap isUnused)
      tiedEmbeddings := lm = base ++ "embed_tokens.weight"
      derived := s.derived }
  .ok ⟨s.modelConfig rope eps, { embedTokens, finalNorm, lmHead, layers }, info⟩

/-- `load` of a directory: `config.json`, if it exists, as it is read, and the shards -/
def load (json : SerdeJson) (dir : String) (config : Option (Except String (List UInt8))) (files : List ShardFile) :
    Except LoadFault RealModel := do
  let bytes ← orElse (.err .noConfig) config
  let bytes ← bytes.mapError fun e => .err (.readConfig e)
  let root ← (json.fromSlice bytes).mapError fun e => .err (.parseConfig e)
  if ¬ "qwen3_5".toList <+: (modelTypeOf root).toList then .error (.err (.modelType (modelTypeOf root)))
  else do
    let m ← (Model.open json files).mapError fun e => .err (.openModel e)
    loadTensors dir root m

/-! ### What the steps read -/

/-- The first axis of a tensor. -/
def axis (m : Safetensors.Model) (name : String) : Option ℕ := (entry m name).bind fun e => e.shape.head?

section Reads

variable {m : Safetensors.Model} {tc : Value} {base : String}

theorem firstAxis_eq_ok {name : String} {d : ℕ} : firstAxis m name = .ok d ↔ axis m name = some d := by
  unfold firstAxis shapeOf axis index
  rcases entry m name with - | e
  · simp [orElse, error_bind]
  · simp [orElse_eq_ok_iff, bind_eq_ok_iff, List.head?_eq_getElem?]

theorem readLinear_eq_ok {lin : String} {x : LinearShapes} : readLinear m lin = .ok x ↔
    axis m (lin ++ "in_proj_qkv.weight") = some x.convDim ∧ axis m (lin ++ "in_proj_z.weight") = some x.valueDim ∧
    axis m (lin ++ "in_proj_b.weight") = some x.numVHeads ∧ axis m (lin ++ "norm.weight") = some x.headVDim ∧
    ∃ e, entry m (lin ++ "conv1d.weight") = some e ∧ e.shape.getLast? = some x.convKernel := by
  unfold readLinear
  simp only [bind_eq_ok_iff, firstAxis_eq_ok, shapeOf, orElse_eq_ok_iff, Option.map_eq_some_iff, Except.ok.injEq]
  constructor
  · rintro ⟨c, hc, v, hv, n, hn, d, hd, shape, ⟨e, he, rfl⟩, k, hk, rfl⟩
    exact ⟨hc, hv, hn, hd, e, he, hk⟩
  · rintro ⟨hc, hv, hn, hd, e, he, hk⟩
    exact ⟨_, hc, _, hv, _, hn, _, hd, _, ⟨e, he, rfl⟩, _, hk, rfl⟩

theorem readAttnHeads_eq_ok {x : AttnHeads} : readAttnHeads tc = .ok x ↔ cfgUsize tc "head_dim" = some x.headDim ∧
    cfgUsize tc "num_attention_heads" = some x.numHeads ∧ cfgUsize tc "num_key_value_heads" = some x.numKvHeads := by
  unfold readAttnHeads need
  simp only [bind_eq_ok_iff, orElse_eq_ok_iff, Except.ok.injEq]
  constructor
  · rintro ⟨d, hd, n, hn, k, hk, rfl⟩
    exact ⟨hd, hn, hk⟩
  · rintro ⟨hd, hn, hk⟩
    exact ⟨_, hd, _, hn, _, hk, rfl⟩

theorem readLinearHeads_eq_ok {x : LinearHeads} : readLinearHeads tc = .ok x ↔
    cfgUsize tc "linear_num_key_heads" = some x.numKHeads ∧ cfgUsize tc "linear_num_value_heads" = some x.numVHeads ∧
    cfgUsize tc "linear_key_head_dim" = some x.headKDim ∧ cfgUsize tc "linear_value_head_dim" = some x.headVDim := by
  unfold readLinearHeads need
  simp only [bind_eq_ok_iff, orElse_eq_ok_iff, Except.ok.injEq]
  constructor
  · rintro ⟨k, hk, v, hv, kd, hkd, vd, hvd, rfl⟩
    exact ⟨hk, hv, hkd, hvd⟩
  · rintro ⟨hk, hv, hkd, hvd⟩
    exact ⟨_, hk, _, hv, _, hkd, _, hvd, rfl⟩

/-- Where the sizes come from, with the first linear and the first full layer. -/
structure Sizes.ReadFrom (tc : Value) (m : Safetensors.Model) (base : String) (s : Sizes) (l f : ℕ) : Prop where
  numLayers : readLayerCount tc = .ok s.numLayers
  embedding : readEmbedding m base = .ok (s.vocab, s.hidden)
  intermediate : axis m (layerName base 0 ++ "mlp.gate_proj.weight") = some s.intermediate
  first : firstLayers (layerTypesOf tc) s.numLayers = .ok (l, f)
  linear : readLinear m (linName base l) = .ok s.linear
  heads : readAttnHeads tc = .ok s.heads
  qOut : axis m (attName base f ++ "q_proj.weight") = some s.qOut
  kvOut : axis m (attName base f ++ "k_proj.weight") = some s.kvOut
  valueDim_le : s.linear.valueDim ≤ s.linear.convDim
  keyDim : (s.linear.convDim - s.linear.valueDim) / 2 = s.keyDim
  config : readLinearHeads tc = .ok s.config

theorem readSizes_eq_ok {s : Sizes} {f : ℕ} : readSizes tc m base = .ok (s, f) ↔ ∃ l, s.ReadFrom tc m base l f := by
  unfold readSizes
  simp only [bind_eq_ok_iff, firstAxis_eq_ok, orElse_eq_ok_iff, Option.map_eq_some_iff, Except.ok.injEq, Prod.exists,
    Prod.mk.injEq]
  constructor
  · rintro ⟨n, hn, v, h, hemb, i, hi, l, f, hfirst, x, hx, a, ha, q, hq, k, hk, kd, ⟨d, hd, rfl⟩, c, hc, rfl, rfl⟩
    unfold checkedSub at hd
    split_ifs at hd with hle
    obtain rfl := Option.some.inj hd
    exact ⟨l, hn, hemb, hi, hfirst, hx, ha, hq, hk, hle, rfl, hc⟩
  · rintro ⟨l, hn, hemb, hi, hfirst, hx, ha, hq, hk, hle, hkd, hc⟩
    exact ⟨_, hn, _, _, hemb, _, hi, l, f, hfirst, _, hx, _, ha, _, hq, _, hk, _, ⟨_, checkedSub_of_le hle, rfl⟩, _, hc,
      by rw [hkd], rfl⟩

end Reads

end Checkpoint
end Qwen
end Siphon
