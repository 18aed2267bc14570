/-
# The configuration and the tensors

`load` takes the sizes from the shapes and compares the configuration with
them, but not in full: four of the stated sizes are never read, layers beyond
`num_hidden_layers` are not looked for, the entries of `layer_types` are
counted after those of another kind have been dropped, and the products of two
sizes are compared as they wrap. A load that returns agrees with its
configuration just where none of these lets a difference through.

The two key sizes of a linear layer come into no shape but as a product, so
they agree where their product does.

Key definitions: `Agreement`, `Overlooked`.
Key theorem: `load_agrees_iff`.
-/
import Siphon.Qwen.Loaded

namespace Siphon
namespace Qwen
namespace Checkpoint

open U64 Fallible Stloader Safetensors Ieee

/-! ### What the configuration states -/

section Stated

variable (tc : Value) (m : Safetensors.Model) (base : String)

/-- An axis of a tensor. -/
def axisAt (name : String) (i : ℕ) : Option ℕ := (entry m name).bind fun e => e.shape[i]?

/-- The last axis of a tensor. -/
def lastAxis (name : String) : Option ℕ := (entry m name).bind fun e => e.shape.getLast?

/-- The size the configuration states, if it does, is this one. -/
def StatesOnly (key : String) (d : Option ℕ) : Prop := ∀ n, cfgUsize tc key = some n → d = some n

/-- The product of two sizes that the configuration states. -/
def Product (key key' : String) (p : ℕ → Prop) : Prop :=
  ∀ n d, cfgUsize tc key = some n → cfgUsize tc key' = some d → p (n * d)

/-- The table has a tensor of the layer. -/
def Present (layer : ℕ) : Prop := ∃ rest, contains m (layerName base layer ++ rest) = true

/-- Entry `l` of `layer_types`, as it stands there. -/
def layerEntry (l : ℕ) : Option Value := ((get tc "layer_types").bind Value.asArray?).bind (·[l]?)

/-- How `layer_types` names a kind. -/
def kindText : LayerKind → String
  | .linearAttention => "linear_attention"
  | .fullAttention => "full_attention"

/-- The stated sizes are those of the shapes, and the layers have the kinds
that `layer_types` states. The first linear layer is `l`, the first full one
`f`. -/
structure Agrees (l f : ℕ) (layers : List (LayerWeightsAll F32)) : Prop where
  hiddenSize : StatesOnly tc "hidden_size" (axisAt m (base ++ "embed_tokens.weight") 1)
  vocabSize : StatesOnly tc "vocab_size" (axisAt m (base ++ "embed_tokens.weight") 0)
  intermediateSize : StatesOnly tc "intermediate_size" (axis m (layerName base 0 ++ "mlp.gate_proj.weight"))
  numHiddenLayers : ∀ n, cfgUsize tc "num_hidden_layers" = some n → ∀ i, Present m base i ↔ i < n
  convKernel : StatesOnly tc "linear_conv_kernel_dim" (lastAxis m (linName base l ++ "conv1d.weight"))
  numVHeads : StatesOnly tc "linear_num_value_heads" (axis m (linName base l ++ "in_proj_b.weight"))
  headVDim : StatesOnly tc "linear_value_head_dim" (axis m (linName base l ++ "norm.weight"))
  valueDim : Product tc "linear_num_value_heads" "linear_value_head_dim" fun vd =>
    axis m (linName base l ++ "in_proj_z.weight") = some vd
  keyDim : Product tc "linear_num_key_heads" "linear_key_head_dim" fun kd =>
    ∃ vd, axis m (linName base l ++ "in_proj_z.weight") = some vd ∧
      axis m (linName base l ++ "in_proj_qkv.weight") = some (2 * kd + vd)
  headDim : StatesOnly tc "head_dim" ((entry m (attName base f ++ "q_norm.weight")).map Entry.numel)
  numHeads : Product tc "num_attention_heads" "head_dim" fun hd =>
    axis m (attName base f ++ "q_proj.weight") = some (hd * 2) ∧
      axisAt m (attName base f ++ "o_proj.weight") 1 = some hd
  numKvHeads : Product tc "num_key_value_heads" "head_dim" fun hd =>
    axis m (attName base f ++ "k_proj.weight") = some hd
  kinds : ∀ i (hi : i < layers.length), layerEntry tc i = some (.string (kindText layers[i].kind))

/-- What a load takes as it is. -/
structure Overlooks (n l : ℕ) : Prop where
  hiddenSize : StatesOnly tc "hidden_size" (axisAt m (base ++ "embed_tokens.weight") 1)
  vocabSize : StatesOnly tc "vocab_size" (axisAt m (base ++ "embed_tokens.weight") 0)
  intermediateSize : StatesOnly tc "intermediate_size" (axis m (layerName base 0 ++ "mlp.gate_proj.weight"))
  convKernel : StatesOnly tc "linear_conv_kernel_dim" (lastAxis m (linName base l ++ "conv1d.weight"))
  noneBeyond : ∀ i, n ≤ i → ¬ Present m base i
  strings : ∀ i < n, ∃ t, layerEntry tc i = some (.string t)
  valueDim : Product tc "linear_num_value_heads" "linear_value_head_dim" (· < 2 ^ 64)
  keyDim : Product tc "linear_num_key_heads" "linear_key_head_dim" (· < 2 ^ 64)
  numHeads : Product tc "num_attention_heads" "head_dim" (· * 2 < 2 ^ 64)
  numKvHeads : Product tc "num_key_value_heads" "head_dim" (· < 2 ^ 64)

end Stated

/-! ### What the steps of a load say -/

section Steps

variable {tc : Value} {m : Safetensors.Model} {base : String}

theorem statesOnly_iff {key : String} {n : ℕ} {d : Option ℕ} (h : cfgUsize tc key = some n) :
    StatesOnly tc key d ↔ d = some n := by
  unfold StatesOnly
  rw [h]
  exact ⟨fun h => h n rfl, fun hd _ hn => hd.trans hn⟩

theorem product_iff {key key' : String} {n d : ℕ} {p : ℕ → Prop} (h : cfgUsize tc key = some n)
    (h' : cfgUsize tc key' = some d) : Product tc key key' p ↔ p (n * d) := by
  unfold Product
  rw [h, h']
  refine ⟨fun hp => hp n d rfl rfl, fun hp n' d' hn hd => ?_⟩
  rwa [← Option.some.inj hn, ← Option.some.inj hd]

theorem want_numel {name : String} {n : ℕ} {v : List F32} (h : want m name n = .ok v) :
    ∃ e, entry m name = some e ∧ e.numel = n := by
  obtain ⟨r, hr, h⟩ := bind_eq_ok h
  obtain ⟨w, hw, h⟩ := bind_eq_ok h
  split_ifs at h with hlen
  obtain rfl := mapError_eq_ok hw
  have htensor := orElse_eq_ok hr
  unfold Model.tensor at htensor
  unfold entry
  rcases hlookup : m.index.lookup name with - | ⟨si, e⟩
  · rw [hlookup] at htensor
    exact absurd (Option.some.inj htensor) (by simp)
  · rw [hlookup] at htensor
    obtain ⟨buf, -, htensor⟩ := Option.bind_eq_some_iff.mp htensor
    obtain ⟨bytes, -, htensor⟩ := Option.bind_eq_some_iff.mp htensor
    refine ⟨e, rfl, ?_⟩
    split at htensor
    · exact absurd (Option.some.inj htensor) (by simp)
    · rename_i w' _
      have hcount := Option.some.inj htensor
      split_ifs at hcount with hne
      obtain rfl := Except.ok.inj hcount
      rw [← not_not.mp hne, not_not.mp hlen]

theorem contains_of_entry {name : String} {e : Entry} (h : entry m name = some e) : contains m name = true := by
  obtain ⟨r, hr, -⟩ := Option.map_eq_some_iff.mp h
  rw [contains, hr]
  rfl

theorem kindOf_eq_ok {layerTypes : List String} {i : ℕ} {kind : LayerKind} :
    kindOf layerTypes i = .ok kind ↔ layerTypes[i]? = some (kindText kind) := by
  unfold kindOf
  rcases layerTypes[i]? with - | t
  · simp
  · rcases kind with - | - <;> simp only [kindText, Option.some.injEq] <;> split_ifs <;> simp_all

/-- The kind of a layer that is read is that of its entry, and its first norm is there. -/
theorem readLayer_eq_ok {layerTypes : List String} {s : Sizes} {i : ℕ} {lw : LayerWeightsAll F32}
    (h : readLayer m base layerTypes s i = .ok lw) : kindOf layerTypes i = .ok lw.kind ∧
      Present m base i ∧ (lw.kind = .fullAttention →
        ∃ e, entry m (attName base i ++ "q_norm.weight") = some e ∧ e.numel = s.heads.headDim) := by
  unfold readLayer at h
  obtain ⟨kind, hkind, h⟩ := bind_eq_ok h
  obtain ⟨w, hw, h⟩ := bind_eq_ok h
  have hpresent : Present m base i := by
    unfold readLayerWeights at hw
    obtain ⟨v, hv, -⟩ := bind_eq_ok hw
    obtain ⟨e, he, -⟩ := want_numel hv
    exact ⟨_, contains_of_entry he⟩
  rcases kind with - | -
  · obtain ⟨g, hg, h⟩ := bind_eq_ok h
    obtain rfl := Except.ok.inj h
    exact ⟨hkind, hpresent, fun hfull => absurd hfull (by simp)⟩
  · obtain ⟨g, hg, h⟩ := bind_eq_ok h
    obtain rfl := Except.ok.inj h
    refine ⟨hkind, hpresent, fun _ => ?_⟩
    unfold readAttn at hg
    obtain ⟨q, -, hg⟩ := bind_eq_ok hg
    obtain ⟨k, -, hg⟩ := bind_eq_ok hg
    obtain ⟨v, -, hg⟩ := bind_eq_ok hg
    obtain ⟨o, -, hg⟩ := bind_eq_ok hg
    obtain ⟨qNorm, hqNorm, -⟩ := bind_eq_ok hg
    exact want_numel hqNorm

theorem readLayerCount_eq_ok {n : ℕ} (h : readLayerCount tc = .ok n) : cfgUsize tc "num_hidden_layers" = some n := by
  unfold readLayerCount at h
  split_ifs at h
  obtain ⟨k, hk, h⟩ := bind_eq_ok h
  split_ifs at h
  obtain rfl := Except.ok.inj h
  exact orElse_eq_ok hk

/-- The first full layer is a full one. -/
theorem firstLayers_eq_ok {layerTypes : List String} {n l f : ℕ} (h : firstLayers layerTypes n = .ok (l, f)) :
    f < n ∧ kindOf layerTypes f = .ok .fullAttention := by
  unfold firstLayers at h
  split at h
  · rename_i l' f' hl hf
    obtain ⟨rfl, rfl⟩ := Prod.mk.inj (Except.ok.inj h)
    have hmem := List.mem_of_find?_eq_some hf
    have hkind := List.find?_some hf
    exact ⟨List.mem_range.mp hmem, toOption_eq_some (by simpa using hkind)⟩
  · exact absurd h (by simp)

/-- Entries that are strings keep their places. -/
theorem getElem?_filterMap {α β : Type} {g : α → Option β} : ∀ {n : ℕ} {entries : List α},
    (∀ i < n, ∃ b, entries[i]?.bind g = some b) → ∀ i < n, (entries.filterMap g)[i]? = entries[i]?.bind g
  | 0, _, _, i, hi => absurd hi (Nat.not_lt_zero i)
  | n + 1, [], h, i, hi => by
    obtain ⟨b, hb⟩ := h i hi
    simp at hb
  | n + 1, e :: entries, h, i, hi => by
    obtain ⟨b, hb⟩ := h 0 (Nat.succ_pos n)
    have hhead : g e = some b := by simpa using hb
    have htail : ∀ j < n, ∃ b, entries[j]?.bind g = some b := fun j hj => by simpa using h (j + 1) (by omega)
    rw [List.filterMap_cons_some hhead]
    rcases i with - | i
    · simp [hhead]
    · simpa using getElem?_filterMap htail i (by omega)

theorem asStr?_eq_some {v : Value} {t : String} : Value.asStr? v = some t ↔ v = .string t := by
  rcases v with - | - | - | - | - | - <;> simp [Value.asStr?]

/-- Before a bound below which all entries are strings, none is passed over. -/
theorem layerTypesOf_eq {n : ℕ} (h : ∀ i < n, ∃ t, layerEntry tc i = some (.string t)) {i : ℕ} (hi : i < n)
    {t : String} (ht : (layerTypesOf tc)[i]? = some t) : layerEntry tc i = some (.string t) := by
  unfold layerTypesOf at ht
  unfold layerEntry at h ⊢
  generalize (get tc "layer_types").bind Value.asArray? = array at h ht ⊢
  rcases array with - | entries
  · simp at ht
  · have hstr : ∀ j < n, ∃ t, entries[j]?.bind Value.asStr? = some t := by
      intro j hj
      obtain ⟨t, ht⟩ := h j hj
      exact ⟨t, by rw [show entries[j]? = some (.string t) from ht]; rfl⟩
    have hget : (entries.filterMap Value.asStr?)[i]? = some t := ht
    rw [getElem?_filterMap hstr i hi] at hget
    obtain ⟨v, hv, hvt⟩ := Option.bind_eq_some_iff.mp hget
    rw [asStr?_eq_some.mp hvt] at hv
    exact hv

end Steps

/-! ### Where they agree -/

section Agree

variable {root : Value} {m : Safetensors.Model} {base : String} {s : Sizes} {l f : ℕ} {r : RealModel}

/-- Layer `i` is read with its kind, and a tensor of it is there. -/
theorem Loaded.layer_eq (h : Loaded root m base s l f r) {i : ℕ} (hi : i < r.weights.layers.length) :
    readLayer m base (layerTypesOf (textConfig root).1) s i = .ok r.weights.layers[i] :=
  (mapM_range_eq_ok h.layers).2 i hi

theorem Loaded.length_layers (h : Loaded root m base s l f r) : r.weights.layers.length = s.numLayers :=
  (mapM_range_eq_ok h.layers).1

/-- The norm of the first full layer has a value for each number of a head. -/
theorem Loaded.qNorm_numel (h : Loaded root m base s l f r) :
    (entry m (attName base f ++ "q_norm.weight")).map Entry.numel = some s.heads.headDim := by
  obtain ⟨hf, hkind⟩ := firstLayers_eq_ok h.sizes.first
  have hi : f < r.weights.layers.length := by rwa [h.length_layers]
  obtain ⟨hkind', -, hnorm⟩ := readLayer_eq_ok (h.layer_eq hi)
  obtain ⟨e, he, hnumel⟩ := hnorm (Except.ok.inj (hkind'.symm.trans hkind))
  rw [he, Option.map_some, hnumel]

/-- Each layer that the configuration counts is there. -/
theorem Loaded.present (h : Loaded root m base s l f r) {i : ℕ} (hi : i < s.numLayers) : Present m base i := by
  rw [← h.length_layers] at hi
  exact (readLayer_eq_ok (h.layer_eq hi)).2.1

/-- The kinds are those of the entries, where these are strings. -/
theorem Loaded.kinds_iff (h : Loaded root m base s l f r) :
    (∀ i (hi : i < r.weights.layers.length),
      layerEntry (textConfig root).1 i = some (.string (kindText r.weights.layers[i].kind))) ↔
    ∀ i < s.numLayers, ∃ t, layerEntry (textConfig root).1 i = some (.string t) := by
  constructor
  · intro hkinds i hi
    rw [← h.length_layers] at hi
    exact ⟨_, hkinds i hi⟩
  · intro hstrings i hi
    obtain ⟨hkind, -, -⟩ := readLayer_eq_ok (h.layer_eq hi)
    exact layerTypesOf_eq hstrings (by rwa [← h.length_layers]) (kindOf_eq_ok.mp hkind)

/-- The value width is the product, where that fits. -/
theorem Loaded.valueDim_iff (h : Loaded root m base s l f r) :
    Product (textConfig root).1 "linear_num_value_heads" "linear_value_head_dim"
      (fun vd => axis m (linName base l ++ "in_proj_z.weight") = some vd) ↔
    Product (textConfig root).1 "linear_num_value_heads" "linear_value_head_dim" (· < 2 ^ 64) := by
  obtain ⟨-, hz, -⟩ := readLinear_eq_ok.mp h.sizes.linear
  obtain ⟨-, hnum, -, hdim⟩ := readLinearHeads_eq_ok.mp h.sizes.config
  rw [product_iff hnum hdim, product_iff hnum hdim, hz, ← h.agree.valueDim, Option.some.injEq]
  exact wrappingMul_eq_iff

/-- The key width is the product, where that fits. -/
theorem Loaded.keyDim_iff (h : Loaded root m base s l f r) :
    Product (textConfig root).1 "linear_num_key_heads" "linear_key_head_dim"
      (fun kd => ∃ vd, axis m (linName base l ++ "in_proj_z.weight") = some vd ∧
        axis m (linName base l ++ "in_proj_qkv.weight") = some (2 * kd + vd)) ↔
    Product (textConfig root).1 "linear_num_key_heads" "linear_key_head_dim" (· < 2 ^ 64) := by
  obtain ⟨hqkv, hz, -⟩ := readLinear_eq_ok.mp h.sizes.linear
  obtain ⟨hnum, -, hdim, -⟩ := readLinearHeads_eq_ok.mp h.sizes.config
  rw [product_iff hnum hdim, product_iff hnum hdim, ← wrappingMul_eq_iff, h.agree.keyDim, hz, hqkv, ← h.conv_exact]
  simp only [Option.some.injEq, exists_eq_left']
  omega

/-- The outputs of `q_proj` are twice the product, where that fits, and the inputs of `o_proj` are it. -/
theorem Loaded.numHeads_iff (h : Loaded root m base s l f r) :
    Product (textConfig root).1 "num_attention_heads" "head_dim"
      (fun hd => axis m (attName base f ++ "q_proj.weight") = some (hd * 2) ∧
        axisAt m (attName base f ++ "o_proj.weight") 1 = some hd) ↔
    Product (textConfig root).1 "num_attention_heads" "head_dim" (· * 2 < 2 ^ 64) := by
  obtain ⟨hdim, hnum, -⟩ := readAttnHeads_eq_ok.mp h.sizes.heads
  obtain ⟨e, he, hin, -⟩ := h.agree.output
  have hout : axisAt m (attName base f ++ "o_proj.weight") 1 =
      some (wrappingMul s.heads.numHeads s.heads.headDim) := by
    rw [axisAt, he]
    exact hin
  rw [product_iff hnum hdim, product_iff hnum hdim, h.sizes.qOut, hout, ← h.agree.qOut]
  simp only [Option.some.injEq, wrappingMul_eq_iff]
  constructor
  · rintro ⟨htwo, hone⟩
    rwa [wrappingMul_of_lt hone, wrappingMul_eq_iff] at htwo
  · intro hlt
    have hone : s.heads.numHeads * s.heads.headDim < 2 ^ 64 := by omega
    exact ⟨by rw [wrappingMul_of_lt hone, wrappingMul_of_lt hlt], hone⟩

/-- The outputs of `k_proj` are the product, where that fits. -/
theorem Loaded.numKvHeads_iff (h : Loaded root m base s l f r) :
    Product (textConfig root).1 "num_key_value_heads" "head_dim"
      (fun hd => axis m (attName base f ++ "k_proj.weight") = some hd) ↔
    Product (textConfig root).1 "num_key_value_heads" "head_dim" (· < 2 ^ 64) := by
  obtain ⟨hdim, -, hnum⟩ := readAttnHeads_eq_ok.mp h.sizes.heads
  rw [product_iff hnum hdim, product_iff hnum hdim, h.sizes.kvOut, ← h.agree.kvOut, Option.some.injEq]
  exact wrappingMul_eq_iff

/-- What is left to agree behind the checks is what a load takes as it is. -/
theorem Loaded.agrees_iff (h : Loaded root m base s l f r) :
    Agrees (textConfig root).1 m base l f r.weights.layers ↔ Overlooks (textConfig root).1 m base s.numLayers l := by
  have hlayers := readLayerCount_eq_ok h.sizes.numLayers
  constructor
  · intro ha
    refine ⟨ha.hiddenSize, ha.vocabSize, ha.intermediateSize, ha.convKernel, fun i hi hpresent => ?_,
      h.kinds_iff.mp ha.kinds, h.valueDim_iff.mp ha.valueDim, h.keyDim_iff.mp ha.keyDim,
      h.numHeads_iff.mp ha.numHeads, h.numKvHeads_iff.mp ha.numKvHeads⟩
    exact absurd ((ha.numHiddenLayers _ hlayers i).mp hpresent) (Nat.not_lt.mpr hi)
  · intro ho
    obtain ⟨-, -, hb, hnorm, -⟩ := readLinear_eq_ok.mp h.sizes.linear
    obtain ⟨hheadDim, -⟩ := readAttnHeads_eq_ok.mp h.sizes.heads
    obtain ⟨-, hnumVHeads, -, hheadVDim⟩ := readLinearHeads_eq_ok.mp h.sizes.config
    refine ⟨ho.hiddenSize, ho.vocabSize, ho.intermediateSize, fun n hn i => ?_, ho.convKernel, ?_, ?_,
      h.valueDim_iff.mpr ho.valueDim, h.keyDim_iff.mpr ho.keyDim, ?_, h.numHeads_iff.mpr ho.numHeads,
      h.numKvHeads_iff.mpr ho.numKvHeads, h.kinds_iff.mpr ho.strings⟩
    · obtain rfl := Option.some.inj (hlayers.symm.trans hn)
      exact ⟨fun hpresent => Nat.not_le.mp fun hle => ho.noneBeyond i hle hpresent, h.present⟩
    · rw [statesOnly_iff hnumVHeads, hb, h.agree.numVHeads]
    · rw [statesOnly_iff hheadVDim, hnorm, h.agree.headVDim]
    · rw [statesOnly_iff hheadDim, h.qNorm_numel]

end Agree

/-- A model agrees with the configuration and the tensors it is loaded from. -/
def Agreement (root : Value) (m : Safetensors.Model) (r : RealModel) : Prop :=
  ∃ base n l f, detectPrefix m = .ok base ∧ cfgUsize (textConfig root).1 "num_hidden_layers" = some n ∧
    firstLayers (layerTypesOf (textConfig root).1) n = .ok (l, f) ∧
    Agrees (textConfig root).1 m base l f r.weights.layers

/-- Nothing that a load takes as it is differs from the tensors. -/
def Overlooked (root : Value) (m : Safetensors.Model) : Prop :=
  ∃ base n l f, detectPrefix m = .ok base ∧ cfgUsize (textConfig root).1 "num_hidden_layers" = some n ∧
    firstLayers (layerTypesOf (textConfig root).1) n = .ok (l, f) ∧ Overlooks (textConfig root).1 m base n l

section Load

variable {root : Value} {m : Safetensors.Model} {base : String} {s : Sizes} {l f : ℕ} {r : RealModel}

/-- The prefix, the number of layers and the first ones of each kind are those that were read. -/
theorem Loaded.read_iff (h : Loaded root m base s l f r) (p : String → ℕ → ℕ → ℕ → Prop) :
    (∃ base n l f, detectPrefix m = .ok base ∧ cfgUsize (textConfig root).1 "num_hidden_layers" = some n ∧
      firstLayers (layerTypesOf (textConfig root).1) n = .ok (l, f) ∧ p base n l f) ↔ p base s.numLayers l f := by
  constructor
  · rintro ⟨base', n, l', f', hbase, hn, hfirst, hp⟩
    obtain rfl := Except.ok.inj (h.detected.symm.trans hbase)
    obtain rfl := Option.some.inj ((readLayerCount_eq_ok h.sizes.numLayers).symm.trans hn)
    obtain ⟨rfl, rfl⟩ := Prod.mk.inj (Except.ok.inj (h.sizes.first.symm.trans hfirst))
    exact hp
  · intro hp
    exact ⟨base, _, l, f, h.detected, readLayerCount_eq_ok h.sizes.numLayers, h.sizes.first, hp⟩

theorem Loaded.agreement_iff (h : Loaded root m base s l f r) :
    Agreement root m r ↔ Agrees (textConfig root).1 m base l f r.weights.layers :=
  h.read_iff fun base _ l f => Agrees (textConfig root).1 m base l f r.weights.layers

theorem Loaded.overlooked_iff (h : Loaded root m base s l f r) :
    Overlooked root m ↔ Overlooks (textConfig root).1 m base s.numLayers l :=
  h.read_iff fun base n l _ => Overlooks (textConfig root).1 m base n l

theorem loaded_of_load_open {json : SerdeJson} {dir : String} {bytes : List UInt8} {files : List ShardFile}
    (hroot : json.fromSlice bytes = .ok root) (hm : Model.open json files = .ok m)
    (h : load json dir (some (.ok bytes)) files = .ok r) : ∃ base s l f, Loaded root m base s l f r := by
  obtain ⟨bytes', root', m', hbytes, hroot', -, hm', hload⟩ := load_eq_ok.mp h
  obtain rfl := Except.ok.inj (Option.some.inj hbytes)
  obtain rfl := Except.ok.inj (hroot.symm.trans hroot')
  obtain rfl := Except.ok.inj (hm.symm.trans hm')
  exact loaded_of_loadTensors hload

/-- **Where the configuration and the tensors agree.** A load that returns has
the sizes and the kinds that its configuration states, just where nothing that
it takes as it is differs from the tensors. -/
theorem load_agrees_iff {json : SerdeJson} {dir : String} {bytes : List UInt8} {files : List ShardFile}
    (hroot : json.fromSlice bytes = .ok root) (hm : Model.open json files = .ok m)
    (h : load json dir (some (.ok bytes)) files = .ok r) : Agreement root m r ↔ Overlooked root m := by
  obtain ⟨base, s, l, f, hloaded⟩ := loaded_of_load_open hroot hm h
  rw [hloaded.agreement_iff, hloaded.overlooked_iff, hloaded.agrees_iff]

end Load

/-! ### A hidden size that is not read -/

/-- The small checkpoint has a hidden size of one. -/
theorem not_agreement_small {m : Safetensors.Model} (hm : smallTable.Held m) {r : RealModel}
    (h : Loaded (smallRoot 5) m "" smallShapes 0 1 r) : ¬ Agreement (smallRoot 5) m r := by
  rw [h.agreement_iff]
  intro ha
  have hstated := ha.hiddenSize 5 rfl
  have hembed : axisAt m ("" ++ "embed_tokens.weight") 1 = some 1 := by
    rw [axisAt, entry_of_table hm (show smallTable.lookup ("" ++ "embed_tokens.weight") = some [1, 1] by rfl)]
    rfl
  exact absurd (hembed.symm.trans hstated) (by decide)

/-- A load that returns need not agree with its configuration. -/
theorem load_disagrees : ¬ ∀ (json : SerdeJson) (dir : String) (bytes : List UInt8) (files : List ShardFile)
    (root : Value) (m : Safetensors.Model) (r : RealModel), json.fromSlice bytes = .ok root →
    Model.open json files = .ok m → load json dir (some (.ok bytes)) files = .ok r → Agreement root m r := by
  intro hall
  obtain ⟨m, rope, eps, r, hm, hopen, hload, hloaded, -⟩ := exists_load_small 5
  exact not_agreement_small hm hloaded (hall _ _ _ _ _ m r (serde_config _ _ _) hopen hload)

theorem load_agrees_iff_small : ∃ m r, Model.open (smallSerde 5) [smallFile] = .ok m ∧
    load (smallSerde 5) "model" (some (.ok (Utf8.encode (smallText 5).toList))) [smallFile] = .ok r ∧
    ¬ Overlooked (smallRoot 5) m := by
  obtain ⟨m, rope, eps, r, hm, hopen, hload, hloaded, -⟩ := exists_load_small 5
  refine ⟨m, r, hopen, hload, fun ho => not_agreement_small hm hloaded ?_⟩
  exact (load_agrees_iff (serde_config _ _ _) hopen hload).mpr ho

end Checkpoint
end Qwen
end Siphon
