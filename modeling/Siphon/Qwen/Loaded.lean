/-
# An accepted checkpoint is well shaped

The checks of `load` compare a few sizes and count the values of each tensor.
Where no product of two sizes passes `usize`, that is all the forward pass
needs: what a load returns passes every size check of the model, so each list
of tokens of the vocabulary has its trace, in one pass or cut into chunks.

Key definitions: `Sizes.Agree`, `Loaded`, `RealModel.Exact`.
Key theorems: `loaded_of_load`, `wellShaped_of_load`, `load_wellShaped`.
-/
import Siphon.Qwen.Causal
import Siphon.Qwen.Table

namespace Siphon
namespace Qwen
namespace Checkpoint

open U64 Fallible Stloader Safetensors Ieee Gdn Attention

/-! ### What a load checks -/

section Checks

variable {m : Safetensors.Model} {tc : Value} {base : String} {s : Sizes}

/-- The cross-checks, with the products as they wrap. -/
structure Sizes.Agree (m : Safetensors.Model) (att : String) (s : Sizes) : Prop where
  numVHeads : s.config.numVHeads = s.linear.numVHeads
  headVDim : s.config.headVDim = s.linear.headVDim
  keyDim : wrappingMul s.config.numKHeads s.config.headKDim = s.keyDim
  valueDim : wrappingMul s.config.numVHeads s.config.headVDim = s.linear.valueDim
  convDim : (wrappingMul 2 s.keyDim + s.linear.valueDim) % 2 ^ 64 = s.linear.convDim
  qOut : wrappingMul (wrappingMul s.heads.numHeads s.heads.headDim) 2 = s.qOut
  kvOut : wrappingMul s.heads.numKvHeads s.heads.headDim = s.kvOut
  numKvHeads : s.heads.numKvHeads ≠ 0
  groups : s.heads.numHeads % s.heads.numKvHeads = 0
  numKHeads : s.config.numKHeads ≠ 0
  ratio : s.linear.numVHeads % s.config.numKHeads = 0
  output : ∃ e, entry m (att ++ "o_proj.weight") = some e ∧
    e.shape[1]? = some (wrappingMul s.heads.numHeads s.heads.headDim) ∧ e.shape[0]? = some s.hidden

theorem check_eq_nil {what : String} {x y : ℕ} : check what x y = [] ↔ x = y := by
  unfold check
  split_ifs with h
  · simp [h]
  · simpa using not_not.mp h

/-- A problem that is noted unless the check holds. -/
theorem ite_singleton_eq_nil {p : Prop} [Decidable p] {x : String} : (if p then [x] else []) = [] ↔ ¬ p := by
  split_ifs with h <;> simp [h]

theorem remainder_eq_ok_iff {a b r : ℕ} : remainder a b = .ok r ↔ b ≠ 0 ∧ a % b = r := by
  unfold remainder
  split_ifs with h <;> simp [h]

theorem index_eq_ok_iff {shape : List ℕ} {i d : ℕ} : index shape i = .ok d ↔ shape[i]? = some d := orElse_eq_ok_iff

/-- A problem ends the load. -/
theorem ite_error_eq_ok {p : Prop} [Decidable p] {e : LoadFault} :
    (if p then .error e else .ok () : Except LoadFault Unit) = .ok () ↔ ¬ p := by
  split_ifs with h <;> simp [h]

theorem problems_eq_nil : s.problems = [] ↔
    s.config.numVHeads = s.linear.numVHeads ∧ s.config.headVDim = s.linear.headVDim ∧
    wrappingMul s.config.numKHeads s.config.headKDim = s.keyDim ∧
    wrappingMul s.config.numVHeads s.config.headVDim = s.linear.valueDim ∧
    (wrappingMul 2 s.keyDim + s.linear.valueDim) % 2 ^ 64 = s.linear.convDim ∧
    wrappingMul (wrappingMul s.heads.numHeads s.heads.headDim) 2 = s.qOut ∧
    wrappingMul s.heads.numKvHeads s.heads.headDim = s.kvOut := by
  simp only [Sizes.problems, List.append_eq_nil_iff, check_eq_nil, and_assoc]

/-- The cross-checks pass where the sizes agree. -/
theorem crossCheck_eq_ok {att : String} : crossCheck m att s = .ok () ↔ s.Agree m att := by
  unfold crossCheck
  simp only [bind_eq_ok_iff, remainder_eq_ok_iff, shapeOf, orElse_eq_ok_iff, Option.map_eq_some_iff, index_eq_ok_iff,
    ite_error_eq_ok, not_not, List.append_eq_nil_iff, ite_singleton_eq_nil, check_eq_nil, ne_eq, problems_eq_nil]
  constructor
  · rintro ⟨_, ⟨hkv, rfl⟩, _, ⟨hk, rfl⟩, _, ⟨e, he, rfl⟩, _, hin, _, hout, ⟨⟨⟨h, hgroups⟩, hratio⟩, rfl⟩, rfl⟩
    obtain ⟨hv, hd, hkey, hvalue, hconv, hq, hkvOut⟩ := h
    exact ⟨hv, hd, hkey, hvalue, hconv, hq, hkvOut, hkv, hgroups, hk, hratio, e, he, hin, hout⟩
  · rintro ⟨hv, hd, hkey, hvalue, hconv, hq, hkvOut, hkv, hgroups, hk, hratio, e, he, hin, hout⟩
    exact ⟨_, ⟨hkv, rfl⟩, _, ⟨hk, rfl⟩, _, ⟨e, he, rfl⟩, _, hin, _, hout,
      ⟨⟨⟨⟨hv, hd, hkey, hvalue, hconv, hq, hkvOut⟩, hgroups⟩, hratio⟩, rfl⟩, rfl⟩

theorem want_eq_ok {name : String} {n : ℕ} {v : List F32} (h : want m name n = .ok v) : v.length = n := by
  obtain ⟨r, -, h⟩ := bind_eq_ok h
  obtain ⟨w, -, h⟩ := bind_eq_ok h
  split_ifs at h with hlen
  obtain rfl := Except.ok.inj h
  rw [List.length_map]
  exact not_not.mp hlen

theorem readRope_eq_ok {headDim : ℕ} {rope : F32 × ℕ} (h : readRope tc headDim = .ok rope) :
    rope.2 ≠ 0 ∧ rope.2 ≤ headDim ∧ rope.2 % 2 = 0 := by
  unfold readRope at h
  dsimp only at h
  split_ifs at h with hrope
  obtain rfl := Except.ok.inj h
  rw [not_or, not_or, not_lt, not_not] at hrope
  exact hrope

end Checks

/-! ### A load that returns -/

/-- What stands behind a model: the sizes that were read and agree, and the tensors that were asked for. -/
structure Loaded (root : Value) (m : Safetensors.Model) (base : String) (s : Sizes) (l f : ℕ) (r : RealModel) :
    Prop where
  detected : detectPrefix m = .ok base
  sizes : s.ReadFrom (textConfig root).1 m base l f
  agree : s.Agree m (attName base f)
  config : ∃ rope eps, readRope (textConfig root).1 s.heads.headDim = .ok rope ∧
    readEps (textConfig root).1 = .ok eps ∧ r.config = s.modelConfig rope eps
  derived : r.info.derived = s.derived
  embedTokens : want m (base ++ "embed_tokens.weight") (wrappingMul s.vocab s.hidden) = .ok r.weights.embedTokens
  lmHead : ∃ lm, lmName (textConfig root).1 m base = .ok lm ∧
    want m lm (wrappingMul s.vocab s.hidden) = .ok r.weights.lmHead
  layers : (List.range s.numLayers).mapM (readLayer m base (layerTypesOf (textConfig root).1) s) =
    .ok r.weights.layers
  finalNorm : want m (base ++ "norm.weight") s.hidden = .ok r.weights.finalNorm

section Load

variable {root : Value} {m : Safetensors.Model} {base : String} {s : Sizes} {l f : ℕ}

theorem loaded_of_loadTensors {dir : String} {r : RealModel} (h : loadTensors dir root m = .ok r) :
    ∃ base s l f, Loaded root m base s l f r := by
  unfold loadTensors at h
  obtain ⟨base, hbase, h⟩ := bind_eq_ok h
  obtain ⟨⟨s, f⟩, hsizes, h⟩ := bind_eq_ok h
  obtain ⟨l, hsizes⟩ := readSizes_eq_ok.mp hsizes
  obtain ⟨⟨⟩, hcross, h⟩ := bind_eq_ok h
  obtain ⟨rope, hrope, h⟩ := bind_eq_ok h
  obtain ⟨eps, heps, h⟩ := bind_eq_ok h
  obtain ⟨lm, hlm, h⟩ := bind_eq_ok h
  obtain ⟨embedTokens, hembed, h⟩ := bind_eq_ok h
  obtain ⟨lmHead, hhead, h⟩ := bind_eq_ok h
  obtain ⟨layers, hlayers, h⟩ := bind_eq_ok h
  obtain ⟨finalNorm, hnorm, h⟩ := bind_eq_ok h
  obtain rfl := Except.ok.inj h
  exact ⟨base, s, l, f, hbase, hsizes, crossCheck_eq_ok.mp hcross, ⟨rope, eps, hrope, heps, rfl⟩, rfl, hembed,
    ⟨lm, hlm, hhead⟩, hlayers, hnorm⟩

/-- A load whose checks pass and whose tensors are there returns. -/
theorem exists_loadTensors (dir : String) (hbase : detectPrefix m = .ok base)
    (hsizes : s.ReadFrom (textConfig root).1 m base l f) (hagree : s.Agree m (attName base f)) {rope : F32 × ℕ}
    (hrope : readRope (textConfig root).1 s.heads.headDim = .ok rope) {eps : F32}
    (heps : readEps (textConfig root).1 = .ok eps) {lm : String} (hlm : lmName (textConfig root).1 m base = .ok lm)
    (hembed : ∃ v, want m (base ++ "embed_tokens.weight") (wrappingMul s.vocab s.hidden) = .ok v)
    (hhead : ∃ v, want m lm (wrappingMul s.vocab s.hidden) = .ok v)
    (hlayers : ∀ i ∈ List.range s.numLayers, ∃ lw,
      readLayer m base (layerTypesOf (textConfig root).1) s i = .ok lw)
    (hnorm : ∃ v, want m (base ++ "norm.weight") s.hidden = .ok v) :
    ∃ r, loadTensors dir root m = .ok r ∧ Loaded root m base s l f r ∧ r.config = s.modelConfig rope eps := by
  obtain ⟨embedTokens, hembed⟩ := hembed
  obtain ⟨lmHead, hhead⟩ := hhead
  obtain ⟨layers, hlayers⟩ := exists_mapM hlayers
  obtain ⟨finalNorm, hnorm⟩ := hnorm
  have hread := readSizes_eq_ok.mpr ⟨l, hsizes⟩
  have hload : ∃ info : LoadInfo, info.derived = s.derived ∧ loadTensors dir root m =
      .ok ⟨s.modelConfig rope eps, { embedTokens, finalNorm, lmHead, layers }, info⟩ := by
    unfold loadTensors
    simp only [hbase, ok_bind, hread, crossCheck_eq_ok.mpr hagree, hrope, heps, hlm, hembed, hhead, hlayers, hnorm]
    exact ⟨_, rfl, rfl⟩
  obtain ⟨info, hinfo, hload⟩ := hload
  exact ⟨_, hload, ⟨hbase, hsizes, hagree, ⟨rope, eps, hrope, heps, rfl⟩, hinfo, hembed, ⟨lm, hlm, hhead⟩, hlayers,
    hnorm⟩, rfl⟩

/-- A load that returns has read a configuration and opened a model. -/
theorem load_eq_ok {json : SerdeJson} {dir : String} {config : Option (Except String (List UInt8))}
    {files : List ShardFile} {r : RealModel} : load json dir config files = .ok r ↔ ∃ bytes root m,
      config = some (.ok bytes) ∧ json.fromSlice bytes = .ok root ∧ "qwen3_5".toList <+: (modelTypeOf root).toList ∧
      Model.open json files = .ok m ∧ loadTensors dir root m = .ok r := by
  unfold load
  constructor
  · intro h
    obtain ⟨c, hc, h⟩ := bind_eq_ok h
    obtain ⟨bytes, hbytes, h⟩ := bind_eq_ok h
    obtain ⟨root, hroot, h⟩ := bind_eq_ok h
    split_ifs at h with htype
    obtain ⟨m, hm, h⟩ := bind_eq_ok h
    refine ⟨bytes, root, m, ?_, mapError_eq_ok hroot, htype, mapError_eq_ok hm, h⟩
    rw [orElse_eq_ok hc, mapError_eq_ok hbytes]
  · rintro ⟨bytes, root, m, rfl, hroot, htype, hm, h⟩
    simp only [orElse, ok_bind, Except.mapError, hroot, htype, not_true_eq_false, if_false, hm, h]

theorem loaded_of_load {json : SerdeJson} {dir : String} {config : Option (Except String (List UInt8))}
    {files : List ShardFile} {r : RealModel} (h : load json dir config files = .ok r) :
    ∃ root m base s l f, Loaded root m base s l f r := by
  obtain ⟨bytes, root, m, -, -, -, -, h⟩ := load_eq_ok.mp h
  exact ⟨root, m, loaded_of_loadTensors h⟩

end Load

/-! ### Exact products -/

/-- No product of two sizes passes `usize`. -/
structure RealModel.Exact (r : RealModel) : Prop where
  vocab : r.config.vocab * r.config.hidden < 2 ^ 64
  intermediate : ∀ n, r.info.derived.lookup "intermediate" = some n → n * r.config.hidden < 2 ^ 64
  keyDim : r.config.gdn.keyDim < 2 ^ 64
  valueDim : r.config.gdn.valueDim < 2 ^ 64
  inProjQkv : r.config.gdn.convDim * r.config.hidden < 2 ^ 64
  inProjZ : r.config.gdn.valueDim * r.config.hidden < 2 ^ 64
  inProjB : r.config.gdn.numVHeads * r.config.hidden < 2 ^ 64
  conv1d : r.config.gdn.convDim * r.config.gdn.convKernel < 2 ^ 64
  qOut : r.config.attn.qOutDim < 2 ^ 64
  kvOut : r.config.attn.kvOutDim < 2 ^ 64
  qProj : r.config.attn.qOutDim * r.config.hidden < 2 ^ 64
  kProj : r.config.attn.kvOutDim * r.config.hidden < 2 ^ 64
  oProj : r.config.hidden * (r.config.attn.numHeads * r.config.attn.headDim) < 2 ^ 64

section Shapes

variable {root : Value} {m : Safetensors.Model} {base : String} {s : Sizes} {l f : ℕ} {r : RealModel}

theorem Loaded.hidden_eq (h : Loaded root m base s l f r) : r.config.hidden = s.hidden := by
  obtain ⟨rope, eps, -, -, hconfig⟩ := h.config
  rw [hconfig]
  rfl

theorem Loaded.keyDim_eq (h : Loaded root m base s l f r) (hx : r.Exact) : r.config.gdn.keyDim = s.keyDim := by
  have hlt := hx.keyDim
  obtain ⟨rope, eps, -, -, hconfig⟩ := h.config
  rw [hconfig] at hlt ⊢
  have hcomm : (s.modelConfig rope eps).gdn.keyDim = s.config.numKHeads * s.config.headKDim := Nat.mul_comm _ _
  rw [hcomm] at hlt ⊢
  rw [← h.agree.keyDim, wrappingMul_of_lt hlt]

theorem Loaded.valueDim_eq (h : Loaded root m base s l f r) (hx : r.Exact) :
    r.config.gdn.valueDim = s.linear.valueDim := by
  have hlt := hx.valueDim
  obtain ⟨rope, eps, -, -, hconfig⟩ := h.config
  rw [hconfig] at hlt ⊢
  have hcomm : (s.modelConfig rope eps).gdn.valueDim = s.config.numVHeads * s.config.headVDim := by
    show s.linear.headVDim * s.linear.numVHeads = _
    rw [h.agree.numVHeads, h.agree.headVDim, Nat.mul_comm]
  rw [hcomm] at hlt ⊢
  rw [← h.agree.valueDim, wrappingMul_of_lt hlt]

/-- The key width is half of what the value width leaves of the first axis, so the check is of the parity. -/
theorem Loaded.conv_exact (h : Loaded root m base s l f r) : 2 * s.keyDim + s.linear.valueDim = s.linear.convDim := by
  have hlt : s.linear.convDim < 2 ^ 64 := by
    rw [← h.agree.convDim]
    exact Nat.mod_lt _ (Nat.two_pow_pos 64)
  have hle := h.sizes.valueDim_le
  have hkey := h.sizes.keyDim
  have hconv := h.agree.convDim
  rwa [wrappingMul_of_lt (by omega), Nat.mod_eq_of_lt (by omega)] at hconv

theorem Loaded.convDim_eq (h : Loaded root m base s l f r) (hx : r.Exact) :
    r.config.gdn.convDim = s.linear.convDim := by
  unfold GdnConfig.convDim
  rw [h.keyDim_eq hx, h.valueDim_eq hx, ← h.conv_exact, Nat.mul_comm]

theorem Loaded.qOutDim_eq (h : Loaded root m base s l f r) (hx : r.Exact) : r.config.attn.qOutDim = s.qOut := by
  have hlt := hx.qOut
  obtain ⟨rope, eps, -, -, hconfig⟩ := h.config
  rw [hconfig] at hlt ⊢
  have hdef : (s.modelConfig rope eps).attn.qOutDim = s.heads.numHeads * s.heads.headDim * 2 := rfl
  rw [hdef] at hlt ⊢
  rw [← h.agree.qOut, wrappingMul_of_lt (show s.heads.numHeads * s.heads.headDim < 2 ^ 64 by omega),
    wrappingMul_of_lt hlt]

theorem Loaded.kvOutDim_eq (h : Loaded root m base s l f r) (hx : r.Exact) : r.config.attn.kvOutDim = s.kvOut := by
  have hlt := hx.kvOut
  obtain ⟨rope, eps, -, -, hconfig⟩ := h.config
  rw [hconfig] at hlt ⊢
  have hdef : (s.modelConfig rope eps).attn.kvOutDim = s.heads.numKvHeads * s.heads.headDim := rfl
  rw [hdef] at hlt ⊢
  rw [← h.agree.kvOut, wrappingMul_of_lt hlt]

/-- The values of a tensor whose two sizes have a product. -/
theorem length_want {name : String} {n k : ℕ} {v : List F32} (hv : want m name (wrappingMul n k) = .ok v)
    (hlt : n * k < 2 ^ 64) : v.length = n * k := by
  rw [want_eq_ok hv, wrappingMul_of_lt hlt]

/-! ### The layers -/

/-- The weights of a linear layer fit. -/
theorem Loaded.gdn_shaped (h : Loaded root m base s l f r) (hx : r.Exact) {lp : String} {g : GdnWeights F32}
    (hg : readGdn m lp s = .ok g) : Gdn.Shaped r.config.gdn g := by
  have hconv := h.convDim_eq hx
  have hvalue := h.valueDim_eq hx
  have hz := hx.inProjZ
  have hq := hx.inProjQkv
  have hk := hx.conv1d
  have hb := hx.inProjB
  obtain ⟨rope, eps, -, -, hconfig⟩ := h.config
  rw [hvalue, h.hidden_eq] at hz
  rw [hconv, h.hidden_eq] at hq
  rw [hconv] at hk
  rw [h.hidden_eq] at hb
  have hnum : r.config.gdn.numVHeads = s.linear.numVHeads := by rw [hconfig]; rfl
  have hkernel : r.config.gdn.convKernel = s.linear.convKernel := by rw [hconfig]; rfl
  have hhidden : r.config.gdn.hidden = s.hidden := by rw [hconfig]; rfl
  have hdim : r.config.gdn.headVDim = s.linear.headVDim := by rw [hconfig]; rfl
  rw [hnum] at hb
  rw [hkernel] at hk
  unfold readGdn at hg
  obtain ⟨inProjQkv, hqkv, hg⟩ := bind_eq_ok hg
  obtain ⟨inProjZ, hproj, hg⟩ := bind_eq_ok hg
  obtain ⟨inProjB, hprojB, hg⟩ := bind_eq_ok hg
  obtain ⟨inProjA, hprojA, hg⟩ := bind_eq_ok hg
  obtain ⟨conv1d, hconv1d, hg⟩ := bind_eq_ok hg
  obtain ⟨aLog, haLog, hg⟩ := bind_eq_ok hg
  obtain ⟨dtBias, hdtBias, hg⟩ := bind_eq_ok hg
  obtain ⟨norm, hnorm, hg⟩ := bind_eq_ok hg
  obtain ⟨outProj, hout, hg⟩ := bind_eq_ok hg
  obtain rfl := Except.ok.inj hg
  constructor
  · rw [hconv, hhidden, length_want hqkv hq]
  · rw [hvalue, hhidden, length_want hproj hz]
  · rw [hnum, hhidden, length_want hprojB hb]
  · rw [hnum, hhidden, length_want hprojA hb]
  · rw [hconv, hkernel, length_want hconv1d hk]
  · rw [hnum, want_eq_ok haLog]
  · rw [hnum, want_eq_ok hdtBias]
  · rw [hconfig]
    exact h.agree.numKHeads
  · rw [hconfig]
    show s.config.numKHeads * (s.linear.numVHeads / s.config.numKHeads) * s.config.headKDim = _
    rw [Nat.mul_div_cancel' (Nat.dvd_of_mod_eq_zero h.agree.ratio)]
    rfl
  · rw [hdim, want_eq_ok hnorm]
  · rw [hvalue, hhidden, length_want hout (by rwa [Nat.mul_comm])]

/-- The weights of a full layer fit. -/
theorem Loaded.attn_shaped (h : Loaded root m base s l f r) (hx : r.Exact) {ap : String} {w : AttnWeights F32}
    (hw : readAttn m ap s = .ok w) : Attention.Shaped r.config.attn w := by
  have hqOut := h.qOutDim_eq hx
  have hkvOut := h.kvOutDim_eq hx
  have hq := hx.qProj
  have hk := hx.kProj
  have ho := hx.oProj
  obtain ⟨rope, eps, hrope, -, hconfig⟩ := h.config
  obtain ⟨-, hrotary, -⟩ := readRope_eq_ok hrope
  rw [hqOut, h.hidden_eq] at hq
  rw [hkvOut, h.hidden_eq] at hk
  rw [h.hidden_eq] at ho
  have hhidden : r.config.attn.hidden = s.hidden := by rw [hconfig]; rfl
  have hheads : r.config.attn.numHeads = s.heads.numHeads := by rw [hconfig]; rfl
  have hdim : r.config.attn.headDim = s.heads.headDim := by rw [hconfig]; rfl
  have hgroups : s.heads.numHeads = s.heads.numKvHeads * (s.heads.numHeads / s.heads.numKvHeads) :=
    (Nat.mul_div_cancel' (Nat.dvd_of_mod_eq_zero h.agree.groups)).symm
  rw [hheads, hdim] at ho
  unfold readAttn at hw
  obtain ⟨qProj, hqProj, hw⟩ := bind_eq_ok hw
  obtain ⟨kProj, hkProj, hw⟩ := bind_eq_ok hw
  obtain ⟨vProj, hvProj, hw⟩ := bind_eq_ok hw
  obtain ⟨oProj, hoProj, hw⟩ := bind_eq_ok hw
  obtain ⟨qNorm, hqNorm, hw⟩ := bind_eq_ok hw
  obtain ⟨kNorm, hkNorm, hw⟩ := bind_eq_ok hw
  obtain rfl := Except.ok.inj hw
  constructor
  · rw [hqOut, hhidden, length_want hqProj hq]
  · rw [hkvOut, hhidden, length_want hkProj hk]
  · rw [hkvOut, hhidden, length_want hvProj hk]
  · rw [hhidden, hheads, hdim, want_eq_ok hoProj]
    unfold wrappingMul
    rw [Nat.mod_mul_mod, Nat.mul_assoc, Nat.mod_eq_of_lt ho]
  · rw [hdim, want_eq_ok hqNorm]
  · rw [hdim, want_eq_ok hkNorm]
  · rw [hconfig]
    exact hrotary
  · rw [hconfig]
    exact h.agree.numKvHeads
  · rw [hconfig]
    show s.heads.numHeads = 0 ∨ s.heads.numHeads / s.heads.numKvHeads ≠ 0
    by_cases h0 : s.heads.numHeads / s.heads.numKvHeads = 0
    · rw [h0, Nat.mul_zero] at hgroups
      exact .inl hgroups
    · exact .inr h0
  · rw [hconfig]
    refine .inr fun hh hlt => ?_
    show hh / (s.heads.numHeads / s.heads.numKvHeads) < s.heads.numKvHeads
    refine Nat.div_lt_of_lt_mul ?_
    rw [Nat.mul_comm, ← hgroups]
    exact hlt

/-- The shared weights of a layer fit. -/
theorem Loaded.layer_shaped (h : Loaded root m base s l f r) (hx : r.Exact) (hhidden : 1 ≤ r.config.hidden)
    {p : String} {w : LayerWeights F32} (hw : readLayerWeights m p s = .ok w) : w.Shaped r.config.hidden := by
  have hi := hx.intermediate s.intermediate (by rw [h.derived]; rfl)
  rw [h.hidden_eq] at hi hhidden ⊢
  unfold readLayerWeights at hw
  obtain ⟨inputLayernorm, hinput, hw⟩ := bind_eq_ok hw
  obtain ⟨postAttentionLayernorm, hpost, hw⟩ := bind_eq_ok hw
  obtain ⟨gateProj, hgate, hw⟩ := bind_eq_ok hw
  obtain ⟨upProj, hup, hw⟩ := bind_eq_ok hw
  obtain ⟨downProj, hdown, hw⟩ := bind_eq_ok hw
  obtain rfl := Except.ok.inj hw
  have hdiv : gateProj.length / s.hidden = s.intermediate := by
    rw [length_want hgate hi]
    exact Nat.mul_div_cancel _ hhidden
  constructor
  · omega
  · exact want_eq_ok hinput
  · exact want_eq_ok hpost
  · rw [hdiv, length_want hgate hi]
  · rw [hdiv, length_want hup hi]
  · rw [hdiv, length_want hdown (by rwa [Nat.mul_comm])]

/-- Each layer has the weights of its kind, and they fit. -/
theorem Loaded.readLayer_shaped (h : Loaded root m base s l f r) (hx : r.Exact) (hhidden : 1 ≤ r.config.hidden)
    {layerTypes : List String} {i : ℕ} {lw : LayerWeightsAll F32} (hlw : readLayer m base layerTypes s i = .ok lw) :
    lw.Shaped r.config := by
  have hconfig : r.config.gdn.hidden = r.config.hidden ∧ r.config.attn.hidden = r.config.hidden := by
    obtain ⟨rope, eps, -, -, hconfig⟩ := h.config
    rw [hconfig]
    exact ⟨rfl, rfl⟩
  unfold readLayer at hlw
  obtain ⟨kind, -, hlw⟩ := bind_eq_ok hlw
  obtain ⟨w, hw, hlw⟩ := bind_eq_ok hlw
  rcases kind with - | -
  · obtain ⟨g, hg, hlw⟩ := bind_eq_ok hlw
    obtain rfl := Except.ok.inj hlw
    exact ⟨h.layer_shaped hx hhidden hw, .linearAttention r.config.gdn g, rfl, hconfig.1, h.gdn_shaped hx hg⟩
  · obtain ⟨g, hg, hlw⟩ := bind_eq_ok hlw
    obtain rfl := Except.ok.inj hlw
    exact ⟨h.layer_shaped hx hhidden hw, .fullAttention r.config.attn g, rfl, hconfig.2, rfl, h.attn_shaped hx hg⟩

/-- **What a load returns fits.** -/
theorem Loaded.wellShaped (h : Loaded root m base s l f r) (hx : r.Exact) (hhidden : 1 ≤ r.config.hidden) :
    WellShaped r.config r.weights := by
  have hvocab := hx.vocab
  have heq : r.config.vocab = s.vocab := by
    obtain ⟨rope, eps, -, -, hconfig⟩ := h.config
    rw [hconfig]
    rfl
  rw [heq, h.hidden_eq] at hvocab
  obtain ⟨lm, -, hlm⟩ := h.lmHead
  constructor
  · rw [heq, h.hidden_eq, length_want h.embedTokens hvocab]
  · rw [h.hidden_eq, want_eq_ok h.finalNorm]
  · rw [heq, h.hidden_eq, length_want hlm hvocab]
  · intro lw hlw
    obtain ⟨i, hi, rfl⟩ := List.getElem_of_mem hlw
    exact h.readLayer_shaped hx hhidden ((mapM_range_eq_ok h.layers).2 i hi)

end Shapes

/-! ### The forward pass of what is loaded -/

/-- **An accepted checkpoint is well shaped.** Every list of tokens of the
vocabulary has its trace, at once and cut into chunks. -/
theorem load_wellShaped {json : SerdeJson} {dir : String} {config : Option (Except String (List UInt8))}
    {files : List ShardFile} {r : RealModel} (h : load json dir config files = .ok r) (hhidden : 1 ≤ r.config.hidden)
    (hx : r.Exact) {D : Type} (a : Arith F32 D) {ids : List ℕ} (hne : ids ≠ [])
    (hids : ∀ id ∈ ids, id < r.config.vocab) :
    WellShaped r.config r.weights ∧ (∃ tr, Qwen.forward a r.config r.weights ids = .ok tr) ∧
    ∀ pieces : List (List ℕ), (∀ p ∈ pieces, p ≠ []) → pieces.flatten = ids →
      ∃ trs cache, decode a r.config r.weights (Cache.new a r.config r.weights 1) pieces = (.ok trs, cache) := by
  obtain ⟨root, m, base, s, l, f, hload⟩ := loaded_of_load h
  have hw := hload.wellShaped hx hhidden
  refine ⟨hw, (forward_isOk_iff a hw hne).mpr hids, fun pieces hpieces hflat => ?_⟩
  rcases pieces with - | ⟨p, pieces⟩
  · exact absurd hflat.symm hne
  · obtain ⟨hp, hpieces⟩ := List.forall_mem_cons.mp hpieces
    rw [← hflat] at hids
    obtain ⟨tr, trs, cache, hrun, -⟩ := decode_joined a hw (Cache.new_fits a) hp hpieces hids
    exact ⟨tr :: trs, cache, hrun⟩

/-! ### A small checkpoint -/

/-- A linear and a full layer, with one head each. -/
def smallTable : Table :=
  [("embed_tokens.weight", [1, 1]), ("norm.weight", [1]),
    ("layers.0.input_layernorm.weight", [1]), ("layers.0.post_attention_layernorm.weight", [1]),
    ("layers.0.mlp.gate_proj.weight", [1, 1]), ("layers.0.mlp.up_proj.weight", [1, 1]),
    ("layers.0.mlp.down_proj.weight", [1, 1]),
    ("layers.0.linear_attn.in_proj_qkv.weight", [3, 1]), ("layers.0.linear_attn.in_proj_z.weight", [1, 1]),
    ("layers.0.linear_attn.in_proj_b.weight", [1, 1]), ("layers.0.linear_attn.in_proj_a.weight", [1, 1]),
    ("layers.0.linear_attn.conv1d.weight", [3, 1, 1]), ("layers.0.linear_attn.A_log", [1]),
    ("layers.0.linear_attn.dt_bias", [1]), ("layers.0.linear_attn.norm.weight", [1]),
    ("layers.0.linear_attn.out_proj.weight", [1, 1]),
    ("layers.1.input_layernorm.weight", [1]), ("layers.1.post_attention_layernorm.weight", [1]),
    ("layers.1.mlp.gate_proj.weight", [1, 1]), ("layers.1.mlp.up_proj.weight", [1, 1]),
    ("layers.1.mlp.down_proj.weight", [1, 1]),
    ("layers.1.self_attn.q_proj.weight", [4, 1]), ("layers.1.self_attn.k_proj.weight", [2, 1]),
    ("layers.1.self_attn.v_proj.weight", [2, 1]), ("layers.1.self_attn.o_proj.weight", [1, 2]),
    ("layers.1.self_attn.q_norm.weight", [2]), ("layers.1.self_attn.k_norm.weight", [2])]

def smallSettings (hiddenSize : ℕ) : List (String × ℕ) :=
  [("num_hidden_layers", 2), ("head_dim", 2), ("num_attention_heads", 1), ("num_key_value_heads", 1),
    ("linear_num_key_heads", 1), ("linear_num_value_heads", 1), ("linear_key_head_dim", 1),
    ("linear_value_head_dim", 1), ("rms_norm_eps", 1), ("hidden_size", hiddenSize)]

/-- The configuration of the small checkpoint, with any `hidden_size`. -/
def smallRoot (hiddenSize : ℕ) : Value :=
  .object (("layer_types", .array [.string "linear_attention", .string "full_attention"]) ::
    ("model_type", .string "qwen3_5") ::
    (smallSettings hiddenSize).map fun e => (e.1, .number (.posInt (UInt64.ofNat e.2))))

/-- What stands behind the first name of the configuration as text. -/
def smallRest (hiddenSize : ℕ) : List Char :=
  "\":[\"linear_attention\",\"full_attention\"],\"model_type\":\"qwen3_5\"".toList ++
    (smallSettings hiddenSize).flatMap (fun e => ",\"".toList ++ e.1.toList ++ "\":".toList ++ Nat.toDigits 10 e.2) ++
    ['\x7d']

def smallText (hiddenSize : ℕ) : String :=
  String.ofList ('\x7b' :: '"' :: ("layer_types".toList ++ smallRest hiddenSize))

def smallShapes : Sizes where
  vocab := 1
  hidden := 1
  intermediate := 1
  numLayers := 2
  linear := ⟨3, 1, 1, 1, 1⟩
  heads := ⟨2, 1, 1⟩
  qOut := 4
  kvOut := 2
  keyDim := 1
  config := ⟨1, 1, 1, 1⟩

theorem smallTable_size : 8 + smallTable.header.length + 16 ≤ maxValue := by
  -- in quarters, so that each is a small computation
  have h0 : ∀ e ∈ smallTable.take 7, (tensorJson e.1 e.2).length ≤ 200 := by decide +kernel
  have h1 : ∀ e ∈ (smallTable.drop 7).take 7, (tensorJson e.1 e.2).length ≤ 200 := by decide +kernel
  have h2 : ∀ e ∈ (smallTable.drop 14).take 7, (tensorJson e.1 e.2).length ≤ 200 := by decide +kernel
  have h3 : ∀ e ∈ smallTable.drop 21, (tensorJson e.1 e.2).length ≤ 200 := by decide +kernel
  have hcut : smallTable = smallTable.take 7 ++ ((smallTable.drop 7).take 7 ++ ((smallTable.drop 14).take 7 ++
      smallTable.drop 21)) := rfl
  have hle : smallTable.header.length ≤ 4 * (27 * 201 + 2) := by
    apply length_header_le (t := smallTable)
    rw [hcut]
    simp only [List.forall_mem_append]
    exact ⟨h0, h1, h2, h3⟩
  rw [maxValue]
  omega

theorem smallTable_fits : smallTable.Fits 16 where
  nodup := by simp [smallTable]
  named := by simp [smallTable]
  dims := by simp [smallTable, maxValue]
  span := by simp [smallTable]

def smallFile : ShardFile := smallTable.file 16 smallTable_size

def smallSerde (hiddenSize : ℕ) : SerdeJson := smallTable.serde (smallText hiddenSize) (smallRoot hiddenSize)

theorem smallText_take (hiddenSize : ℕ) : (smallText hiddenSize).toList.take 3 = ['\x7b', '"', 'l'] := by
  unfold smallText
  generalize smallRest hiddenSize = rest
  rw [String.toList_ofList]
  rfl

theorem smallSerde_header (hiddenSize : ℕ) :
    (smallSerde hiddenSize).fromSlice smallTable.header = .ok (.object smallTable.fields) := by
  exact serde_header (header_ne rfl (smallText_take hiddenSize) (by decide))

section Small

variable {m : Safetensors.Model} (hm : smallTable.Held m)

include hm

theorem readSizes_small (hiddenSize : ℕ) : smallShapes.ReadFrom (smallRoot hiddenSize) m "" 0 1 where
  numLayers := rfl
  embedding := by
    unfold readEmbedding shapeOf
    rw [entry_of_table hm (show smallTable.lookup ("" ++ "embed_tokens.weight") = some [1, 1] by rfl)]
    rfl
  intermediate := axis_of_table hm (by rfl)
  first := rfl
  linear := by
    have hconv := entry_of_table hm (show smallTable.lookup (linName "" 0 ++ "conv1d.weight") = some [3, 1, 1] by rfl)
    exact readLinear_eq_ok.mpr ⟨axis_of_table hm (by rfl), axis_of_table hm (by rfl), axis_of_table hm (by rfl),
      axis_of_table hm (by rfl), _, hconv, rfl⟩
  heads := readAttnHeads_eq_ok.mpr ⟨rfl, rfl, rfl⟩
  qOut := axis_of_table hm (by rfl)
  kvOut := axis_of_table hm (by rfl)
  valueDim_le := by decide
  keyDim := rfl
  config := readLinearHeads_eq_ok.mpr ⟨rfl, rfl, rfl, rfl⟩


theorem detectPrefix_small : detectPrefix m = .ok "" := by
  let names := smallTable.map Prod.fst
  let strip := stripSuffix "embed_tokens.weight"
  -- in quarters, so that each is a small computation
  have h0 : (names.take 7).filterMap strip = [""] := by decide +kernel
  have h1 : ((names.drop 7).take 7).filterMap strip = [] := by decide +kernel
  have h2 : ((names.drop 14).take 7).filterMap strip = [] := by decide +kernel
  have h3 : (names.drop 21).filterMap strip = [] := by decide +kernel
  apply detectPrefix_of_table hm smallTable_fits.nodup
  calc names.filterMap strip
      = (names.take 7 ++ ((names.drop 7).take 7 ++ ((names.drop 14).take 7 ++ names.drop 21))).filterMap strip := rfl
    _ = [""] := by rw [List.filterMap_append, List.filterMap_append, List.filterMap_append, h0, h1, h2, h3]; rfl

theorem agree_small : smallShapes.Agree m (attName "" 1) where
  numVHeads := rfl
  headVDim := rfl
  keyDim := rfl
  valueDim := rfl
  convDim := rfl
  qOut := rfl
  kvOut := rfl
  numKvHeads := by decide
  groups := rfl
  numKHeads := by decide
  ratio := rfl
  output := ⟨_, entry_of_table hm (show _ = some [1, 2] by rfl), rfl, rfl⟩

theorem lmName_small (hiddenSize : ℕ) : lmName (smallRoot hiddenSize) m "" = .ok "embed_tokens.weight" := by
  have hnone : contains m "lm_head.weight" = false := by
    rw [contains, hm.lookup, show smallTable.lookup "lm_head.weight" = none by rfl]
    rfl
  unfold lmName
  rw [show "" ++ "lm_head.weight" = "lm_head.weight" from rfl, hnone]
  rfl

theorem readLayerWeights_small (layer : ℕ) (h : layer = 0 ∨ layer = 1) :
    ∃ w, readLayerWeights m (layerName "" layer) smallShapes = .ok w := by
  unfold readLayerWeights
  rcases h with rfl | rfl
  · repeat refine exists_bind (want_of_table hm (by rfl) rfl) fun _ => ?_
    exact ⟨_, rfl⟩
  · repeat refine exists_bind (want_of_table hm (by rfl) rfl) fun _ => ?_
    exact ⟨_, rfl⟩

theorem readLayer_small (layer : ℕ) (h : layer = 0 ∨ layer = 1) :
    ∃ lw, readLayer m "" ["linear_attention", "full_attention"] smallShapes layer = .ok lw := by
  obtain ⟨w, hw⟩ := readLayerWeights_small hm layer h
  unfold readLayer
  rcases h with rfl | rfl
  · have hkind : kindOf ["linear_attention", "full_attention"] 0 = .ok .linearAttention := rfl
    rw [hkind, ok_bind, hw, ok_bind]
    refine exists_bind ?_ fun g => ⟨_, rfl⟩
    unfold readGdn
    repeat refine exists_bind (want_of_table hm (by rfl) rfl) fun _ => ?_
    exact ⟨_, rfl⟩
  · have hkind : kindOf ["linear_attention", "full_attention"] 1 = .ok .fullAttention := rfl
    rw [hkind, ok_bind, hw, ok_bind]
    refine exists_bind ?_ fun g => ⟨_, rfl⟩
    unfold readAttn
    repeat refine exists_bind (want_of_table hm (by rfl) rfl) fun _ => ?_
    exact ⟨_, rfl⟩

end Small

theorem readRope_small (hiddenSize : ℕ) : readRope (smallRoot hiddenSize) 2 =
    .ok (convert ⟨23, 127⟩ (ofNat 10000 : F64), 2) := by
  have hnone : get (smallRoot hiddenSize) "rope_parameters" = none := rfl
  have hdim : toUsize (mul (ofNat 2) (convert ⟨23, 127⟩ (ofNat 1 : F64))) = 2 := by decide +kernel
  unfold readRope
  simp only [hnone, Option.bind_none, Option.getD_none, hdim]
  exact if_neg (by decide)

/-- The small checkpoint loads, whatever `hidden_size` the configuration states. -/
theorem exists_load_small (hiddenSize : ℕ) : ∃ m rope eps r, smallTable.Held m ∧
    Model.open (smallSerde hiddenSize) [smallFile] = .ok m ∧
    load (smallSerde hiddenSize) "model" (some (.ok (Utf8.encode (smallText hiddenSize).toList))) [smallFile] =
      .ok r ∧
    Loaded (smallRoot hiddenSize) m "" smallShapes 0 1 r ∧ r.config = smallShapes.modelConfig rope eps := by
  obtain ⟨m, hopen, hm⟩ := open_table smallTable_size smallTable_fits (smallSerde_header hiddenSize)
  have hsizes : smallShapes.ReadFrom (textConfig (smallRoot hiddenSize)).1 m "" 0 1 := readSizes_small hm hiddenSize
  have hlayers : ∀ i ∈ List.range smallShapes.numLayers, ∃ lw,
      readLayer m "" (layerTypesOf (textConfig (smallRoot hiddenSize)).1) smallShapes i = .ok lw := by
    intro i hi
    have hlt : i < 2 := List.mem_range.mp hi
    exact readLayer_small hm i (by omega)
  obtain ⟨r, hload, hloaded, hconfig⟩ := exists_loadTensors "model" (detectPrefix_small hm) hsizes (agree_small hm)
    (readRope_small hiddenSize) rfl (lmName_small hm hiddenSize) (want_of_table hm (by rfl) rfl)
    (want_of_table hm (by rfl) rfl) hlayers (want_of_table hm (by rfl) rfl)
  refine ⟨m, _, _, r, hm, hopen, load_eq_ok.mpr ⟨_, _, m, rfl, serde_config _ _ _, ?_, hopen, hload⟩, hloaded,
    hconfig⟩
  have htype : modelTypeOf (smallRoot hiddenSize) = "qwen3_5" := rfl
  rw [htype]

theorem exact_small {r : RealModel} {m : Safetensors.Model} {hiddenSize : ℕ} {rope : F32 × ℕ} {eps : F32}
    (h : Loaded (smallRoot hiddenSize) m "" smallShapes 0 1 r)
    (hconfig : r.config = smallShapes.modelConfig rope eps) : r.Exact := by
  have hlookup : r.info.derived.lookup "intermediate" = some 1 := by rw [h.derived]; rfl
  constructor
  case intermediate =>
    intro n hn
    obtain rfl := Option.some.inj (hlookup.symm.trans hn)
    simp [hconfig, Sizes.modelConfig, smallShapes]
  all_goals simp [hconfig, Sizes.modelConfig, smallShapes, GdnConfig.keyDim, GdnConfig.valueDim, GdnConfig.convDim,
    AttnConfig.qOutDim, AttnConfig.kvOutDim]

theorem load_wellShaped_small : ∃ r,
    load (smallSerde 1) "model" (some (.ok (Utf8.encode (smallText 1).toList))) [smallFile] = .ok r ∧
    WellShaped r.config r.weights ∧ (∃ tr, Qwen.forward floatArith r.config r.weights [0, 0] = .ok tr) ∧
    ∃ trs cache, decode floatArith r.config r.weights (Cache.new floatArith r.config r.weights 1) [[0], [0]] =
      (.ok trs, cache) := by
  obtain ⟨m, rope, eps, r, -, -, hload, hloaded, hconfig⟩ := exists_load_small 1
  have hhidden : 1 ≤ r.config.hidden := by simp [hconfig, Sizes.modelConfig, smallShapes]
  have hids : ∀ id ∈ [0, 0], id < r.config.vocab := by simp [hconfig, Sizes.modelConfig, smallShapes]
  obtain ⟨hw, hforward, hdecode⟩ :=
    load_wellShaped hload hhidden (exact_small hloaded hconfig) floatArith (by simp) hids
  exact ⟨r, hload, hw, hforward, hdecode [[0], [0]] (by decide) rfl⟩

end Checkpoint
end Qwen
end Siphon
