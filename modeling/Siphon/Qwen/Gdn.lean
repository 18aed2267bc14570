/-
# The gated delta net

The linear-attention mixer of `gdn/src/lib.rs`: projections, a causal
convolution along the positions of each channel, the delta rule, a gated norm
and the output projection. Between calls it carries the last inputs of the
convolution and the state of the rule (`GdnState`).

Key theorem: `mix_append`: on one sequence, mixing a chunk and then the next
one with the state it left is mixing the two at once.
-/
import Siphon.Qwen.Delta

namespace Siphon
namespace Qwen
namespace Gdn

open Rows Fallible

variable {F D : Type} (a : Arith F D)

/-- `GdnConfig` -/
structure GdnConfig (F : Type) where
  hidden : ℕ
  numKHeads : ℕ
  numVHeads : ℕ
  headKDim : ℕ
  headVDim : ℕ
  convKernel : ℕ
  eps : F

/-- `key_dim` -/
def GdnConfig.keyDim (cfg : GdnConfig F) : ℕ := cfg.headKDim * cfg.numKHeads

/-- `value_dim` -/
def GdnConfig.valueDim (cfg : GdnConfig F) : ℕ := cfg.headVDim * cfg.numVHeads

theorem mul_valueDim (cfg : GdnConfig F) (n : ℕ) : n * cfg.valueDim = n * cfg.numVHeads * cfg.headVDim := by
  rw [GdnConfig.valueDim, Nat.mul_comm cfg.headVDim, Nat.mul_assoc]

/-- `conv_dim` -/
def GdnConfig.convDim (cfg : GdnConfig F) : ℕ := cfg.keyDim * 2 + cfg.valueDim

/-- `kv_ratio` -/
def GdnConfig.kvRatio (cfg : GdnConfig F) : ℕ := cfg.numVHeads / cfg.numKHeads

/-- `GdnWeights` -/
structure GdnWeights (F : Type) where
  inProjQkv : List F
  inProjZ : List F
  inProjB : List F
  inProjA : List F
  conv1d : List F
  aLog : List F
  dtBias : List F
  norm : List F
  outProj : List F

/-- `GdnState`: `conv` is `[B, conv_dim, K-1]`, `ssm` is `[B, H, K, V]`. -/
structure GdnState (F : Type) where
  conv : List F
  ssm : List F

/-- `GdnState::new` -/
def GdnState.new (cfg : GdnConfig F) (b : ℕ) : GdnState F where
  conv := List.replicate (b * cfg.convDim * (cfg.convKernel - 1)) a.zero
  ssm := List.replicate (b * cfg.numVHeads * cfg.headKDim * cfg.headVDim) a.zero

/-! ### The primitives -/

/-- `btc_to_bct` -/
def btcToBct (x : List F) (b t c : ℕ) : Except Fault (List F) := do
  require (x.length = b * t * c) "btc_to_bct input size"
  .ok (rows b fun bi => rows c fun ci => (List.range t).map fun ti => at' a x ((bi * t + ti) * c + ci))

/-- `bct_to_btc` -/
def bctToBtc (x : List F) (b c t : ℕ) : Except Fault (List F) := do
  require (x.length = b * c * t) "bct_to_btc input size"
  .ok (rows b fun bi => rows t fun ti => (List.range c).map fun ci => at' a x ((bi * c + ci) * t + ti))

/-- The output of channel `c` at position `ti`, over its left context and the chunk. -/
def convAt (w : List F) (bias : Option (List F)) (k c : ℕ) (full : List F) (ti : ℕ) : F :=
  let wc := row w k c
  let acc := (List.range k).foldl (fun acc ki => a.add acc (a.mul (at' a wc ki) (at' a full (ti + ki)))) a.zero
  silu a (match bias with
    | some bb => a.add acc (at' a bb c)
    | none => acc)

/-- `conv_forward`: the outputs `[B, C, T]` and the new state `[B, C, K-1]`. -/
def convForward (w : List F) (bias : Option (List F)) (xBct : List F) (b channels t k : ℕ)
    (stateIn : Option (List F)) : Except Fault (List F × List F) := do
  require (w.length = channels * k) "conv weight size"
  require (xBct.length = b * channels * t) "conv input size"
  let keep := k - 1
  require (∀ st ∈ stateIn, st.length = b * channels * keep) "conv state size"
  let context j := match stateIn with
    | some st => row st keep j
    | none => List.replicate keep a.zero
  let full bi c := context (bi * channels + c) ++ row xBct t (bi * channels + c)
  .ok (rows b fun bi => rows channels fun c => (List.range t).map (convAt a w bias k c (full bi c)),
    rows b fun bi => rows channels fun c => ((full bi c).drop t).take keep)

/-- `repeat_interleave_heads` -/
def repeatInterleaveHeads (x : List F) (b t h d ratio : ℕ) : List F :=
  if ratio = 1 then x
  else rows (b * t) fun r => rows h fun hi => rows ratio fun _ => row x d (r * h + hi)

/-! ### The block -/

/-- The convolution along the positions: the outputs `[B, T, C]` and the new state. -/
def convBlock (cfg : GdnConfig F) (w : GdnWeights F) (mixed : List F) (b t : ℕ) (stateIn : Option (List F)) :
    Except Fault (List F × List F) := do
  let mixedBct ← btcToBct a mixed b t cfg.convDim
  let (convOut, newConvState) ← convForward a w.conv1d none mixedBct b cfg.convDim t cfg.convKernel stateIn
  let convBtc ← bctToBtc a convOut b cfg.convDim t
  .ok (convBtc, newConvState)

/-- What the delta rule reads: the split into `q`, `k`, `v`, the two gates, and the expansion of the heads. -/
def operands (cfg : GdnConfig F) (w : GdnWeights F) (b t : ℕ) (convBtc bb aa : List F) : Delta.Operands F :=
  let n := b * t
  let kd := cfg.keyDim
  let vd := cfg.valueDim
  let qRaw := mapRows (fun src => src.take kd) cfg.convDim n convBtc
  let kRaw := mapRows (fun src => (src.drop kd).take kd) cfg.convDim n convBtc
  let vRaw := mapRows (fun src => (src.drop (2 * kd)).take vd) cfg.convDim n convBtc
  { q := repeatInterleaveHeads qRaw b t cfg.numKHeads cfg.headKDim cfg.kvRatio
    k := repeatInterleaveHeads kRaw b t cfg.numKHeads cfg.headKDim cfg.kvRatio
    v := vRaw
    g := rows n fun r => (List.range cfg.numVHeads).map fun hh =>
      a.mul (a.neg (a.exp (at' a w.aLog hh)))
        (softplus a (a.add (at' a aa (r * cfg.numVHeads + hh)) (at' a w.dtBias hh)))
    beta := bb.map (sigmoid a) }

/-- `forward_impl`: the output of the mixer, and the advanced state if there was one. -/
def forwardImpl (cfg : GdnConfig F) (w : GdnWeights F) (x : List F) (b t : ℕ) (state : Option (GdnState F)) :
    Except Fault (List F × Option (GdnState F)) := do
  let h := cfg.hidden
  let n := b * t
  require (x.length = n * h) "gdn input size vs config"
  let mixed ← linear a w.inProjQkv none x n h cfg.convDim
  let zFull ← linear a w.inProjZ none x n h cfg.valueDim
  let bb ← linear a w.inProjB none x n h cfg.numVHeads
  let aa ← linear a w.inProjA none x n h cfg.numVHeads
  let (convBtc, newConvState) ← convBlock a cfg w mixed b t (state.map GdnState.conv)
  require (n = 0 ∨ cfg.numVHeads ≤ w.aLog.length) "a_log index"
  require (n = 0 ∨ cfg.numVHeads ≤ w.dtBias.length) "dt_bias index"
  require (cfg.numKHeads ≠ 0) "attempt to divide by zero"
  let o := operands a cfg w b t convBtc bb aa
  let shape : Delta.Shape := ⟨b, t, cfg.numVHeads, cfg.headKDim, cfg.headVDim⟩
  let (deltaOut, next) ← match state with
    | some st => do
      let (out, ssm) ← Delta.forwardPreparedInto a shape o st.ssm
      .ok (out, some ⟨newConvState, ssm⟩)
    | none => do
      let (out, _) ← Delta.forwardPrepared a shape o
      .ok (out, none)
  let norm ← rmsnormGated a w.norm deltaOut zFull (n * cfg.numVHeads) cfg.headVDim cfg.eps
  let outProj ← linear a w.outProj none norm n cfg.valueDim h
  .ok (outProj, next)

/-- `forward` -/
def forward (cfg : GdnConfig F) (w : GdnWeights F) (x : List F) (b t : ℕ) : Except Fault (List F) := do
  let (out, _) ← forwardImpl a cfg w x b t none
  .ok out

/-- `forward_with_state` -/
def forwardWithState (cfg : GdnConfig F) (w : GdnWeights F) (x : List F) (b t : ℕ) (state : GdnState F) :
    Except Fault (List F × GdnState F) := do
  let (out, next) ← forwardImpl a cfg w x b t (some state)
  .ok (out, next.getD state)

/-! ### Well-shaped weights and states -/

/-- The weights pass every size check of the block. -/
structure Shaped (cfg : GdnConfig F) (w : GdnWeights F) : Prop where
  inProjQkv : w.inProjQkv.length = cfg.convDim * cfg.hidden
  inProjZ : w.inProjZ.length = cfg.valueDim * cfg.hidden
  inProjB : w.inProjB.length = cfg.numVHeads * cfg.hidden
  inProjA : w.inProjA.length = cfg.numVHeads * cfg.hidden
  conv1d : w.conv1d.length = cfg.convDim * cfg.convKernel
  aLog : cfg.numVHeads ≤ w.aLog.length
  dtBias : cfg.numVHeads ≤ w.dtBias.length
  numKHeads : cfg.numKHeads ≠ 0
  /-- the expanded key heads are the value heads -/
  heads : cfg.numKHeads * cfg.kvRatio * cfg.headKDim = cfg.numVHeads * cfg.headKDim
  norm : w.norm.length = cfg.headVDim
  outProj : w.outProj.length = cfg.hidden * cfg.valueDim

/-- The state of one sequence has the sizes of the configuration. -/
structure GdnState.Fits (cfg : GdnConfig F) (st : GdnState F) : Prop where
  conv : st.conv.length = cfg.convDim * (cfg.convKernel - 1)
  ssm : st.ssm.length = cfg.numVHeads * cfg.headKDim * cfg.headVDim

theorem GdnState.new_fits (cfg : GdnConfig F) : (GdnState.new a cfg 1).Fits cfg := by
  constructor
  · simp only [GdnState.new, List.length_replicate, Nat.one_mul]
  · simp only [GdnState.new, List.length_replicate, Nat.one_mul]

/-! ### The convolution on one sequence -/

/-- The inputs of channel `c`. -/
def channel (cN t : ℕ) (mixed : List F) (c : ℕ) : List F := (List.range t).map fun ti => at' a mixed (ti * cN + c)

/-- The left context and the chunk of channel `c`. -/
def window (keep cN t : ℕ) (ctx mixed : List F) (c : ℕ) : List F := row ctx keep c ++ channel a cN t mixed c

/-- `convBlock` on one sequence: the outputs, and the state it leaves. -/
def convRows (w : List F) (k cN t : ℕ) (ctx mixed : List F) : List F :=
  rows t fun ti => (List.range cN).map fun c => convAt a w none k c (window a (k - 1) cN t ctx mixed c) ti

def convContext (k cN t : ℕ) (ctx mixed : List F) : List F :=
  rows cN fun c => ((window a (k - 1) cN t ctx mixed c).drop t).take (k - 1)

theorem length_channel (cN t : ℕ) (mixed : List F) (c : ℕ) : (channel a cN t mixed c).length = t := by
  unfold channel
  rw [List.length_map, List.length_range]

theorem length_convRows (w : List F) (k cN t : ℕ) (ctx mixed : List F) :
    (convRows a w k cN t ctx mixed).length = t * cN :=
  length_rows fun _ _ => by rw [List.length_map, List.length_range]

theorem length_window {keep cN c : ℕ} {ctx : List F} (t : ℕ) (mixed : List F) (hctx : ctx.length = cN * keep)
    (hc : c < cN) : (window a keep cN t ctx mixed c).length = keep + t := by
  unfold window
  rw [List.length_append, length_row_of_lt hctx hc, length_channel]

theorem length_convContext {k cN : ℕ} {ctx : List F} (t : ℕ) (mixed : List F) (hctx : ctx.length = cN * (k - 1)) :
    (convContext a k cN t ctx mixed).length = cN * (k - 1) := by
  refine length_rows fun c hc => ?_
  rw [List.length_take, List.length_drop, length_window a t mixed hctx hc]
  omega

/-- Without a state the left context is zero. -/
theorem convForward_none (w : List F) (bias : Option (List F)) (x : List F) (b channels t k : ℕ) :
    convForward a w bias x b channels t k none =
      convForward a w bias x b channels t k (some (List.replicate (b * channels * (k - 1)) a.zero)) := by
  have hrow : ∀ bi < b, ∀ c < channels, row (List.replicate (b * channels * (k - 1)) a.zero) (k - 1) (bi * channels + c) =
      List.replicate (k - 1) a.zero := fun bi hbi c hc => row_replicate a.zero (index_lt hbi hc)
  have hnone : ∀ st ∈ (none : Option (List F)), st.length = b * channels * (k - 1) := fun _ h => nomatch h
  have hsome : ∀ st ∈ some (List.replicate (b * channels * (k - 1)) a.zero), st.length = b * channels * (k - 1) := by
    intro st hst
    rw [← Option.mem_some.mp hst, List.length_replicate]
  unfold convForward
  simp only [require_ok hnone, require_ok hsome, ok_bind]
  refine congrArg _ (funext fun _ => congrArg _ (funext fun _ => congrArg Except.ok ?_))
  refine Prod.ext (rows_congr fun bi hbi => rows_congr fun c hc => ?_) (rows_congr fun bi hbi => rows_congr fun c hc => ?_)
  · simp only [hrow bi hbi c hc]
  · simp only [hrow bi hbi c hc]

theorem btcToBct_one {mixed : List F} {t cN : ℕ} (hm : mixed.length = t * cN) :
    btcToBct a mixed 1 t cN = .ok (rows cN (channel a cN t mixed)) := by
  have hsize : mixed.length = 1 * t * cN := by rw [hm, Nat.one_mul]
  unfold btcToBct
  rw [require_ok hsize]
  simp only [ok_bind, rows_one, Nat.zero_mul, Nat.zero_add]
  rfl

theorem convForward_one {w mixed ctx : List F} {t k cN : ℕ} (hw : w.length = cN * k)
    (hctx : ctx.length = cN * (k - 1)) :
    convForward a w none (rows cN (channel a cN t mixed)) 1 cN t k (some ctx) =
      .ok (rows cN fun c => (List.range t).map (convAt a w none k c (window a (k - 1) cN t ctx mixed c)),
        convContext a k cN t ctx mixed) := by
  have hchan : ∀ c < cN, (channel a cN t mixed c).length = t := fun c _ => length_channel a cN t mixed c
  have hx : (rows cN (channel a cN t mixed)).length = 1 * cN * t := by rw [length_rows hchan, Nat.one_mul]
  have hst : ∀ st ∈ some ctx, st.length = 1 * cN * (k - 1) := by
    intro st hst
    rw [← Option.mem_some.mp hst, hctx, Nat.one_mul]
  unfold convForward
  simp only [require_ok hw, require_ok hx, require_ok hst, ok_bind, rows_one, Nat.zero_mul, Nat.zero_add]
  refine congrArg Except.ok (Prod.ext (rows_congr fun c hc => ?_) (rows_congr fun c hc => ?_))
  · simp only [row_rows hchan hc, window]
  · simp only [row_rows hchan hc, window]

theorem bctToBtc_one {g : ℕ → ℕ → F} {t cN : ℕ} :
    bctToBtc a (rows cN fun c => (List.range t).map (g c)) 1 cN t =
      .ok (rows t fun ti => (List.range cN).map fun c => g c ti) := by
  have hlen : ∀ c < cN, ((List.range t).map (g c)).length = t := by
    intro c _
    rw [List.length_map, List.length_range]
  have hx : (rows cN fun c => (List.range t).map (g c)).length = 1 * cN * t := by rw [length_rows hlen, Nat.one_mul]
  unfold bctToBtc
  simp only [require_ok hx, ok_bind, rows_one, Nat.zero_mul, Nat.zero_add]
  refine congrArg Except.ok (rows_congr fun ti hti => List.map_congr_left fun c hc => ?_)
  calc at' a (rows cN fun c => (List.range t).map (g c)) (c * t + ti) = at' a ((List.range t).map (g c)) ti :=
        getD_rows a.zero hlen (List.mem_range.mp hc) hti
    _ = g c ti := at'_map_range a (g c) hti

theorem convBlock_one {cfg : GdnConfig F} {w : GdnWeights F} {mixed ctx : List F} {t : ℕ} (hw : Shaped cfg w)
    (hm : mixed.length = t * cfg.convDim) (hctx : ctx.length = cfg.convDim * (cfg.convKernel - 1)) :
    convBlock a cfg w mixed 1 t (some ctx) = .ok (convRows a w.conv1d cfg.convKernel cfg.convDim t ctx mixed,
      convContext a cfg.convKernel cfg.convDim t ctx mixed) := by
  unfold convBlock
  rw [btcToBct_one a hm, ok_bind, convForward_one a hw.conv1d hctx]
  simp only [ok_bind]
  rw [bctToBtc_one]
  rfl

/-- An output depends on the entries its kernel covers. -/
theorem convAt_congr {w full full' : List F} {bias : Option (List F)} {k c ti ti' : ℕ}
    (h : ∀ ki < k, at' a full (ti + ki) = at' a full' (ti' + ki)) :
    convAt a w bias k c full ti = convAt a w bias k c full' ti' := by
  have hacc : (List.range k).foldl (fun acc ki => a.add acc (a.mul (at' a (row w k c) ki) (at' a full (ti + ki)))) a.zero =
      (List.range k).foldl (fun acc ki => a.add acc (a.mul (at' a (row w k c) ki) (at' a full' (ti' + ki)))) a.zero := by
    refine List.foldl_ext _ _ _ fun acc ki hki => ?_
    rw [h ki (List.mem_range.mp hki)]
  unfold convAt
  simp only [hacc]

/-! ### The convolution in chunks -/

section Chunks

variable {k cN t t' : ℕ} {ctx m m' : List F} (hm : m.length = t * cN) (hctx : ctx.length = cN * (k - 1))
include hm

theorem channel_append (c : ℕ) (hc : c < cN) :
    channel a cN (t + t') (m ++ m') c = channel a cN t m c ++ channel a cN t' m' c := by
  unfold channel
  rw [List.range_add, List.map_append, List.map_map]
  congr 1
  · refine List.map_congr_left fun ti hti => at'_append_left a m' ?_
    rw [hm]
    exact index_lt (List.mem_range.mp hti) hc
  · refine List.map_congr_left fun ti _ => ?_
    rw [Function.comp_apply, Nat.add_mul, Nat.add_assoc]
    exact at'_append_right a m' _ hm

theorem window_append (keep c : ℕ) (hc : c < cN) :
    window a keep cN (t + t') ctx (m ++ m') c = window a keep cN t ctx m c ++ channel a cN t' m' c := by
  unfold window
  rw [channel_append a hm c hc, List.append_assoc]

include hctx

/-- The window of the second chunk is the end of the window of the two. -/
theorem window_next (c : ℕ) (hc : c < cN) :
    window a (k - 1) cN t' (convContext a k cN t ctx m) m' c =
      (window a (k - 1) cN (t + t') ctx (m ++ m') c).drop t := by
  have hlen := length_window a t m hctx hc
  have hblock : ∀ i < cN, (((window a (k - 1) cN t ctx m i).drop t).take (k - 1)).length = k - 1 := by
    intro i hi
    rw [List.length_take, List.length_drop, length_window a t m hctx hi]
    omega
  have hrow : row (convContext a k cN t ctx m) (k - 1) c = (window a (k - 1) cN t ctx m c).drop t := by
    unfold convContext
    rw [row_rows hblock hc, List.take_of_length_le]
    rw [List.length_drop, hlen]
    omega
  rw [window_append a hm (k - 1) c hc, List.drop_append_of_le_length (by omega), ← hrow]
  rfl

theorem convContext_append :
    convContext a k cN (t + t') ctx (m ++ m') = convContext a k cN t' (convContext a k cN t ctx m) m' := by
  refine rows_congr fun c hc => ?_
  rw [window_next a hm hctx c hc, List.drop_drop]

/-- A chunk behind another one changes none of its outputs, and goes on from the state it left. -/
theorem convRows_append (w : List F) : convRows a w k cN (t + t') ctx (m ++ m') =
    convRows a w k cN t ctx m ++ convRows a w k cN t' (convContext a k cN t ctx m) m' := by
  refine rows_append (fun ti hti => ?_) (fun ti _ => ?_)
  · refine List.map_congr_left fun c hc => convAt_congr a fun ki hki => ?_
    have hin : ti + ki < (window a (k - 1) cN t ctx m c).length := by
      rw [length_window a t m hctx (List.mem_range.mp hc)]
      omega
    rw [window_append a hm (k - 1) c (List.mem_range.mp hc), at'_append_left a _ hin]
  · refine List.map_congr_left fun c hc => convAt_congr a fun ki _ => ?_
    rw [window_next a hm hctx c (List.mem_range.mp hc)]
    unfold at'
    rw [List.getD_eq_getElem?_getD, List.getD_eq_getElem?_getD, List.getElem?_drop, Nat.add_assoc]

end Chunks

/-! ### The operands -/

theorem length_repeatInterleaveHeads {x : List F} {t h d ratio : ℕ} (hx : x.length = t * (h * d)) :
    (repeatInterleaveHeads x 1 t h d ratio).length = t * (h * ratio * d) := by
  unfold repeatInterleaveHeads
  split
  · next hone => rw [hx, hone, Nat.mul_one]
  · have hrow : ∀ r < 1 * t, ∀ hi < h, (rows ratio fun _ => row x d (r * h + hi)).length = ratio * d := by
      intro r hr hi hhi
      rw [Nat.one_mul] at hr
      refine length_rows fun _ _ => length_row_of_lt (m := t * h) (by rw [hx, Nat.mul_assoc]) (index_lt hr hhi)
    rw [length_rows fun r hr => length_rows (hrow r hr), Nat.one_mul, Nat.mul_assoc]

theorem repeatInterleaveHeads_append {x y : List F} {t t' h d ratio : ℕ} (hx : x.length = t * (h * d)) :
    repeatInterleaveHeads (x ++ y) 1 (t + t') h d ratio =
      repeatInterleaveHeads x 1 t h d ratio ++ repeatInterleaveHeads y 1 t' h d ratio := by
  have hrow : x.length = t * h * d := by rw [hx, Nat.mul_assoc]
  unfold repeatInterleaveHeads
  split
  · rfl
  · simp only [Nat.one_mul]
    refine rows_append (fun r hr => rows_congr fun hi hhi => ?_) (fun r _ => rows_congr fun hi _ => ?_)
    · rw [row_append_left hrow (index_lt hr hhi)]
    · rw [Nat.add_mul, Nat.add_assoc, row_append_right hrow]

/-- The heads of queries or keys, expanded, as the rule expects them. -/
theorem length_heads {cfg : GdnConfig F} {w : GdnWeights F} {t : ℕ} {x : List F} (hw : Shaped cfg w)
    (hx : x.length = t * cfg.keyDim) : (repeatInterleaveHeads x 1 t cfg.numKHeads cfg.headKDim cfg.kvRatio).length =
      1 * t * cfg.numVHeads * cfg.headKDim := by
  have hkd : x.length = t * (cfg.numKHeads * cfg.headKDim) := by rw [hx, GdnConfig.keyDim, Nat.mul_comm cfg.headKDim]
  rw [length_repeatInterleaveHeads hkd, hw.heads, Nat.one_mul, Nat.mul_assoc]

theorem operands_fits {cfg : GdnConfig F} {w : GdnWeights F} {t : ℕ} {x bb : List F} (aa : List F) (hw : Shaped cfg w)
    (hx : x.length = t * cfg.convDim) (hb : bb.length = t * cfg.numVHeads) :
    (operands a cfg w 1 t x bb aa).Fits (Delta.one cfg.numVHeads cfg.headKDim cfg.headVDim t) := by
  have hdim : cfg.convDim = cfg.keyDim * 2 + cfg.valueDim := rfl
  have hn : x.length = 1 * t * cfg.convDim := by rw [hx, Nat.one_mul]
  constructor
  · refine length_heads hw ?_
    rw [length_mapRows_of_length hn, Nat.one_mul]
    intro v hv
    rw [List.length_take]
    omega
  · refine length_heads hw ?_
    rw [length_mapRows_of_length hn, Nat.one_mul]
    intro v hv
    rw [List.length_take, List.length_drop]
    omega
  · have hv : (mapRows (fun src => (src.drop (2 * cfg.keyDim)).take cfg.valueDim) cfg.convDim (1 * t) x).length =
        1 * t * cfg.valueDim := by
      refine length_mapRows_of_length hn fun v hv => ?_
      rw [List.length_take, List.length_drop]
      omega
    exact hv.trans (mul_valueDim cfg (1 * t))
  · exact length_rows fun r _ => by rw [List.length_map, List.length_range]; rfl
  · have hbeta : (operands a cfg w 1 t x bb aa).beta.length = t * cfg.numVHeads := by rw [← hb]; exact List.length_map _
    have hone : 1 * t * cfg.numVHeads = t * cfg.numVHeads := by rw [Nat.one_mul]
    exact hbeta.trans hone.symm

theorem operands_append {cfg : GdnConfig F} {w : GdnWeights F} {t t' : ℕ} {x bb aa : List F} (x' bb' aa' : List F)
    (hx : x.length = t * cfg.convDim) (ha : aa.length = t * cfg.numVHeads) :
    operands a cfg w 1 (t + t') (x ++ x') (bb ++ bb') (aa ++ aa') =
      (operands a cfg w 1 t x bb aa).append (operands a cfg w 1 t' x' bb' aa') := by
  have hdim : cfg.convDim = cfg.keyDim * 2 + cfg.valueDim := rfl
  have hkeys : t * cfg.keyDim = t * (cfg.numKHeads * cfg.headKDim) := by rw [GdnConfig.keyDim, Nat.mul_comm cfg.headKDim]
  have hq : (mapRows (fun src => src.take cfg.keyDim) cfg.convDim t x).length = t * (cfg.numKHeads * cfg.headKDim) := by
    rw [← hkeys]
    refine length_mapRows_of_length hx fun v hv => ?_
    rw [List.length_take]
    omega
  have hk : (mapRows (fun src => (src.drop cfg.keyDim).take cfg.keyDim) cfg.convDim t x).length =
      t * (cfg.numKHeads * cfg.headKDim) := by
    rw [← hkeys]
    refine length_mapRows_of_length hx fun v hv => ?_
    rw [List.length_take, List.length_drop]
    omega
  unfold operands Delta.Operands.append
  simp only [Nat.one_mul, mapRows_append hx, repeatInterleaveHeads_append hq, repeatInterleaveHeads_append hk,
    List.map_append]
  congr 1
  refine rows_append (fun r hr => ?_) (fun r _ => ?_)
  · refine List.map_congr_left fun hh hhh => ?_
    have hin : r * cfg.numVHeads + hh < aa.length := by
      rw [ha]
      exact index_lt hr (List.mem_range.mp hhh)
    rw [at'_append_left a _ hin]
  · refine List.map_congr_left fun hh _ => ?_
    rw [Nat.add_mul, Nat.add_assoc, at'_append_right a _ _ ha]

/-! ### The mixer on one sequence -/

/-- `forwardImpl` on one sequence: the output and the state it leaves. -/
def mix (cfg : GdnConfig F) (w : GdnWeights F) (t : ℕ) (st : GdnState F) (x : List F) : List F × GdnState F :=
  let proj (m : List F) (n : ℕ) := mapRows (linearRow a m none cfg.hidden n) cfg.hidden t x
  let mixed := proj w.inProjQkv cfg.convDim
  let conv := convRows a w.conv1d cfg.convKernel cfg.convDim t st.conv mixed
  let o := operands a cfg w 1 t conv (proj w.inProjB cfg.numVHeads) (proj w.inProjA cfg.numVHeads)
  let r := Delta.recur a cfg.numVHeads cfg.headKDim cfg.headVDim t o st.ssm
  let norm := zipRows (rmsnormGatedRow a w.norm cfg.headVDim cfg.eps) cfg.headVDim cfg.headVDim (t * cfg.numVHeads)
    r.2 (proj w.inProjZ cfg.valueDim)
  (mapRows (linearRow a w.outProj none cfg.valueDim cfg.hidden) cfg.valueDim t norm,
    ⟨convContext a cfg.convKernel cfg.convDim t st.conv mixed, r.1⟩)

section Mix

variable {cfg : GdnConfig F} {w : GdnWeights F} {t : ℕ} {st : GdnState F} {x : List F}

theorem length_mix : (mix a cfg w t st x).1.length = t * cfg.hidden := length_mapRows _ (length_linearRow a _ _ _ _)

theorem length_projected (cfg : GdnConfig F) (t : ℕ) (x m : List F) (n : ℕ) :
    (mapRows (linearRow a m none cfg.hidden n) cfg.hidden t x).length = t * n :=
  length_mapRows x (length_linearRow a m none cfg.hidden n)

theorem length_gates : (mapRows (linearRow a w.inProjZ none cfg.hidden cfg.valueDim) cfg.hidden t x).length =
    t * cfg.numVHeads * cfg.headVDim := by rw [length_projected, mul_valueDim]

theorem length_normed (x y : List F) : (zipRows (rmsnormGatedRow a w.norm cfg.headVDim cfg.eps) cfg.headVDim
    cfg.headVDim (t * cfg.numVHeads) x y).length = t * cfg.valueDim := by
  rw [length_zipRows _ _ (length_rmsnormGatedRow a w.norm cfg.headVDim cfg.eps), mul_valueDim]

theorem mix_fits (hst : st.Fits cfg) : (mix a cfg w t st x).2.Fits cfg where
  conv := length_convContext a t _ hst.conv
  ssm := Delta.length_recur_state a hst.ssm

theorem forwardImpl_some (hw : Shaped cfg w) (hst : st.Fits cfg) (hx : x.length = t * cfg.hidden) :
    forwardImpl a cfg w x 1 t (some st) = .ok ((mix a cfg w t st x).1, some (mix a cfg w t st x).2) := by
  have hconv := convBlock_one a hw (length_projected a cfg t x w.inProjQkv cfg.convDim) hst.conv
  have ho := operands_fits a (mapRows (linearRow a w.inProjA none cfg.hidden cfg.numVHeads) cfg.hidden t x) hw
    (length_convRows a w.conv1d cfg.convKernel cfg.convDim t st.conv
      (mapRows (linearRow a w.inProjQkv none cfg.hidden cfg.convDim) cfg.hidden t x)) (length_projected a cfg t x w.inProjB cfg.numVHeads)
  have hrule := Delta.forwardPreparedInto_one a ho hst.ssm
  unfold Delta.one at hrule
  unfold forwardImpl
  simp only [Nat.one_mul, require_ok hx, linear_ok a hw.inProjQkv hx, linear_ok a hw.inProjZ hx,
    linear_ok a hw.inProjB hx, linear_ok a hw.inProjA hx, ok_bind, Option.map_some, hconv, require_ok (Or.inr hw.aLog),
    require_ok (Or.inr hw.dtBias), require_ok hw.numKHeads, hrule]
  rw [rmsnormGated_ok a hw.norm (by rw [Delta.length_recur, Nat.mul_assoc]) (length_gates a), ok_bind,
    linear_ok a hw.outProj (length_normed a _ _), ok_bind]
  rfl

/-- Without a state the mixer starts from the zero one. -/
theorem forwardImpl_none (b : ℕ) : forwardImpl a cfg w x b t none =
    (do
      let (out, _) ← forwardImpl a cfg w x b t (some (GdnState.new a cfg b))
      .ok (out, none)) := by
  have hconv (mixed : List F) : convBlock a cfg w mixed b t none =
      convBlock a cfg w mixed b t (some (GdnState.new a cfg b).conv) := by
    unfold convBlock
    simp only [convForward_none a w.conv1d none _ b]
    rfl
  unfold forwardImpl
  simp only [Option.map_none, Option.map_some, hconv, Delta.forwardPrepared, bind_assoc, ok_bind]
  rfl

/-- **The mixer is continued, not restarted.** -/
theorem mix_append {t' : ℕ} (x' : List F) (hw : Shaped cfg w) (hst : st.Fits cfg) (hx : x.length = t * cfg.hidden) :
    mix a cfg w (t + t') st (x ++ x') =
      ((mix a cfg w t st x).1 ++ (mix a cfg w t' (mix a cfg w t st x).2 x').1,
        (mix a cfg w t' (mix a cfg w t st x).2 x').2) := by
  have hm := length_projected a cfg t x w.inProjQkv cfg.convDim
  have hconv := length_convRows a w.conv1d cfg.convKernel cfg.convDim t st.conv
    (mapRows (linearRow a w.inProjQkv none cfg.hidden cfg.convDim) cfg.hidden t x)
  have ho := operands_fits a (mapRows (linearRow a w.inProjA none cfg.hidden cfg.numVHeads) cfg.hidden t x) hw hconv
    (length_projected a cfg t x w.inProjB cfg.numVHeads)
  unfold mix
  simp only [mapRows_append hx, convContext_append a hm hst.conv, convRows_append a hm hst.conv w.conv1d,
    operands_append a _ _ _ hconv (length_projected a cfg t x w.inProjA cfg.numVHeads), Delta.recur_append a ho, Nat.add_mul t t']
  rw [zipRows_append (by rw [Delta.length_recur, Nat.mul_assoc]) (length_gates a), mapRows_append (length_normed a _ _)]

end Mix

end Gdn
end Qwen
end Siphon
