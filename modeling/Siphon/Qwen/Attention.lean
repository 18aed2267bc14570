/-
# Full attention

The full-attention mixer of `gdn/src/attention.rs`: projections, norms, rotary
positions, causal attention over all positions seen so far, an output gate and
the output projection. Between calls it carries the keys and values of every
position (`AttnState`), head by head.

Key theorem: `mix_append`: on one sequence, mixing a chunk and then the next
one with the state it left is mixing the two at once.
-/
import Siphon.Qwen.Tensor

namespace Siphon
namespace Qwen
namespace Attention

open Rows Fallible

variable {F D : Type} (a : Arith F D)

/-- `AttnConfig` -/
structure AttnConfig (F : Type) where
  hidden : ℕ
  numHeads : ℕ
  numKvHeads : ℕ
  headDim : ℕ
  rotaryDim : ℕ
  ropeTheta : F
  eps : F

/-- `q_out_dim` -/
def AttnConfig.qOutDim (cfg : AttnConfig F) : ℕ := cfg.numHeads * cfg.headDim * 2

/-- `kv_out_dim` -/
def AttnConfig.kvOutDim (cfg : AttnConfig F) : ℕ := cfg.numKvHeads * cfg.headDim

/-- `scaling` -/
def AttnConfig.scaling (cfg : AttnConfig F) : F := a.pow (a.ofNat cfg.headDim) a.minusHalf

/-- `AttnWeights` -/
structure AttnWeights (F : Type) where
  qProj : List F
  kProj : List F
  vProj : List F
  oProj : List F
  qNorm : List F
  kNorm : List F

/-- `AttnState`: `k` and `v` are `[B, kv_heads, len, D]`. -/
structure AttnState (F : Type) where
  k : List F
  v : List F
  len : ℕ

/-- `AttnState::new` -/
def AttnState.new : AttnState F := ⟨[], [], 0⟩

/-! ### Rotary positions -/

/-- One row of a table of `build_rope`: slots `i` and `i + half` carry the same angle. -/
def angleRow (cfg : AttnConfig F) (trig : F → F) (p : ℕ) : List F :=
  let half := cfg.rotaryDim / 2
  let invFreq i := a.div a.one (a.pow cfg.ropeTheta (a.div (a.ofNat (2 * i)) (a.ofNat cfg.rotaryDim)))
  let freqs := (List.range half).map fun i => trig (a.mul (a.ofNat p) (invFreq i))
  freqs ++ freqs ++ List.replicate (cfg.rotaryDim - (half + half)) a.zero

/-- `build_rope` -/
def buildRope (cfg : AttnConfig F) (t start : ℕ) : List F × List F :=
  (rows t fun pos => angleRow a cfg a.cos (start + pos), rows t fun pos => angleRow a cfg a.sin (start + pos))

/-- `rotate_half` -/
def rotateHalf (x : List F) (rotaryDim : ℕ) : List F :=
  let half := rotaryDim / 2
  ((List.range half).map fun i => a.neg (at' a x (i + half))) ++ ((List.range half).map fun i => at' a x i) ++
    List.replicate (rotaryDim - (half + half)) a.zero

/-- One row of `apply_rope`. -/
def ropeRow (rotaryDim : ℕ) (x cos sin : List F) : List F :=
  let rot := x.take rotaryDim
  let rh := rotateHalf a rot rotaryDim
  ((List.range rotaryDim).map fun i => a.add (a.mul (at' a rot i) (at' a cos i)) (a.mul (at' a rh i) (at' a sin i))) ++
    x.drop rotaryDim

/-- `apply_rope` over `n` rows -/
def applyRope (x : List F) (n heads headDim : ℕ) (cos sin : List F) (t rotaryDim : ℕ) : Except Fault (List F) := do
  require (n = 0 ∨ rotaryDim ≤ headDim) "rotary slice"
  require (n = 0 ∨ t * rotaryDim ≤ cos.length) "cos index"
  require (n = 0 ∨ t * rotaryDim ≤ sin.length) "sin index"
  let pos r := r / heads % t
  .ok (rows n fun r => ropeRow a rotaryDim (row x headDim r) (row cos rotaryDim (pos r)) (row sin rotaryDim (pos r)))

/-! ### Attention -/

/-- One row of `softmax_in_place`. -/
def softmaxInPlace (v : List F) : List F :=
  let m := v.foldl (fun m x => if a.lt m x then x else m) a.negInfinity
  let es := v.map fun x => a.exp (a.sub x m)
  let sum := es.foldl a.add a.zero
  let inv := a.div a.one sum
  es.map fun x => a.mul x inv

/-- `to_bhtd` -/
def toBhtd (src : List F) (b t heads d : ℕ) : List F :=
  rows b fun bi => rows heads fun hh => rows t fun ti => row src d ((bi * t + ti) * heads + hh)

/-- `append_kv` -/
def appendKv (st : AttnState F) (kRot vFlat : List F) (b t kvh d : ℕ) : Except Fault (AttnState F) := do
  let start := st.len
  require (b * kvh * (start * d) ≤ st.k.length) "cached keys"
  require (b * kvh * (start * d) ≤ st.v.length) "cached values"
  let grow old new := rows b fun bi => rows kvh fun hh =>
    row old (start * d) (bi * kvh + hh) ++ rows t fun ti => row new d ((bi * t + ti) * kvh + hh)
  .ok ⟨grow st.k kRot, grow st.v vFlat, start + t⟩

/-- The output for one query at position `p`, over the keys and values of `0 ..= p`. -/
def attendOne (d : ℕ) (scaling : F) (p : ℕ) (q : List F) (key value : ℕ → List F) : List F :=
  let scores := softmaxInPlace a <| (List.range (p + 1)).map fun tj =>
    a.mul ((List.range d).foldl (fun acc i => a.add acc (a.mul (at' a q i) (at' a (key tj) i))) a.zero) scaling
  (List.range d).map fun i =>
    (List.range (p + 1)).foldl (fun acc tj => a.add acc (a.mul (at' a scores tj) (at' a (value tj) i))) a.zero

/-- `attend` -/
def attend (q keys values : List F) (b t start h kvh d : ℕ) (scaling : F) : Except Fault (List F) := do
  require (kvh ≠ 0) "attempt to divide by zero"
  let groups := h / kvh
  require (b = 0 ∨ h = 0 ∨ groups ≠ 0) "attempt to divide by zero"
  require (b = 0 ∨ t = 0 ∨ d = 0 ∨ ∀ hh < h, hh / groups < kvh) "key index"
  let total := start + t
  .ok (rows b fun bi => rows h fun hh => rows t fun ti =>
    let kb := (bi * kvh + hh / groups) * total
    attendOne a d scaling (start + ti) (row q d ((bi * t + ti) * h + hh)) (fun tj => row keys d (kb + tj))
      (fun tj => row values d (kb + tj)))

/-! ### The shared score buffer -/

/-- `attendOne` in the one score buffer of the call: a query fills the beginning of it, and what earlier queries
left stays behind that. -/
def attendOneIn (d : ℕ) (scaling : F) (p : ℕ) (q : List F) (key value : ℕ → List F) (scores : List F) :
    List F × List F :=
  let filled := ((List.range (p + 1)).map fun tj =>
    a.mul ((List.range d).foldl (fun acc i => a.add acc (a.mul (at' a q i) (at' a (key tj) i))) a.zero) scaling) ++
      scores.drop (p + 1)
  let scores := softmaxInPlace a (filled.take (p + 1)) ++ filled.drop (p + 1)
  (scores, (List.range d).map fun i =>
    (List.range (p + 1)).foldl (fun acc tj => a.add acc (a.mul (at' a scores tj) (at' a (value tj) i))) a.zero)

/-- The three loops of `attend`, with the score buffer they leave. -/
def attendIn (q keys values : List F) (b t start h kvh d : ℕ) (scaling : F) (scores : List F) : List F × List F :=
  let groups := h / kvh
  let total := start + t
  scan (fun scores bi => scan (fun scores hh => scan (fun scores ti =>
    let kb := (bi * kvh + hh / groups) * total
    attendOneIn a d scaling (start + ti) (row q d ((bi * t + ti) * h + hh)) (fun tj => row keys d (kb + tj))
      (fun tj => row values d (kb + tj)) scores) scores t) scores h) scores b

theorem attendOneIn_snd (d : ℕ) (scaling : F) (p : ℕ) (q : List F) (key value : ℕ → List F) (scores : List F) :
    (attendOneIn a d scaling p q key value scores).2 = attendOne a d scaling p q key value := by
  have hfill : ∀ f : ℕ → F, (((List.range (p + 1)).map f) ++ scores.drop (p + 1)).take (p + 1) =
      (List.range (p + 1)).map f := by
    intro f
    apply List.take_left'
    rw [List.length_map, List.length_range]
  unfold attendOneIn attendOne
  simp only [hfill]
  refine List.map_congr_left fun i _ => List.foldl_ext _ _ _ fun acc tj htj => ?_
  rw [at'_append_left]
  unfold softmaxInPlace
  rw [List.length_map, List.length_map, List.length_map, List.length_range]
  exact List.mem_range.mp htj

/-- **No query reads what another one left in the score buffer.** -/
theorem attend_eq_attendIn {q keys values out : List F} {b t start h kvh d : ℕ} {scaling : F} (scores : List F)
    (hrun : attend a q keys values b t start h kvh d scaling = .ok out) :
    (attendIn a q keys values b t start h kvh d scaling scores).2 = out := by
  unfold attend at hrun
  obtain ⟨_, -, hrun⟩ := bind_eq_ok hrun
  obtain ⟨_, -, hrun⟩ := bind_eq_ok hrun
  obtain ⟨_, -, hrun⟩ := bind_eq_ok hrun
  rw [← Except.ok.inj hrun]
  unfold attendIn
  refine scan_rows (fun bi _ scores => ?_) scores
  refine scan_rows (fun hh _ scores => ?_) scores
  refine scan_rows (fun ti _ scores => ?_) scores
  rw [attendOneIn_snd]

/-! ### The layer -/

/-- `forward_impl`: the output of the mixer, and the advanced state if there was one. -/
def forwardImpl (cfg : AttnConfig F) (w : AttnWeights F) (x : List F) (b t : ℕ) (cos sin : List F)
    (state : Option (AttnState F)) : Except Fault (List F × Option (AttnState F)) := do
  let n := b * t
  let h := cfg.numHeads
  let kvh := cfg.numKvHeads
  let d := cfg.headDim
  require (x.length = n * cfg.hidden) "attention input size"
  let qFlat ← linear a w.qProj none x n cfg.hidden cfg.qOutDim
  let kFlat ← linear a w.kProj none x n cfg.hidden cfg.kvOutDim
  let vFlat ← linear a w.vProj none x n cfg.hidden cfg.kvOutDim
  -- head `hh` of row `r` owns the columns of row `r * h + hh`: first its query, then its gate
  let q := mapRows (fun src => src.take d) (2 * d) (n * h) qFlat
  let gate := mapRows (fun src => (src.drop d).take d) (2 * d) (n * h) qFlat
  let qNormed ← rmsnorm1plus a w.qNorm q (n * h) d cfg.eps
  let kNormed ← rmsnorm1plus a w.kNorm kFlat (n * kvh) d cfg.eps
  let qRot ← applyRope a qNormed (n * h) h d cos sin t cfg.rotaryDim
  let kRot ← applyRope a kNormed (n * kvh) kvh d cos sin t cfg.rotaryDim
  let (outBhtd, next) ← match state with
    | some st => do
      let st' ← appendKv st kRot vFlat b t kvh d
      let out ← attend a qRot st'.k st'.v b t st.len h kvh d (cfg.scaling a)
      .ok (out, some st')
    | none => do
      let out ← attend a qRot (toBhtd kRot b t kvh d) (toBhtd vFlat b t kvh d) b t 0 h kvh d (cfg.scaling a)
      .ok (out, none)
  let attnOut := rows b fun bi => rows t fun ti => rows h fun hh => row outBhtd d ((bi * h + hh) * t + ti)
  let gated := attnOut.zipWith (fun o g => a.mul o (sigmoid a g)) gate
  let o ← linear a w.oProj none gated n (h * d) cfg.hidden
  .ok (o, next)

/-- `forward` -/
def forward (cfg : AttnConfig F) (w : AttnWeights F) (x : List F) (b t : ℕ) (cos sin : List F) :
    Except Fault (List F) := do
  let (out, _) ← forwardImpl a cfg w x b t cos sin none
  .ok out

/-- `forward_with_state` -/
def forwardWithState (cfg : AttnConfig F) (w : AttnWeights F) (x : List F) (b t : ℕ) (cos sin : List F)
    (state : AttnState F) : Except Fault (List F × AttnState F) := do
  let (out, next) ← forwardImpl a cfg w x b t cos sin (some state)
  .ok (out, next.getD state)

/-- Without a state the mixer starts from the empty one. -/
theorem forwardImpl_none (cfg : AttnConfig F) (w : AttnWeights F) (x : List F) (b t : ℕ) (cos sin : List F) :
    forwardImpl a cfg w x b t cos sin none =
      (do
        let (out, _) ← forwardImpl a cfg w x b t cos sin (some AttnState.new)
        .ok (out, none)) := by
  have hempty (kRot vFlat : List F) (kvh d : ℕ) : appendKv AttnState.new kRot vFlat b t kvh d =
      .ok ⟨toBhtd kRot b t kvh d, toBhtd vFlat b t kvh d, 0 + t⟩ := by
    have hk : b * kvh * ((AttnState.new : AttnState F).len * d) ≤ (AttnState.new : AttnState F).k.length := by
      simp [AttnState.new]
    have hv : b * kvh * ((AttnState.new : AttnState F).len * d) ≤ (AttnState.new : AttnState F).v.length := by
      simp [AttnState.new]
    unfold appendKv
    simp only [require_ok hk, require_ok hv, ok_bind]
    simp only [AttnState.new, Nat.zero_mul, row_zero, List.nil_append]
    rfl
  unfold forwardImpl
  simp only [hempty, bind_assoc, ok_bind]
  rfl

/-! ### Well-shaped weights and states -/

/-- The weights pass every size check of the layer. -/
structure Shaped (cfg : AttnConfig F) (w : AttnWeights F) : Prop where
  qProj : w.qProj.length = cfg.qOutDim * cfg.hidden
  kProj : w.kProj.length = cfg.kvOutDim * cfg.hidden
  vProj : w.vProj.length = cfg.kvOutDim * cfg.hidden
  oProj : w.oProj.length = cfg.hidden * (cfg.numHeads * cfg.headDim)
  qNorm : w.qNorm.length = cfg.headDim
  kNorm : w.kNorm.length = cfg.headDim
  rotary : cfg.rotaryDim ≤ cfg.headDim
  numKvHeads : cfg.numKvHeads ≠ 0
  groups : cfg.numHeads = 0 ∨ cfg.numHeads / cfg.numKvHeads ≠ 0
  /-- every head reads one of the key heads -/
  heads : cfg.headDim = 0 ∨ ∀ hh < cfg.numHeads, hh / (cfg.numHeads / cfg.numKvHeads) < cfg.numKvHeads

/-- The state of one sequence has the sizes of the configuration. -/
structure AttnState.Fits (cfg : AttnConfig F) (st : AttnState F) : Prop where
  k : st.k.length = cfg.numKvHeads * (st.len * cfg.headDim)
  v : st.v.length = cfg.numKvHeads * (st.len * cfg.headDim)

theorem AttnState.new_fits (cfg : AttnConfig F) : (AttnState.new : AttnState F).Fits cfg := by
  constructor
  · simp [AttnState.new]
  · simp [AttnState.new]

/-! ### Rotary positions in chunks -/

theorem length_angleRow (cfg : AttnConfig F) (trig : F → F) (p : ℕ) :
    (angleRow a cfg trig p).length = cfg.rotaryDim := by
  unfold angleRow
  simp only [List.length_append, List.length_map, List.length_range, List.length_replicate]
  omega

/-- The tables of a chunk go on where those of the chunk before end. -/
theorem buildRope_append (cfg : AttnConfig F) (t t' start : ℕ) : buildRope a cfg (t + t') start =
    ((buildRope a cfg t start).1 ++ (buildRope a cfg t' (start + t)).1,
      (buildRope a cfg t start).2 ++ (buildRope a cfg t' (start + t)).2) := by
  unfold buildRope
  simp only [rows_add, Nat.add_assoc]

theorem length_buildRope (cfg : AttnConfig F) (t start : ℕ) : (buildRope a cfg t start).1.length = t * cfg.rotaryDim ∧
    (buildRope a cfg t start).2.length = t * cfg.rotaryDim :=
  ⟨length_rows fun _ _ => length_angleRow a cfg a.cos _, length_rows fun _ _ => length_angleRow a cfg a.sin _⟩

theorem length_ropeRow {rd d : ℕ} {x : List F} (cos sin : List F) (hrd : rd ≤ d) (hx : x.length = d) :
    (ropeRow a rd x cos sin).length = d := by
  unfold ropeRow
  simp only [List.length_append, List.length_map, List.length_range, List.length_drop]
  omega

/-- `applyRope` on one sequence. -/
def ropeRows (x : List F) (heads d : ℕ) (cos sin : List F) (t rd : ℕ) : List F :=
  rows (t * heads) fun r => ropeRow a rd (row x d r) (row cos rd (r / heads % t)) (row sin rd (r / heads % t))

theorem applyRope_ok {x cos sin : List F} {heads d t rd : ℕ} (hrd : rd ≤ d) (hc : cos.length = t * rd)
    (hs : sin.length = t * rd) :
    applyRope a x (t * heads) heads d cos sin t rd = .ok (ropeRows a x heads d cos sin t rd) := by
  unfold applyRope
  rw [require_ok (.inr hrd), require_ok (.inr hc.ge), require_ok (.inr hs.ge)]
  rfl

theorem length_ropeRows {x cos sin : List F} {heads d t rd : ℕ} (hrd : rd ≤ d) (hx : x.length = t * heads * d) :
    (ropeRows a x heads d cos sin t rd).length = t * heads * d :=
  length_rows fun _ hr => length_ropeRow a _ _ hrd (length_row_of_lt hx hr)

theorem ropeRows_append {x x' cos cos' sin sin' : List F} {heads d t t' rd : ℕ} (hx : x.length = t * heads * d)
    (hc : cos.length = t * rd) (hs : sin.length = t * rd) :
    ropeRows a (x ++ x') heads d (cos ++ cos') (sin ++ sin') (t + t') rd =
      ropeRows a x heads d cos sin t rd ++ ropeRows a x' heads d cos' sin' t' rd := by
  unfold ropeRows
  rw [Nat.add_mul]
  refine rows_append (fun r hr => ?_) (fun r hr => ?_)
  · have hpos : r / heads < t := Nat.div_lt_of_lt_mul (by rw [Nat.mul_comm]; exact hr)
    have hmod : r / heads % (t + t') = r / heads := Nat.mod_eq_of_lt (by omega)
    rw [row_append_left hx hr, hmod, Nat.mod_eq_of_lt hpos, row_append_left hc hpos, row_append_left hs hpos]
  · have hheads : 0 < heads := Nat.pos_of_mul_pos_left (Nat.lt_of_le_of_lt (Nat.zero_le r) hr)
    have hpos : r / heads < t' := Nat.div_lt_of_lt_mul (by rw [Nat.mul_comm]; exact hr)
    have hdiv : (t * heads + r) / heads = t + r / heads := by
      rw [Nat.add_comm, Nat.add_mul_div_right r t hheads, Nat.add_comm]
    have hmod : (t * heads + r) / heads % (t + t') = t + r / heads := by
      rw [hdiv]
      exact Nat.mod_eq_of_lt (by omega)
    rw [row_append_right hx, hmod, Nat.mod_eq_of_lt hpos, row_append_right hc, row_append_right hs]

/-! ### The cache in chunks -/

/-- One of the two buffers of `appendKv`, on one sequence. -/
def grow (kvh d start t : ℕ) (old new : List F) : List F :=
  rows kvh fun hh => row old (start * d) hh ++ rows t fun ti => row new d (ti * kvh + hh)

section Grow

variable {kvh d start t t' : ℕ} {old new new' : List F} (hold : old.length = kvh * (start * d))
include hold

theorem length_block (hnew : new.length = t * kvh * d) : ∀ hh < kvh,
    (row old (start * d) hh ++ rows t fun ti => row new d (ti * kvh + hh)).length = (start + t) * d := by
  intro hh hhh
  have hrows : (rows t fun ti => row new d (ti * kvh + hh)).length = t * d :=
    length_rows fun ti hti => length_row_of_lt hnew (index_lt hti hhh)
  rw [List.length_append, length_row_of_lt hold hhh, hrows, Nat.add_mul]

theorem length_grow (hnew : new.length = t * kvh * d) :
    (grow kvh d start t old new).length = kvh * ((start + t) * d) := length_rows (length_block hold hnew)

/-- What is cached stays cached, at its place in the longer block of its head. -/
theorem row_grow (hnew : new.length = t * kvh * d) {kv tj : ℕ} (hkv : kv < kvh) (htj : tj < start) :
    row (grow kvh d start t old new) d (kv * (start + t) + tj) = row old d (kv * start + tj) := by
  have hlen : (row old (start * d) kv).length = start * d := length_row_of_lt hold hkv
  unfold grow
  rw [row_blocks (length_block hold hnew) hkv (by omega), row_append_left hlen htj, row_row htj]

theorem grow_append (hnew : new.length = t * kvh * d) : grow kvh d start (t + t') old (new ++ new') =
    grow kvh d (start + t) t' (grow kvh d start t old new) new' := by
  refine rows_congr fun hh hhh => ?_
  have hblock : row (grow kvh d start t old new) ((start + t) * d) hh =
      row old (start * d) hh ++ rows t fun ti => row new d (ti * kvh + hh) := row_rows (length_block hold hnew) hhh
  rw [hblock, List.append_assoc]
  congr 1
  refine rows_append (fun ti hti => row_append_left hnew (index_lt hti hhh)) (fun ti _ => ?_)
  rw [Nat.add_mul, Nat.add_assoc, row_append_right hnew]

end Grow

theorem appendKv_one {st : AttnState F} {kRot vFlat : List F} {t kvh d : ℕ} (hk : st.k.length = kvh * (st.len * d))
    (hv : st.v.length = kvh * (st.len * d)) : appendKv st kRot vFlat 1 t kvh d =
      .ok ⟨grow kvh d st.len t st.k kRot, grow kvh d st.len t st.v vFlat, st.len + t⟩ := by
  have hk' : 1 * kvh * (st.len * d) ≤ st.k.length := by rw [hk, Nat.one_mul]
  have hv' : 1 * kvh * (st.len * d) ≤ st.v.length := by rw [hv, Nat.one_mul]
  unfold appendKv
  simp only [require_ok hk', require_ok hv', ok_bind, rows_one, Nat.zero_mul, Nat.zero_add]
  rfl

/-! ### Attention in chunks -/

theorem length_attendOne (d : ℕ) (scaling : F) (p : ℕ) (q : List F) (key value : ℕ → List F) :
    (attendOne a d scaling p q key value).length = d := by
  unfold attendOne
  rw [List.length_map, List.length_range]

/-- A query at position `p` sees the keys and values up to `p`. -/
theorem attendOne_congr {d p : ℕ} {scaling : F} {q : List F} {key key' value value' : ℕ → List F}
    (hk : ∀ tj ≤ p, key tj = key' tj) (hv : ∀ tj ≤ p, value tj = value' tj) :
    attendOne a d scaling p q key value = attendOne a d scaling p q key' value' := by
  have hscores : ((List.range (p + 1)).map fun tj =>
      a.mul ((List.range d).foldl (fun acc i => a.add acc (a.mul (at' a q i) (at' a (key tj) i))) a.zero) scaling) =
      (List.range (p + 1)).map fun tj =>
        a.mul ((List.range d).foldl (fun acc i => a.add acc (a.mul (at' a q i) (at' a (key' tj) i))) a.zero) scaling := by
    refine List.map_congr_left fun tj htj => ?_
    rw [hk tj (Nat.le_of_lt_succ (List.mem_range.mp htj))]
  unfold attendOne
  rw [hscores]
  refine List.map_congr_left fun i _ => List.foldl_ext _ _ _ fun acc tj htj => ?_
  rw [hv tj (Nat.le_of_lt_succ (List.mem_range.mp htj))]

/-- `attend` on one sequence. -/
def attendHeads (q keys values : List F) (t start h kvh d : ℕ) (scaling : F) : List F :=
  rows h fun hh => rows t fun ti =>
    attendOne a d scaling (start + ti) (row q d (ti * h + hh))
      (fun tj => row keys d (hh / (h / kvh) * (start + t) + tj))
      (fun tj => row values d (hh / (h / kvh) * (start + t) + tj))

/-- The same rows in the order `[T, H, D]`. -/
def attendRows (q keys values : List F) (t start h kvh d : ℕ) (scaling : F) : List F :=
  rows t fun ti => rows h fun hh =>
    attendOne a d scaling (start + ti) (row q d (ti * h + hh))
      (fun tj => row keys d (hh / (h / kvh) * (start + t) + tj))
      (fun tj => row values d (hh / (h / kvh) * (start + t) + tj))

theorem attend_one {q keys values : List F} {t start h kvh d : ℕ} {scaling : F} (hkvh : kvh ≠ 0)
    (hgroups : h = 0 ∨ h / kvh ≠ 0) (hheads : d = 0 ∨ ∀ hh < h, hh / (h / kvh) < kvh) :
    attend a q keys values 1 t start h kvh d scaling = .ok (attendHeads a q keys values t start h kvh d scaling) := by
  unfold attend
  simp only [require_ok hkvh, ok_bind, require_ok (Or.inr hgroups), require_ok (Or.inr (Or.inr hheads)), rows_one,
    Nat.zero_mul, Nat.zero_add]
  rfl

theorem rows_attendHeads (q keys values : List F) (t start h kvh d : ℕ) (scaling : F) :
    (rows t fun ti => rows h fun hh => row (attendHeads a q keys values t start h kvh d scaling) d (hh * t + ti)) =
      attendRows a q keys values t start h kvh d scaling := by
  refine rows_congr fun ti hti => rows_congr fun hh hhh => ?_
  exact row_rows_rows (fun _ _ _ _ => length_attendOne a _ _ _ _ _ _) hhh hti

theorem length_attendRows (q keys values : List F) (t start h kvh d : ℕ) (scaling : F) :
    (attendRows a q keys values t start h kvh d scaling).length = t * (h * d) :=
  length_rows fun _ _ => length_rows fun _ _ => length_attendOne a _ _ _ _ _ _

theorem attendRows_append {q q' keys values new new' : List F} {t t' start h kvh d : ℕ} {scaling : F}
    (hheads : d = 0 ∨ ∀ hh < h, hh / (h / kvh) < kvh) (hq : q.length = t * h * d)
    (hk : keys.length = kvh * ((start + t) * d)) (hv : values.length = kvh * ((start + t) * d))
    (hnew : new.length = t' * kvh * d) (hnew' : new'.length = t' * kvh * d) :
    attendRows a (q ++ q') (grow kvh d (start + t) t' keys new) (grow kvh d (start + t) t' values new') (t + t') start
        h kvh d scaling =
      attendRows a q keys values t start h kvh d scaling ++
        attendRows a q' (grow kvh d (start + t) t' keys new) (grow kvh d (start + t) t' values new') t' (start + t)
          h kvh d scaling := by
  have hsee {old n : List F} (hold : old.length = kvh * ((start + t) * d)) (hn : n.length = t' * kvh * d) {hh tj : ℕ}
      (hhh : hh < h) (htj : tj < start + t) :
      row (grow kvh d (start + t) t' old n) d (hh / (h / kvh) * (start + (t + t')) + tj) =
        row old d (hh / (h / kvh) * (start + t) + tj) := by
    rcases hheads with rfl | hheads
    · rw [row_zero, row_zero]
    · rw [← Nat.add_assoc]
      exact row_grow hold hn (hheads hh hhh) htj
  unfold attendRows
  refine rows_append (fun ti hti => rows_congr fun hh hhh => ?_) (fun ti _ => rows_congr fun hh _ => ?_)
  · rw [row_append_left hq (index_lt hti hhh)]
    exact attendOne_congr a (fun tj htj => hsee hk hnew hhh (by omega)) (fun tj htj => hsee hv hnew' hhh (by omega))
  · rw [Nat.add_mul, Nat.add_assoc (t * h), row_append_right hq]
    simp only [Nat.add_assoc]

/-! ### The mixer on one sequence -/

/-- `forwardImpl` on one sequence: the output and the state it leaves. -/
def mix (cfg : AttnConfig F) (w : AttnWeights F) (t : ℕ) (cos sin : List F) (st : AttnState F) (x : List F) :
    List F × AttnState F :=
  let h := cfg.numHeads
  let kvh := cfg.numKvHeads
  let d := cfg.headDim
  let proj (m : List F) (n : ℕ) := mapRows (linearRow a m none cfg.hidden n) cfg.hidden t x
  let qFlat := proj w.qProj cfg.qOutDim
  let qNormed := mapRows (rmsnorm1plusRow a w.qNorm d cfg.eps) d (t * h) (mapRows (fun src => src.take d) (2 * d) (t * h) qFlat)
  let kNormed := mapRows (rmsnorm1plusRow a w.kNorm d cfg.eps) d (t * kvh) (proj w.kProj cfg.kvOutDim)
  let keys := grow kvh d st.len t st.k (ropeRows a kNormed kvh d cos sin t cfg.rotaryDim)
  let values := grow kvh d st.len t st.v (proj w.vProj cfg.kvOutDim)
  let attnOut := attendRows a (ropeRows a qNormed h d cos sin t cfg.rotaryDim) keys values t st.len h kvh d (cfg.scaling a)
  let gate := mapRows (fun src => (src.drop d).take d) (2 * d) (t * h) qFlat
  (mapRows (linearRow a w.oProj none (h * d) cfg.hidden) (h * d) t (attnOut.zipWith (fun o g => a.mul o (sigmoid a g)) gate),
    ⟨keys, values, st.len + t⟩)

section Mix

variable {cfg : AttnConfig F} {w : AttnWeights F} {t : ℕ} {cos sin : List F} {st : AttnState F} {x : List F}

theorem length_mix : (mix a cfg w t cos sin st x).1.length = t * cfg.hidden :=
  length_mapRows _ (length_linearRow a _ _ _ _)

theorem length_proj (m : List F) (n : ℕ) :
    (mapRows (linearRow a m none cfg.hidden n) cfg.hidden t x).length = t * n :=
  length_mapRows x (length_linearRow a m none cfg.hidden n)

/-- The columns of a projected query row, head by head. -/
theorem length_qFlat : (mapRows (linearRow a w.qProj none cfg.hidden cfg.qOutDim) cfg.hidden t x).length =
    t * cfg.numHeads * (2 * cfg.headDim) := by
  rw [length_proj, AttnConfig.qOutDim, Nat.mul_comm _ 2, Nat.mul_left_comm 2, Nat.mul_assoc]

/-- The queries and the gates of a chunk. -/
theorem length_half {qFlat : List F} {n d : ℕ} (hq : qFlat.length = n * (2 * d)) :
    (mapRows (fun src => src.take d) (2 * d) n qFlat).length = n * d ∧
      (mapRows (fun src => (src.drop d).take d) (2 * d) n qFlat).length = n * d := by
  refine ⟨length_mapRows_of_length hq fun v hv => ?_, length_mapRows_of_length hq fun v hv => ?_⟩
  · rw [List.length_take]
    omega
  · rw [List.length_take, List.length_drop]
    omega

/-- The queries of a chunk, normalised and rotated. -/
theorem length_queries (hw : Shaped cfg w) (qs : List F) :
    (ropeRows a (mapRows (rmsnorm1plusRow a w.qNorm cfg.headDim cfg.eps) cfg.headDim (t * cfg.numHeads) qs) cfg.numHeads
      cfg.headDim cos sin t cfg.rotaryDim).length = t * cfg.numHeads * cfg.headDim :=
  length_ropeRows a hw.rotary (length_mapRows _ (length_rmsnorm1plusRow a _ _ _))

/-- The keys of a chunk, normalised and rotated. -/
theorem length_keys (hw : Shaped cfg w) :
    (ropeRows a (mapRows (rmsnorm1plusRow a w.kNorm cfg.headDim cfg.eps) cfg.headDim (t * cfg.numKvHeads)
      (mapRows (linearRow a w.kProj none cfg.hidden cfg.kvOutDim) cfg.hidden t x)) cfg.numKvHeads cfg.headDim cos sin t
        cfg.rotaryDim).length = t * cfg.numKvHeads * cfg.headDim :=
  length_ropeRows a hw.rotary (length_mapRows _ (length_rmsnorm1plusRow a _ _ _))

theorem length_values : (mapRows (linearRow a w.vProj none cfg.hidden cfg.kvOutDim) cfg.hidden t x).length =
    t * cfg.numKvHeads * cfg.headDim := by
  rw [length_proj, AttnConfig.kvOutDim, Nat.mul_assoc]

theorem mix_fits (hw : Shaped cfg w) (hst : st.Fits cfg) : (mix a cfg w t cos sin st x).2.Fits cfg where
  k := length_grow hst.k (length_keys a hw)
  v := length_grow hst.v (length_values a)

theorem forwardImpl_some (hw : Shaped cfg w) (hst : st.Fits cfg) (hx : x.length = t * cfg.hidden)
    (hc : cos.length = t * cfg.rotaryDim) (hs : sin.length = t * cfg.rotaryDim) :
    forwardImpl a cfg w x 1 t cos sin (some st) =
      .ok ((mix a cfg w t cos sin st x).1, some (mix a cfg w t cos sin st x).2) := by
  have hq := length_half (@length_qFlat F D a cfg w t x)
  have hk : (mapRows (linearRow a w.kProj none cfg.hidden cfg.kvOutDim) cfg.hidden t x).length =
      t * cfg.numKvHeads * cfg.headDim := by rw [length_proj, AttnConfig.kvOutDim, Nat.mul_assoc]
  unfold forwardImpl
  simp only [Nat.one_mul, require_ok hx, linear_ok a hw.qProj hx, linear_ok a hw.kProj hx, linear_ok a hw.vProj hx,
    ok_bind, rmsnorm1plus_ok a hw.qNorm hq.1, rmsnorm1plus_ok a hw.kNorm hk, applyRope_ok a hw.rotary hc hs,
    appendKv_one hst.k hst.v, attend_one a hw.numKvHeads hw.groups hw.heads, rows_one, Nat.zero_mul, Nat.zero_add,
    rows_attendHeads]
  rw [linear_ok a hw.oProj, ok_bind]
  · rfl
  · rw [List.length_zipWith, length_attendRows, hq.2, Nat.mul_assoc, Nat.min_self]

/-- **The mixer is continued, not restarted.** -/
theorem mix_append {t' : ℕ} {cos' sin' : List F} (x' : List F) (hw : Shaped cfg w) (hst : st.Fits cfg)
    (hx : x.length = t * cfg.hidden) (hc : cos.length = t * cfg.rotaryDim) (hs : sin.length = t * cfg.rotaryDim) :
    mix a cfg w (t + t') (cos ++ cos') (sin ++ sin') st (x ++ x') =
      ((mix a cfg w t cos sin st x).1 ++ (mix a cfg w t' cos' sin' (mix a cfg w t cos sin st x).2 x').1,
        (mix a cfg w t' cos' sin' (mix a cfg w t cos sin st x).2 x').2) := by
  have hqFlat := @length_qFlat F D a cfg w t x
  have hq := length_half hqFlat
  have hk : (mapRows (linearRow a w.kProj none cfg.hidden cfg.kvOutDim) cfg.hidden t x).length =
      t * cfg.numKvHeads * cfg.headDim := by rw [length_proj, AttnConfig.kvOutDim, Nat.mul_assoc]
  have hqn : (mapRows (rmsnorm1plusRow a w.qNorm cfg.headDim cfg.eps) cfg.headDim (t * cfg.numHeads)
      (mapRows (fun src => src.take cfg.headDim) (2 * cfg.headDim) (t * cfg.numHeads)
        (mapRows (linearRow a w.qProj none cfg.hidden cfg.qOutDim) cfg.hidden t x))).length =
      t * cfg.numHeads * cfg.headDim := length_mapRows _ (length_rmsnorm1plusRow a _ _ _)
  have hkn : (mapRows (rmsnorm1plusRow a w.kNorm cfg.headDim cfg.eps) cfg.headDim (t * cfg.numKvHeads)
      (mapRows (linearRow a w.kProj none cfg.hidden cfg.kvOutDim) cfg.hidden t x)).length =
      t * cfg.numKvHeads * cfg.headDim := length_mapRows _ (length_rmsnorm1plusRow a _ _ _)
  unfold mix
  simp only [mapRows_append hx, Nat.add_mul t t', mapRows_append hqFlat, mapRows_append hq.1, mapRows_append hk,
    ropeRows_append a hqn hc hs, ropeRows_append a hkn hc hs, grow_append hst.k (length_keys a hw),
    grow_append hst.v (length_values a)]
  rw [attendRows_append a hw.heads (length_queries a hw _) (length_grow hst.k (length_keys a hw))
      (length_grow hst.v (length_values a)) (length_keys a hw) (length_values a),
    List.zipWith_append (by rw [length_attendRows, hq.2, Nat.mul_assoc]), mapRows_append, Nat.add_assoc]
  rw [List.length_zipWith, length_attendRows, hq.2, Nat.mul_assoc, Nat.min_self]

end Mix

end Attention
end Qwen
end Siphon
