/-
# The mixers over batches, chunk by chunk

Both mixers take a batch `[B, T, hidden]`, whole or in chunks of its time
axis. On each sequence of the batch they do what they do to it alone
(`GdnBatch`, `AttentionBatch`), and on one sequence they are continued and not
restarted (`Gdn.mix_append`, `Attention.mix_append`). So the chunks of every
cut come out as the chunks of the pass over the whole, and the state behind
them is the one behind the whole.

Key definitions: `Attention.keyAt`, `Attention.valueAt`.
Key theorem: `mixers_batched`.
-/
import Siphon.Lib.Batches
import Siphon.Qwen.AttentionBatch
import Siphon.Qwen.GdnBatch

namespace Siphon
namespace Qwen

open Rows Fallible Batches

variable {F D : Type} (a : Arith F D)

/-! ### The gated delta net -/

namespace Gdn

variable {cfg : GdnConfig F} {w : GdnWeights F}

theorem mix_zero {st : GdnState F} (hst : st.Fits cfg) : (mix a cfg w 0 st []).2 = st := by
  have hconv : convContext a cfg.convKernel cfg.convDim 0 st.conv
      (mapRows (linearRow a w.inProjQkv none cfg.hidden cfg.convDim) cfg.hidden 0 []) = st.conv := by
    calc convContext a cfg.convKernel cfg.convDim 0 st.conv _ =
          rows cfg.convDim (row st.conv (cfg.convKernel - 1)) := rows_congr fun c hc => by
            unfold window channel
            rw [List.range_zero, List.map_nil, List.append_nil, List.drop_zero]
            exact List.take_of_length_le (length_row_of_lt hst.conv hc).le
      _ = st.conv := rows_row hst.conv
  unfold mix
  dsimp only
  rw [hconv]
  rfl

/-- The mixer on one sequence, chunk after chunk. -/
theorem mix_continued (hw : Shaped cfg w) :
    Continued cfg.hidden cfg.hidden (fun _ st => GdnState.Fits cfg st) (mix a cfg w) where
  length _ _ _ := length_mix a
  zero hst := mix_zero a hst
  keep hst _ := mix_fits a hst
  append x' hst hx := mix_append a x' hw hst hx

theorem forwardWithState_batched (hw : Shaped cfg w) (b : ℕ) :
    Batched b cfg.hidden (fun _ st => GdnState.Fits cfg st) (mix a cfg w) (fun _ => GdnState.batch b)
      fun t st x => forwardWithState a cfg w x b t st where
  congr h := by
    unfold GdnState.batch
    rw [rows_congr fun i hi => congrArg GdnState.conv (h i hi), rows_congr fun i hi => congrArg GdnState.ssm (h i hi)]
  step hst hx := by
    unfold forwardWithState
    rw [forwardImpl_batch a hw hst hx, ok_bind]
    rfl

theorem new_batch (b : ℕ) : GdnState.new a cfg b = GdnState.batch b fun _ => GdnState.new a cfg 1 := by
  unfold GdnState.new GdnState.batch
  simp only [rows_replicate, Nat.one_mul, Nat.mul_assoc]

/-- The pass over a whole batch. -/
theorem forward_batch (hw : Shaped cfg w) {b t : ℕ} {xs : ℕ → List F} (hx : ∀ i < b, (xs i).length = t * cfg.hidden) :
    forward a cfg w (rows b xs) b t = .ok (rows b fun i => (mix a cfg w t (GdnState.new a cfg 1) (xs i)).1) := by
  unfold forward
  rw [forwardImpl_none, new_batch, forwardImpl_batch a hw (fun _ _ => GdnState.new_fits a cfg) hx]
  rfl

theorem forward_one (hw : Shaped cfg w) {t : ℕ} {x : List F} (hx : x.length = t * cfg.hidden) :
    forward a cfg w x 1 t = .ok (mix a cfg w t (GdnState.new a cfg 1) x).1 := by
  unfold forward
  rw [forwardImpl_none, forwardImpl_some a hw (GdnState.new_fits a cfg) hx]
  rfl

theorem length_batch {b : ℕ} {ss : ℕ → GdnState F} (hst : ∀ i < b, (ss i).Fits cfg) :
    (GdnState.batch b ss).conv.length = (GdnState.new a cfg b).conv.length ∧
      (GdnState.batch b ss).ssm.length = (GdnState.new a cfg b).ssm.length := by
  unfold GdnState.batch GdnState.new
  dsimp only
  rw [length_rows fun i hi => (hst i hi).conv, length_rows fun i hi => (hst i hi).ssm, List.length_replicate,
    List.length_replicate]
  simp only [Nat.mul_assoc, and_self]

end Gdn

/-! ### Full attention -/

namespace Attention

variable {cfg : AttnConfig F} {w : AttnWeights F}

/-- The key of head `hh` at position `p`, from the input row of that position. -/
def keyAt (cfg : AttnConfig F) (w : AttnWeights F) (p : ℕ) (xr : List F) (hh : ℕ) : List F :=
  ropeRow a cfg.rotaryDim
    (rmsnorm1plusRow a w.kNorm cfg.headDim cfg.eps (row (linearRow a w.kProj none cfg.hidden cfg.kvOutDim xr) cfg.headDim hh))
    (angleRow a cfg a.cos p) (angleRow a cfg a.sin p)

/-- The value of head `hh`, from the input row of its position. -/
def valueAt (cfg : AttnConfig F) (w : AttnWeights F) (xr : List F) (hh : ℕ) : List F :=
  row (linearRow a w.vProj none cfg.hidden cfg.kvOutDim xr) cfg.headDim hh

/-- The mixer on a chunk, with the tables of the positions it stands at. -/
def mixAt (cfg : AttnConfig F) (w : AttnWeights F) (t : ℕ) (st : AttnState F) (x : List F) : List F × AttnState F :=
  mix a cfg w t (buildRope a cfg t st.len).1 (buildRope a cfg t st.len).2 st x

/-- The state is behind `p` positions. -/
def Reached (cfg : AttnConfig F) (p : ℕ) (st : AttnState F) : Prop := st.len = p ∧ st.Fits cfg

theorem mixAt_zero {p : ℕ} {st : AttnState F} (hst : Reached cfg p st) : (mixAt a cfg w 0 st []).2 = st := by
  have hgrow {old new : List F} (hold : old.length = cfg.numKvHeads * (st.len * cfg.headDim)) :
      grow cfg.numKvHeads cfg.headDim st.len 0 old new = old := by
    calc grow cfg.numKvHeads cfg.headDim st.len 0 old new = rows cfg.numKvHeads (row old (st.len * cfg.headDim)) :=
          rows_congr fun _ _ => List.append_nil _
      _ = old := rows_row hold
  unfold mixAt mix
  dsimp only
  rw [hgrow hst.2.k, hgrow hst.2.v]
  rfl

/-- The mixer on one sequence, chunk after chunk. -/
theorem mixAt_continued (hw : Shaped cfg w) : Continued cfg.hidden cfg.hidden (Reached cfg) (mixAt a cfg w) where
  length _ _ _ := length_mix a
  zero hst := mixAt_zero a hst
  keep hst _ := ⟨congrArg (· + _) hst.1, mix_fits a hw hst.2⟩
  append {p t t' s x} x' hst hx := by
    obtain ⟨hc, hs⟩ := length_buildRope a cfg t s.len
    unfold mixAt
    rw [buildRope_append]
    exact mix_append a x' hw hst.2 hx hc hs

theorem forwardWithState_batched (hw : Shaped cfg w) (b : ℕ) :
    Batched b cfg.hidden (Reached cfg) (mixAt a cfg w) (AttnState.batch b) fun t st x =>
      forwardWithState a cfg w x b t (buildRope a cfg t st.len).1 (buildRope a cfg t st.len).2 st where
  congr h := AttnState.batch_congr (fun i hi => congrArg AttnState.k (h i hi)) fun i hi => congrArg AttnState.v (h i hi)
  step {p t ss xs} hst hx := by
    obtain ⟨hc, hs⟩ := length_buildRope a cfg t p
    have hmix : ∀ i < b, mixAt a cfg w t (ss i) (xs i) =
        mix a cfg w t (buildRope a cfg t p).1 (buildRope a cfg t p).2 (ss i) (xs i) := by
      intro i hi
      unfold mixAt
      rw [(hst i hi).1]
    unfold forwardWithState
    rw [AttnState.batch_len, forwardImpl_batch a hw (fun i hi => (hst i hi).2) (fun i hi => (hst i hi).1) hx hc hs, ok_bind]
    refine congrArg Except.ok (Prod.ext (rows_congr fun i hi => congrArg Prod.fst (hmix i hi).symm) ?_)
    exact AttnState.batch_congr (fun i hi => congrArg (·.2.k) (hmix i hi).symm)
      fun i hi => congrArg (·.2.v) (hmix i hi).symm

theorem new_batch (b : ℕ) : (AttnState.new : AttnState F) = AttnState.batch b 0 fun _ => AttnState.new := by
  have hnil : (rows b fun _ => ([] : List F)) = [] := List.flatMap_eq_nil_iff.mpr fun _ _ => rfl
  unfold AttnState.batch AttnState.new
  rw [hnil]

theorem new_reached : Reached cfg 0 (AttnState.new : AttnState F) := ⟨rfl, AttnState.new_fits cfg⟩

/-- The pass over a whole batch. -/
theorem forward_batch (hw : Shaped cfg w) {b t : ℕ} {xs : ℕ → List F} (hx : ∀ i < b, (xs i).length = t * cfg.hidden) :
    forward a cfg w (rows b xs) b t (buildRope a cfg t 0).1 (buildRope a cfg t 0).2 =
      .ok (rows b fun i => (mixAt a cfg w t AttnState.new (xs i)).1) := by
  obtain ⟨hc, hs⟩ := length_buildRope a cfg t 0
  have hlen : ∀ i < b, (AttnState.new : AttnState F).len = 0 := fun _ _ => rfl
  have hrun := forwardImpl_batch a hw (fun _ _ => AttnState.new_fits cfg) hlen hx hc hs
  rw [← new_batch] at hrun
  unfold forward
  rw [forwardImpl_none, hrun]
  rfl

theorem forward_one (hw : Shaped cfg w) {t : ℕ} {x : List F} (hx : x.length = t * cfg.hidden) :
    forward a cfg w x 1 t (buildRope a cfg t 0).1 (buildRope a cfg t 0).2 =
      .ok (mixAt a cfg w t AttnState.new x).1 := by
  obtain ⟨hc, hs⟩ := length_buildRope a cfg t 0
  unfold forward
  rw [forwardImpl_none, forwardImpl_some a hw (AttnState.new_fits cfg) hx hc hs]
  rfl

/-! ### Where a key stands -/

theorem row_mapRows {f : List F → List F} {dim n k r : ℕ} {x : List F} (hf : ∀ v, (f v).length = k) (hr : r < n) :
    row (mapRows f dim n x) k r = f (row x dim r) := row_rows (fun _ _ => hf _) hr

theorem row_buildRope (cfg : AttnConfig F) {t pos : ℕ} (hpos : pos < t) :
    row (buildRope a cfg t 0).1 cfg.rotaryDim pos = angleRow a cfg a.cos pos ∧
      row (buildRope a cfg t 0).2 cfg.rotaryDim pos = angleRow a cfg a.sin pos := by
  unfold buildRope
  dsimp only
  rw [row_rows (fun _ _ => length_angleRow a cfg a.cos _) hpos, row_rows (fun _ _ => length_angleRow a cfg a.sin _) hpos,
    Nat.zero_add]
  exact ⟨rfl, rfl⟩

/-- Head `hh` of a projected row. -/
theorem row_proj {m x : List F} {t pos hh : ℕ} (hpos : pos < t) (hhh : hh < cfg.numKvHeads) :
    row (mapRows (linearRow a m none cfg.hidden cfg.kvOutDim) cfg.hidden t x) cfg.headDim (pos * cfg.numKvHeads + hh) =
      row (linearRow a m none cfg.hidden cfg.kvOutDim (row x cfg.hidden pos)) cfg.headDim hh := by
  rw [← row_row hhh]
  exact congrArg (row · cfg.headDim hh) (row_mapRows (length_linearRow a m none cfg.hidden cfg.kvOutDim) hpos)

theorem row_grow_new {kvh d t hh pos : ℕ} {new : List F} (hnew : new.length = t * kvh * d) (hhh : hh < kvh) (hpos : pos < t) :
    row (grow kvh d 0 t [] new) d (hh * t + pos) = row new d (pos * kvh + hh) := by
  have hgrow : grow kvh d 0 t [] new = rows kvh fun hh => rows t fun ti => row new d (ti * kvh + hh) := by
    unfold grow
    simp only [Nat.zero_mul, row_zero, List.nil_append]
  rw [hgrow]
  exact row_rows_rows (fun i hi j hj => length_row_of_lt hnew (index_lt hj hi)) hhh hpos

variable {t hh pos : ℕ} {x : List F}

/-- The key of a head at a position, in the state behind the whole sequence. -/
theorem mixAt_key (hw : Shaped cfg w) (hhh : hh < cfg.numKvHeads) (hpos : pos < t) :
    row (mixAt a cfg w t AttnState.new x).2.k cfg.headDim (hh * t + pos) = keyAt a cfg w pos (row x cfg.hidden pos) hh := by
  have hin := index_lt hpos hhh
  obtain ⟨hcos, hsin⟩ := row_buildRope a cfg hpos
  have hplace : (pos * cfg.numKvHeads + hh) / cfg.numKvHeads % t = pos := by
    rw [index_div hhh, Nat.mod_eq_of_lt hpos]
  refine (row_grow_new (length_keys a hw) hhh hpos).trans ?_
  refine (row_rows (fun r hr => length_ropeRow a _ _ hw.rotary (length_row_of_lt (length_mapRows _
    (length_rmsnorm1plusRow a _ _ _)) hr)) hin).trans ?_
  rw [hplace, row_mapRows (length_rmsnorm1plusRow a _ _ _) hin, row_proj a hpos hhh]
  unfold keyAt
  exact congrArg₂ _ hcos hsin

theorem mixAt_value (hhh : hh < cfg.numKvHeads) (hpos : pos < t) :
    row (mixAt a cfg w t AttnState.new x).2.v cfg.headDim (hh * t + pos) = valueAt a cfg w (row x cfg.hidden pos) hh := by
  refine (row_grow_new (length_values a) hhh hpos).trans ?_
  rw [row_proj a hpos hhh]
  rfl

end Attention

/-! ### Both mixers -/

open Gdn (GdnConfig GdnWeights GdnState)
open Attention (AttnConfig AttnWeights AttnState buildRope mixAt keyAt valueAt mixAt_key mixAt_value)

/-- The gated delta net on `b` sequences of `t` positions: at once, sequence by sequence and in the chunks `ts`. Its
state keeps its sizes. -/
def Gdn.Agrees (cfg : GdnConfig F) (w : GdnWeights F) (b t : ℕ) (ts : List ℕ) (x : List F) : Prop :=
  ∃ full last,
    Chunked b t cfg.hidden cfg.hidden ts x full (Gdn.forward a cfg w x b t) (fun x => Gdn.forward a cfg w x 1 t)
      (fun t st x => Gdn.forwardWithState a cfg w x b t st) (GdnState.new a cfg b) last ∧
    last.conv.length = (GdnState.new a cfg b).conv.length ∧ last.ssm.length = (GdnState.new a cfg b).ssm.length

/-- Full attention on `b` sequences of `t` positions: the same, each chunk with the rotary tables of the positions it
stands at. Its state has the key and the value of every head at every position, at their places in `[B, H, len, D]`. -/
def Attention.Agrees (cfg : AttnConfig F) (w : AttnWeights F) (b t : ℕ) (ts : List ℕ) (x : List F) : Prop :=
  ∃ full last,
    Chunked b t cfg.hidden cfg.hidden ts x full
      (Attention.forward a cfg w x b t (buildRope a cfg t 0).1 (buildRope a cfg t 0).2)
      (fun x => Attention.forward a cfg w x 1 t (buildRope a cfg t 0).1 (buildRope a cfg t 0).2)
      (fun t st x => Attention.forwardWithState a cfg w x b t (buildRope a cfg t st.len).1 (buildRope a cfg t st.len).2 st)
      AttnState.new last ∧
    last.len = t ∧ last.k.length = b * cfg.numKvHeads * t * cfg.headDim ∧
    last.v.length = b * cfg.numKvHeads * t * cfg.headDim ∧
    ∀ i < b, ∀ hh < cfg.numKvHeads, ∀ pos < t,
      row last.k cfg.headDim ((i * cfg.numKvHeads + hh) * t + pos) = keyAt a cfg w pos (row x cfg.hidden (i * t + pos)) hh ∧
      row last.v cfg.headDim ((i * cfg.numKvHeads + hh) * t + pos) = valueAt a cfg w (row x cfg.hidden (i * t + pos)) hh

section Mixers

variable {b t : ℕ} {ts : List ℕ} {x : List F}

theorem gdn_agrees {cfg : GdnConfig F} {w : GdnWeights F} (hw : Gdn.Shaped cfg w) (hts : ts.sum = t)
    (hx : x.length = b * t * cfg.hidden) : Gdn.Agrees a cfg w b t ts x := by
  have hblock : x.length = b * (t * cfg.hidden) := by rw [hx, Nat.mul_assoc]
  have hrow : ∀ i < b, (row x (t * cfg.hidden) i).length = t * cfg.hidden := fun i hi => length_row_of_lt hblock hi
  have hwhole := Gdn.forward_batch a hw hrow
  rw [rows_row hblock] at hwhole
  have hkept : ∀ i < b, (Gdn.mix a cfg w t (GdnState.new a cfg 1) (row x (t * cfg.hidden) i)).2.Fits cfg :=
    fun _ _ => Gdn.mix_fits a (GdnState.new_fits a cfg)
  exact ⟨_, _, chunked_of (Gdn.mix_continued a hw) (Gdn.forwardWithState_batched a hw b) (GdnState.new_fits a cfg)
    (Gdn.new_batch a b) hts hx hwhole (fun i hi => Gdn.forward_one a hw (hrow i hi)), Gdn.length_batch a hkept⟩

theorem attention_agrees {cfg : AttnConfig F} {w : AttnWeights F} (hw : Attention.Shaped cfg w) (hts : ts.sum = t)
    (hx : x.length = b * t * cfg.hidden) : Attention.Agrees a cfg w b t ts x := by
  have hblock : x.length = b * (t * cfg.hidden) := by rw [hx, Nat.mul_assoc]
  have hrow : ∀ i < b, (row x (t * cfg.hidden) i).length = t * cfg.hidden := fun i hi => length_row_of_lt hblock hi
  have hwhole := Attention.forward_batch a hw hrow
  rw [rows_row hblock] at hwhole
  have hcont := Attention.mixAt_continued a hw
  have hkept (i : ℕ) (hi : i < b) := hcont.keep Attention.new_reached (hrow i hi)
  have hk : ∀ i < b, (mixAt a cfg w t AttnState.new (row x (t * cfg.hidden) i)).2.k.length =
      cfg.numKvHeads * t * cfg.headDim := by
    intro i hi
    rw [(hkept i hi).2.k, (hkept i hi).1, Nat.zero_add, Nat.mul_assoc]
  have hv : ∀ i < b, (mixAt a cfg w t AttnState.new (row x (t * cfg.hidden) i)).2.v.length =
      cfg.numKvHeads * t * cfg.headDim := by
    intro i hi
    rw [(hkept i hi).2.v, (hkept i hi).1, Nat.zero_add, Nat.mul_assoc]
  refine ⟨_, _, chunked_of hcont (Attention.forwardWithState_batched a hw b) Attention.new_reached (Attention.new_batch b)
    hts hx hwhole (fun i hi => Attention.forward_one a hw (hrow i hi)), rfl, ?_, ?_, fun i hi hh hhh pos hpos => ?_⟩
  · rw [AttnState.batch_k, length_rows hk, Nat.mul_assoc b, Nat.mul_assoc b]
  · rw [AttnState.batch_v, length_rows hv, Nat.mul_assoc b, Nat.mul_assoc b]
  · have hplace : (i * cfg.numKvHeads + hh) * t + pos = i * (cfg.numKvHeads * t) + (hh * t + pos) := by
      rw [Nat.add_mul, Nat.mul_assoc, Nat.add_assoc]
    have hin := index_lt hhh hpos
    rw [AttnState.batch_k, AttnState.batch_v, hplace, row_blocks hk hi hin, row_blocks hv hi hin,
      mixAt_key a hw hhh hpos, mixAt_value a hhh hpos, row_row hpos]
    exact ⟨rfl, rfl⟩

/-- **The mixers over batches**: for every number of sequences and every cut of the positions, both agree with the
pass over the whole and with the pass over each sequence. -/
theorem mixers_batched {gcfg : GdnConfig F} {gw : GdnWeights F} {acfg : AttnConfig F} {aw : AttnWeights F}
    (hg : Gdn.Shaped gcfg gw) (ha : Attention.Shaped acfg aw) (b : ℕ) (hts : ts.sum = t) :
    (∀ x : List F, x.length = b * t * gcfg.hidden → Gdn.Agrees a gcfg gw b t ts x) ∧
      ∀ x : List F, x.length = b * t * acfg.hidden → Attention.Agrees a acfg aw b t ts x :=
  ⟨fun _ hx => gdn_agrees a hg hts hx, fun _ hx => attention_agrees a ha hts hx⟩

end Mixers

/-- Two value heads over one key head. -/
def smallGdn : GdnWeights ℤ := ⟨[1, 2, 3, 4], [1, 2], [1, 1], [2, 1], [1, 2, 3, 4, 5, 6, 7, 8], [1, 1], [1, 2], [1], [1, 1]⟩

/-- Two query heads over one key head. -/
def smallAttn : AttnWeights ℤ := ⟨[1, 2, 3, 4, 5, 6, 7, 8], [1, 2], [2, 1], [1, 2, 3, 4], [1, 1], [1, 1]⟩

theorem mixers_batched_two : Gdn.Agrees intArith ⟨1, 1, 2, 1, 1, 2, 1⟩ smallGdn 2 3 [1, 2] [1, 2, 3, 4, 5, 6] ∧
    Attention.Agrees intArith ⟨1, 2, 1, 2, 2, 2, 1⟩ smallAttn 2 3 [1, 2] [1, 2, 3, 4, 5, 6] := by
  have hg : Gdn.Shaped ⟨1, 1, 2, 1, 1, 2, 1⟩ smallGdn := by constructor <;> decide
  have ha : Attention.Shaped ⟨1, 2, 1, 2, 2, 2, 1⟩ smallAttn := by constructor <;> decide
  have hts : [1, 2].sum = 3 := rfl
  obtain ⟨h1, h2⟩ := mixers_batched intArith hg ha 2 hts
  exact ⟨h1 _ rfl, h2 _ rfl⟩

end Qwen
end Siphon
