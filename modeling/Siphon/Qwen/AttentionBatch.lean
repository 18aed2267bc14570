/-
# Batches in full attention

Queries, keys and values come as `[B, T, H, D]` and are attended to as
`[B, H, T, D]`, over a cache that is `[B, kv_heads, len, D]`. In each of these
layouts a batch is the buffers of its sequences one after another, and the
rotary tables are shared by all of them. So the mixer does to each sequence
what it does to that one alone.

Key theorem: `forwardImpl_batch`.
-/
import Siphon.Qwen.Attention

namespace Siphon
namespace Qwen
namespace Attention

open Rows Fallible

variable {F D : Type} (a : Arith F D)

/-- The states of `b` sequences at one length. -/
def AttnState.batch (b len : ℕ) (ss : ℕ → AttnState F) : AttnState F :=
  ⟨rows b fun i => (ss i).k, rows b fun i => (ss i).v, len⟩

section State

variable {b len : ℕ} {ss ss' : ℕ → AttnState F}

@[simp] theorem AttnState.batch_k : (AttnState.batch b len ss).k = rows b fun i => (ss i).k := rfl

@[simp] theorem AttnState.batch_v : (AttnState.batch b len ss).v = rows b fun i => (ss i).v := rfl

@[simp] theorem AttnState.batch_len : (AttnState.batch b len ss).len = len := rfl

theorem AttnState.batch_congr (hk : ∀ i < b, (ss i).k = (ss' i).k) (hv : ∀ i < b, (ss i).v = (ss' i).v) :
    AttnState.batch b len ss = AttnState.batch b len ss' := by
  unfold AttnState.batch
  rw [rows_congr hk, rows_congr hv]

end State

section Stages

variable {b t : ℕ}

/-- Row `(ti, hh)` of sequence `bi`. -/
theorem row_batch {h d bi ti hh : ℕ} {qs : ℕ → List F} (hq : ∀ i < b, (qs i).length = t * h * d) (hbi : bi < b)
    (hti : ti < t) (hhh : hh < h) : row (rows b qs) d ((bi * t + ti) * h + hh) = row (qs bi) d (ti * h + hh) := by
  rw [Nat.add_mul, Nat.mul_assoc, Nat.add_assoc]
  exact row_blocks hq hbi (index_lt hti hhh)

/-- The position of a row is its position in its own sequence. -/
theorem applyRope_batch {heads d rd : ℕ} {cos sin : List F} {qs : ℕ → List F} (hrd : rd ≤ d)
    (hq : ∀ i < b, (qs i).length = t * heads * d) (hc : cos.length = t * rd) (hs : sin.length = t * rd) :
    applyRope a (rows b qs) (b * (t * heads)) heads d cos sin t rd =
      .ok (rows b fun i => ropeRows a (qs i) heads d cos sin t rd) := by
  have hpos : ∀ bi r, r < t * heads → (bi * (t * heads) + r) / heads % t = r / heads % t := by
    intro bi r hr
    have hheads : 0 < heads := Nat.pos_of_mul_pos_left (Nat.lt_of_le_of_lt (Nat.zero_le r) hr)
    calc (bi * (t * heads) + r) / heads % t = (r + bi * t * heads) / heads % t := by
          rw [← Nat.mul_assoc, Nat.add_comm]
      _ = (r / heads + bi * t) % t := by rw [Nat.add_mul_div_right _ _ hheads]
      _ = r / heads % t := Nat.add_mul_mod_self_right _ _ _
  unfold applyRope
  rw [require_ok (.inr hrd), require_ok (.inr hc.ge), require_ok (.inr hs.ge)]
  simp only [ok_bind]
  rw [rows_mul]
  refine congrArg Except.ok (rows_congr fun bi hbi => rows_congr fun r hr => ?_)
  rw [row_blocks hq hbi hr, hpos bi r hr]

theorem appendKv_batch {kvh d len : ℕ} {ss : ℕ → AttnState F} {ks vs : ℕ → List F}
    (hk : ∀ i < b, (ss i).k.length = kvh * (len * d)) (hv : ∀ i < b, (ss i).v.length = kvh * (len * d))
    (hks : ∀ i < b, (ks i).length = t * kvh * d) (hvs : ∀ i < b, (vs i).length = t * kvh * d) :
    appendKv (AttnState.batch b len ss) (rows b ks) (rows b vs) b t kvh d =
      .ok (AttnState.batch b (len + t) fun i =>
        ⟨grow kvh d len t (ss i).k (ks i), grow kvh d len t (ss i).v (vs i), len + t⟩) := by
  have hsize {old : ℕ → List F} (hold : ∀ i < b, (old i).length = kvh * (len * d)) :
      b * kvh * (len * d) ≤ (rows b old).length := by rw [length_rows hold, Nat.mul_assoc]
  have hgrow {old new : ℕ → List F} (hold : ∀ i < b, (old i).length = kvh * (len * d))
      (hnew : ∀ i < b, (new i).length = t * kvh * d) :
      (rows b fun bi => rows kvh fun hh => row (rows b old) (len * d) (bi * kvh + hh) ++
        rows t fun ti => row (rows b new) d ((bi * t + ti) * kvh + hh)) =
        rows b fun bi => grow kvh d len t (old bi) (new bi) := by
    refine rows_congr fun bi hbi => rows_congr fun hh hhh => ?_
    rw [row_blocks hold hbi hhh, rows_congr fun ti hti => row_batch hnew hbi hti hhh]
  unfold appendKv AttnState.batch
  dsimp only
  rw [require_ok (hsize hk), ok_bind, require_ok (hsize hv), ok_bind, hgrow hk hks, hgrow hv hvs]

theorem length_attendHeads (q keys values : List F) (start h kvh d : ℕ) (scaling : F) :
    (attendHeads a q keys values t start h kvh d scaling).length = h * t * d := by
  unfold attendHeads
  rw [length_rows fun _ _ => length_rows fun _ _ => length_attendOne a _ _ _ _ _ _, Nat.mul_assoc]

theorem attend_batch {start h kvh d : ℕ} (scaling : F) {qs ks vs : ℕ → List F} (hkvh : kvh ≠ 0)
    (hgroups : h = 0 ∨ h / kvh ≠ 0) (hheads : d = 0 ∨ ∀ hh < h, hh / (h / kvh) < kvh)
    (hq : ∀ i < b, (qs i).length = t * h * d) (hk : ∀ i < b, (ks i).length = kvh * ((start + t) * d))
    (hv : ∀ i < b, (vs i).length = kvh * ((start + t) * d)) :
    attend a (rows b qs) (rows b ks) (rows b vs) b t start h kvh d scaling =
      .ok (rows b fun i => attendHeads a (qs i) (ks i) (vs i) t start h kvh d scaling) := by
  have hsee {old : ℕ → List F} (hold : ∀ i < b, (old i).length = kvh * ((start + t) * d)) {bi hh tj : ℕ} (hbi : bi < b)
      (hhh : hh < h) (htj : tj < start + t) : row (rows b old) d ((bi * kvh + hh / (h / kvh)) * (start + t) + tj) =
        row (old bi) d (hh / (h / kvh) * (start + t) + tj) := by
    rcases hheads with rfl | hheads
    · rw [row_zero, row_zero]
    · have hold' : ∀ i < b, (old i).length = kvh * (start + t) * d := fun i hi => by rw [hold i hi, Nat.mul_assoc]
      rw [Nat.add_mul, Nat.mul_assoc, Nat.add_assoc]
      exact row_blocks hold' hbi (index_lt (hheads hh hhh) htj)
  unfold attend
  simp only [require_ok hkvh, ok_bind, require_ok (Or.inr hgroups), require_ok (Or.inr (Or.inr hheads))]
  refine congrArg Except.ok (rows_congr fun bi hbi => rows_congr fun hh hhh => rows_congr fun ti hti => ?_)
  rw [row_batch hq hbi hti hhh]
  exact attendOne_congr a (fun tj htj => hsee hk hbi hhh (by omega)) fun tj htj => hsee hv hbi hhh (by omega)

/-- The heads of a batch, put back into the order `[B, T, H, D]`. -/
theorem rows_attendHeads_batch (qs ks vs : ℕ → List F) (start h kvh d : ℕ) (scaling : F) :
    (rows b fun bi => rows t fun ti => rows h fun hh =>
      row (rows b fun i => attendHeads a (qs i) (ks i) (vs i) t start h kvh d scaling) d ((bi * h + hh) * t + ti)) =
      rows b fun i => attendRows a (qs i) (ks i) (vs i) t start h kvh d scaling := by
  have hlen : ∀ i < b, (attendHeads a (qs i) (ks i) (vs i) t start h kvh d scaling).length = h * t * d :=
    fun i _ => length_attendHeads a _ _ _ _ _ _ _ _
  refine rows_congr fun bi hbi => ?_
  rw [← rows_attendHeads]
  refine rows_congr fun ti hti => rows_congr fun hh hhh => ?_
  exact row_batch hlen hbi hhh hti

end Stages

/-- **The mixer on a batch** is the mixer on each of its sequences. -/
theorem forwardImpl_batch {cfg : AttnConfig F} {w : AttnWeights F} {b t len : ℕ} {cos sin : List F}
    {ss : ℕ → AttnState F} {xs : ℕ → List F} (hw : Shaped cfg w) (hst : ∀ i < b, (ss i).Fits cfg)
    (hlen : ∀ i < b, (ss i).len = len) (hx : ∀ i < b, (xs i).length = t * cfg.hidden)
    (hc : cos.length = t * cfg.rotaryDim) (hs : sin.length = t * cfg.rotaryDim) :
    forwardImpl a cfg w (rows b xs) b t cos sin (some (AttnState.batch b len ss)) =
      .ok (rows b fun i => (mix a cfg w t cos sin (ss i) (xs i)).1,
        some (AttnState.batch b (len + t) fun i => (mix a cfg w t cos sin (ss i) (xs i)).2)) := by
  have hsize : (rows b xs).length = b * t * cfg.hidden := by rw [length_rows hx, Nat.mul_assoc]
  have hhalf (i : ℕ) := length_half (@length_qFlat F D a cfg w t (xs i))
  have hqFlat : ∀ i < b, (mapRows (linearRow a w.qProj none cfg.hidden cfg.qOutDim) cfg.hidden t (xs i)).length =
      t * cfg.numHeads * (2 * cfg.headDim) := fun i _ => length_qFlat a
  have hq : ∀ i < b, (mapRows (fun src => src.take cfg.headDim) (2 * cfg.headDim) (t * cfg.numHeads)
      (mapRows (linearRow a w.qProj none cfg.hidden cfg.qOutDim) cfg.hidden t (xs i))).length =
      t * cfg.numHeads * cfg.headDim := fun i _ => (hhalf i).1
  have hk : ∀ i < b, (mapRows (linearRow a w.kProj none cfg.hidden cfg.kvOutDim) cfg.hidden t (xs i)).length =
      t * cfg.numKvHeads * cfg.headDim := fun i _ => by rw [length_proj, AttnConfig.kvOutDim, Nat.mul_assoc]
  have hheads : b * t * cfg.numHeads = b * (t * cfg.numHeads) := Nat.mul_assoc _ _ _
  have hkvs : b * t * cfg.numKvHeads = b * (t * cfg.numKvHeads) := Nat.mul_assoc _ _ _
  have hqRot : ∀ i < b, (ropeRows a (mapRows (rmsnorm1plusRow a w.qNorm cfg.headDim cfg.eps) cfg.headDim (t * cfg.numHeads)
      (mapRows (fun src => src.take cfg.headDim) (2 * cfg.headDim) (t * cfg.numHeads)
        (mapRows (linearRow a w.qProj none cfg.hidden cfg.qOutDim) cfg.hidden t (xs i)))) cfg.numHeads cfg.headDim cos sin t
      cfg.rotaryDim).length = t * cfg.numHeads * cfg.headDim := fun i _ => length_queries a hw _
  have hnormed {m ys : List F} {n : ℕ} : (mapRows (rmsnorm1plusRow a m cfg.headDim cfg.eps) cfg.headDim n ys).length =
      n * cfg.headDim := length_mapRows _ (length_rmsnorm1plusRow a _ _ _)
  have hold : ∀ i < b, (ss i).k.length = cfg.numKvHeads * (len * cfg.headDim) := fun i hi => hlen i hi ▸ (hst i hi).k
  have hold' : ∀ i < b, (ss i).v.length = cfg.numKvHeads * (len * cfg.headDim) := fun i hi => hlen i hi ▸ (hst i hi).v
  have hkRot : ∀ i < b, (ropeRows a (mapRows (rmsnorm1plusRow a w.kNorm cfg.headDim cfg.eps) cfg.headDim
      (t * cfg.numKvHeads) (mapRows (linearRow a w.kProj none cfg.hidden cfg.kvOutDim) cfg.hidden t (xs i))) cfg.numKvHeads
      cfg.headDim cos sin t cfg.rotaryDim).length = t * cfg.numKvHeads * cfg.headDim := fun i _ => length_keys a hw
  have hv : ∀ i < b, (mapRows (linearRow a w.vProj none cfg.hidden cfg.kvOutDim) cfg.hidden t (xs i)).length =
      t * cfg.numKvHeads * cfg.headDim := fun i _ => length_values a
  have hgate : ∀ i < b, (mapRows (fun src => (src.drop cfg.headDim).take cfg.headDim) (2 * cfg.headDim) (t * cfg.numHeads)
      (mapRows (linearRow a w.qProj none cfg.hidden cfg.qOutDim) cfg.hidden t (xs i))).length =
      t * (cfg.numHeads * cfg.headDim) := fun i _ => by rw [(hhalf i).2, Nat.mul_assoc]
  have hout (q keys values : List F) : (attendRows a q keys values t len cfg.numHeads cfg.numKvHeads cfg.headDim
      (cfg.scaling a)).length = t * (cfg.numHeads * cfg.headDim) := length_attendRows a _ _ _ _ _ _ _ _ _
  have hgated (x y : List F) (hx : x.length = t * (cfg.numHeads * cfg.headDim))
      (hy : y.length = t * (cfg.numHeads * cfg.headDim)) : (x.zipWith (fun o g => a.mul o (sigmoid a g)) y).length =
        t * (cfg.numHeads * cfg.headDim) := by rw [List.length_zipWith, hx, hy, Nat.min_self]
  have hattend := attend_batch a (cfg.scaling a) hw.numKvHeads hw.groups hw.heads hqRot
    (fun i hi => length_grow (hold i hi) (hkRot i hi)) fun i hi => length_grow (hold' i hi) (hv i hi)
  unfold forwardImpl
  simp only [require_ok hsize, linear_batch a hw.qProj hx, linear_batch a hw.kProj hx, linear_batch a hw.vProj hx, ok_bind,
    hheads, hkvs, mapRows_rows hqFlat, rmsnorm1plus_batch a hw.qNorm hq, rmsnorm1plus_batch a hw.kNorm hk,
    applyRope_batch a hw.rotary (fun i _ => hnormed) hc hs, appendKv_batch hold hold' hkRot hv]
  simp only [AttnState.batch_k, AttnState.batch_v, AttnState.batch_len, hattend, ok_bind, rows_attendHeads_batch]
  rw [zipWith_rows _ (fun i _ => hout _ _ _) hgate, linear_batch a hw.oProj fun i _ => hgated _ _ (hout _ _ _) (hgate i ‹_›),
    ok_bind]
  refine congrArg Except.ok (Prod.ext (rows_congr fun i hi => ?_) ?_)
  · unfold mix
    rw [hlen i hi]
  · refine congrArg some (AttnState.batch_congr (fun i hi => ?_) fun i hi => ?_)
    · unfold mix
      rw [hlen i hi]
    · unfold mix
      rw [hlen i hi]

end Attention
end Qwen
end Siphon
