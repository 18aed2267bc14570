/-
# Merging does not change what is read

`plan_shard` is the one-pass merge of the rounded spans of the tensors, and
`plan_shard_unmerged` is those spans (`planShard_eq_merge`,
`planShardUnmerged_eq`). What the merge of sorted spans covers for different
gaps is then what the plans read: without a gap the blocks of the tensors and
no others, with a greater gap the blocks of gaps it allows besides.

Key definitions: `rounded`, `Covered`.
Key theorem: `merge_reads_same`.
-/
import Siphon.Lib.Merging
import Siphon.Stloader.Total

namespace Siphon
namespace Stloader

open U64 Rounding

/-- A whole block is in one of the ranges. -/
def Covered (block : ℕ) (plan : List Range) (k : ℕ) : Prop :=
  ∃ r ∈ plan, r.offset ≤ k * block ∧ (k + 1) * block ≤ r.stop

/-- The blocks of the tensors, each as its first byte and the byte behind it. -/
def rounded (hd : ShardHeader) (block : ℕ) : List (ℕ × ℕ) :=
  (spans hd.dataStart hd.tensors).map fun p => (roundDown p.1 block, roundUp p.2 block)

/-- The range of a span. -/
def Range.ofSpan (p : ℕ × ℕ) : Range := ⟨p.1, p.2 - p.1⟩

variable {hd : ShardHeader} {block maxGap fileCeil : ℕ}

/-! ### The plans are merges -/

/-- Whole blocks inside the file. -/
structure Blocks (block fileCeil : ℕ) (p : ℕ × ℕ) : Prop where
  dvd_start : block ∣ p.1
  dvd_stop : block ∣ p.2
  lt : p.1 < p.2
  le : p.2 ≤ fileCeil

theorem blocks_kept (block fileCeil : ℕ) : Merging.Kept (Blocks block fileCeil) := by
  intro c p hc hp
  refine ⟨hc.dvd_start, ?_, hc.lt.trans_le (le_max_left _ _), max_le hc.le hp.le⟩
  obtain hm | hm := max_choice c.2 p.2
  · exact hm.symm ▸ hc.dvd_stop
  · exact hm.symm ▸ hp.dvd_stop

theorem stop_ofSpan {p : ℕ × ℕ} (hp : Blocks block fileCeil p) (hmax : fileCeil ≤ maxValue) :
    (Range.ofSpan p).stop = p.2 := by
  have hsum : p.1 + (p.2 - p.1) = p.2 := Nat.add_sub_of_le hp.lt.le
  have hle : p.1 + (p.2 - p.1) ≤ maxValue := hsum.trans_le (hp.le.trans hmax)
  exact (saturatingAdd_of_le hle).trans hsum

/-- The blocks of a tensor of the file. -/
theorem blocks_of_tensor {dataStart fileSize : ℕ} {t : TensorInfo} (hb : 0 < block)
    (hmax : roundUp fileSize block ≤ maxValue) (ht : dataStart + t.stop ≤ fileSize) (h0 : t.nbytes ≠ 0) :
    Blocks block (roundUp fileSize block)
      (roundDown (dataStart + t.start) block, roundUp (dataStart + t.stop) block) :=
  ⟨dvd_roundDown _ _, dvd_roundUp _ _, (clamped_eq hb hmax ht h0).2.2, roundUp_mono hb ht⟩

/-- One tensor of the loop: its blocks are merged into the spans so far. -/
theorem planTensor_eq_extendLast {dataStart fileSize : ℕ} {ps : List (ℕ × ℕ)} {t : TensorInfo} (hb : 0 < block)
    (hmax : roundUp fileSize block ≤ maxValue) (ht : dataStart + t.stop ≤ fileSize) (h0 : t.nbytes ≠ 0)
    (hps : ∀ p ∈ ps, Blocks block (roundUp fileSize block) p) :
    planTensor dataStart block maxGap (roundUp fileSize block) (ps.map Range.ofSpan) t =
      (Merging.extendLast maxGap ps
        (roundDown (dataStart + t.start) block, roundUp (dataStart + t.stop) block)).map Range.ofSpan := by
  obtain ⟨ha₀, ha₁, hlt⟩ := clamped_eq hb hmax ht h0
  have hc : roundUp (dataStart + t.stop) block ≤ roundUp fileSize block := roundUp_mono hb ht
  unfold planTensor Merging.extendLast
  simp only [ha₀, ha₁]
  rw [if_neg h0, if_neg (by omega), List.getLast?_map]
  cases hlast : ps.getLast? with
  | none =>
    dsimp only [Option.map_none]
    rw [List.map_append]
    rfl
  | some last =>
    have hin := hps last (List.mem_of_getLast? hlast)
    have hnear : roundDown (dataStart + t.start) block ≤ saturatingAdd last.2 maxGap ↔
        roundDown (dataStart + t.start) block ≤ last.2 + maxGap := le_saturatingAdd_iff (by omega)
    simp only [Option.map_some, stop_ofSpan hin hmax, hnear]
    split_ifs
    · rw [List.map_append, List.map_dropLast]
      rfl
    · rw [List.map_append]
      rfl

theorem foldl_planTensor {dataStart fileSize : ℕ} (hb : 0 < block) (hmax : roundUp fileSize block ≤ maxValue) :
    ∀ {ts : List TensorInfo} {ps : List (ℕ × ℕ)}, (∀ t ∈ ts, dataStart + t.stop ≤ fileSize) →
      (∀ p ∈ ps, Blocks block (roundUp fileSize block) p) →
      ts.foldl (planTensor dataStart block maxGap (roundUp fileSize block)) (ps.map Range.ofSpan) =
        (((spans dataStart ts).map fun p => (roundDown p.1 block, roundUp p.2 block)).foldl
          (Merging.extendLast maxGap) ps).map Range.ofSpan
  | [], ps, _, _ => rfl
  | t :: ts, ps, hstop, hps => by
    have ht := hstop t (by simp)
    have hts : ∀ t' ∈ ts, dataStart + t'.stop ≤ fileSize := fun t' ht' => hstop t' (by simp [ht'])
    rw [List.foldl_cons]
    by_cases h0 : t.nbytes = 0
    · rw [spans_cons_of_empty h0, planTensor, if_pos h0, foldl_planTensor hb hmax hts hps]
    · rw [spans_cons h0, planTensor_eq_extendLast hb hmax ht h0 hps, List.map_cons, List.foldl_cons]
      apply foldl_planTensor hb hmax hts
      exact Merging.forall_mem_extendLast (blocks_kept _ _) hps (blocks_of_tensor hb hmax ht h0)

/-- The plan of a shard is the merge of the blocks of its tensors. -/
theorem planShard_eq_merge (ha : Accepted hd) (hb : 1 ≤ block) (hmax : roundUp hd.fileSize block ≤ maxValue)
    (maxGap : ℕ) : planShard hd block maxGap = (Merging.merge maxGap (rounded hd block)).map Range.ofSpan := by
  unfold planShard
  rw [max_eq_left hb, ceilTo_eq hb hmax, ← Merging.foldl_extendLast]
  have hnil : ∀ p ∈ ([] : List (ℕ × ℕ)), Blocks block (roundUp hd.fileSize block) p :=
    fun _ h => absurd h List.not_mem_nil
  exact foldl_planTensor hb hmax ha.stop_le hnil

theorem planShardUnmerged_eq (ha : Accepted hd) (hb : 1 ≤ block) (hmax : roundUp hd.fileSize block ≤ maxValue) :
    planShardUnmerged hd block = (rounded hd block).map Range.ofSpan := by
  unfold planShardUnmerged rounded spans
  rw [max_eq_left hb, ceilTo_eq hb hmax, List.map_map, List.map_map, ← List.filterMap_eq_map,
    List.filterMap_filter]
  apply List.filterMap_congr
  intro t ht
  unfold planUnmerged
  by_cases h0 : t.nbytes = 0
  · simp [h0]
  · obtain ⟨ha₀, ha₁, hlt⟩ := clamped_eq hb hmax (ha.stop_le t ht) h0
    simp only [ha₀, ha₁]
    rw [if_neg h0, if_neg (by omega), if_pos (by simpa using h0)]
    rfl

/-! ### The blocks that are read -/

theorem sorted_rounded (ha : Accepted hd) (block : ℕ) : Merging.Sorted (rounded hd block) := by
  unfold Merging.Sorted rounded spans
  rw [List.pairwise_map, List.pairwise_map]
  apply List.Pairwise.filter
  apply ha.sorted.imp
  intro a b hab
  exact roundDown_mono (Nat.add_le_add_left hab hd.dataStart)

theorem rounded_blocks (ha : Accepted hd) (hb : 1 ≤ block) (hmax : roundUp hd.fileSize block ≤ maxValue) :
    ∀ p ∈ rounded hd block, Blocks block (roundUp hd.fileSize block) p := by
  intro p hp
  obtain ⟨q, hq, rfl⟩ := List.mem_map.mp hp
  obtain ⟨t, ht, h0, rfl⟩ := exists_tensor_of_mem_spans hq
  exact blocks_of_tensor hb hmax (ha.stop_le t ht) h0

/-- Aligned spans hold a whole block when they hold its first byte. -/
theorem covered_ofSpan_iff {ps : List (ℕ × ℕ)} {k : ℕ} (hb : 0 < block) (hmax : fileCeil ≤ maxValue)
    (hps : ∀ p ∈ ps, Blocks block fileCeil p) :
    Covered block (ps.map Range.ofSpan) k ↔ Merging.Covers ps (k * block) := by
  have hone : ∀ p ∈ ps, (k + 1) * block ≤ (Range.ofSpan p).stop ↔ k * block < p.2 := by
    intro p hp
    rw [stop_ofSpan (hps p hp) hmax]
    obtain ⟨c, hc⟩ := (hps p hp).dvd_stop
    rw [hc, Nat.mul_comm block c, Nat.mul_le_mul_right_iff hb, Nat.mul_lt_mul_right hb]
    exact Nat.succ_le_iff
  unfold Covered Merging.Covers
  constructor
  · rintro ⟨r, hr, h1, h2⟩
    obtain ⟨p, hp, rfl⟩ := List.mem_map.mp hr
    exact ⟨p, hp, h1, (hone p hp).mp h2⟩
  · rintro ⟨p, hp, h1, h2⟩
    exact ⟨_, List.mem_map_of_mem hp, h1, (hone p hp).mpr h2⟩

/-- A pair of neighbours of a list that is mapped. -/
theorem infix_pair_map {α β : Type} (f : α → β) {a b : α} {l : List α} (h : [a, b] <:+: l) :
    [f a, f b] <:+: l.map f := by
  obtain ⟨s, t, rfl⟩ := h
  exact ⟨s.map f, t.map f, by simp⟩

/-- **Merging does not change what is read.** Without a gap the plan covers
the blocks of the unmerged plan. A greater gap covers them too and what lies
in gaps it allows, and it makes no more ranges. -/
theorem merge_reads_same (json : SerdeJson) (f : ShardFile) {hd : ShardHeader} (hread : readHeader json f = .ok hd)
    {block : ℕ} (hb : 1 ≤ block) (hmax : roundUp hd.fileSize block ≤ maxValue) :
    (∀ k, Covered block (planShard hd block 0) k ↔ Covered block (planShardUnmerged hd block) k) ∧
    ∀ g₁ g₂, g₁ ≤ g₂ →
      (∀ k, Covered block (planShard hd block g₁) k → Covered block (planShard hd block g₂) k) ∧
      (∀ k, Covered block (planShard hd block g₂) k → ¬ Covered block (planShard hd block g₁) k →
        ∃ a b, [a, b] <:+: planShard hd block g₁ ∧ a.stop ≤ k * block ∧ (k + 1) * block ≤ b.offset ∧
          b.offset - a.stop ≤ g₂) ∧
      (planShard hd block g₂).length ≤ (planShard hd block g₁).length := by
  have ha := readHeader_accepted hread
  have hblocks := rounded_blocks ha hb hmax
  have hmerged : ∀ g, ∀ p ∈ Merging.merge g (rounded hd block), Blocks block (roundUp hd.fileSize block) p :=
    fun g => Merging.forall_mem_merge (blocks_kept _ _) hblocks
  have hcov : ∀ g k, Covered block (planShard hd block g) k ↔
      Merging.Covers (Merging.merge g (rounded hd block)) (k * block) := by
    intro g k
    rw [planShard_eq_merge ha hb hmax, covered_ofSpan_iff hb hmax (hmerged g)]
  have hlt : ∀ p ∈ rounded hd block, p.1 < p.2 := fun p hp => (hblocks p hp).lt
  refine ⟨fun k => ?_, fun g₁ g₂ hg => ⟨fun k h => ?_, fun k h h' => ?_, ?_⟩⟩
  · rw [hcov, Merging.covers_merge_zero (sorted_rounded ha block), planShardUnmerged_eq ha hb hmax,
      covered_ofSpan_iff hb hmax hblocks]
  · rw [hcov] at h ⊢
    obtain ⟨r, hr, h1, h2⟩ := h
    obtain ⟨r', hr', h3, h4⟩ := Merging.exists_mem_merge hg hlt r hr
    exact ⟨r', hr', h3.trans h1, h2.trans_le h4⟩
  · rw [hcov] at h h'
    obtain ⟨a, b, hinfix, h1, h2, h3⟩ := Merging.gap_of_covers hg (sorted_rounded ha block) hlt h h'
    have hina : a ∈ Merging.merge g₁ (rounded hd block) := hinfix.subset (by simp)
    have hinb : b ∈ Merging.merge g₁ (rounded hd block) := hinfix.subset (by simp)
    have hstop := stop_ofSpan (hmerged g₁ a hina) hmax
    refine ⟨Range.ofSpan a, Range.ofSpan b, ?_, hstop.trans_le h1, ?_, ?_⟩
    · rw [planShard_eq_merge ha hb hmax]
      exact infix_pair_map Range.ofSpan hinfix
    · -- the block of the number ends before the next multiple, where the next span starts
      obtain ⟨c, hc⟩ := (hmerged g₁ b hinb).dvd_start
      show (k + 1) * block ≤ b.1
      rw [hc, Nat.mul_comm block c] at h2 ⊢
      exact Nat.mul_le_mul_right block (Nat.lt_of_mul_lt_mul_right h2)
    · rw [hstop]
      show b.1 - a.2 ≤ g₂
      omega
  · rw [planShard_eq_merge ha hb hmax, planShard_eq_merge ha hb hmax, List.length_map, List.length_map]
    exact Merging.length_merge_le hg hlt

/-- One tensor inside the other: unmerged, the second block is read twice. -/
theorem merge_reads_same_nested : ∃ hd, readHeader nestedSerde nestedFile = .ok hd ∧
    planShardUnmerged hd 4 = [⟨112, 8⟩, ⟨116, 4⟩] ∧
      ∀ k, Covered 4 (planShard hd 4 0) k ↔ Covered 4 (planShardUnmerged hd 4) k := by
  have h : (readHeader nestedSerde nestedFile).toOption.map (fun hd => (hd.fileSize, planShardUnmerged hd 4)) =
      some (120, [⟨112, 8⟩, ⟨116, 4⟩]) := by decide +kernel
  cases hr : readHeader nestedSerde nestedFile with
  | error e =>
    rw [hr] at h
    cases h
  | ok hd =>
    rw [hr] at h
    obtain ⟨h1, h2⟩ : hd.fileSize = 120 ∧ planShardUnmerged hd 4 = [⟨112, 8⟩, ⟨116, 4⟩] := by
      simpa [Except.toOption] using h
    exact ⟨hd, rfl, h2, (merge_reads_same nestedSerde nestedFile hr (by decide) (by rw [h1]; decide)).1⟩

end Stloader
end Siphon
