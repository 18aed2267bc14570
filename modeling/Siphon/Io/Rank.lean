/-
# A chunk on its ranks

Every rank computes its own slice of a chunk (`post_read_chunk`,
`csrc/loader_common.cpp`), reads it from the file into its host window,
copies it to the device and gathers the slices of all ranks
(`csrc/loader_io_uring.cpp`, `csrc/loader_io_aio.cpp`). The slices tile the
chunk, the reads are page aligned and stay in their windows, and every rank
ends with the whole chunk (`rank_partition`).

A byte `k` of the chunk belongs to rank `k / padded_rank_size`
(`mem_slice_iff`): all the rest follows from this and from
`padded_rank_size * world_size` being the padded size of the chunk.
-/
import Mathlib.Data.Finset.Union
import Mathlib.Order.Interval.Finset.Nat
import Siphon.Lib.Memory
import Siphon.Types

namespace Siphon
namespace Io

open Rounding Memory

/-- `ChunkIOParams`. The addresses are offsets into the host and the device
buffer. -/
structure ChunkIOParams where
  chunkId : ℕ
  chunk : Chunk
  paddedRankSize : ℕ
  rankOffset : ℕ
  rankSize : ℕ
  windowIdx : ℕ
  windowOffset : ℕ
  rankDst : ℕ
  allDst : ℕ
  deriving Repr, DecidableEq

/-- What `post_read_chunk` computes on `rank`. -/
def ioParams (g : Geometry) (rank chunkId : ℕ) (chunk : Chunk) : ChunkIOParams :=
  let paddedWorldChunkSize := roundUp chunk.size g.worldChunkAlignment
  let paddedRankSize := paddedWorldChunkSize / g.worldSize
  let rankOffset := paddedRankSize * rank
  let windowIdx := chunkId % g.ioDepth
  { chunkId := chunkId
    chunk := chunk
    paddedRankSize := paddedRankSize
    rankOffset := rankOffset
    rankSize := rankLogicalSize chunk.size rankOffset paddedRankSize
    windowIdx := windowIdx
    windowOffset := windowIdx * g.rankChunkSize
    rankDst := chunk.deviceBufferOffset + rankOffset
    allDst := chunk.deviceBufferOffset }

/-- The size of the read: `rank_size_aligned`. -/
def rankSizeAligned (g : Geometry) (p : ChunkIOParams) : ℕ := roundUp p.rankSize g.rankAlignment

/-- The bytes of the chunk that the rank reads. -/
def slice (p : ChunkIOParams) : Finset ℕ := Finset.Ico p.rankOffset (p.rankOffset + p.rankSize)

/-- The buffers of a rank. -/
structure RankBuffers where
  hostBuffer : ℕ → UInt8
  deviceBuffer : ℕ → UInt8

/-- Disk to host: the read has returned `bytesRead`. -/
def readToHost (p : ChunkIOParams) (file : ℕ → UInt8) (bytesRead : ℕ) (b : RankBuffers) : RankBuffers :=
  { b with
    hostBuffer := copy file (p.chunk.fileOffset + p.rankOffset) b.hostBuffer p.windowOffset bytesRead }

/-- `cudaMemcpyAsync(rank_dst, rank_mid, rank_size)`. -/
def copyToDevice (p : ChunkIOParams) (b : RankBuffers) : RankBuffers :=
  { b with deviceBuffer := copy b.hostBuffer p.windowOffset b.deviceBuffer p.rankDst p.rankSize }

/-- `ncclAllGather(rank_dst, all_dst, padded_rank_size)` on all ranks: block
`i` at `all_dst` is what rank `i` has at its `rank_dst`. -/
def allGather (g : Geometry) (p : ℕ → ChunkIOParams) (b : ℕ → RankBuffers) (rank : ℕ) : RankBuffers :=
  { b rank with
    deviceBuffer := fun a =>
      let n := (p rank).paddedRankSize
      let k := a - (p rank).allDst
      if (p rank).allDst ≤ a ∧ k < n * g.worldSize then
        (b (k / n)).deviceBuffer ((p (k / n)).rankDst + k % n)
      else
        (b rank).deviceBuffer a }

/-- The buffers of all ranks when the chunk is loaded. -/
def loadChunk (g : Geometry) (chunkId : ℕ) (chunk : Chunk) (file : ℕ → UInt8) (bytesRead : ℕ → ℕ)
    (b : ℕ → RankBuffers) : ℕ → RankBuffers :=
  let p := fun rank => ioParams g rank chunkId chunk
  let copied := fun rank => copyToDevice (p rank) (readToHost (p rank) file (bytesRead rank) (b rank))
  if g.worldSize > 1 then allGather g p copied else copied

section Slices

variable {g : Geometry} {rank chunkId : ℕ} {chunk : Chunk}

theorem paddedRankSize_mul (g : Geometry) (rank chunkId : ℕ) (chunk : Chunk) :
    (ioParams g rank chunkId chunk).paddedRankSize * g.worldSize =
      roundUp chunk.size g.worldChunkAlignment := by
  refine Nat.div_mul_cancel ?_
  exact (Nat.dvd_mul_left g.worldSize g.rankAlignment).trans (dvd_roundUp _ _)

theorem page_dvd_paddedRankSize : g.rankAlignment ∣ (ioParams g rank chunkId chunk).paddedRankSize := by
  apply Nat.dvd_of_mul_dvd_mul_right g.worldSize_pos
  rw [paddedRankSize_mul]
  exact dvd_roundUp _ _

theorem le_paddedRankSize_mul : chunk.size ≤ (ioParams g rank chunkId chunk).paddedRankSize * g.worldSize := by
  rw [paddedRankSize_mul]
  exact le_roundUp g.worldChunkAlignment_pos _

theorem paddedRankSize_pos (h : 0 < chunk.size) : 0 < (ioParams g rank chunkId chunk).paddedRankSize :=
  Nat.pos_of_mul_pos_right (h.trans_le le_paddedRankSize_mul)

theorem paddedRankSize_le (h : chunk.size ≤ g.worldChunkSize) :
    (ioParams g rank chunkId chunk).paddedRankSize ≤ g.rankChunkSize := by
  refine Nat.le_of_mul_le_mul_right ?_ g.worldSize_pos
  rw [paddedRankSize_mul]
  exact roundUp_le_of_dvd g.worldChunkAlignment_pos g.worldChunkAlignment_dvd_worldChunkSize h

theorem rankSize_le : (ioParams g rank chunkId chunk).rankSize ≤
    (ioParams g rank chunkId chunk).paddedRankSize := by
  simp only [ioParams, rankLogicalSize]
  split_ifs
  · exact Nat.min_le_right _ _
  · exact Nat.zero_le _

theorem rankSizeAligned_le : rankSizeAligned g (ioParams g rank chunkId chunk) ≤
    (ioParams g rank chunkId chunk).paddedRankSize :=
  roundUp_le_of_dvd g.rankAlignment_pos page_dvd_paddedRankSize rankSize_le

/-- Byte `k` of the chunk is on rank `k / padded_rank_size`. -/
theorem mem_slice_iff (h : 0 < chunk.size) {k : ℕ} : k ∈ slice (ioParams g rank chunkId chunk) ↔
    k < chunk.size ∧ k / (ioParams g rank chunkId chunk).paddedRankSize = rank := by
  have hpos : 0 < (ioParams g rank chunkId chunk).paddedRankSize := paddedRankSize_pos h
  set n := (ioParams g rank chunkId chunk).paddedRankSize with hn
  have hsize : (ioParams g rank chunkId chunk).rankSize = rankLogicalSize chunk.size (n * rank) n := rfl
  have hoffset : (ioParams g rank chunkId chunk).rankOffset = n * rank := rfl
  rw [slice, Finset.mem_Ico, hsize, hoffset, Nat.div_eq_iff hpos, rankLogicalSize, Nat.mul_comm n rank]
  split_ifs <;> omega

theorem slice_disjoint (h : 0 < chunk.size) {i j : ℕ} (hne : i ≠ j) :
    Disjoint (slice (ioParams g i chunkId chunk)) (slice (ioParams g j chunkId chunk)) := by
  rw [Finset.disjoint_left]
  intro k hi hj
  rw [mem_slice_iff h] at hi hj
  exact hne (hi.2.symm.trans hj.2)

theorem biUnion_slice (h : 0 < chunk.size) :
    (Finset.range g.worldSize).biUnion (fun rank => slice (ioParams g rank chunkId chunk)) =
      Finset.range chunk.size := by
  ext k
  simp only [Finset.mem_biUnion, Finset.mem_range, mem_slice_iff h]
  constructor
  · rintro ⟨rank, -, hk, -⟩
    exact hk
  · intro hk
    refine ⟨k / (ioParams g 0 chunkId chunk).paddedRankSize, ?_, hk, rfl⟩
    rw [Nat.div_lt_iff_lt_mul (paddedRankSize_pos h), Nat.mul_comm]
    exact hk.trans_le le_paddedRankSize_mul

/-! ### The bytes -/

/-- The read returned at least the logical bytes of every rank, and no more
than it asked for. -/
def Complete (g : Geometry) (chunkId : ℕ) (chunk : Chunk) (bytesRead : ℕ → ℕ) : Prop :=
  ∀ rank < g.worldSize, (ioParams g rank chunkId chunk).rankSize ≤ bytesRead rank ∧
    bytesRead rank ≤ rankSizeAligned g (ioParams g rank chunkId chunk)

/-- A rank's own slice, when it is copied to the device. -/
theorem copyToDevice_apply (p : ChunkIOParams) (file : ℕ → UInt8) {n : ℕ} (b : RankBuffers)
    (hn : p.rankSize ≤ n) {j : ℕ} (hj : j < p.rankSize) :
    (copyToDevice p (readToHost p file n b)).deviceBuffer (p.rankDst + j) =
      file (p.chunk.fileOffset + p.rankOffset + j) := by
  simp only [copyToDevice, readToHost]
  rw [copy_inside _ _ _ _ hj, copy_inside _ _ _ _ (hj.trans_le hn)]

/-- Every rank has byte `k` of the chunk at its place. -/
theorem loadChunk_apply {bytesRead : ℕ → ℕ} (h : 0 < chunk.size) (hread : Complete g chunkId chunk bytesRead)
    (file : ℕ → UInt8) (b : ℕ → RankBuffers) (hrank : rank < g.worldSize) {k : ℕ} (hk : k < chunk.size) :
    (loadChunk g chunkId chunk file bytesRead b rank).deviceBuffer (chunk.deviceBufferOffset + k) =
      file (chunk.fileOffset + k) := by
  set n := (ioParams g rank chunkId chunk).paddedRankSize with hn
  have hpos : 0 < n := paddedRankSize_pos h
  have hlt : k < n * g.worldSize := hk.trans_le le_paddedRankSize_mul
  -- the owner of the byte, and the byte's place in the owner's slice
  set i := k / n with hi
  have hin : i < g.worldSize := (Nat.div_lt_iff_lt_mul hpos).mpr (Nat.mul_comm n _ ▸ hlt)
  have hsplit : n * i + k % n = k := Nat.div_add_mod k n
  have hmem : k ∈ slice (ioParams g i chunkId chunk) := (mem_slice_iff h).mpr ⟨hk, rfl⟩
  have hoff : (ioParams g i chunkId chunk).rankOffset = n * i := rfl
  rw [slice, Finset.mem_Ico, hoff] at hmem
  have hown := copyToDevice_apply (ioParams g i chunkId chunk) file (b i) (hread i hin).1
    (show k % n < (ioParams g i chunkId chunk).rankSize by omega)
  have hbyte : chunk.fileOffset + n * i + k % n = chunk.fileOffset + k := by omega
  rw [show (ioParams g i chunkId chunk).chunk = chunk from rfl, hoff, hbyte] at hown
  rw [loadChunk]
  by_cases hw : g.worldSize > 1
  · rw [if_pos hw]
    simp only [allGather]
    rw [show (ioParams g rank chunkId chunk).allDst = chunk.deviceBufferOffset from rfl, ← hn,
      Nat.add_sub_cancel_left, if_pos ⟨by omega, hlt⟩]
    exact hown
  · -- one rank: its slice is the chunk
    have hone : g.worldSize ≤ 1 := not_lt.mp hw
    have hrank0 : rank = i :=
      (Nat.lt_one_iff.mp (hrank.trans_le hone)).trans (Nat.lt_one_iff.mp (hin.trans_le hone)).symm
    have hplace : (ioParams g i chunkId chunk).rankDst + k % n = chunk.deviceBufferOffset + k := by
      show chunk.deviceBufferOffset + n * i + k % n = _
      omega
    rw [if_neg hw, hrank0, ← hplace]
    exact hown

end Slices

/-! ### The partition -/

/-- What the ranks make of a chunk. -/
structure Partition (g : Geometry) (chunkId : ℕ) (chunk : Chunk) : Prop where
  disjoint : ∀ i j, i < g.worldSize → j < g.worldSize → i ≠ j →
    Disjoint (slice (ioParams g i chunkId chunk)) (slice (ioParams g j chunkId chunk))
  tiles : (Finset.range g.worldSize).biUnion (fun rank => slice (ioParams g rank chunkId chunk)) =
    Finset.range chunk.size
  aligned : ∀ rank < g.worldSize,
    g.rankAlignment ∣ chunk.fileOffset + (ioParams g rank chunkId chunk).rankOffset
  read_le : ∀ rank < g.worldSize, rankSizeAligned g (ioParams g rank chunkId chunk) ≤
    (ioParams g rank chunkId chunk).paddedRankSize
  padded_le : ∀ rank < g.worldSize, (ioParams g rank chunkId chunk).paddedRankSize ≤ g.rankChunkSize
  in_window : ∀ rank < g.worldSize,
    Finset.Ico (ioParams g rank chunkId chunk).windowOffset
        ((ioParams g rank chunkId chunk).windowOffset + rankSizeAligned g (ioParams g rank chunkId chunk)) ⊆
      Finset.Ico (chunkId % g.ioDepth * g.rankChunkSize) ((chunkId % g.ioDepth + 1) * g.rankChunkSize)
  gathers : ∀ (file : ℕ → UInt8) (bytesRead : ℕ → ℕ) (b : ℕ → RankBuffers),
    Complete g chunkId chunk bytesRead → ∀ rank < g.worldSize, ∀ k < chunk.size,
      (loadChunk g chunkId chunk file bytesRead b rank).deviceBuffer (chunk.deviceBufferOffset + k) =
        file (chunk.fileOffset + k)

/-- **The ranks reassemble the chunk.** For a chunk with a page-aligned file
offset, the slices of the ranks are disjoint and tile it, the reads are page
aligned and stay in the host window, and the gather puts every byte at its
place on every rank. -/
theorem rank_partition (g : Geometry) (chunkId : ℕ) (chunk : Chunk) (hpos : 0 < chunk.size)
    (hle : chunk.size ≤ g.worldChunkSize) (hpage : g.rankAlignment ∣ chunk.fileOffset) :
    Partition g chunkId chunk where
  disjoint i j _ _ hne := slice_disjoint hpos hne
  tiles := biUnion_slice hpos
  aligned rank _ :=
    have hslice : g.rankAlignment ∣ (ioParams g rank chunkId chunk).paddedRankSize := page_dvd_paddedRankSize
    (Nat.dvd_add_right hpage).mpr (hslice.mul_right rank)
  read_le _ _ := rankSizeAligned_le
  padded_le _ _ := paddedRankSize_le hle
  in_window rank _ := by
    have hread : rankSizeAligned g (ioParams g rank chunkId chunk) ≤ g.rankChunkSize :=
      rankSizeAligned_le.trans (paddedRankSize_le hle)
    apply Finset.Ico_subset_Ico_right
    rw [Nat.add_mul, Nat.one_mul]
    exact Nat.add_le_add_left hread _
  gathers file bytesRead b hread rank hrank k hk := loadChunk_apply hpos hread file b hrank hk

/-- Three ranks with two pages each. -/
def threeRanks : Geometry :=
  initBuffer 4096 3 8192 4 0 page_pos (by decide) twoPages_pos (by decide)

/-- The end of a file, which leaves the last rank without bytes. -/
def tailChunk : Chunk := ⟨12388, 0, 8192, 16⟩

theorem rank_partition_tailChunk :
    (List.range 3).map (fun rank => (ioParams threeRanks rank 7 tailChunk).rankSize) = [8192, 4196, 0] ∧
      Partition threeRanks 7 tailChunk :=
  ⟨by decide, rank_partition threeRanks 7 tailChunk (by decide) (by decide) (by decide)⟩

end Io
end Siphon
