/-
# The loader's data types and buffer geometry

The records of `csrc/siphon/types.hpp` and the sizes that
`Loader::init_buffer` (`csrc/loader_common.cpp`) derives from the arguments of
`open`: the page size `A`, the world size `P`, the rank chunk `R` (a positive
multiple of `A`), the world chunk `W = R * P`, the world alignment
`Aw = A * P`, and the allocated device buffer, which is the effective buffer
size plus three times the padding of one chunk.

`size_t` is `ℕ`: every size here is bounded by an allocation or a file that
exists. `chunk_id_t` is `ssize_t` in the source and `ℤ` here, since `-1` and
`-2` are reached. The fields of `Chunk` that only the I/O backends use
(`request`, `extra_data`) are modelled with the backends.
-/
import Siphon.Lib.Rounding

namespace Siphon

open Rounding

/-- `first_tensor_alignment`. -/
def firstTensorAlignment : ℕ := 16

/-- `MAX_IO_DEPTH`. -/
def maxIoDepth : ℕ := 1024

/-- `TensorMetadate`: where a tensor lies in its file and in the device buffer. -/
structure TensorMetadate where
  size : ℕ
  fileIndex : ℕ
  fileOffset : ℕ
  deviceBufferOffset : ℕ
  lastChunkId : ℤ
  prefetchChunkId : ℤ
  deriving Repr, DecidableEq, Inhabited

/-- `Chunk`: a file range and its device destination. -/
structure Chunk where
  size : ℕ
  fileIndex : ℕ
  fileOffset : ℕ
  deviceBufferOffset : ℕ
  deriving Repr, DecidableEq, Inhabited

/-- `rank_logical_size`: the bytes of a chunk that fall into the rank's slice. -/
def rankLogicalSize (chunkSize rankOffset paddedRankSize : ℕ) : ℕ :=
  if chunkSize > rankOffset then min (chunkSize - rankOffset) paddedRankSize else 0

/-- `required_buffer_size_for_io`, with the page size as an argument. -/
def requiredBufferSizeForIo (pageSize chunkSize ioDepth worldSize : ℕ) : ℕ :=
  roundUp chunkSize pageSize * ioDepth * worldSize

/-- What `open` has checked and `init_buffer` has computed when
`compute_layout` starts. `effectiveBufferSize` is `buffer_size` before the
padding is added. -/
structure Geometry where
  rankAlignment : ℕ
  worldSize : ℕ
  rankChunkSize : ℕ
  ioDepth : ℕ
  effectiveBufferSize : ℕ
  rankAlignment_pos : 0 < rankAlignment
  worldSize_pos : 0 < worldSize
  rankChunkSize_pos : 0 < rankChunkSize
  ioDepth_pos : 0 < ioDepth
  page_dvd : rankAlignment ∣ rankChunkSize
  io_le : ioDepth * (rankChunkSize * worldSize) ≤ effectiveBufferSize

namespace Geometry

variable (g : Geometry)

/-- `world_chunk_alignment`. -/
def worldChunkAlignment : ℕ := g.rankAlignment * g.worldSize

/-- `world_chunk_size`. -/
def worldChunkSize : ℕ := g.rankChunkSize * g.worldSize

/-- `buffer_size` as `compute_layout` sees it: the allocation. -/
def bufferSize : ℕ :=
  g.effectiveBufferSize + 3 * (firstTensorAlignment + g.rankAlignment + g.worldChunkAlignment)

theorem worldChunkAlignment_pos : 0 < g.worldChunkAlignment :=
  Nat.mul_pos g.rankAlignment_pos g.worldSize_pos

theorem worldChunkSize_pos : 0 < g.worldChunkSize :=
  Nat.mul_pos g.rankChunkSize_pos g.worldSize_pos

theorem rankAlignment_dvd_worldChunkAlignment : g.rankAlignment ∣ g.worldChunkAlignment :=
  Dvd.intro _ rfl

theorem worldChunkAlignment_dvd_worldChunkSize : g.worldChunkAlignment ∣ g.worldChunkSize :=
  Nat.mul_dvd_mul_right g.page_dvd _

theorem rankAlignment_dvd_worldChunkSize : g.rankAlignment ∣ g.worldChunkSize :=
  g.rankAlignment_dvd_worldChunkAlignment.trans g.worldChunkAlignment_dvd_worldChunkSize

theorem rankAlignment_le_worldChunkSize : g.rankAlignment ≤ g.worldChunkSize :=
  Nat.le_of_dvd g.worldChunkSize_pos g.rankAlignment_dvd_worldChunkSize

end Geometry

/-- The rank chunk of `init_buffer`, enlarged to whole pages. -/
def alignRankChunk (rankChunkSize rankAlignment : ℕ) : ℕ :=
  if rankChunkSize % rankAlignment ≠ 0 then roundUp rankChunkSize rankAlignment else rankChunkSize

theorem dvd_alignRankChunk (r a : ℕ) : a ∣ alignRankChunk r a := by
  unfold alignRankChunk
  split_ifs with h
  · exact dvd_roundUp r a
  · exact Nat.dvd_of_mod_eq_zero (not_not.mp h)

theorem le_alignRankChunk {a : ℕ} (ha : 0 < a) (r : ℕ) : r ≤ alignRankChunk r a := by
  unfold alignRankChunk
  split_ifs
  · exact le_roundUp ha r
  · exact le_rfl

/-- The logical device buffer of `init_buffer`: what was asked for, or what
the I/O window needs if that is more. -/
def enlargeBuffer (bufferSize inflightDeviceBufferSize : ℕ) : ℕ :=
  if bufferSize < inflightDeviceBufferSize then inflightDeviceBufferSize else bufferSize

theorem inflight_le_enlargeBuffer (b n : ℕ) : n ≤ enlargeBuffer b n := by
  unfold enlargeBuffer
  split_ifs <;> omega

/-- `init_buffer`, up to the allocation. -/
def initBuffer (pageSize worldSize rankChunkSize ioDepth bufferSize : ℕ) (hA : 0 < pageSize)
    (hP : 0 < worldSize) (hR : 0 < rankChunkSize) (hD : 0 < ioDepth) : Geometry where
  rankAlignment := pageSize
  worldSize := worldSize
  rankChunkSize := alignRankChunk rankChunkSize pageSize
  ioDepth := ioDepth
  effectiveBufferSize := enlargeBuffer bufferSize
    (requiredBufferSizeForIo pageSize (alignRankChunk rankChunkSize pageSize) ioDepth worldSize)
  rankAlignment_pos := hA
  worldSize_pos := hP
  rankChunkSize_pos := hR.trans_le (le_alignRankChunk hA rankChunkSize)
  ioDepth_pos := hD
  page_dvd := dvd_alignRankChunk rankChunkSize pageSize
  io_le := by
    refine le_trans (le_of_eq ?_) (inflight_le_enlargeBuffer _ _)
    rw [requiredBufferSizeForIo, roundUp_of_dvd hA (dvd_alignRankChunk _ _)]
    ring

theorem page_pos : 0 < 4096 := by decide

theorem twoPages_pos : 0 < 8192 := by decide

theorem eightPages_pos : 0 < 32768 := by decide

end Siphon
