/-
# The ranks of a group at work

All ranks of a group open the same files with the same layout, and each runs
its own loader thread (`Siphon.Runtime`). What its backend does with a posted
chunk (`post_read_chunk_uring`, `_aio`, `_inmem` and `_cufile`) happens
between the post and the completion, in any order among the chunks in flight:
the rank's slice is read into the host window (`read`), copied to the device
(`copy`), and exchanged with the slices of the other ranks: in
`ncclAllGather` a rank sends its slice to every other rank (`send`) and the
slice of every other rank arrives at its place (`receive`). With a registered
mapping or cuFile there is no host window, and the slice comes from the file
at once (`direct`).

A chunk is complete on a rank when `cudaEventSynchronize` returns there: the
rank's copy is done, its slice has left for every other rank, and theirs have
arrived (`Finished`). The ranks are not in step: a rank may be any number of
calls and chunks ahead of another.
-/
import Siphon.Io.Rank
import Siphon.Layout.Watermark
import Siphon.Runtime.Model
import Mathlib.Data.Finset.Prod
import Mathlib.Logic.Function.Basic

namespace Siphon
namespace Ranks

open Rounding Memory Io Siphon.Runtime

/-- What every rank of the group has opened. -/
structure Setup where
  g : Geometry
  tensors : List TensorMetadate
  chunks : List Chunk
  /-- The bytes of every file. -/
  files : ℕ → ℕ → UInt8
  /-- `use_internal_memory_register` with MMAP, or cuFile. -/
  direct : Bool

namespace Setup

variable (w : Setup)

/-- What the loader thread of a rank reads. -/
def config : Runtime.Config := ⟨w.tensors, w.chunks, w.g.ioDepth⟩

/-- `this->chunks[chunk_id]`. -/
def chunk (k : ℕ) : Chunk := w.chunks.getD k default

/-- What `post_read_chunk` hands to the backend of the rank. -/
def params (rank k : ℕ) : ChunkIOParams := ioParams w.g rank k (w.chunk k)

/-- The file that the chunk is read from. -/
def file (k : ℕ) : ℕ → UInt8 := w.files (w.chunk k).fileIndex

end Setup

/-- The state of the group. A pair is a rank and a chunk, a triple a sender, a
receiver and a chunk. -/
structure World where
  loaders : ℕ → Loader × Pc
  buffers : ℕ → RankBuffers
  read : Finset (ℕ × ℕ) := ∅
  copied : Finset (ℕ × ℕ) := ∅
  sent : Finset (ℕ × ℕ × ℕ) := ∅
  received : Finset (ℕ × ℕ × ℕ) := ∅
  /-- The sender's device memory when the slice left. -/
  wire : ℕ × ℕ × ℕ → ℕ → UInt8 := fun _ _ => 0

/-- The chunks that the rank has posted. -/
def World.posted (s : World) (rank : ℕ) : List ℕ := (s.loaders rank).1.posted

/-- The device memory of the rank. -/
def World.device (s : World) (rank : ℕ) : ℕ → UInt8 := (s.buffers rank).deviceBuffer

/-- The chunk's event is signalled on the rank. -/
def Finished (w : Setup) (s : World) (rank k : ℕ) : Prop :=
  (rank, k) ∈ s.copied ∧ ∀ i < w.g.worldSize, i ≠ rank → (i, rank, k) ∈ s.received ∧ (rank, i, k) ∈ s.sent

instance (w : Setup) (s : World) (rank k : ℕ) : Decidable (Finished w s rank k) := by
  unfold Finished; infer_instance

/-- A call or a step of a rank's thread, a completion that its executor
publishes, or a step of the backend. -/
inductive Action where
  | thread (rank : ℕ) (a : Runtime.Action)
  | read (rank k bytesRead : ℕ)
  | copy (rank k : ℕ)
  | send (src dst k : ℕ)
  | receive (src dst k : ℕ)
  deriving Repr, DecidableEq

/-- A completion waits for the chunk's event; the thread's own actions wait
for nothing here. -/
def eventPassed (w : Setup) (s : World) (rank : ℕ) : Runtime.Action → Bool
  | .complete k => decide (Finished w s rank k)
  | _ => true

/-- A rank's thread at its next place. -/
def threadStep (s : World) (rank : ℕ) (v : Loader × Pc) : World :=
  { s with loaders := Function.update s.loaders rank v }

/-- The slice of the rank in the host window, where the slice is read to one. -/
def readStep (w : Setup) (s : World) (rank k bytesRead : ℕ) : World :=
  { s with
    read := insert (rank, k) s.read
    buffers := Function.update s.buffers rank
      (readToHost (w.params rank k) (w.file k) bytesRead (s.buffers rank)) }

/-- `cuFileRead`, or `cudaMemcpyAsync` from the mapped file. -/
def fileToDevice (p : ChunkIOParams) (file : ℕ → UInt8) (b : RankBuffers) : RankBuffers :=
  { b with
    deviceBuffer := Memory.copy file (p.chunk.fileOffset + p.rankOffset) b.deviceBuffer p.rankDst p.rankSize }

/-- The slice of the rank on its device. -/
def copyStep (w : Setup) (s : World) (rank k : ℕ) : World :=
  { s with
    copied := insert (rank, k) s.copied
    buffers := Function.update s.buffers rank
      (if w.direct then fileToDevice (w.params rank k) (w.file k) (s.buffers rank)
        else copyToDevice (w.params rank k) (s.buffers rank)) }

/-- The slice of `src` on its way to `dst`. -/
def sendStep (s : World) (src dst k : ℕ) : World :=
  { s with
    sent := insert (src, dst, k) s.sent
    wire := Function.update s.wire (src, dst, k) (s.device src) }

/-- The slice of `src` at its place on `dst`, padding included. -/
def receiveStep (w : Setup) (s : World) (src dst k : ℕ) : World :=
  { s with
    received := insert (src, dst, k) s.received
    buffers := Function.update s.buffers dst
      { s.buffers dst with
        deviceBuffer := Memory.copy (s.wire (src, dst, k)) (w.params src k).rankDst (s.device dst)
          (w.params src k).rankDst (w.params src k).paddedRankSize } }

/-- What an action does. A rank without bytes of the chunk issues no read; a
read returns at least the logical bytes of the slice, since shorter ones end
the program; both ends of an exchange have copied their slice before. -/
def step (w : Setup) (s : World) : Action → Option World
  | .thread rank a =>
    if rank < w.g.worldSize ∧ eventPassed w s rank a = true then
      (Runtime.step w.config (s.loaders rank) a).map (threadStep s rank)
    else
      none
  | .read rank k bytesRead =>
    if w.direct = false ∧ rank < w.g.worldSize ∧ k ∈ s.posted rank ∧ (rank, k) ∉ s.read ∧
        0 < (w.params rank k).rankSize ∧ (w.params rank k).rankSize ≤ bytesRead ∧
        bytesRead ≤ rankSizeAligned w.g (w.params rank k) then
      some (readStep w s rank k bytesRead)
    else
      none
  | .copy rank k =>
    if rank < w.g.worldSize ∧ k ∈ s.posted rank ∧ (rank, k) ∉ s.copied ∧
        (w.direct = true ∨ (w.params rank k).rankSize = 0 ∨ (rank, k) ∈ s.read) then
      some (copyStep w s rank k)
    else
      none
  | .send src dst k =>
    if src < w.g.worldSize ∧ dst < w.g.worldSize ∧ src ≠ dst ∧ (src, k) ∈ s.copied ∧
        (src, dst, k) ∉ s.sent then
      some (sendStep s src dst k)
    else
      none
  | .receive src dst k =>
    if (src, dst, k) ∈ s.sent ∧ (src, dst, k) ∉ s.received ∧ (dst, k) ∈ s.copied then
      some (receiveStep w s src dst k)
    else
      none

/-- The group after `open`, with anything in its buffers. -/
def world (w : Setup) (buffers : ℕ → RankBuffers) : Machine World Action where
  init := { loaders := fun _ => ({}, .idle), buffers := buffers }
  step := step w

/-! ### Conditions on the order of the steps -/

/-- A chunk is copied to the device only when the chunks posted before it that
use bytes of its span are finished on the rank. -/
def apart (w : Setup) (s : World) : Action → Bool
  | .copy rank k => decide (∀ k₀ ∈ s.posted rank, k₀ < k → Layout.overlap w.g (w.chunk k₀) (w.chunk k) →
      Finished w s rank k₀)
  | _ => true

/-- The order of a CUDA stream: a rank copies its slices in the order of the
posts. -/
def streamOrder (s : World) : Action → Bool
  | .copy rank k => decide (∀ k₀ ∈ s.posted rank, k₀ < k → (rank, k₀) ∈ s.copied)
  | _ => true

end Ranks
end Siphon
