/-
# `Loader::compute_layout`

The embedding of `compute_layout` (`csrc/loader_common.cpp`): one pass over
the list of (file index, offset) pairs that cuts the files into chunks, gives
every chunk and tensor a place in the device ring, and assigns every tensor
its prefetch watermark. The lambdas `finish_chunk`,
`reset_chunk_buffer_offset` and `reset_chunk_file` are functions on the
record `Cursors` of the locals they capture; the exceptions are
`LayoutError`.

The field `wraps` is not in the source: it records, for every reset of the
device cursor, the tensor that starts the new lap and the number of chunks
before it. Nothing reads it.
-/
import Mathlib.Data.List.Chain
import Siphon.Types

namespace Siphon
namespace Layout

open Rounding

/-- The exceptions of `compute_layout`. `diverged` stands for a split loop
that does not end, and `noOffsets` for the read before the start of an empty
offset list. -/
inductive LayoutError where
  | chunkAlignment
  | unchunkedPageBuffer
  | unchunkedPageFile
  | sizeMismatch
  | bufferTooSmall
  | diverged
  | noOffsets
  deriving Repr, DecidableEq

/-- The text of the exception. -/
def LayoutError.message : LayoutError → String
  | .chunkAlignment => "Internal error: Chunk alignment error."
  | .unchunkedPageBuffer =>
    "Internal error: Unchunked page detected when resetting chunk buffer offset."
  | .unchunkedPageFile => "Internal error: Unchunked page detected when resetting chunk file offset."
  | .sizeMismatch => "Internal error: Unchunked file size mismatch."
  | .bufferTooSmall => "Internal error: Buffer size is smaller than a single tensor size. " ++
    "This should be forbidden by the python frontend."
  | .diverged => ""
  | .noOffsets => ""

/-- The locals of `compute_layout` and the two vectors it fills. -/
structure Cursors where
  chunkFileIndex : ℕ
  chunkFileOffset : ℕ
  chunkDeviceBufferOffset : ℕ
  currentChunkSize : ℕ
  tensorId : ℕ
  inBufferTensorId : ℕ
  leftMostTensorId : ℕ
  tensors : List TensorMetadate
  chunks : List Chunk
  wraps : List (ℕ × ℕ)
  deriving Repr, DecidableEq

/-- `this->tensors[i]`. -/
def Cursors.tensor (s : Cursors) (i : ℕ) : TensorMetadate := s.tensors.getD i default

/-- `this->tensors[in_buffer_tensor_id].prefetch_chunk_id = id; in_buffer_tensor_id++;` -/
def assignPrefetch (id : ℤ) (s : Cursors) : Cursors :=
  { s with
    tensors := s.tensors.set s.inBufferTensorId
      { s.tensor s.inBufferTensorId with prefetchChunkId := id }
    inBufferTensorId := s.inBufferTensorId + 1 }

/-- The loops over the tensors that are still in the buffer, in
`finish_chunk` (while the tensor starts below the device cursor) and in
`reset_chunk_buffer_offset` (all of them). The first argument bounds the
iterations and starts at `left_most_tensor_id - in_buffer_tensor_id`. -/
def assignWhile (cond : TensorMetadate → Bool) (id : ℤ) : ℕ → Cursors → Cursors
  | 0, s => s
  | n + 1, s =>
    if s.inBufferTensorId < s.leftMostTensorId ∧ cond (s.tensor s.inBufferTensorId) then
      assignWhile cond id n (assignPrefetch id s)
    else s

/-- `finish_chunk`. -/
def finishChunk (g : Geometry) (s : Cursors) : Except LayoutError Cursors :=
  if 0 < s.currentChunkSize then
    let chunks := s.chunks ++
      [⟨s.currentChunkSize, s.chunkFileIndex, s.chunkFileOffset, s.chunkDeviceBufferOffset⟩]
    if s.chunkFileOffset % g.rankAlignment ≠ 0 then
      .error .chunkAlignment
    else
      let s := { s with
        chunks := chunks
        chunkFileOffset := s.chunkFileOffset + roundDown s.currentChunkSize g.rankAlignment
        chunkDeviceBufferOffset :=
          s.chunkDeviceBufferOffset + roundUp s.currentChunkSize g.worldChunkAlignment
        currentChunkSize := s.currentChunkSize % g.rankAlignment }
      let prevChunkId : ℤ := s.chunks.length - 2
      .ok (assignWhile (fun t => t.deviceBufferOffset < s.chunkDeviceBufferOffset) prevChunkId
        (s.leftMostTensorId - s.inBufferTensorId) s)
  else
    .ok s

/-- `reset_chunk_buffer_offset`. -/
def resetChunkBufferOffset (g : Geometry) (newLeftMostTensorId : ℕ) (s : Cursors) :
    Except LayoutError Cursors :=
  if s.currentChunkSize ≥ g.rankAlignment then
    .error .unchunkedPageBuffer
  else
    let latestChunkId : ℤ := s.chunks.length - 1
    let s := assignWhile (fun _ => true) latestChunkId (s.leftMostTensorId - s.inBufferTensorId) s
    .ok { s with
      chunkDeviceBufferOffset := firstTensorAlignment - s.currentChunkSize % firstTensorAlignment
      leftMostTensorId := newLeftMostTensorId
      wraps := s.wraps ++ [(newLeftMostTensorId, s.chunks.length)] }

/-- `reset_chunk_file`. -/
def resetChunkFile (g : Geometry) (fileIndex fileOffset : ℕ) (s : Cursors) :
    Except LayoutError Cursors :=
  if s.currentChunkSize ≥ g.rankAlignment then
    .error .unchunkedPageFile
  else
    .ok { s with
      chunkFileIndex := fileIndex
      chunkFileOffset := roundDown fileOffset g.rankAlignment
      currentChunkSize := fileOffset % g.rankAlignment
      chunkDeviceBufferOffset := roundUp s.chunkDeviceBufferOffset firstTensorAlignment +
        firstTensorAlignment - fileOffset % g.rankAlignment % firstTensorAlignment }

/-- The split loop: while the tensor does not end in the current chunk, fill
the chunk up to the world chunk size and finish it. Returns the bytes left
for the last chunk. The first argument bounds the iterations. -/
def splitTensor (g : Geometry) : ℕ → Cursors → ℕ → Except LayoutError (Cursors × ℕ)
  | 0, _, _ => .error .diverged
  | n + 1, s, tensorSizeLeft =>
    if s.currentChunkSize + tensorSizeLeft > g.worldChunkSize then do
      let sizeAdd := g.worldChunkSize - s.currentChunkSize
      let s ← finishChunk g { s with currentChunkSize := s.currentChunkSize + sizeAdd }
      splitTensor g n s (tensorSizeLeft - sizeAdd)
    else
      .ok (s, tensorSizeLeft)

/-- The fit test: a tensor that does not fit behind the open chunk goes to the
beginning of the buffer. -/
def fitTensor (g : Geometry) (tensorSize : ℕ) (s : Cursors) : Except LayoutError Cursors :=
  if s.chunkDeviceBufferOffset + roundUp (s.currentChunkSize + tensorSize) g.worldChunkAlignment
      > g.bufferSize then do
    let s ← finishChunk g s
    resetChunkBufferOffset g s.tensorId s
  else
    .ok s

/-- The body of the main loop for two adjacent offsets of one file: a tensor.
The size check compares integers, where `size_t` would wrap around. -/
def placeTensor (g : Geometry) (fileIndex tensorFileOffset nextTensorOffset : ℕ) (s : Cursors) :
    Except LayoutError Cursors := do
  if (s.currentChunkSize : ℤ) ≠ tensorFileOffset - s.chunkFileOffset then
    throw .sizeMismatch
  let tensorSize := nextTensorOffset - tensorFileOffset
  if tensorSize > g.bufferSize then
    throw .bufferTooSmall
  let s ← fitTensor g tensorSize s
  let tensorDeviceBufferOffset := tensorFileOffset - s.chunkFileOffset + s.chunkDeviceBufferOffset
  let (s, tensorSizeLeft) ← splitTensor g (s.currentChunkSize + tensorSize + 1) s tensorSize
  return { s with
    currentChunkSize := s.currentChunkSize + tensorSizeLeft
    tensors := s.tensors.set s.tensorId
      ⟨tensorSize, fileIndex, tensorFileOffset, tensorDeviceBufferOffset, s.chunks.length, 0⟩
    tensorId := s.tensorId + 1 }

/-- The body of the main loop: a pair across a file boundary switches files,
any other pair is a tensor. -/
def layoutPair (g : Geometry) (a b : ℕ × ℕ) (s : Cursors) : Except LayoutError Cursors :=
  if a.1 ≠ b.1 then do
    let s ← finishChunk g s
    resetChunkFile g b.1 b.2 s
  else
    placeTensor g a.1 a.2 b.2 s

/-- The main loop over the adjacent pairs of the offset list. -/
def layoutLoop (g : Geometry) : List (ℕ × ℕ) → Cursors → Except LayoutError Cursors
  | a :: b :: rest, s => do
    let s ← layoutPair g a b s
    layoutLoop g (b :: rest) s
  | _, s => .ok s

/-- The cursors before the first `reset_chunk_file`. -/
def initialCursors (numTensors : ℕ) : Cursors :=
  ⟨0, 0, 0, 0, 0, 0, 0, List.replicate numTensors default, [], []⟩

/-- `compute_layout`. -/
def computeLayout (g : Geometry) (tensorOffsets : List (ℕ × ℕ)) : Except LayoutError Cursors :=
  match tensorOffsets.head?, tensorOffsets.getLast? with
  | some first, some last => do
    let numFiles := last.1 + 1
    let numTensors := tensorOffsets.length - numFiles
    let s ← resetChunkFile g first.1 first.2 (initialCursors numTensors)
    let s ← layoutLoop g tensorOffsets s
    let s ← finishChunk g s
    let s ← resetChunkBufferOffset g s.tensorId s
    resetChunkBufferOffset g s.tensorId s
  | _, _ => .error .noOffsets

/-! ### The input -/

/-- Adjacent offsets: of one file, and then not decreasing, or of two files
with consecutive indices. -/
def OffsetStep (a b : ℕ × ℕ) : Prop := (b.1 = a.1 ∧ a.2 ≤ b.2) ∨ b.1 = a.1 + 1

instance (a b : ℕ × ℕ) : Decidable (OffsetStep a b) := by unfold OffsetStep; infer_instance

/-- The sizes of the tensors of an offset list, in order. -/
def tensorSizes : List (ℕ × ℕ) → List ℕ
  | a :: b :: rest =>
    if a.1 = b.1 then (b.2 - a.2) :: tensorSizes (b :: rest) else tensorSizes (b :: rest)
  | _ => []

/-- The offset lists the front end passes to `compute_layout`: at least one
file, file indices from 0 on without gaps, offsets of a file not decreasing,
and no tensor larger than the effective buffer. -/
structure ValidOffsets (g : Geometry) (offs : List (ℕ × ℕ)) : Prop where
  first : ∃ o, offs.head? = some (0, o)
  chain : offs.IsChain OffsetStep
  fits : ∀ n ∈ tensorSizes offs, n ≤ g.effectiveBufferSize

/-- A test of the result. -/
theorem exists_ok_of_any (g : Geometry) (offs : List (ℕ × ℕ)) (p : Cursors → Bool)
    (h : (computeLayout g offs).toOption.any p = true) :
    ∃ l, computeLayout g offs = .ok l ∧ p l = true := by
  cases hl : computeLayout g offs with
  | error e => simp [hl, Except.toOption] at h
  | ok l => exact ⟨l, rfl, by simpa [hl, Except.toOption] using h⟩

/-- The ring of the documentation's example: one rank, one page to a chunk. -/
def pageRing : Geometry :=
  initBuffer 4096 1 4096 1 4096 page_pos Nat.one_pos page_pos Nat.one_pos

/-- The documentation's example: nine tensors of a page each, behind a header
of a page. -/
def nineTensors : List (ℕ × ℕ) := (List.range 10).map fun i => (0, 4096 * (i + 1))

theorem nineTensors_valid : ValidOffsets pageRing nineTensors := ⟨⟨4096, rfl⟩, by decide, by decide⟩

example : (computeLayout pageRing nineTensors).map (·.tensors.map (·.prefetchChunkId)) =
    .ok [6, 7, 8, 8, 8, 8, 8, 8, 8] := by decide

end Layout
end Siphon
