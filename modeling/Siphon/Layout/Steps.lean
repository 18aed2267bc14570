/-
# What each step of `compute_layout` does

`compute_layout` throws nothing on a valid input, so its steps are total
functions on the cursors: `pushChunk` (`finish_chunk`), `wrapRing`
(`reset_chunk_buffer_offset`), `openFile` (`reset_chunk_file`), `fill` (the
split loop) and `place` (a tensor). The equations `finishChunk_eq` to
`layoutPair_eq` say so for every state in which the open chunk ends at the
current file offset (`Ready`); `computeLayout_eq` puts them together.

What later modules use of a step is its inversion: `Assigned` for the
watermark loops, `Pushed` and `Wrapped` for the two resets of the cursors,
and the loop rule `fill_induct`.
-/
import Siphon.Layout.Model

namespace Siphon
namespace Layout

open Rounding

/-! ### The watermark loops -/

/-- The cursors point into the tensor vector, in order. -/
structure InOrder (s : Cursors) : Prop where
  inBuffer_le : s.inBufferTensorId ≤ s.leftMostTensorId
  leftMost_le : s.leftMostTensorId ≤ s.tensorId
  tensorId_le : s.tensorId ≤ s.tensors.length

/-- What a watermark loop does: the tensors from the old to the new
`in_buffer_tensor_id` satisfy the loop's condition and get the watermark
`id`, the tensor the loop stops at does not satisfy it, and nothing else
changes. -/
structure Assigned (cond : TensorMetadate → Bool) (id : ℤ) (s s' : Cursors) : Prop where
  frame : s' = { s with tensors := s'.tensors, inBufferTensorId := s'.inBufferTensorId }
  length : s'.tensors.length = s.tensors.length
  inBuffer_ge : s.inBufferTensorId ≤ s'.inBufferTensorId
  inBuffer_le : s'.inBufferTensorId ≤ s.leftMostTensorId
  kept : ∀ i, i < s.inBufferTensorId ∨ s'.inBufferTensorId ≤ i → s'.tensor i = s.tensor i
  assigned : ∀ i, s.inBufferTensorId ≤ i → i < s'.inBufferTensorId →
    s'.tensor i = { s.tensor i with prefetchChunkId := id } ∧ cond (s.tensor i) = true
  stop : s'.inBufferTensorId < s.leftMostTensorId → cond (s.tensor s'.inBufferTensorId) = false

theorem tensor_assignPrefetch {s : Cursors} (h : s.inBufferTensorId < s.tensors.length) (id : ℤ)
    (i : ℕ) : (assignPrefetch id s).tensor i =
      if i = s.inBufferTensorId then { s.tensor i with prefetchChunkId := id } else s.tensor i := by
  simp only [assignPrefetch, Cursors.tensor, List.getD_eq_getElem?_getD, List.getElem?_set]
  by_cases hi : i = s.inBufferTensorId
  · subst hi; simp [h]
  · simp [hi, Ne.symm hi]

theorem assignWhile_assigned (cond : TensorMetadate → Bool) (id : ℤ) : ∀ (n : ℕ) (s : Cursors),
    s.inBufferTensorId + n = s.leftMostTensorId → s.leftMostTensorId ≤ s.tensors.length →
    Assigned cond id s (assignWhile cond id n s)
  | 0, s, hn, _ =>
    { frame := rfl, length := rfl, inBuffer_ge := le_rfl, inBuffer_le := by simp [assignWhile, ← hn]
      kept := fun _ _ => rfl, assigned := fun i h1 h2 => absurd h1 (not_le.mpr h2)
      stop := fun h => absurd h (by simp [assignWhile, ← hn]) }
  | n + 1, s, hn, hlen => by
    rw [assignWhile]
    split_ifs with h
    · obtain ⟨hlt, hc⟩ := h
      have ht := tensor_assignPrefetch (hlt.trans_le hlen) id
      have ih := assignWhile_assigned cond id n (assignPrefetch id s)
        (by simp only [assignPrefetch]; omega) (by simpa [assignPrefetch] using hlen)
      set s1 := assignPrefetch id s with hs1
      set s2 := assignWhile cond id n s1
      have hib : s1.inBufferTensorId = s.inBufferTensorId + 1 := rfl
      have hlm : s1.leftMostTensorId = s.leftMostTensorId := rfl
      have hge := ih.inBuffer_ge
      refine
        { frame := ih.frame.trans (by rw [hs1]; rfl)
          length := ih.length.trans (by simp [hs1, assignPrefetch])
          inBuffer_ge := by omega
          inBuffer_le := ih.inBuffer_le
          kept := fun i hi => ?_
          assigned := fun i h1 h2 => ?_
          stop := fun hlt' => ?_ }
      · rw [ih.kept i (by omega), ht, if_neg (by omega)]
      · by_cases hi : i = s.inBufferTensorId
        · subst hi
          rw [ih.kept _ (by omega), ht, if_pos rfl]
          exact ⟨rfl, hc⟩
        · have := ih.assigned i (by omega) h2
          rwa [ht, if_neg hi] at this
      · have := ih.stop hlt'
        rwa [ht, if_neg (by omega)] at this
    · exact
        { frame := rfl, length := rfl, inBuffer_ge := le_rfl, inBuffer_le := by omega
          kept := fun _ _ => rfl, assigned := fun i h1 h2 => absurd h1 (not_le.mpr h2)
          stop := fun hlt => by simpa [hlt] using h }

/-- The loop over all tensors of the previous lap reaches `left_most_tensor_id`. -/
theorem Assigned.inBuffer_eq {id : ℤ} {s s' : Cursors} (h : Assigned (fun _ => true) id s s') :
    s'.inBufferTensorId = s.leftMostTensorId := by
  rcases h.inBuffer_le.lt_or_eq with hlt | heq
  · simpa using h.stop hlt
  · exact heq

/-- A tensor without its watermark: what the watermark loops do not touch. -/
def bare (t : TensorMetadate) : TensorMetadate := { t with prefetchChunkId := 0 }

section Bare

variable {t t' : TensorMetadate} (h : bare t = bare t')
include h

theorem bare_field {α : Type} (f : TensorMetadate → α) (hf : ∀ t, f (bare t) = f t) : f t = f t' := by
  rw [← hf t, ← hf t', h]

theorem bare_size : t.size = t'.size := bare_field h TensorMetadate.size fun _ => rfl

theorem bare_fileIndex : t.fileIndex = t'.fileIndex :=
  bare_field h TensorMetadate.fileIndex fun _ => rfl

theorem bare_fileOffset : t.fileOffset = t'.fileOffset :=
  bare_field h TensorMetadate.fileOffset fun _ => rfl

theorem bare_deviceOffset : t.deviceBufferOffset = t'.deviceBufferOffset :=
  bare_field h TensorMetadate.deviceBufferOffset fun _ => rfl

theorem bare_last : t.lastChunkId = t'.lastChunkId :=
  bare_field h TensorMetadate.lastChunkId fun _ => rfl

end Bare

theorem Assigned.bare_eq {cond : TensorMetadate → Bool} {id : ℤ} {s s' : Cursors}
    (h : Assigned cond id s s') (i : ℕ) : bare (s'.tensor i) = bare (s.tensor i) := by
  by_cases hi : s.inBufferTensorId ≤ i ∧ i < s'.inBufferTensorId
  · rw [(h.assigned i hi.1 hi.2).1]; rfl
  · rw [h.kept i (by omega)]

/-! ### The steps as total functions -/

/-- The chunk that is being filled. -/
def openChunk (s : Cursors) : Chunk :=
  ⟨s.currentChunkSize, s.chunkFileIndex, s.chunkFileOffset, s.chunkDeviceBufferOffset⟩

/-- `finish_chunk` before its watermark loop. -/
def advance (g : Geometry) (s : Cursors) : Cursors :=
  { s with
    chunks := s.chunks ++ [openChunk s]
    chunkFileOffset := s.chunkFileOffset + roundDown s.currentChunkSize g.rankAlignment
    chunkDeviceBufferOffset :=
      s.chunkDeviceBufferOffset + roundUp s.currentChunkSize g.worldChunkAlignment
    currentChunkSize := s.currentChunkSize % g.rankAlignment }

/-- `finish_chunk`, where its check passes. -/
def pushChunk (g : Geometry) (s : Cursors) : Cursors :=
  if 0 < s.currentChunkSize then
    assignWhile (fun t => t.deviceBufferOffset < (advance g s).chunkDeviceBufferOffset)
      ((advance g s).chunks.length - 2) (s.leftMostTensorId - s.inBufferTensorId) (advance g s)
  else s

/-- `reset_chunk_buffer_offset`, where its check passes. -/
def wrapRing (newLeftMostTensorId : ℕ) (s : Cursors) : Cursors :=
  let s := assignWhile (fun _ => true) (s.chunks.length - 1)
    (s.leftMostTensorId - s.inBufferTensorId) s
  { s with
    chunkDeviceBufferOffset := firstTensorAlignment - s.currentChunkSize % firstTensorAlignment
    leftMostTensorId := newLeftMostTensorId
    wraps := s.wraps ++ [(newLeftMostTensorId, s.chunks.length)] }

/-- `reset_chunk_file`, where its check passes. -/
def openFile (g : Geometry) (fileIndex fileOffset : ℕ) (s : Cursors) : Cursors :=
  { s with
    chunkFileIndex := fileIndex
    chunkFileOffset := roundDown fileOffset g.rankAlignment
    currentChunkSize := fileOffset % g.rankAlignment
    chunkDeviceBufferOffset := roundUp s.chunkDeviceBufferOffset firstTensorAlignment +
      firstTensorAlignment - fileOffset % g.rankAlignment % firstTensorAlignment }

/-- The open chunk filled up to the world chunk size. -/
def full (g : Geometry) (s : Cursors) : Cursors := { s with currentChunkSize := g.worldChunkSize }

/-- The split loop. -/
def fill (g : Geometry) : ℕ → Cursors → ℕ → Cursors × ℕ
  | 0, s, left => (s, left)
  | n + 1, s, left =>
    if s.currentChunkSize + left > g.worldChunkSize then
      fill g n (pushChunk g (full g s)) (left - (g.worldChunkSize - s.currentChunkSize))
    else (s, left)

/-- The fit test of the main loop fails. -/
def overflows (g : Geometry) (tensorSize : ℕ) (s : Cursors) : Prop :=
  g.bufferSize <
    s.chunkDeviceBufferOffset + roundUp (s.currentChunkSize + tensorSize) g.worldChunkAlignment

instance (g : Geometry) (tensorSize : ℕ) (s : Cursors) : Decidable (overflows g tensorSize s) :=
  inferInstanceAs (Decidable (_ < _))

/-- The cursors from which the tensor is placed: at the start of the ring if
it does not fit behind the open chunk. -/
def makeRoom (g : Geometry) (tensorSize : ℕ) (s : Cursors) : Cursors :=
  if overflows g tensorSize s then wrapRing s.tensorId (pushChunk g s) else s

/-- The tensor of `tensorSize` bytes at `fileOffset` is written down. -/
def record (fileIndex fileOffset tensorSize deviceBufferOffset left : ℕ) (s : Cursors) : Cursors :=
  { s with
    currentChunkSize := s.currentChunkSize + left
    tensors := s.tensors.set s.tensorId
      ⟨tensorSize, fileIndex, fileOffset, deviceBufferOffset, s.chunks.length, 0⟩
    tensorId := s.tensorId + 1 }

/-- The split loop with enough iterations for the tensor. -/
def fillTensor (g : Geometry) (tensorSize : ℕ) (s : Cursors) : Cursors × ℕ :=
  fill g (s.currentChunkSize + tensorSize + 1) s tensorSize

/-- The tensor is placed behind the open chunk. -/
def placeHere (g : Geometry) (fileIndex fileOffset tensorSize : ℕ) (s : Cursors) : Cursors :=
  record fileIndex fileOffset tensorSize
    (fileOffset - s.chunkFileOffset + s.chunkDeviceBufferOffset)
    (fillTensor g tensorSize s).2 (fillTensor g tensorSize s).1

/-- The main loop's body for a tensor. -/
def place (g : Geometry) (fileIndex fileOffset nextOffset : ℕ) (s : Cursors) : Cursors :=
  placeHere g fileIndex fileOffset (nextOffset - fileOffset)
    (makeRoom g (nextOffset - fileOffset) s)

/-- The main loop's body. -/
def step (g : Geometry) (a b : ℕ × ℕ) (s : Cursors) : Cursors :=
  if a.1 ≠ b.1 then openFile g b.1 b.2 (pushChunk g s) else place g a.1 a.2 b.2 s

/-- The main loop. -/
def steps (g : Geometry) : List (ℕ × ℕ) → Cursors → Cursors
  | a :: b :: rest, s => steps g (b :: rest) (step g a b s)
  | _, s => s

/-- What follows the main loop. -/
def close (g : Geometry) (s : Cursors) : Cursors :=
  let s := pushChunk g s
  wrapRing s.tensorId (wrapRing s.tensorId s)

/-! ### Inversions -/

/-- What `finish_chunk` does to a non-empty chunk. -/
structure Pushed (g : Geometry) (s s' : Cursors) : Prop where
  chunks : s'.chunks = s.chunks ++ [openChunk s]
  fileIndex : s'.chunkFileIndex = s.chunkFileIndex
  fileOffset : s'.chunkFileOffset = s.chunkFileOffset + roundDown s.currentChunkSize g.rankAlignment
  deviceOffset : s'.chunkDeviceBufferOffset =
    s.chunkDeviceBufferOffset + roundUp s.currentChunkSize g.worldChunkAlignment
  size : s'.currentChunkSize = s.currentChunkSize % g.rankAlignment
  tensorId : s'.tensorId = s.tensorId
  leftMost : s'.leftMostTensorId = s.leftMostTensorId
  wraps : s'.wraps = s.wraps
  length : s'.tensors.length = s.tensors.length
  bare_eq : ∀ i, bare (s'.tensor i) = bare (s.tensor i)
  inBuffer_ge : s.inBufferTensorId ≤ s'.inBufferTensorId
  inBuffer_le : s'.inBufferTensorId ≤ s.leftMostTensorId
  kept : ∀ i, i < s.inBufferTensorId ∨ s'.inBufferTensorId ≤ i → s'.tensor i = s.tensor i
  assigned : ∀ i, s.inBufferTensorId ≤ i → i < s'.inBufferTensorId →
    (s'.tensor i).prefetchChunkId = s.chunks.length - 1 ∧
      (s.tensor i).deviceBufferOffset < s'.chunkDeviceBufferOffset
  stop : s'.inBufferTensorId < s.leftMostTensorId →
    s'.chunkDeviceBufferOffset ≤ (s.tensor s'.inBufferTensorId).deviceBufferOffset

theorem pushChunk_pushed (g : Geometry) {s : Cursors} (ho : InOrder s) (h : 0 < s.currentChunkSize) :
    Pushed g s (pushChunk g s) := by
  have ha := assignWhile_assigned
    (fun t => t.deviceBufferOffset < (advance g s).chunkDeviceBufferOffset)
    ((advance g s).chunks.length - 2) (s.leftMostTensorId - s.inBufferTensorId) (advance g s)
    (Nat.add_sub_of_le ho.inBuffer_le) (ho.leftMost_le.trans ho.tensorId_le)
  have e : pushChunk g s = assignWhile
      (fun t => t.deviceBufferOffset < (advance g s).chunkDeviceBufferOffset)
      ((advance g s).chunks.length - 2) (s.leftMostTensorId - s.inBufferTensorId) (advance g s) :=
    if_pos h
  rw [← e] at ha
  have hf := ha.frame
  have hd : (pushChunk g s).chunkDeviceBufferOffset = (advance g s).chunkDeviceBufferOffset := by
    rw [hf]
  refine
    { chunks := by rw [hf]; rfl, fileIndex := by rw [hf]; rfl, fileOffset := by rw [hf]; rfl
      deviceOffset := by rw [hf]; rfl, size := by rw [hf]; rfl, tensorId := by rw [hf]; rfl
      leftMost := by rw [hf]; rfl, wraps := by rw [hf]; rfl
      length := ha.length, bare_eq := ha.bare_eq, inBuffer_ge := ha.inBuffer_ge
      inBuffer_le := ha.inBuffer_le, kept := ha.kept
      assigned := fun i h1 h2 => ?_, stop := fun hlt => ?_ }
  · obtain ⟨e1, e2⟩ := ha.assigned i h1 h2
    refine ⟨?_, by rw [hd]; exact of_decide_eq_true e2⟩
    rw [e1]
    simp only [advance, List.length_append, List.length_singleton]
    push_cast
    ring
  · rw [hd]; exact not_lt.mp (of_decide_eq_false (ha.stop hlt))

theorem pushChunk_empty (g : Geometry) {s : Cursors} (h : s.currentChunkSize = 0) :
    pushChunk g s = s := by
  rw [pushChunk, if_neg (by omega)]

/-- What `reset_chunk_buffer_offset` does. -/
structure Wrapped (n : ℕ) (s s' : Cursors) : Prop where
  chunks : s'.chunks = s.chunks
  fileIndex : s'.chunkFileIndex = s.chunkFileIndex
  fileOffset : s'.chunkFileOffset = s.chunkFileOffset
  deviceOffset :
    s'.chunkDeviceBufferOffset = firstTensorAlignment - s.currentChunkSize % firstTensorAlignment
  size : s'.currentChunkSize = s.currentChunkSize
  tensorId : s'.tensorId = s.tensorId
  leftMost : s'.leftMostTensorId = n
  wraps : s'.wraps = s.wraps ++ [(n, s.chunks.length)]
  length : s'.tensors.length = s.tensors.length
  bare_eq : ∀ i, bare (s'.tensor i) = bare (s.tensor i)
  inBuffer : s'.inBufferTensorId = s.leftMostTensorId
  kept : ∀ i, i < s.inBufferTensorId ∨ s.leftMostTensorId ≤ i → s'.tensor i = s.tensor i
  assigned : ∀ i, s.inBufferTensorId ≤ i → i < s.leftMostTensorId →
    (s'.tensor i).prefetchChunkId = s.chunks.length - 1

theorem wrapRing_wrapped {s : Cursors} (ho : InOrder s) (n : ℕ) : Wrapped n s (wrapRing n s) := by
  have ha := assignWhile_assigned (fun _ => true) (s.chunks.length - 1)
    (s.leftMostTensorId - s.inBufferTensorId) s
    (Nat.add_sub_of_le ho.inBuffer_le) (ho.leftMost_le.trans ho.tensorId_le)
  unfold wrapRing
  set s1 := assignWhile (fun _ => true) (s.chunks.length - 1)
    (s.leftMostTensorId - s.inBufferTensorId) s
  have hf := ha.frame
  have hi := ha.inBuffer_eq
  refine
    { chunks := by rw [hf], fileIndex := by rw [hf], fileOffset := by rw [hf]
      deviceOffset := by rw [hf], size := by rw [hf], tensorId := by rw [hf], leftMost := rfl
      wraps := by rw [hf], length := ha.length, bare_eq := ha.bare_eq, inBuffer := hi
      kept := fun i h => ha.kept i (by omega), assigned := fun i h1 h2 => ?_ }
  have := (ha.assigned i h1 (by omega)).1
  exact congrArg TensorMetadate.prefetchChunkId this

theorem tensor_record {s : Cursors} (h : s.tensorId < s.tensors.length) (f o n d l i : ℕ) :
    (record f o n d l s).tensor i =
      if i = s.tensorId then ⟨n, f, o, d, s.chunks.length, 0⟩ else s.tensor i := by
  simp only [record, Cursors.tensor, List.getD_eq_getElem?_getD, List.getElem?_set]
  by_cases hi : i = s.tensorId
  · subst hi; simp [h]
  · simp [hi, Ne.symm hi]

/-- A property of the cursors and the bytes left that a full chunk keeps
holds when the split loop ends. -/
theorem fill_induct {g : Geometry} {Q : Cursors → ℕ → Prop}
    (hQ : ∀ s left, Q s left → s.currentChunkSize + left > g.worldChunkSize →
      Q (pushChunk g (full g s)) (left - (g.worldChunkSize - s.currentChunkSize))) :
    ∀ (n : ℕ) (s : Cursors) (left : ℕ), Q s left → Q (fill g n s left).1 (fill g n s left).2
  | 0, _, _, h => h
  | n + 1, s, left, h => by
    rw [fill]
    split_ifs with hlt
    · exact fill_induct hQ n _ _ (hQ s left h hlt)
    · exact h

/-! ### The cursors through a step -/

/-- The state before a pair `(o, _)` of the main loop: the open chunk starts
on a page, ends at the file offset `o` and is no longer than a world chunk. -/
structure Ready (g : Geometry) (o : ℕ) (s : Cursors) : Prop extends InOrder s where
  page : g.rankAlignment ∣ s.chunkFileOffset
  ends : s.chunkFileOffset + s.currentChunkSize = o
  le : s.currentChunkSize ≤ g.worldChunkSize

/-- The state after `finish_chunk`: the open chunk is the rest of the page
that the file offset `o` lies in. -/
structure Flushed (g : Geometry) (o : ℕ) (s s' : Cursors) : Prop extends InOrder s' where
  fileOffset : s'.chunkFileOffset = roundDown o g.rankAlignment
  size : s'.currentChunkSize = o % g.rankAlignment
  deviceOffset : s'.chunkDeviceBufferOffset =
    s.chunkDeviceBufferOffset + roundUp s.currentChunkSize g.worldChunkAlignment
  fileIndex : s'.chunkFileIndex = s.chunkFileIndex
  tensorId : s'.tensorId = s.tensorId
  leftMost : s'.leftMostTensorId = s.leftMostTensorId
  wraps : s'.wraps = s.wraps
  length : s'.tensors.length = s.tensors.length
  bare_eq : ∀ i, bare (s'.tensor i) = bare (s.tensor i)

theorem Pushed.inOrder {g : Geometry} {s s' : Cursors} (h : Pushed g s s') (ho : InOrder s) :
    InOrder s' :=
  ⟨h.leftMost ▸ h.inBuffer_le, by rw [h.leftMost, h.tensorId]; exact ho.leftMost_le,
    by rw [h.tensorId, h.length]; exact ho.tensorId_le⟩

theorem Wrapped.inOrder {s s' : Cursors} (h : Wrapped s.tensorId s s') (ho : InOrder s) :
    InOrder s' :=
  ⟨by rw [h.inBuffer, h.leftMost]; exact ho.leftMost_le, by rw [h.leftMost, h.tensorId],
    by rw [h.tensorId, h.length]; exact ho.tensorId_le⟩

theorem pushChunk_flushed {g : Geometry} {o : ℕ} {s : Cursors} (h : Ready g o s) :
    Flushed g o s (pushChunk g s) := by
  have hA := g.rankAlignment_pos
  rcases Nat.eq_zero_or_pos s.currentChunkSize with h0 | hpos
  · -- the chunk is empty, so `o` is on a page
    have hd : g.rankAlignment ∣ o := by rw [← h.ends, h0]; exact h.page
    rw [pushChunk_empty g h0]
    refine { toInOrder := h.toInOrder, fileOffset := ?_, size := ?_, deviceOffset := ?_,
             fileIndex := rfl, tensorId := rfl, leftMost := rfl, wraps := rfl, length := rfl,
             bare_eq := fun _ => rfl }
    · rw [roundDown, Nat.div_mul_cancel hd, ← h.ends, h0, Nat.add_zero]
    · rw [h0, Nat.mod_eq_zero_of_dvd hd]
    · rw [h0, roundUp_zero g.worldChunkAlignment_pos, Nat.add_zero]
  · have hp := pushChunk_pushed g h.toInOrder hpos
    refine { toInOrder := hp.inOrder h.toInOrder, fileOffset := ?_, size := ?_,
             deviceOffset := hp.deviceOffset, fileIndex := hp.fileIndex, tensorId := hp.tensorId,
             leftMost := hp.leftMost, wraps := hp.wraps, length := hp.length, bare_eq := hp.bare_eq }
    · rw [hp.fileOffset, ← h.ends, roundDown_add_of_dvd hA h.page]
    · rw [hp.size, ← h.ends, Nat.add_mod, Nat.mod_eq_zero_of_dvd h.page, Nat.zero_add, Nat.mod_mod]

theorem Flushed.lt {g : Geometry} {o : ℕ} {s s' : Cursors} (h : Flushed g o s s') :
    s'.currentChunkSize < g.rankAlignment := by
  rw [h.size]; exact Nat.mod_lt _ g.rankAlignment_pos

theorem Flushed.ready {g : Geometry} {o : ℕ} {s s' : Cursors} (h : Flushed g o s s') :
    Ready g o s' :=
  { toInOrder := h.toInOrder
    page := h.fileOffset ▸ dvd_roundDown _ _
    ends := by rw [h.fileOffset, h.size, roundDown_add_mod]
    le := h.lt.le.trans g.rankAlignment_le_worldChunkSize }

theorem Wrapped.ready {g : Geometry} {o : ℕ} {s s' : Cursors} (h : Wrapped s.tensorId s s')
    (hr : Ready g o s) : Ready g o s' :=
  { toInOrder := h.inOrder hr.toInOrder
    page := h.fileOffset ▸ hr.page
    ends := by rw [h.fileOffset, h.size]; exact hr.ends
    le := h.size ▸ hr.le }

theorem openFile_ready {g : Geometry} {s : Cursors} (ho : InOrder s) (f o : ℕ) :
    Ready g o (openFile g f o s) :=
  { inBuffer_le := ho.inBuffer_le, leftMost_le := ho.leftMost_le, tensorId_le := ho.tensorId_le
    page := dvd_roundDown _ _, ends := roundDown_add_mod _ _
    le := (Nat.mod_lt _ g.rankAlignment_pos).le.trans g.rankAlignment_le_worldChunkSize }

/-- `finish_chunk` on a full chunk. -/
theorem full_pushed {g : Geometry} {s : Cursors} (ho : InOrder s) :
    Pushed g (full g s) (pushChunk g (full g s)) :=
  pushChunk_pushed g (s := full g s) ⟨ho.inBuffer_le, ho.leftMost_le, ho.tensorId_le⟩
    g.worldChunkSize_pos

theorem full_deviceOffset {g : Geometry} {s : Cursors} (ho : InOrder s) :
    (pushChunk g (full g s)).chunkDeviceBufferOffset =
      s.chunkDeviceBufferOffset + g.worldChunkSize := by
  rw [(full_pushed ho).deviceOffset]
  exact congrArg _ (roundUp_of_dvd g.worldChunkAlignment_pos g.worldChunkAlignment_dvd_worldChunkSize)

theorem full_fileOffset {g : Geometry} {s : Cursors} (ho : InOrder s) :
    (pushChunk g (full g s)).chunkFileOffset = s.chunkFileOffset + g.worldChunkSize := by
  rw [(full_pushed ho).fileOffset]
  exact congrArg _ (Nat.div_mul_cancel g.rankAlignment_dvd_worldChunkSize)

theorem full_size {g : Geometry} {s : Cursors} (ho : InOrder s) :
    (pushChunk g (full g s)).currentChunkSize = 0 := by
  rw [(full_pushed ho).size]
  exact Nat.mod_eq_zero_of_dvd g.rankAlignment_dvd_worldChunkSize

theorem full_ready {g : Geometry} {o : ℕ} {s : Cursors} (h : Ready g o s) :
    Ready g (o + (g.worldChunkSize - s.currentChunkSize)) (pushChunk g (full g s)) := by
  have ho := h.toInOrder
  have h1 := h.ends
  have h2 := h.le
  exact
    { toInOrder := (full_pushed ho).inOrder ⟨ho.inBuffer_le, ho.leftMost_le, ho.tensorId_le⟩
      page := by
        rw [full_fileOffset ho]
        exact (Nat.dvd_add_right h.page).mpr g.rankAlignment_dvd_worldChunkSize
      ends := by rw [full_fileOffset ho, full_size ho]; omega
      le := by rw [full_size ho]; exact Nat.zero_le _ }

/-- The split loop with `left` bytes to place after the file offset `o`: the
cursors stay ready, and file and device offset advance by the same amount. -/
structure Filling (g : Geometry) (o left : ℕ) (s0 s : Cursors) (left' : ℕ) : Prop
    extends InOrder s where
  page : g.rankAlignment ∣ s.chunkFileOffset
  fileEnd : s.chunkFileOffset + s.currentChunkSize + left' = o + left
  deviceEnd : s.chunkDeviceBufferOffset + s.currentChunkSize + left' =
    s0.chunkDeviceBufferOffset + s0.currentChunkSize + left
  le : s.currentChunkSize ≤ g.worldChunkSize
  fileIndex : s.chunkFileIndex = s0.chunkFileIndex
  tensorId : s.tensorId = s0.tensorId
  leftMost : s.leftMostTensorId = s0.leftMostTensorId
  wraps : s.wraps = s0.wraps
  length : s.tensors.length = s0.tensors.length
  bare_eq : ∀ i, bare (s.tensor i) = bare (s0.tensor i)

theorem Filling.refl {g : Geometry} {o left : ℕ} {s : Cursors} (h : Ready g o s) :
    Filling g o left s s left :=
  { toInOrder := h.toInOrder, page := h.page, fileEnd := by rw [h.ends], deviceEnd := rfl, le := h.le
    fileIndex := rfl, tensorId := rfl, leftMost := rfl, wraps := rfl, length := rfl
    bare_eq := fun _ => rfl }

theorem Filling.ready {g : Geometry} {o left left' : ℕ} {s0 s : Cursors}
    (h : Filling g o left s0 s left') : Ready g (s.chunkFileOffset + s.currentChunkSize) s :=
  { toInOrder := h.toInOrder, page := h.page, ends := rfl, le := h.le }

theorem Filling.full {g : Geometry} {o left left' : ℕ} {s0 s : Cursors}
    (h : Filling g o left s0 s left') (hlt : s.currentChunkSize + left' > g.worldChunkSize) :
    Filling g o left s0 (pushChunk g (full g s)) (left' - (g.worldChunkSize - s.currentChunkSize)) := by
  have ho := h.toInOrder
  have hr := full_ready h.ready
  have hp := full_pushed (g := g) ho
  have h1 := h.fileEnd
  have h2 := h.deviceEnd
  have h3 := h.le
  exact
    { toInOrder := hr.toInOrder, page := hr.page, le := hr.le
      fileEnd := by rw [full_fileOffset ho, full_size ho]; omega
      deviceEnd := by rw [full_deviceOffset ho, full_size ho]; omega
      fileIndex := hp.fileIndex.trans h.fileIndex, tensorId := hp.tensorId.trans h.tensorId
      leftMost := hp.leftMost.trans h.leftMost, wraps := hp.wraps.trans h.wraps
      length := hp.length.trans h.length, bare_eq := fun i => (hp.bare_eq i).trans (h.bare_eq i) }

theorem fillTensor_filling {g : Geometry} {o : ℕ} {s : Cursors} (h : Ready g o s) (n : ℕ) :
    Filling g o n s (fillTensor g n s).1 (fillTensor g n s).2 :=
  fill_induct (Q := fun s' left => Filling g o n s s' left) (fun _ _ hq hlt => hq.full hlt) _ s n
    (.refl h)

/-- With enough iterations the split loop ends with the rest of the tensor in
the open chunk. -/
theorem fill_le {g : Geometry} : ∀ (n : ℕ) (s : Cursors) (left o : ℕ), Ready g o s →
    s.currentChunkSize + left < n →
    (fill g n s left).1.currentChunkSize + (fill g n s left).2 ≤ g.worldChunkSize
  | 0, _, _, _, _, h => by omega
  | n + 1, s, left, o, hr, h => by
    rw [fill]
    split_ifs with hlt
    · have h0 := full_size (g := g) hr.toInOrder
      have hle := hr.le
      have hW := g.worldChunkSize_pos
      exact fill_le n _ _ _ (full_ready hr) (by omega)
    · exact not_lt.mp hlt

theorem fillTensor_le {g : Geometry} {o : ℕ} {s : Cursors} (h : Ready g o s) (n : ℕ) :
    (fillTensor g n s).1.currentChunkSize + (fillTensor g n s).2 ≤ g.worldChunkSize :=
  fill_le _ s n o h (Nat.lt_succ_self _)

theorem placeHere_ready {g : Geometry} {o : ℕ} {s : Cursors} (h : Ready g o s)
    (hlt : s.tensorId < s.tensors.length) (f n : ℕ) : Ready g (o + n) (placeHere g f o n s) := by
  have hf := fillTensor_filling h n
  have h1 := hf.leftMost_le
  have h2 := hf.tensorId
  have h3 := hf.length
  exact
    { inBuffer_le := hf.inBuffer_le
      leftMost_le := h1.trans (Nat.le_succ _)
      tensorId_le := by simp only [placeHere, record, List.length_set]; omega
      page := hf.page
      ends := (Nat.add_assoc _ _ _).symm.trans hf.fileEnd
      le := fillTensor_le h n }

theorem makeRoom_ready {g : Geometry} {o : ℕ} {s : Cursors} (h : Ready g o s) (n : ℕ) :
    Ready g o (makeRoom g n s) := by
  unfold makeRoom
  split_ifs
  · have hf := pushChunk_flushed h
    have hw := wrapRing_wrapped hf.toInOrder s.tensorId
    exact Wrapped.ready (hf.tensorId ▸ hw) hf.ready
  · exact h

theorem makeRoom_tensorId {g : Geometry} {o : ℕ} {s : Cursors} (h : Ready g o s) (n : ℕ) :
    (makeRoom g n s).tensorId = s.tensorId ∧
      (makeRoom g n s).tensors.length = s.tensors.length := by
  unfold makeRoom
  split_ifs
  · have hf := pushChunk_flushed h
    have hw := wrapRing_wrapped hf.toInOrder s.tensorId
    exact ⟨hw.tensorId.trans hf.tensorId, hw.length.trans hf.length⟩
  · exact ⟨rfl, rfl⟩

theorem place_ready {g : Geometry} {o o' : ℕ} {s : Cursors} (h : Ready g o s) (hle : o ≤ o')
    (hlt : s.tensorId < s.tensors.length) (f : ℕ) : Ready g o' (place g f o o' s) := by
  obtain ⟨e1, e2⟩ := makeRoom_tensorId h (o' - o)
  have := placeHere_ready (makeRoom_ready h (o' - o)) (by rwa [e1, e2]) f (o' - o)
  rwa [Nat.add_sub_of_le hle] at this

theorem place_tensorId {g : Geometry} {o : ℕ} {s : Cursors} (h : Ready g o s) (f o' : ℕ) :
    (place g f o o' s).tensorId = s.tensorId + 1 ∧
      (place g f o o' s).tensors.length = s.tensors.length := by
  obtain ⟨e1, e2⟩ := makeRoom_tensorId h (o' - o)
  have hf := fillTensor_filling (makeRoom_ready h (o' - o)) (o' - o)
  constructor
  · simp only [place, placeHere, record, hf.tensorId, e1]
  · simp only [place, placeHere, record, List.length_set, hf.length, e2]

/-! ### No step fails -/

theorem finishChunk_eq {g : Geometry} {s : Cursors} (h : g.rankAlignment ∣ s.chunkFileOffset) :
    finishChunk g s = .ok (pushChunk g s) := by
  unfold finishChunk pushChunk
  split_ifs with h1 h2
  · exact absurd (Nat.mod_eq_zero_of_dvd h) h2
  · rfl
  · rfl

theorem resetChunkBufferOffset_eq {g : Geometry} {s : Cursors}
    (h : s.currentChunkSize < g.rankAlignment) (n : ℕ) :
    resetChunkBufferOffset g n s = .ok (wrapRing n s) := by
  unfold resetChunkBufferOffset
  rw [if_neg (not_le.mpr h)]
  rfl

theorem resetChunkFile_eq {g : Geometry} {s : Cursors} (h : s.currentChunkSize < g.rankAlignment)
    (f o : ℕ) : resetChunkFile g f o s = .ok (openFile g f o s) := by
  unfold resetChunkFile
  rw [if_neg (not_le.mpr h)]
  rfl

theorem splitTensor_eq {g : Geometry} : ∀ (n : ℕ) (s : Cursors) (left o : ℕ), Ready g o s →
    s.currentChunkSize + left < n → splitTensor g n s left = .ok (fill g n s left)
  | 0, _, _, _, _, h => by omega
  | n + 1, s, left, o, hr, h => by
    rw [splitTensor, fill]
    split_ifs with hlt
    · have h0 := full_size (g := g) hr.toInOrder
      have hle := hr.le
      have hW := g.worldChunkSize_pos
      have he : ({ s with currentChunkSize :=
          s.currentChunkSize + (g.worldChunkSize - s.currentChunkSize) } : Cursors) = full g s := by
        rw [full, Nat.add_sub_of_le hle]
      simp only [he]
      rw [finishChunk_eq (show g.rankAlignment ∣ (full g s).chunkFileOffset from hr.page)]
      exact splitTensor_eq n _ _ _ (full_ready hr) (by omega)
    · rfl

theorem fitTensor_eq {g : Geometry} {o : ℕ} {s : Cursors} (h : Ready g o s) (n : ℕ) :
    fitTensor g n s = .ok (makeRoom g n s) := by
  by_cases hov : overflows g n s
  · have hf := pushChunk_flushed h
    have e : fitTensor g n s =
        (do let s ← finishChunk g s; resetChunkBufferOffset g s.tensorId s) := if_pos hov
    rw [e, makeRoom, if_pos hov, finishChunk_eq h.page, ← hf.tensorId]
    exact resetChunkBufferOffset_eq hf.lt _
  · rw [makeRoom, if_neg hov]
    exact if_neg hov

theorem placeTensor_eq {g : Geometry} {o o' : ℕ} {s : Cursors} (h : Ready g o s)
    (hn : o' - o ≤ g.effectiveBufferSize) (f : ℕ) :
    placeTensor g f o o' s = .ok (place g f o o' s) := by
  have hsize : ¬ ((s.currentChunkSize : ℤ) ≠ o - s.chunkFileOffset) := by
    have := h.ends
    omega
  have hbig : ¬ (o' - o > g.bufferSize) := by
    unfold Geometry.bufferSize
    omega
  have hs := splitTensor_eq ((makeRoom g (o' - o) s).currentChunkSize + (o' - o) + 1)
    (makeRoom g (o' - o) s) (o' - o) o (makeRoom_ready h _) (by omega)
  unfold placeTensor
  rw [if_neg hsize]
  simp only [if_neg hbig, fitTensor_eq h, bind, Except.bind, hs]
  rfl

/-- The state before a pair of the main loop, with room in the tensor vector
for the tensors to come. -/
structure LoopState (g : Geometry) (a : ℕ × ℕ) (l : List (ℕ × ℕ)) (s : Cursors) : Prop
    extends Ready g a.2 s where
  chain : (a :: l).IsChain OffsetStep
  room : s.tensorId + (tensorSizes (a :: l)).length = s.tensors.length
  fits : ∀ n ∈ tensorSizes (a :: l), n ≤ g.effectiveBufferSize

/-- At a pair within a file there is a slot for the tensor, and the tensor
fits the effective buffer. -/
theorem LoopState.tensor {g : Geometry} {a b : ℕ × ℕ} {l : List (ℕ × ℕ)} {s : Cursors}
    (h : LoopState g a (b :: l) s) (hab : a.1 = b.1) :
    a.2 ≤ b.2 ∧ b.2 - a.2 ≤ g.effectiveBufferSize ∧ s.tensorId < s.tensors.length := by
  have hroom := h.room
  have hfits := h.fits
  simp only [tensorSizes, if_pos hab, List.length_cons, List.mem_cons] at hroom hfits
  refine ⟨?_, hfits _ (Or.inl rfl), by omega⟩
  rcases (List.isChain_cons_cons.mp h.chain).1 with ⟨-, hle⟩ | hne
  · exact hle
  · omega

theorem step_loopState {g : Geometry} {a b : ℕ × ℕ} {l : List (ℕ × ℕ)} {s : Cursors}
    (h : LoopState g a (b :: l) s) : LoopState g b l (step g a b s) := by
  have hchain := (List.isChain_cons_cons.mp h.chain).2
  have hroom := h.room
  have hfits := h.fits
  by_cases hab : a.1 = b.1
  · obtain ⟨hle, hn, hlt⟩ := h.tensor hab
    obtain ⟨e1, e2⟩ := place_tensorId h.toReady a.1 b.2
    simp only [tensorSizes, if_pos hab, List.length_cons, List.mem_cons] at hroom hfits
    rw [step, if_neg (not_not.mpr hab)]
    exact
      { toReady := place_ready h.toReady hle hlt a.1, chain := hchain
        room := by rw [e1, e2]; omega
        fits := fun n hn => hfits n (Or.inr hn) }
  · have hf := pushChunk_flushed h.toReady
    simp only [tensorSizes, if_neg hab] at hroom hfits
    rw [step, if_pos hab]
    exact
      { toReady := openFile_ready hf.toInOrder b.1 b.2, chain := hchain
        room := by simp only [openFile]; rw [hf.tensorId, hf.length]; exact hroom
        fits := hfits }

theorem layoutPair_eq {g : Geometry} {a b : ℕ × ℕ} {l : List (ℕ × ℕ)} {s : Cursors}
    (h : LoopState g a (b :: l) s) : layoutPair g a b s = .ok (step g a b s) := by
  unfold layoutPair step
  split_ifs with hab
  · have hf := pushChunk_flushed h.toReady
    rw [finishChunk_eq h.page]
    exact resetChunkFile_eq hf.lt _ _
  · exact placeTensor_eq h.toReady (h.tensor (not_not.mp hab)).2.1 a.1

/-- The main loop's induction: what one step keeps, the loop keeps. -/
theorem steps_induct {g : Geometry} {Q : ℕ × ℕ → List (ℕ × ℕ) → Cursors → Prop}
    (hQ : ∀ a b l s, LoopState g a (b :: l) s → Q a (b :: l) s → Q b l (step g a b s)) :
    ∀ (l : List (ℕ × ℕ)) (a : ℕ × ℕ) (s : Cursors), LoopState g a l s → Q a l s →
      ∃ z, Q z [] (steps g (a :: l) s) ∧ LoopState g z [] (steps g (a :: l) s)
  | [], a, _, hs, h => ⟨a, h, hs⟩
  | b :: l, a, s, hs, h => by
    rw [steps]
    exact steps_induct hQ l b _ (step_loopState hs) (hQ a b l s hs h)

theorem layoutLoop_eq {g : Geometry} : ∀ (l : List (ℕ × ℕ)) (a : ℕ × ℕ) (s : Cursors),
    LoopState g a l s → layoutLoop g (a :: l) s = .ok (steps g (a :: l) s)
  | [], _, _, _ => rfl
  | b :: l, a, s, h => by
    rw [layoutLoop, layoutPair_eq h, steps]
    exact layoutLoop_eq l b _ (step_loopState h)

/-- A chain of offsets has one tensor less than offsets for every file. -/
theorem length_tensorSizes : ∀ (l : List (ℕ × ℕ)) (a : ℕ × ℕ), (a :: l).IsChain OffsetStep →
    (tensorSizes (a :: l)).length + ((a :: l).getLast (List.cons_ne_nil a l)).1 = l.length + a.1
  | [], a, _ => by simp [tensorSizes]
  | b :: l, a, h => by
    obtain ⟨hab, hl⟩ := List.isChain_cons_cons.mp h
    have ih := length_tensorSizes l b hl
    rw [List.getLast_cons (List.cons_ne_nil b l), tensorSizes]
    rcases hab with ⟨he, -⟩ | hs
    · rw [if_pos he.symm, List.length_cons, List.length_cons]
      omega
    · rw [if_neg (by omega), List.length_cons]
      omega

/-- The cursors when the main loop starts on the offsets of the files. -/
def start (g : Geometry) (offs : List (ℕ × ℕ)) (o : ℕ) : Cursors :=
  openFile g 0 o (initialCursors (tensorSizes offs).length)

theorem start_loopState {g : Geometry} {o : ℕ} {l : List (ℕ × ℕ)}
    (h : ValidOffsets g ((0, o) :: l)) : LoopState g (0, o) l (start g ((0, o) :: l) o) :=
  { toReady := openFile_ready ⟨le_rfl, le_rfl, Nat.zero_le _⟩ 0 o, chain := h.chain
    room := by simp [start, openFile, initialCursors], fits := h.fits }

/-- On a valid offset list `compute_layout` returns, and its result is that of
the total steps. -/
theorem computeLayout_eq {g : Geometry} {o : ℕ} {l : List (ℕ × ℕ)}
    (h : ValidOffsets g ((0, o) :: l)) :
    computeLayout g ((0, o) :: l) =
      .ok (close g (steps g ((0, o) :: l) (start g ((0, o) :: l) o))) := by
  obtain ⟨z, -, hz⟩ := steps_induct (Q := fun _ _ _ => True) (fun _ _ _ _ _ _ => trivial) l (0, o) _
    (start_loopState h) trivial
  have hn : ((0, o) :: l).length - (((0, o) :: l).getLast (List.cons_ne_nil _ l)).1 - 1 =
      (tensorSizes ((0, o) :: l)).length := by
    have := length_tensorSizes l (0, o) h.chain
    simp only [List.length_cons]
    omega
  have hf := pushChunk_flushed hz.toReady
  set s1 := steps g ((0, o) :: l) (start g ((0, o) :: l) o) with hs1
  have hw := wrapRing_wrapped hf.toInOrder (pushChunk g s1).tensorId
  unfold computeLayout
  rw [List.head?_cons, List.getLast?_eq_getLast_of_ne_nil (List.cons_ne_nil _ l)]
  simp only [bind, Except.bind]
  rw [resetChunkFile_eq (s := initialCursors _) g.rankAlignment_pos, ← Nat.sub_sub, hn]
  simp only
  rw [show openFile g 0 o (initialCursors _) = start g ((0, o) :: l) o from rfl,
    layoutLoop_eq l (0, o) _ (start_loopState h), ← hs1]
  simp only [finishChunk_eq hz.page, resetChunkBufferOffset_eq hf.lt]
  rw [resetChunkBufferOffset_eq (by rw [hw.size]; exact hf.lt), hw.tensorId]
  rfl

/-- `compute_layout` returns, and a property of the cursors that holds at the
start of the main loop and that every step keeps holds at its end. -/
theorem computeLayout_induct {g : Geometry} {offs : List (ℕ × ℕ)} (h : ValidOffsets g offs)
    {Q : ℕ × ℕ → List (ℕ × ℕ) → Cursors → Prop}
    (hstart : ∀ o l, offs = (0, o) :: l → Q (0, o) l (start g offs o))
    (hstep : ∀ a b l s, LoopState g a (b :: l) s → Q a (b :: l) s → Q b l (step g a b s)) :
    ∃ s z, computeLayout g offs = .ok (close g s) ∧ LoopState g z [] s ∧ Q z [] s := by
  obtain ⟨o, ho⟩ := h.first
  obtain ⟨l, rfl⟩ := List.head?_eq_some_iff.mp ho
  obtain ⟨z, hq, hz⟩ := steps_induct hstep l (0, o) _ (start_loopState h) (hstart o l rfl)
  exact ⟨_, z, computeLayout_eq h, hz, hq⟩

/-- The two resets after the main loop. -/
structure Closed (g : Geometry) (s s' : Cursors) : Prop where
  wrapped : ∃ s1, Wrapped s.tensorId (pushChunk g s) s1 ∧ Wrapped s.tensorId s1 s' ∧ InOrder s1
  chunks : s'.chunks = (pushChunk g s).chunks
  inBuffer : s'.inBufferTensorId = s'.tensors.length
  length : s'.tensors.length = s.tensorId
  bare_eq : ∀ i, bare (s'.tensor i) = bare (s.tensor i)

theorem close_closed {g : Geometry} {z : ℕ × ℕ} {s : Cursors} (h : LoopState g z [] s) :
    Closed g s (close g s) := by
  have hf := pushChunk_flushed h.toReady
  have h1 := wrapRing_wrapped hf.toInOrder s.tensorId
  have ho1 : InOrder (wrapRing s.tensorId (pushChunk g s)) :=
    Wrapped.inOrder (hf.tensorId ▸ h1) hf.toInOrder
  have h2 := wrapRing_wrapped ho1 s.tensorId
  have e : close g s = wrapRing s.tensorId (wrapRing s.tensorId (pushChunk g s)) := by
    rw [close]
    simp only [hf.tensorId]
  have hlen : s.tensorId = s.tensors.length := by simpa [tensorSizes] using h.room
  rw [e]
  have hl : (wrapRing s.tensorId (wrapRing s.tensorId (pushChunk g s))).tensors.length = s.tensorId := by
    rw [h2.length, h1.length, hf.length, hlen]
  exact
    { wrapped := ⟨_, h1, h2, ho1⟩
      chunks := h2.chunks.trans h1.chunks
      inBuffer := by rw [h2.inBuffer, h1.leftMost, hl]
      length := hl
      bare_eq := fun i => (h2.bare_eq i).trans ((h1.bare_eq i).trans (hf.bare_eq i)) }

/-- A tensor of the result, as the cursors read it. -/
theorem tensor_of_getElem? {s : Cursors} {i : ℕ} {t : TensorMetadate} (h : s.tensors[i]? = some t) :
    i < s.tensors.length ∧ s.tensor i = t := by
  refine ⟨(List.getElem?_eq_some_iff.mp h).1, ?_⟩
  simp [Cursors.tensor, List.getD_eq_getElem?_getD, h]

end Layout
end Siphon
