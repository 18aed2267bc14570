/-
# What the layout is: segments of files in laps of the ring

A segment is the part of one file that lies in one lap of the ring: its bytes
are contiguous in the file and on the device, from a page boundary on. `plan`
reads the segments off the offset list by one rule: a tensor joins the
current segment if the padded segment still ends inside the buffer, starts
the next lap otherwise, and a new file starts a new segment behind the
padding of the last. `compute_layout` refines the plan: its chunks are the
segments cut into world chunks (`chunks_eq_plan`).

With the plan, the chunks that leave the buffer are known exactly
(`chunks_inside_iff`): a segment that holds a tensor was tested against the
buffer size before its last tensor joined it, but the segment that a new file
starts was not. If the file's first tensor does not fit, that segment is the
file's page prefix alone, and it is finished wherever the cursor stands.
-/
import Siphon.Lib.Pieces
import Siphon.Layout.Steps

namespace Siphon
namespace Layout

open Rounding Pieces

/-- The part of a file that lies in one lap: the file offset (on a page) and
the device offset of its first chunk, the file offset it ends at, and the
number of its tensors. -/
structure Segment where
  fileIndex : ℕ
  fileBase : ℕ
  base : ℕ
  stop : ℕ
  count : ℕ
  deriving Repr, DecidableEq

namespace Segment

/-- The bytes of the segment, page prefix included. -/
def size (p : Segment) : ℕ := p.stop - p.fileBase

/-- The device offset behind the padded chunks of the segment. -/
def free (g : Geometry) (p : Segment) : ℕ := p.base + roundUp p.size g.worldChunkAlignment

/-- A tensor that ends at `o` joins the segment. -/
def grow (o : ℕ) (p : Segment) : Segment := { p with stop := o, count := p.count + 1 }

/-- The segment still ends inside the buffer when a tensor that ends at `o`
joins it. -/
def Fits (g : Geometry) (o : ℕ) (p : Segment) : Prop :=
  p.base + roundUp (o - p.fileBase) g.worldChunkAlignment ≤ g.bufferSize

instance (g : Geometry) (o : ℕ) (p : Segment) : Decidable (p.Fits g o) :=
  inferInstanceAs (Decidable (_ ≤ _))

/-- The segment a new file starts behind the device offset `free`. -/
def ofFile (g : Geometry) (free fileIndex o : ℕ) : Segment where
  fileIndex := fileIndex
  fileBase := roundDown o g.rankAlignment
  base := roundUp free firstTensorAlignment + firstTensorAlignment -
    o % g.rankAlignment % firstTensorAlignment
  stop := o
  count := 0

/-- The segment a new lap starts. -/
def ofLap (g : Geometry) (fileIndex o : ℕ) : Segment where
  fileIndex := fileIndex
  fileBase := roundDown o g.rankAlignment
  base := firstTensorAlignment - o % g.rankAlignment % firstTensorAlignment
  stop := o
  count := 0

/-- The chunk of a piece of the segment. -/
def chunk (p : Segment) (piece : ℕ × ℕ) : Chunk :=
  ⟨piece.2, p.fileIndex, p.fileBase + piece.1, p.base + piece.1⟩

/-- The segment's chunks. -/
def chunks (g : Geometry) (p : Segment) : List Chunk := (pieces g.worldChunkSize p.size).map p.chunk

end Segment

/-- The segments from the current one, `p`, on; the list starts with the
offset that `p` has reached. -/
def plan (g : Geometry) : Segment → List (ℕ × ℕ) → List Segment
  | p, a :: b :: l =>
    if a.1 ≠ b.1 then p :: plan g (.ofFile g (p.free g) b.1 b.2) (b :: l)
    else if p.Fits g b.2 then plan g (p.grow b.2) (b :: l)
    else p :: plan g ((Segment.ofLap g a.1 a.2).grow b.2) (b :: l)
  | p, _ => [p]

/-- The segments of an offset list. -/
def planOf (g : Geometry) : List (ℕ × ℕ) → List Segment
  | a :: l => plan g (.ofFile g 0 a.1 a.2) (a :: l)
  | [] => []

/-! ### The cursors follow the plan -/

/-- The cursors stand in segment `p`, `j` full chunks of it are finished, and
`pre` are the chunks of the segments before. -/
structure Follows (g : Geometry) (pre : List Chunk) (p : Segment) (j : ℕ) (s : Cursors) : Prop where
  base_le : p.fileBase ≤ p.stop
  count : j = 0 ∨ j * g.worldChunkSize < p.size
  fileIndex : s.chunkFileIndex = p.fileIndex
  fileOffset : s.chunkFileOffset = p.fileBase + j * g.worldChunkSize
  deviceOffset : s.chunkDeviceBufferOffset = p.base + j * g.worldChunkSize
  size : s.currentChunkSize + j * g.worldChunkSize = p.size
  chunks : s.chunks = pre ++ (fullPieces g.worldChunkSize j).map p.chunk

section Steps

variable {g : Geometry} {pre : List Chunk} {p : Segment} {j o : ℕ} {s : Cursors}

theorem Follows.stop_eq (h : Follows g pre p j s) (hr : Ready g o s) : p.stop = o := by
  have h1 := h.fileOffset
  have h2 := h.size
  have h3 := hr.ends
  have h4 := h.base_le
  unfold Segment.size at h2
  omega

/-- The fit test of the source is that of the plan. -/
theorem Follows.overflows_iff (h : Follows g pre p j s) (hr : Ready g o s) {o' : ℕ} (hle : o ≤ o') :
    overflows g (o' - o) s ↔ ¬ p.Fits g o' := by
  have hs := h.size
  have hstop := h.stop_eq hr
  have hb := h.base_le
  have hd : g.worldChunkAlignment ∣ j * g.worldChunkSize :=
    g.worldChunkAlignment_dvd_worldChunkSize.trans (Nat.dvd_mul_left _ _)
  have e : o' - p.fileBase = j * g.worldChunkSize + (s.currentChunkSize + (o' - o)) := by
    unfold Segment.size at hs
    omega
  unfold overflows Segment.Fits
  rw [e, roundUp_add_of_dvd g.worldChunkAlignment_pos hd, h.deviceOffset, not_le, Nat.add_assoc]

/-- `finish_chunk` completes the segment's chunks. -/
theorem Follows.push_chunks (h : Follows g pre p j s) (hr : Ready g o s) :
    (pushChunk g s).chunks = pre ++ p.chunks g := by
  have hW := g.worldChunkSize_pos
  have hs := h.size
  have hle := hr.le
  have hj : fullCount g.worldChunkSize p.size = j :=
    fullCount_eq hW h.count (by rw [Nat.add_mul, Nat.one_mul]; omega)
  rcases Nat.eq_zero_or_pos s.currentChunkSize with h0 | hpos
  · -- an empty chunk is an empty segment
    have hj0 : j = 0 := by rcases h.count with h1 | h1 <;> omega
    have hp0 : p.size = 0 := by rw [← hs, h0, hj0, Nat.zero_mul]
    rw [pushChunk_empty g h0, h.chunks, Segment.chunks, hp0, hj0]
    rfl
  · have hp := pushChunk_pushed g hr.toInOrder hpos
    have hc : openChunk s = p.chunk (j * g.worldChunkSize, p.size - j * g.worldChunkSize) := by
      simp only [openChunk, Segment.chunk, h.fileIndex, h.fileOffset, h.deviceOffset, Chunk.mk.injEq,
        and_true]
      omega
    rw [hp.chunks, h.chunks, Segment.chunks, pieces_pos (by omega), hj, List.map_append, hc]
    simp

/-- `finish_chunk` leaves the device cursor behind the padded segment. -/
theorem Follows.push_deviceOffset (h : Follows g pre p j s) (hr : Ready g o s) :
    (pushChunk g s).chunkDeviceBufferOffset = p.free g := by
  have hd : g.worldChunkAlignment ∣ j * g.worldChunkSize :=
    g.worldChunkAlignment_dvd_worldChunkSize.trans (Nat.dvd_mul_left _ _)
  have hs : p.size = j * g.worldChunkSize + s.currentChunkSize := by rw [← h.size, Nat.add_comm]
  rw [(pushChunk_flushed hr).deviceOffset, h.deviceOffset, Segment.free, hs,
    roundUp_add_of_dvd g.worldChunkAlignment_pos hd, Nat.add_assoc]

/-- A new file starts a segment. -/
theorem Follows.openFile (h : Follows g pre p j s) (hr : Ready g o s) (f o' : ℕ) :
    Follows g (pre ++ p.chunks g) (.ofFile g (p.free g) f o') 0 (openFile g f o' (pushChunk g s)) where
  base_le := roundDown_le _ _
  count := Or.inl rfl
  fileIndex := rfl
  fileOffset := by simp [Layout.openFile, Segment.ofFile]
  deviceOffset := by simp [Layout.openFile, Segment.ofFile, h.push_deviceOffset hr]
  size := by
    have := roundDown_add_mod o' g.rankAlignment
    simp only [Layout.openFile, Segment.ofFile, Segment.size]
    omega
  chunks := by
    simp only [Layout.openFile, fullPieces, List.range_zero, List.map_nil, List.append_nil]
    exact h.push_chunks hr

/-- A new lap starts a segment. -/
theorem Follows.wrap (h : Follows g pre p j s) (hr : Ready g o s) :
    Follows g (pre ++ p.chunks g) (.ofLap g p.fileIndex o) 0
      (wrapRing s.tensorId (pushChunk g s)) := by
  have hf := pushChunk_flushed hr
  have hw := wrapRing_wrapped hf.toInOrder s.tensorId
  exact
    { base_le := roundDown_le _ _
      count := Or.inl rfl
      fileIndex := by rw [hw.fileIndex, hf.fileIndex, h.fileIndex]; rfl
      fileOffset := by rw [hw.fileOffset, hf.fileOffset]; simp [Segment.ofLap]
      deviceOffset := by rw [hw.deviceOffset, hf.size]; simp [Segment.ofLap]
      size := by
        have := roundDown_add_mod o g.rankAlignment
        rw [hw.size, hf.size]
        simp only [Segment.ofLap, Segment.size]
        omega
      chunks := by
        rw [hw.chunks, h.push_chunks hr]
        simp [fullPieces] }

/-- The split loop finishes full chunks of the segment that the tensor makes. -/
theorem Follows.placeHere (h : Follows g pre p j s) (hr : Ready g o s) (f n : ℕ) :
    ∃ j', Follows g pre (p.grow (o + n)) j' (placeHere g f o n s) := by
  have hstop := h.stop_eq hr
  have hbase := h.base_le
  have hgrow : (p.grow (o + n)).size = p.size + n := by
    simp only [Segment.grow, Segment.size]
    omega
  have hQ := fill_induct (g := g) (Q := fun s' left => Filling g o n s s' left ∧
      ∃ j', (j' = 0 ∨ j' * g.worldChunkSize < p.size + n) ∧
        s'.chunkFileOffset = p.fileBase + j' * g.worldChunkSize ∧
        s'.chunkDeviceBufferOffset = p.base + j' * g.worldChunkSize ∧
        s'.currentChunkSize + j' * g.worldChunkSize + left = p.size + n ∧
        s'.chunks = pre ++ (fullPieces g.worldChunkSize j').map p.chunk)
    (fun s' left hq hlt => by
      obtain ⟨hf, j', -, h2, h3, h4, h5⟩ := hq
      have hle := hf.le
      have ho := hf.toInOrder
      refine ⟨hf.full hlt, j' + 1, Or.inr ?_, ?_, ?_, ?_, ?_⟩
      · rw [Nat.add_mul, Nat.one_mul]; omega
      · rw [full_fileOffset ho, h2, Nat.add_mul, Nat.one_mul]; omega
      · rw [full_deviceOffset ho, h3, Nat.add_mul, Nat.one_mul]; omega
      · rw [full_size ho, Nat.add_mul, Nat.one_mul]; omega
      · rw [(full_pushed ho).chunks, fullPieces_succ, List.map_append]
        have hc : openChunk (full g s') = p.chunk (j' * g.worldChunkSize, g.worldChunkSize) := by
          simp only [openChunk, full, Segment.chunk, hf.fileIndex, h.fileIndex, h2, h3]
        rw [hc, show (full g s').chunks = s'.chunks from rfl, h5]
        simp)
    (s.currentChunkSize + n + 1) s n
    ⟨.refl hr, j, h.count.imp_right fun hc => by omega, h.fileOffset, h.deviceOffset,
      by have := h.size; omega, h.chunks⟩
  obtain ⟨hf, j', h1, h2, h3, h4, h5⟩ := hQ
  exact ⟨j',
    { base_le := by simp only [Segment.grow]; omega
      count := hgrow ▸ h1
      fileIndex := hf.fileIndex.trans h.fileIndex
      fileOffset := h2
      deviceOffset := h3
      size := by rw [hgrow, ← h4]; simp only [Layout.placeHere, record, fillTensor]; omega
      chunks := h5 }⟩

/-- A step of the main loop follows the plan: the chunks finished before it
and those planned from it on make up the same list. -/
theorem Follows.step {a b : ℕ × ℕ} {l : List (ℕ × ℕ)} (hs : LoopState g a (b :: l) s)
    (h : Follows g pre p j s) (hf : p.fileIndex = a.1) :
    ∃ pre' p' j', Follows g pre' p' j' (step g a b s) ∧ p'.fileIndex = b.1 ∧
      pre' ++ (plan g p' (b :: l)).flatMap (Segment.chunks g) =
        pre ++ (plan g p (a :: b :: l)).flatMap (Segment.chunks g) := by
  have hr := hs.toReady
  unfold Layout.step
  split_ifs with hab
  · exact ⟨_, _, 0, h.openFile hr b.1 b.2, rfl, by simp [plan, hab]⟩
  · have hab' := not_not.mp hab
    obtain ⟨hle, -, -⟩ := hs.tensor hab'
    have hover := h.overflows_iff hr hle
    have hend : a.2 + (b.2 - a.2) = b.2 := Nat.add_sub_of_le hle
    unfold place makeRoom
    split_ifs with hov
    · obtain ⟨j', hj⟩ := (h.wrap hr).placeHere
        (by simpa [makeRoom, if_pos hov] using makeRoom_ready hr (b.2 - a.2)) a.1 (b.2 - a.2)
      rw [hend] at hj
      refine ⟨_, _, j', hj, hf.trans hab', ?_⟩
      simp [plan, hab', hover.mp hov, hf]
    · obtain ⟨j', hj⟩ := h.placeHere hr a.1 (b.2 - a.2)
      rw [hend] at hj
      refine ⟨_, _, j', hj, hf.trans hab', ?_⟩
      simp [plan, hab', not_not.mp (hover.not.mp hov)]

end Steps

theorem start_follows (g : Geometry) (offs : List (ℕ × ℕ)) (o : ℕ) :
    Follows g [] (.ofFile g 0 0 o) 0 (start g offs o) where
  base_le := roundDown_le _ _
  count := Or.inl rfl
  fileIndex := rfl
  fileOffset := by simp [start, openFile, Segment.ofFile]
  deviceOffset := by simp [start, openFile, Segment.ofFile, initialCursors]
  size := by
    have := roundDown_add_mod o g.rankAlignment
    simp only [start, openFile, Segment.ofFile, Segment.size]
    omega
  chunks := rfl

/-- **The layout refines the plan.** The chunks of `compute_layout` are the
planned segments, cut into world chunks. -/
theorem chunks_eq_plan {g : Geometry} {offs : List (ℕ × ℕ)} (h : ValidOffsets g offs) :
    ∃ l, computeLayout g offs = .ok l ∧ l.chunks = (planOf g offs).flatMap (Segment.chunks g) := by
  obtain ⟨s, z, hl, hs, pre, p, j, hq, -, he⟩ := computeLayout_induct h
    (Q := fun a l s => ∃ pre p j, Follows g pre p j s ∧ p.fileIndex = a.1 ∧
      pre ++ (plan g p (a :: l)).flatMap (Segment.chunks g) =
        (planOf g offs).flatMap (Segment.chunks g))
    (fun o l ho => ⟨[], _, 0, start_follows g offs o, rfl, by rw [ho]; rfl⟩)
    (fun a b l s hs ⟨pre, p, j, hq, hf, he⟩ => by
      obtain ⟨pre', p', j', h1, h2, h3⟩ := hq.step hs hf
      exact ⟨pre', p', j', h1, h2, h3.trans he⟩)
  refine ⟨_, hl, ?_⟩
  rw [(close_closed hs).chunks, hq.push_chunks hs.toReady, ← he]
  simp [plan]

/-! ### The chunks that leave the buffer -/

/-- The device bytes that posting a chunk of `n` bytes writes: the copy alone
for one rank, the padded all-gather for several. -/
def writeSize (g : Geometry) (n : ℕ) : ℕ :=
  if g.worldSize = 1 then n else roundUp n g.worldChunkAlignment

theorem writeSize_le (g : Geometry) (n : ℕ) : writeSize g n ≤ roundUp n g.worldChunkAlignment := by
  unfold writeSize
  split_ifs
  · exact le_roundUp g.worldChunkAlignment_pos n
  · exact le_rfl

/-- Whole world chunks in front of a chunk shift what it writes. -/
theorem writeSize_add (g : Geometry) {d : ℕ} (hd : g.worldChunkSize ∣ d) (n : ℕ) :
    writeSize g (d + n) = d + writeSize g n := by
  unfold writeSize
  split_ifs
  · rfl
  · exact roundUp_add_of_dvd g.worldChunkAlignment_pos
      (g.worldChunkAlignment_dvd_worldChunkSize.trans hd) n

theorem writeSize_mono (g : Geometry) {m n : ℕ} (h : m ≤ n) : writeSize g m ≤ writeSize g n := by
  unfold writeSize
  split_ifs
  · exact h
  · exact roundUp_mono g.worldChunkAlignment_pos h

/-- Posting the chunk stays inside the allocated buffer. -/
def Inside (g : Geometry) (c : Chunk) : Prop :=
  c.deviceBufferOffset + writeSize g c.size ≤ g.bufferSize

instance (g : Geometry) (c : Chunk) : Decidable (Inside g c) := inferInstanceAs (Decidable (_ ≤ _))

/-- A segment's chunks stay inside if and only if its last one does. -/
theorem inside_chunks_iff (g : Geometry) (p : Segment) : (∀ c ∈ p.chunks g, Inside g c) ↔
    p.size = 0 ∨ p.base + writeSize g p.size ≤ g.bufferSize := by
  have hW := g.worldChunkSize_pos
  rcases Nat.eq_zero_or_pos p.size with h0 | hpos
  · simp [Segment.chunks, h0, pieces_zero]
  constructor
  · intro h
    right
    have hlt := fullCount_mul_lt (w := g.worldChunkSize) hpos
    have := h (p.chunk (fullCount g.worldChunkSize p.size * g.worldChunkSize,
      p.size - fullCount g.worldChunkSize p.size * g.worldChunkSize))
      (List.mem_map_of_mem (by rw [pieces_pos hpos]; simp))
    simp only [Inside, Segment.chunk] at this
    rwa [Nat.add_assoc, ← writeSize_add g (Nat.dvd_mul_left _ _), Nat.add_sub_of_le hlt.le] at this
  · rintro (h | h) c hc
    · omega
    · obtain ⟨q, hq, rfl⟩ := List.mem_map.mp hc
      obtain ⟨-, -, h3, hd⟩ := mem_pieces hW hq
      simp only [Inside, Segment.chunk]
      rw [Nat.add_assoc, ← writeSize_add g hd]
      exact (Nat.add_le_add_left (writeSize_mono g h3) _).trans h

/-- What starts a lap fits: the padding of the allocation covers the page
prefix and the rounding. -/
theorem ofLap_fits (g : Geometry) {f o o' : ℕ} (hle : o ≤ o')
    (hn : o' - o ≤ g.effectiveBufferSize) : (Segment.ofLap g f o).Fits g o' := by
  have h1 := roundDown_add_mod o g.rankAlignment
  have h2 := Nat.mod_lt o g.rankAlignment_pos
  have h3 := roundUp_lt g.worldChunkAlignment_pos (o' - roundDown o g.rankAlignment)
  unfold Segment.Fits Segment.ofLap Geometry.bufferSize
  simp only
  omega

/-- A segment that holds a tensor ends inside the buffer. -/
theorem plan_inside {g : Geometry} : ∀ (l : List (ℕ × ℕ)) (a : ℕ × ℕ) (p : Segment),
    (a :: l).IsChain OffsetStep → (∀ n ∈ tensorSizes (a :: l), n ≤ g.effectiveBufferSize) →
    (0 < p.count → p.free g ≤ g.bufferSize) →
    ∀ q ∈ plan g p (a :: l), 0 < q.count → q.free g ≤ g.bufferSize
  | [], _, p, _, _, hp => by simpa [plan] using hp
  | b :: l, a, p, hc, hf, hp => by
    obtain ⟨hab, hl⟩ := List.isChain_cons_cons.mp hc
    rw [plan]
    split_ifs with h1 h2
    · rw [tensorSizes, if_neg h1] at hf
      intro q hq
      rcases List.mem_cons.mp hq with rfl | hq
      · exact hp
      · exact plan_inside l b _ hl hf (fun h => absurd h (Nat.lt_irrefl 0)) q hq
    · rw [tensorSizes, if_pos (not_not.mp h1)] at hf
      exact plan_inside l b _ hl (fun n hn => hf n (List.mem_cons_of_mem _ hn)) (fun _ => h2)
    · rw [tensorSizes, if_pos (not_not.mp h1)] at hf
      have hle : a.2 ≤ b.2 := by
        rcases hab with ⟨-, h⟩ | h
        · exact h
        · exact absurd (not_not.mp h1) (by omega)
      have hlap : (Segment.ofLap g a.1 a.2).Fits g b.2 := ofLap_fits g hle (hf _ List.mem_cons_self)
      intro q hq
      rcases List.mem_cons.mp hq with rfl | hq
      · exact hp
      · exact plan_inside l b ((Segment.ofLap g a.1 a.2).grow b.2) hl
          (fun n hn => hf n (List.mem_cons_of_mem _ hn)) (fun _ => hlap) q hq

/-- No file's page prefix that is finished without a tensor, because the
file's first tensor goes to the next lap or the file has none, reaches past
the end of the buffer. -/
def PrefixesFit (g : Geometry) (offs : List (ℕ × ℕ)) : Prop :=
  ∀ p ∈ planOf g offs, p.count = 0 → p.size = 0 ∨ p.base + writeSize g p.size ≤ g.bufferSize

instance (g : Geometry) (offs : List (ℕ × ℕ)) : Decidable (PrefixesFit g offs) := by
  unfold PrefixesFit; infer_instance

/-- **When no chunk leaves the buffer.** Posting every chunk of the layout
stays inside the allocation if and only if the page prefixes fit. -/
theorem chunks_inside_iff (g : Geometry) (offs : List (ℕ × ℕ)) (h : ValidOffsets g offs) :
    ∃ l, computeLayout g offs = .ok l ∧
      ((∀ c ∈ l.chunks, c.deviceBufferOffset + writeSize g c.size ≤ g.bufferSize) ↔
        PrefixesFit g offs) := by
  obtain ⟨l, hl, hc⟩ := chunks_eq_plan h
  have hin : ∀ p ∈ planOf g offs, 0 < p.count → p.free g ≤ g.bufferSize := by
    obtain ⟨o, ho⟩ := h.first
    obtain ⟨l, rfl⟩ := List.head?_eq_some_iff.mp ho
    exact plan_inside l (0, o) _ h.chain h.fits fun h0 => absurd h0 (Nat.lt_irrefl 0)
  refine ⟨l, hl, ?_⟩
  have hseg : (∀ c ∈ l.chunks, Inside g c) ↔ ∀ p ∈ planOf g offs, ∀ c ∈ p.chunks g, Inside g c := by
    rw [hc]
    constructor
    · intro hall p hp c hcp
      exact hall c (List.mem_flatMap.mpr ⟨p, hp, hcp⟩)
    · intro hall c hcl
      obtain ⟨p, hp, hcp⟩ := List.mem_flatMap.mp hcl
      exact hall p hp c hcp
  refine hseg.trans ⟨fun hall p hp _ => (inside_chunks_iff g p).mp (hall p hp), fun hall p hp => ?_⟩
  rw [inside_chunks_iff]
  rcases Nat.eq_zero_or_pos p.count with h0 | hpos
  · exact hall p hp h0
  · exact Or.inr ((Nat.add_le_add_left (writeSize_le g p.size) _).trans (hin p hp hpos))

theorem chunks_inside_iff_nineTensors :
    PrefixesFit pageRing nineTensors ∧ ∃ l, computeLayout pageRing nineTensors = .ok l ∧
      ∀ c ∈ l.chunks, c.deviceBufferOffset + writeSize pageRing c.size ≤ pageRing.bufferSize := by
  have hfit : PrefixesFit pageRing nineTensors := by decide
  obtain ⟨l, hl, hiff⟩ := chunks_inside_iff pageRing nineTensors nineTensors_valid
  exact ⟨hfit, l, hl, hiff.mpr hfit⟩

/-- Seven tensors of a page each fill the documentation's ring but for 32
bytes; the next file's first tensor comes behind a header of 104 bytes. -/
def prefixAtRingEnd : List (ℕ × ℕ) :=
  ((List.range 8).map fun i => (0, 4096 * (i + 1))) ++ [(1, 104), (1, 4200)]

/-- The header of the second file is finished at device offset 28696 and ends
80 bytes behind the buffer of 28720 bytes. -/
theorem prefix_chunk_overruns :
    ValidOffsets pageRing prefixAtRingEnd ∧ ∃ l, computeLayout pageRing prefixAtRingEnd = .ok l ∧
      ⟨104, 1, 0, 28696⟩ ∈ l.chunks ∧
      ¬ ∀ c ∈ l.chunks, c.deviceBufferOffset + writeSize pageRing c.size ≤ pageRing.bufferSize := by
  refine ⟨⟨⟨4096, rfl⟩, by decide, by decide⟩, ?_⟩
  obtain ⟨l, hl, hp⟩ := exists_ok_of_any pageRing prefixAtRingEnd
    (fun l => decide ((⟨104, 1, 0, 28696⟩ : Chunk) ∈ l.chunks)) (by decide)
  have hmem := of_decide_eq_true hp
  exact ⟨l, hl, hmem, fun hall => absurd (hall _ hmem) (by decide)⟩

end Layout
end Siphon
