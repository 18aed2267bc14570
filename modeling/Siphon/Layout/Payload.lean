/-
# Where the bytes of a tensor arrive

Every byte of every tensor is written by a chunk up to the tensor's last one,
at the tensor's device offset plus the byte's position (`Mapped`): the open
chunk and the finished chunks of a segment place a file byte at the same
distance from the segment's start, and a chunk that is finished early is read
again from its last page on, at the place where the next segment starts.
Chunks are non-empty, no longer than a world chunk and start on a page, and
within a lap the chunks of a file advance in the file as on the device
(`Shaped`). The first tensor of a file and of a lap is aligned (`Aligned`).
-/
import Siphon.Layout.Steps

namespace Siphon
namespace Layout

open Rounding

/-- The chunk writes byte `x` of file `f` at device offset `y`. -/
def Carries (c : Chunk) (f x y : ℕ) : Prop :=
  c.fileIndex = f ∧ c.fileOffset ≤ x ∧ x < c.fileOffset + c.size ∧
    c.deviceBufferOffset + (x - c.fileOffset) = y

instance (c : Chunk) (f x y : ℕ) : Decidable (Carries c f x y) := by unfold Carries; infer_instance

/-- A longer chunk carries what the chunk does. -/
theorem Carries.grow {c : Chunk} {f x y n : ℕ} (h : Carries c f x y) (hn : c.size ≤ n) :
    Carries { c with size := n } f x y := by
  obtain ⟨h1, h2, h3, h4⟩ := h
  exact ⟨h1, h2, h3.trans_le (Nat.add_le_add_left hn _), h4⟩

/-- A finished chunk with an id up to `m` does. -/
def Written (chunks : List Chunk) (m : ℤ) (f x y : ℕ) : Prop :=
  ∃ (k : ℕ) (c : Chunk), chunks[k]? = some c ∧ (k : ℤ) ≤ m ∧ Carries c f x y

theorem Written.append {cs : List Chunk} {m : ℤ} {f x y : ℕ} (h : Written cs m f x y)
    (new : List Chunk) : Written (cs ++ new) m f x y := by
  obtain ⟨k, c, hc, hk, hcar⟩ := h
  refine ⟨k, c, ?_, hk, hcar⟩
  rw [List.getElem?_append_left (List.getElem?_eq_some_iff.mp hc).1]
  exact hc

theorem Written.last {cs : List Chunk} {c : Chunk} {f x y : ℕ} (h : Carries c f x y) :
    Written (cs ++ [c]) cs.length f x y :=
  ⟨cs.length, c, by simp, le_rfl, h⟩

theorem Written.mono {cs : List Chunk} {m m' : ℤ} {f x y : ℕ} (h : Written cs m f x y) (hm : m ≤ m') :
    Written cs m' f x y := by
  obtain ⟨k, c, hc, hk, hcar⟩ := h
  exact ⟨k, c, hc, hk.trans hm, hcar⟩

/-- Byte `k` of the tensor is where it belongs. -/
def ByteWritten (chunks : List Chunk) (t : TensorMetadate) (k : ℕ) : Prop :=
  Written chunks t.lastChunkId t.fileIndex (t.fileOffset + k) (t.deviceBufferOffset + k)

theorem ByteWritten.congr {cs : List Chunk} {t t' : TensorMetadate} {k : ℕ} (h : ByteWritten cs t k)
    (e : bare t' = bare t) : ByteWritten cs t' k := by
  unfold ByteWritten at *
  rwa [bare_last e, bare_fileIndex e, bare_fileOffset e, bare_deviceOffset e]

/-- Every byte of every tensor is in a finished chunk, or in the open one if
the tensor ends there. -/
def Mapped (s : Cursors) : Prop :=
  ∀ i < s.tensorId, ∀ k < (s.tensor i).size, ByteWritten s.chunks (s.tensor i) k ∨
    (s.tensor i).lastChunkId = s.chunks.length ∧ Carries (openChunk s) (s.tensor i).fileIndex
      ((s.tensor i).fileOffset + k) ((s.tensor i).deviceBufferOffset + k)

/-- Every byte of every tensor is in a finished chunk. -/
def AllWritten (s : Cursors) : Prop :=
  ∀ i < s.tensorId, ∀ k < (s.tensor i).size, ByteWritten s.chunks (s.tensor i) k

theorem AllWritten.mapped {s : Cursors} (h : AllWritten s) : Mapped s :=
  fun i hi k hk => Or.inl (h i hi k hk)

/-- Only the watermarks differ. -/
theorem AllWritten.congr {s s' : Cursors} (h : AllWritten s) (hc : s'.chunks = s.chunks)
    (hid : s'.tensorId = s.tensorId) (hb : ∀ i, bare (s'.tensor i) = bare (s.tensor i)) :
    AllWritten s' := by
  intro i hi k hk
  rw [hid] at hi
  rw [bare_size (hb i)] at hk
  rw [hc]
  exact (h i hi k hk).congr (hb i)

section Mapping

variable {g : Geometry} {s s' : Cursors} {o : ℕ}

theorem Mapped.push (h : Mapped s) (hp : Pushed g s s') : AllWritten s' := by
  intro i hi k hk
  rw [hp.tensorId] at hi
  have hb := hp.bare_eq i
  rw [bare_size hb] at hk
  refine ByteWritten.congr ?_ hb
  rw [hp.chunks]
  rcases h i hi k hk with hw | ⟨hl, hc⟩
  · exact hw.append _
  · unfold ByteWritten
    rw [hl]
    exact Written.last hc

/-- `finish_chunk` leaves nothing in the open chunk that no finished chunk has. -/
theorem Mapped.flush (h : Mapped s) (ho : InOrder s) : AllWritten (pushChunk g s) := by
  rcases Nat.eq_zero_or_pos s.currentChunkSize with h0 | hpos
  · rw [pushChunk_empty g h0]
    intro i hi k hk
    rcases h i hi k hk with hw | ⟨-, -, h1, h2, -⟩
    · exact hw
    · simp only [openChunk] at h1 h2
      omega
  · exact h.push (pushChunk_pushed g ho hpos)

theorem Mapped.full (h : Mapped s) (hle : s.currentChunkSize ≤ g.worldChunkSize) :
    Mapped (full g s) := by
  intro i hi k hk
  rcases h i hi k hk with hw | ⟨hl, hc⟩
  · exact Or.inl hw
  · exact Or.inr ⟨hl, hc.grow hle⟩

/-- The bytes of the tensor that is being placed at offset `o` of file `f` and
at device offset `d`, up to the end of the open chunk. -/
def Placing (f o d : ℕ) (s : Cursors) : Prop :=
  ∀ x, o ≤ x → x < s.chunkFileOffset + s.currentChunkSize →
    Written s.chunks s.chunks.length f x (d + (x - o)) ∨ Carries (openChunk s) f x (d + (x - o))

/-- Bytes appended to the open chunk arrive at the same distance. -/
theorem Placing.extend {f d n : ℕ} (h : Placing f o d s) (hf : s.chunkFileIndex = f)
    (hd : s.chunkDeviceBufferOffset + o = d + s.chunkFileOffset) :
    Placing f o d { s with currentChunkSize := s.currentChunkSize + n } := by
  intro x h1 h2
  by_cases hx : x < s.chunkFileOffset + s.currentChunkSize
  · exact (h x h1 hx).imp_right fun hc => hc.grow (Nat.le_add_right _ _)
  · refine Or.inr ⟨hf, ?_, ?_, ?_⟩ <;> simp only [openChunk] at * <;> omega

theorem Placing.push {f d : ℕ} (h : Placing f o d s) (hp : Pushed g s s')
    (hend : s'.chunkFileOffset + s'.currentChunkSize = s.chunkFileOffset + s.currentChunkSize) :
    Placing f o d s' := by
  intro x h1 h2
  left
  rw [hp.chunks]
  rcases h x h1 (hend ▸ h2) with hw | hc
  · exact (hw.append _).mono (by simp)
  · exact (Written.last hc).mono (by simp)

/-- The split loop. -/
theorem placing_fillTensor (h : Mapped s) (hr : Ready g o s) (n : ℕ) :
    Mapped (fillTensor g n s).1 ∧ Placing s.chunkFileIndex o
      (s.chunkDeviceBufferOffset + s.currentChunkSize) (fillTensor g n s).1 := by
  have hends := hr.ends
  have hQ := fill_induct (g := g) (Q := fun s' left => Filling g o n s s' left ∧ Mapped s' ∧
      Placing s.chunkFileIndex o (s.chunkDeviceBufferOffset + s.currentChunkSize) s')
    (fun s' left ⟨hf, hm, hp⟩ hlt => by
      have ho := hf.toInOrder
      have h1 := hf.fileEnd
      have h2 := hf.deviceEnd
      have hle := hf.le
      have hfull : Layout.full g s' = { s' with currentChunkSize :=
          s'.currentChunkSize + (g.worldChunkSize - s'.currentChunkSize) } := by
        rw [Layout.full, Nat.add_sub_of_le hle]
      refine ⟨hf.full hlt, ((hm.full hle).push (full_pushed ho)).mapped, ?_⟩
      refine Placing.push (s := Layout.full g s') ?_ (full_pushed ho) ?_
      · rw [hfull]
        exact hp.extend hf.fileIndex (by omega)
      · rw [full_fileOffset ho, full_size ho]
        rfl)
    (s.currentChunkSize + n + 1) s n
    ⟨.refl hr, h, fun x h1 h2 => absurd h2 (by omega)⟩
  exact hQ.2

theorem Mapped.placeHere (h : Mapped s) (hr : Ready g o s) (hlt : s.tensorId < s.tensors.length)
    {f : ℕ} (hfile : s.chunkFileIndex = f) (n : ℕ) : Mapped (placeHere g f o n s) := by
  have hf := fillTensor_filling hr n
  obtain ⟨hm, hp⟩ := placing_fillTensor h hr n
  have hends := hr.ends
  have h1 := hf.fileEnd
  have h2 := hf.deviceEnd
  set r := fillTensor g n s with hr'
  have hext := hp.extend (n := r.2) hf.fileIndex (by omega)
  have ht : ∀ i, (Layout.placeHere g f o n s).tensor i =
      if i = r.1.tensorId then ⟨n, f, o, o - s.chunkFileOffset + s.chunkDeviceBufferOffset,
        r.1.chunks.length, 0⟩ else r.1.tensor i :=
    tensor_record (by rw [hf.tensorId, hf.length]; exact hlt) f o n _ _
  intro i hi k hk
  change i < r.1.tensorId + 1 at hi
  rw [ht] at hk ⊢
  split_ifs at hk ⊢ with hid
  · -- the tensor just placed
    have hb := hext (o + k) (by omega) (by simp only at hk ⊢; omega)
    rw [Nat.add_sub_cancel_left, Nat.add_comm s.chunkDeviceBufferOffset,
      show s.currentChunkSize = o - s.chunkFileOffset by omega, hfile] at hb
    exact hb.imp_right fun hc => ⟨rfl, hc⟩
  · exact (hm i (by omega) k hk).imp_right fun hc => ⟨hc.1, hc.2.grow (Nat.le_add_right _ _)⟩

end Mapping

/-! ### The chunks -/

/-- Two consecutive chunks of one file in one lap advance by the same amount
in the file and on the device. Chunk `k + 1` starts a lap if a wrap found
`k + 1` chunks. -/
def Advances (wraps : List (ℕ × ℕ)) (chunks : List Chunk) : Prop :=
  ∀ (k : ℕ) (c c' : Chunk), chunks[k]? = some c → chunks[k + 1]? = some c' →
    c.fileIndex = c'.fileIndex → (∀ w ∈ wraps, w.2 ≠ k + 1) →
    ∃ d, c'.fileOffset = c.fileOffset + d ∧ c'.deviceBufferOffset = c.deviceBufferOffset + d

/-- The same between the last chunk and one at the cursors. -/
def Link (wraps : List (ℕ × ℕ)) (chunks : List Chunk) (f o d : ℕ) : Prop :=
  ∀ (k : ℕ) (c : Chunk), k + 1 = chunks.length → chunks[k]? = some c → c.fileIndex = f →
    (∀ w ∈ wraps, w.2 ≠ k + 1) → ∃ n, o = c.fileOffset + n ∧ d = c.deviceBufferOffset + n

theorem Advances.push {wraps : List (ℕ × ℕ)} {cs : List Chunk} {c : Chunk} (h : Advances wraps cs)
    (hl : Link wraps cs c.fileIndex c.fileOffset c.deviceBufferOffset) : Advances wraps (cs ++ [c]) := by
  intro k c1 c2 h1 h2 hf hw
  have hk := (List.getElem?_eq_some_iff.mp h2).1
  simp only [List.length_append, List.length_singleton] at hk
  rw [List.getElem?_append_left (by omega)] at h1
  rcases Nat.lt_or_ge (k + 1) cs.length with hlt | hge
  · rw [List.getElem?_append_left hlt] at h2
    exact h k c1 c2 h1 h2 hf hw
  · have he : k + 1 = cs.length := by omega
    rw [he, List.getElem?_concat_length, Option.some.injEq] at h2
    subst h2
    exact hl k c1 he h1 hf hw

theorem Advances.wrap {wraps : List (ℕ × ℕ)} {cs : List Chunk} (h : Advances wraps cs) (w : ℕ × ℕ) :
    Advances (wraps ++ [w]) cs := by
  intro k c c' h1 h2 hf hw
  exact h k c c' h1 h2 hf fun v hv => hw v (List.mem_append_left _ hv)

/-- What holds of a finished chunk: non-empty, at most a world chunk, on a
page, of a file up to the current one. -/
def WellShaped (g : Geometry) (f : ℕ) (c : Chunk) : Prop :=
  0 < c.size ∧ c.size ≤ g.worldChunkSize ∧ g.rankAlignment ∣ c.fileOffset ∧ c.fileIndex ≤ f

/-- The finished chunks. -/
structure Finished (g : Geometry) (s : Cursors) : Prop where
  shape : ∀ c ∈ s.chunks, WellShaped g s.chunkFileIndex c
  advance : Advances s.wraps s.chunks

/-- The finished chunks and the open one. -/
structure Shaped (g : Geometry) (s : Cursors) : Prop extends Finished g s where
  link : Link s.wraps s.chunks s.chunkFileIndex s.chunkFileOffset s.chunkDeviceBufferOffset

section Shape

variable {g : Geometry} {s s' : Cursors} {o : ℕ}

theorem Shaped.push (h : Shaped g s) (hp : Pushed g s s') (hpos : 0 < s.currentChunkSize)
    (hle : s.currentChunkSize ≤ g.worldChunkSize) (hpage : g.rankAlignment ∣ s.chunkFileOffset) :
    Finished g s' := by
  constructor
  · intro c hc
    rw [hp.fileIndex]
    rw [hp.chunks, List.mem_append, List.mem_singleton] at hc
    rcases hc with hc | rfl
    · exact h.shape c hc
    · exact ⟨hpos, hle, hpage, le_rfl⟩
  · rw [hp.wraps, hp.chunks]
    exact h.advance.push h.link

theorem Shaped.flush (h : Shaped g s) (hr : Ready g o s) : Finished g (pushChunk g s) := by
  rcases Nat.eq_zero_or_pos s.currentChunkSize with h0 | hpos
  · rw [pushChunk_empty g h0]
    exact h.toFinished
  · exact h.push (pushChunk_pushed g hr.toInOrder hpos) hpos hr.le hr.page

theorem Finished.wrap (h : Finished g s) {n : ℕ} (hw : Wrapped n s s') : Shaped g s' where
  shape := by rw [hw.chunks, hw.fileIndex]; exact h.shape
  advance := by rw [hw.chunks, hw.wraps]; exact h.advance.wrap _
  link := by
    intro k c hk _ _ hno
    rw [hw.chunks] at hk
    exact absurd hk.symm (hno (n, s.chunks.length) (by rw [hw.wraps]; simp))

theorem Finished.openFile (h : Finished g s) {f : ℕ} (hf : s.chunkFileIndex < f) (o : ℕ) :
    Shaped g (openFile g f o s) where
  shape := by
    intro c hc
    obtain ⟨h1, h2, h3, h4⟩ := h.shape c hc
    exact ⟨h1, h2, h3, h4.trans hf.le⟩
  advance := h.advance
  link := by
    intro k c _ hc he _
    have := (h.shape c (List.mem_of_getElem? hc)).2.2.2
    simp only [Layout.openFile] at he
    omega

/-- A full chunk. -/
theorem Shaped.full (h : Shaped g s) (hr : Ready g o s) : Shaped g (pushChunk g (full g s)) := by
  have ho := hr.toInOrder
  have hp := full_pushed (g := g) ho
  have hfull : Shaped g (Layout.full g s) := ⟨⟨h.shape, h.advance⟩, h.link⟩
  refine ⟨hfull.push hp g.worldChunkSize_pos le_rfl hr.page, ?_⟩
  intro k c hk hc _ _
  rw [hp.chunks] at hk hc
  simp only [List.length_append, List.length_singleton, Nat.add_right_cancel_iff] at hk
  subst hk
  rw [List.getElem?_concat_length, Option.some.injEq] at hc
  subst hc
  exact ⟨g.worldChunkSize, full_fileOffset ho, full_deviceOffset ho⟩

theorem Shaped.placeHere (h : Shaped g s) (hr : Ready g o s) (f n : ℕ) :
    Shaped g (placeHere g f o n s) := by
  have hQ := fill_induct (g := g) (Q := fun s' left => Filling g o n s s' left ∧ Shaped g s')
    (fun s' left ⟨hf, hs⟩ hlt => ⟨hf.full hlt, hs.full hf.ready⟩)
    (s.currentChunkSize + n + 1) s n ⟨.refl hr, h⟩
  exact ⟨⟨hQ.2.shape, hQ.2.advance⟩, hQ.2.link⟩

end Shape

/-! ### Alignment -/

/-- Tensor `i` is the first of its file or the first of a lap. -/
def StartsRun (s : Cursors) (i : ℕ) : Prop :=
  i = 0 ∨ (s.tensor (i - 1)).fileIndex ≠ (s.tensor i).fileIndex ∨ ∃ w ∈ s.wraps, w.1 = i

/-- The tensors placed so far are aligned where the source aligns them. -/
structure Aligned (s : Cursors) : Prop where
  tensors : ∀ i < s.tensorId, StartsRun s i → firstTensorAlignment ∣ (s.tensor i).deviceBufferOffset
  wraps_le : ∀ w ∈ s.wraps, w.1 ≤ s.tensorId

/-- The next tensor will be aligned if it starts a file or a lap. -/
def NextAligned (s : Cursors) : Prop :=
  (s.tensorId = 0 ∨ (s.tensor (s.tensorId - 1)).fileIndex ≠ s.chunkFileIndex ∨
      ∃ w ∈ s.wraps, w.1 = s.tensorId) →
    firstTensorAlignment ∣ s.chunkDeviceBufferOffset + s.currentChunkSize

theorem aligned_add (b r : ℕ) :
    firstTensorAlignment ∣
      roundUp b firstTensorAlignment + firstTensorAlignment - r % firstTensorAlignment + r := by
  obtain ⟨k, hk⟩ := dvd_roundUp b firstTensorAlignment
  unfold firstTensorAlignment at *
  omega

section Alignment

variable {g : Geometry} {s s' : Cursors} {o : ℕ}

theorem Aligned.congr (h : Aligned s) (hid : s'.tensorId = s.tensorId) (hw : s'.wraps = s.wraps)
    (hb : ∀ i, bare (s'.tensor i) = bare (s.tensor i)) : Aligned s' where
  tensors := by
    intro i hi hs
    unfold StartsRun at hs
    rw [hw, bare_fileIndex (hb i), bare_fileIndex (hb (i - 1))] at hs
    rw [bare_deviceOffset (hb i)]
    exact h.tensors i (hid ▸ hi) hs
  wraps_le := by rw [hw, hid]; exact h.wraps_le

theorem Aligned.wrap (h : Aligned s) (hw : Wrapped s.tensorId s s') : Aligned s' where
  tensors := by
    intro i hi hs
    unfold StartsRun at hs
    rw [hw.tensorId] at hi
    rw [hw.wraps, bare_fileIndex (hw.bare_eq i), bare_fileIndex (hw.bare_eq (i - 1))] at hs
    rw [bare_deviceOffset (hw.bare_eq i)]
    refine h.tensors i hi ?_
    rcases hs with h0 | hf | ⟨w, hw', he⟩
    · exact Or.inl h0
    · exact Or.inr (Or.inl hf)
    · rcases List.mem_append.mp hw' with hm | hm
      · exact Or.inr (Or.inr ⟨w, hm, he⟩)
      · simp only [List.mem_singleton] at hm
        subst hm
        exact absurd he (by simp only; omega)
  wraps_le := by
    intro w hm
    rw [hw.wraps, List.mem_append, List.mem_singleton] at hm
    rw [hw.tensorId]
    rcases hm with hm | rfl
    · exact h.wraps_le w hm
    · exact le_rfl

theorem wrap_nextAligned {n : ℕ} (hw : Wrapped n s s') : NextAligned s' := by
  intro _
  rw [hw.deviceOffset, hw.size]
  have := aligned_add 0 s.currentChunkSize
  rwa [roundUp_zero (by decide), Nat.zero_add] at this

theorem openFile_nextAligned (g : Geometry) (f o : ℕ) (s : Cursors) :
    NextAligned (openFile g f o s) := fun _ => aligned_add _ _

theorem Aligned.placeHere (h : Aligned s) (hn : NextAligned s) (hr : Ready g o s)
    (hlt : s.tensorId < s.tensors.length) (n : ℕ) :
    Aligned (placeHere g s.chunkFileIndex o n s) ∧ NextAligned (placeHere g s.chunkFileIndex o n s) := by
  have hf := fillTensor_filling hr n
  have hends := hr.ends
  have hal := h.congr hf.tensorId hf.wraps hf.bare_eq
  have hid := hf.tensorId
  set r := fillTensor g n s with hr'
  have ht : ∀ i, (Layout.placeHere g s.chunkFileIndex o n s).tensor i =
      if i = r.1.tensorId then ⟨n, s.chunkFileIndex, o,
        o - s.chunkFileOffset + s.chunkDeviceBufferOffset, r.1.chunks.length, 0⟩ else r.1.tensor i :=
    tensor_record (by rw [hf.tensorId, hf.length]; exact hlt) s.chunkFileIndex o n _ _
  have hw : (Layout.placeHere g s.chunkFileIndex o n s).wraps = r.1.wraps := rfl
  have hid' : (Layout.placeHere g s.chunkFileIndex o n s).tensorId = r.1.tensorId + 1 := rfl
  refine ⟨⟨fun i hi hs => ?_, fun w hm => (hal.wraps_le w hm).trans (Nat.le_succ _)⟩, ?_⟩
  · unfold StartsRun at hs
    rw [ht, ht, hw] at hs
    rw [ht]
    by_cases hi' : i = r.1.tensorId
    · -- the tensor just placed starts a run only if the cursors said so
      rw [if_pos hi'] at hs ⊢
      simp only
      rw [show o - s.chunkFileOffset = s.currentChunkSize by omega, Nat.add_comm]
      refine hn ?_
      rw [← hid, ← hi']
      rcases hs with h0 | hfi | hwr
      · exact Or.inl h0
      · by_cases h0 : i = 0
        · exact Or.inl h0
        · rw [if_neg (by omega)] at hfi
          rw [← bare_fileIndex (hf.bare_eq (i - 1))]
          exact Or.inr (Or.inl hfi)
      · rw [hf.wraps] at hwr
        exact Or.inr (Or.inr hwr)
    · rw [if_neg hi'] at hs ⊢
      rw [if_neg (by omega)] at hs
      exact hal.tensors i (by omega) hs
  · -- the next tensor is of the same file and no wrap has come
    intro hs
    rw [ht, hid', hw, Nat.add_sub_cancel, if_pos rfl] at hs
    rcases hs with h0 | hfi | ⟨w, hm, he⟩
    · omega
    · exact absurd hf.fileIndex.symm hfi
    · have := hal.wraps_le w hm
      omega

end Alignment

/-! ### The tensors of the offset list -/

/-- The file index, the offset and the size of every tensor of an offset list. -/
def tensorRanges : List (ℕ × ℕ) → List (ℕ × ℕ × ℕ)
  | a :: b :: rest =>
    if a.1 = b.1 then (a.1, a.2, b.2 - a.2) :: tensorRanges (b :: rest) else tensorRanges (b :: rest)
  | _ => []

/-- What the layout writes down of the range. -/
def range (t : TensorMetadate) : ℕ × ℕ × ℕ := (t.fileIndex, t.fileOffset, t.size)

theorem range_congr {t t' : TensorMetadate} (h : bare t = bare t') : range t = range t' :=
  bare_field h range fun _ => rfl

/-- The tensors placed so far are the first of the list, and the rest of the
list is still to come. -/
structure Listed (ranges rest : List (ℕ × ℕ × ℕ)) (s : Cursors) : Prop where
  placed : ∀ i < s.tensorId, ranges[i]? = some (range (s.tensor i))
  rest : ranges.drop s.tensorId = rest

section Ranges

variable {g : Geometry} {s s' : Cursors} {o : ℕ} {ranges rest : List (ℕ × ℕ × ℕ)}

theorem Listed.congr (h : Listed ranges rest s) (hid : s'.tensorId = s.tensorId)
    (hb : ∀ i, bare (s'.tensor i) = bare (s.tensor i)) : Listed ranges rest s' where
  placed := by
    intro i hi
    rw [range_congr (hb i)]
    exact h.placed i (hid ▸ hi)
  rest := by rw [hid]; exact h.rest

theorem Listed.placeHere {f n : ℕ} (h : Listed ranges ((f, o, n) :: rest) s) (hr : Ready g o s)
    (hlt : s.tensorId < s.tensors.length) : Listed ranges rest (placeHere g f o n s) := by
  have hf := fillTensor_filling hr n
  have hid := hf.tensorId
  have h' := h.congr hid hf.bare_eq
  set r := fillTensor g n s with hr'
  have ht : ∀ i, (Layout.placeHere g f o n s).tensor i =
      if i = r.1.tensorId then ⟨n, f, o, o - s.chunkFileOffset + s.chunkDeviceBufferOffset,
        r.1.chunks.length, 0⟩ else r.1.tensor i :=
    tensor_record (by rw [hf.tensorId, hf.length]; exact hlt) f o n _ _
  have hid' : (Layout.placeHere g f o n s).tensorId = r.1.tensorId + 1 := rfl
  constructor
  · intro i hi
    rw [ht]
    split_ifs with he
    · have := congrArg List.head? h'.rest
      rw [List.head?_drop, List.head?_cons] at this
      rw [he, this]
      rfl
    · exact h'.placed i (by omega)
  · rw [hid', ← List.tail_drop, h'.rest, List.tail_cons]

end Ranges

/-! ### The main loop -/

/-- The invariants of this module together. -/
structure Laid (g : Geometry) (ranges : List (ℕ × ℕ × ℕ)) (a : ℕ × ℕ) (l : List (ℕ × ℕ))
    (s : Cursors) : Prop extends Shaped g s, Aligned s where
  file : s.chunkFileIndex = a.1
  mapped : Mapped s
  next : NextAligned s
  listed : Listed ranges (tensorRanges (a :: l)) s

section Loop

variable {g : Geometry} {s : Cursors} {ranges : List (ℕ × ℕ × ℕ)} {a b : ℕ × ℕ} {l : List (ℕ × ℕ)}

/-- A tensor that does not fit: the open chunk is finished and the ring starts
again. -/
theorem Laid.wrap (h : Laid g ranges a l s) (hr : Ready g a.2 s) :
    Laid g ranges a l (wrapRing s.tensorId (pushChunk g s)) := by
  have hf := pushChunk_flushed hr
  have hw := wrapRing_wrapped hf.toInOrder s.tensorId
  have hb : ∀ i, bare ((wrapRing s.tensorId (pushChunk g s)).tensor i) = bare (s.tensor i) :=
    fun i => (hw.bare_eq i).trans (hf.bare_eq i)
  exact
    { toShaped := (h.toShaped.flush hr).wrap hw
      toAligned := (h.toAligned.congr hf.tensorId hf.wraps hf.bare_eq).wrap (hf.tensorId ▸ hw)
      file := hw.fileIndex.trans (hf.fileIndex.trans h.file)
      mapped := ((h.mapped.flush hr.toInOrder).congr hw.chunks hw.tensorId hw.bare_eq).mapped
      next := wrap_nextAligned hw
      listed := h.listed.congr (hw.tensorId.trans hf.tensorId) hb }

theorem Laid.makeRoom (h : Laid g ranges a l s) (hr : Ready g a.2 s) (n : ℕ) :
    Laid g ranges a l (makeRoom g n s) := by
  unfold Layout.makeRoom
  split_ifs
  · exact h.wrap hr
  · exact h

theorem Laid.placeHere (h : Laid g ranges a (b :: l) s) (hab : a.1 = b.1) (hr : Ready g a.2 s)
    (hlt : s.tensorId < s.tensors.length) :
    Laid g ranges b l (placeHere g a.1 a.2 (b.2 - a.2) s) := by
  have hal := h.toAligned.placeHere h.next hr hlt (b.2 - a.2)
  have hlist := h.listed
  rw [tensorRanges, if_pos hab] at hlist
  rw [h.file] at hal
  exact
    { toShaped := h.toShaped.placeHere hr a.1 (b.2 - a.2)
      toAligned := hal.1
      file := (fillTensor_filling hr (b.2 - a.2)).fileIndex.trans (h.file.trans hab)
      mapped := h.mapped.placeHere hr hlt h.file (b.2 - a.2)
      next := hal.2
      listed := hlist.placeHere hr hlt }

theorem Laid.openFile (h : Laid g ranges a (b :: l) s) (hab : a.1 < b.1) (hr : Ready g a.2 s) :
    Laid g ranges b l (openFile g b.1 b.2 (pushChunk g s)) := by
  have hf := pushChunk_flushed hr
  have hlist := h.listed
  rw [tensorRanges, if_neg hab.ne] at hlist
  have hfile : (pushChunk g s).chunkFileIndex < b.1 := by
    rw [hf.fileIndex, h.file]
    exact hab
  have hmap : AllWritten (Layout.openFile g b.1 b.2 (pushChunk g s)) :=
    (h.mapped.flush hr.toInOrder).congr rfl rfl fun _ => rfl
  exact
    { toShaped := (h.toShaped.flush hr).openFile hfile b.2
      toAligned := h.toAligned.congr hf.tensorId hf.wraps hf.bare_eq
      file := rfl
      mapped := hmap.mapped
      next := openFile_nextAligned g b.1 b.2 _
      listed := hlist.congr hf.tensorId hf.bare_eq }

theorem Laid.step (hs : LoopState g a (b :: l) s) (h : Laid g ranges a (b :: l) s) :
    Laid g ranges b l (step g a b s) := by
  unfold Layout.step
  split_ifs with hab
  · refine h.openFile ?_ hs.toReady
    rcases (List.isChain_cons_cons.mp hs.chain).1 with ⟨he, -⟩ | he
    · exact absurd he.symm hab
    · omega
  · obtain ⟨-, -, hlt⟩ := hs.tensor (not_not.mp hab)
    obtain ⟨e1, e2⟩ := makeRoom_tensorId hs.toReady (b.2 - a.2)
    exact (h.makeRoom hs.toReady _).placeHere (not_not.mp hab) (makeRoom_ready hs.toReady _)
      (by rwa [e1, e2])

end Loop

theorem start_laid (g : Geometry) (o : ℕ) (l : List (ℕ × ℕ)) :
    Laid g (tensorRanges ((0, o) :: l)) (0, o) l (start g ((0, o) :: l) o) where
  shape := fun c hc => absurd hc List.not_mem_nil
  advance := fun k c c' h1 => by simp [start, openFile, initialCursors] at h1
  link := fun k c h1 => by simp [start, openFile, initialCursors] at h1
  tensors := fun i hi => absurd hi (Nat.not_lt_zero i)
  wraps_le := fun w hw => absurd hw List.not_mem_nil
  file := rfl
  mapped := fun i hi => absurd hi (Nat.not_lt_zero i)
  next := openFile_nextAligned g 0 o _
  listed := ⟨fun i hi => absurd hi (Nat.not_lt_zero i), rfl⟩

/-- What the chunks and tensors of a layout do for the bytes of the files. -/
structure PayloadLayout (g : Geometry) (offs : List (ℕ × ℕ)) (l : Cursors) : Prop where
  /-- The tensors are those of the offset list. -/
  ranges : l.tensors.map range = tensorRanges offs
  /-- Every byte of a tensor is written at its place, up to the tensor's last chunk. -/
  bytes : ∀ t ∈ l.tensors, ∀ k < t.size, ∃ (m : ℕ) (c : Chunk), l.chunks[m]? = some c ∧
    (m : ℤ) ≤ t.lastChunkId ∧ c.fileIndex = t.fileIndex ∧
    c.fileOffset ≤ t.fileOffset + k ∧ t.fileOffset + k < c.fileOffset + c.size ∧
    c.deviceBufferOffset + (t.fileOffset + k - c.fileOffset) = t.deviceBufferOffset + k
  /-- Chunks are not empty, at most a world chunk long and start on a page. -/
  shape : ∀ c ∈ l.chunks, 0 < c.size ∧ c.size ≤ g.worldChunkSize ∧ g.rankAlignment ∣ c.fileOffset
  /-- Consecutive chunks of a file in a lap advance by the same amount. -/
  advance : Advances l.wraps l.chunks
  /-- The first tensor of a file and of a lap is aligned. -/
  aligned : ∀ i < l.tensors.length, StartsRun l i →
    firstTensorAlignment ∣ (l.tensor i).deviceBufferOffset

/-- What follows the main loop. -/
theorem Laid.close {g : Geometry} {offs : List (ℕ × ℕ)} {z : ℕ × ℕ} {s : Cursors}
    (hs : LoopState g z [] s) (h : Laid g (tensorRanges offs) z [] s) :
    PayloadLayout g offs (close g s) := by
  have hf := pushChunk_flushed hs.toReady
  have hc := close_closed hs
  obtain ⟨s1, w1, w2, ho1⟩ := hc.wrapped
  have hid : (Layout.close g s).tensorId = s.tensorId := (w2.tensorId.trans w1.tensorId).trans hf.tensorId
  have hlen := hc.length
  have hal : Aligned (Layout.close g s) := by
    have h1 : Aligned s1 :=
      (h.toAligned.congr hf.tensorId hf.wraps hf.bare_eq).wrap (hf.tensorId ▸ w1)
    exact h1.wrap (by rw [w1.tensorId, hf.tensorId]; exact w2)
  have hsh : Shaped g (Layout.close g s) :=
    (((h.toShaped.flush hs.toReady).wrap w1).toFinished).wrap w2
  have hmap : AllWritten (Layout.close g s) :=
    (h.mapped.flush hs.toInOrder).congr hc.chunks (hid.trans hf.tensorId.symm)
      fun i => (hc.bare_eq i).trans (hf.bare_eq i).symm
  have hlist : Listed (tensorRanges offs) [] (Layout.close g s) := h.listed.congr hid hc.bare_eq
  refine
    { ranges := ?_
      bytes := fun t ht k hk => ?_
      shape := fun c hc => ?_
      advance := hsh.advance
      aligned := fun i hi => hal.tensors i (by omega) }
  · refine List.ext_getElem? fun i => ?_
    rw [List.getElem?_map]
    rcases Nat.lt_or_ge i s.tensorId with hlt | hge
    · have ht : (Layout.close g s).tensors[i]? = some ((Layout.close g s).tensor i) := by
        simp [Cursors.tensor, List.getD_eq_getElem?_getD, hlen, hlt]
      rw [ht, hlist.placed i (by omega)]
      rfl
    · rw [List.getElem?_eq_none (by omega),
        List.getElem?_eq_none ((List.drop_eq_nil_iff.mp hlist.rest).trans (by omega))]
      rfl
  · obtain ⟨i, hi⟩ := List.getElem?_of_mem ht
    obtain ⟨hlt, rfl⟩ := tensor_of_getElem? hi
    exact hmap i (by omega) k hk
  · obtain ⟨h1, h2, h3, -⟩ := hsh.shape c hc
    exact ⟨h1, h2, h3⟩

/-- **Every byte of every tensor arrives.** On a valid offset list
`compute_layout` throws nothing, and its layout puts every byte of every
tensor where the tensor's device offset says. -/
theorem computeLayout_payload (g : Geometry) (offs : List (ℕ × ℕ)) (h : ValidOffsets g offs) :
    ∃ l, computeLayout g offs = .ok l ∧ PayloadLayout g offs l := by
  obtain ⟨s, z, hl, hs, hq⟩ := computeLayout_induct h (Q := Laid g (tensorRanges offs))
    (fun o l ho => by rw [ho]; exact start_laid g o l) (fun _ _ _ _ hs hq => hq.step hs)
  exact ⟨_, hl, hq.close hs⟩

/-- In the documentation's example tensor 7 starts the second lap, at device
offset 16. -/
theorem computeLayout_payload_nineTensors :
    ValidOffsets pageRing nineTensors ∧ ∃ l, computeLayout pageRing nineTensors = .ok l ∧
      PayloadLayout pageRing nineTensors l :=
  ⟨nineTensors_valid, computeLayout_payload pageRing nineTensors nineTensors_valid⟩

end Layout
end Siphon
