/-
# Which chunk writes a byte last

The device buffer is a ring, so that a chunk writes a byte at its place
(`Layout.Payload`) does not say that the byte stays there. Here it does up to
the tensor's last chunk: of the chunks up to it, the one that carries the byte
is the last one to write to the byte's place, padding included (`Holds`). The
chunks of a tensor are finished one behind the other, without a new lap in
between, so a chunk that is finished later starts behind the byte (`Held`).
-/
import Siphon.Layout.Payload
import Siphon.Layout.Watermark

namespace Siphon
namespace Layout

open Rounding

/-- Of the chunks with ids up to `m`, the last one that writes at device
offset `y` writes byte `x` of file `f` there. -/
def Holds (g : Geometry) (chunks : List Chunk) (m : ℤ) (f x y : ℕ) : Prop :=
  ∃ (k : ℕ) (c : Chunk), chunks[k]? = some c ∧ (k : ℤ) ≤ m ∧ Carries c f x y ∧
    ∀ (k' : ℕ) (c' : Chunk), chunks[k']? = some c' → k < k' → (k' : ℤ) ≤ m → y ∉ paddedSpan g c'

section Holds

variable {g : Geometry} {cs : List Chunk} {c : Chunk} {m : ℤ} {f x y : ℕ}

theorem Holds.last (h : Carries c f x y) : Holds g (cs ++ [c]) cs.length f x y :=
  ⟨cs.length, c, by simp, le_rfl, h, fun _ _ _ h1 h2 => absurd h2 (by omega)⟩

/-- A chunk that is not counted, or does not reach the byte's place. -/
theorem Holds.append (h : Holds g cs m f x y) (hc : (cs.length : ℤ) ≤ m → y ∉ paddedSpan g c) :
    Holds g (cs ++ [c]) m f x y := by
  obtain ⟨k, d, hd, hk, hcar, hlater⟩ := h
  refine ⟨k, d, ?_, hk, hcar, fun k' c' hc' h1 h2 => ?_⟩
  · rw [List.getElem?_append_left (List.getElem?_eq_some_iff.mp hd).1]
    exact hd
  rcases lt_trichotomy k' cs.length with hlt | rfl | hgt
  · rw [List.getElem?_append_left hlt] at hc'
    exact hlater k' c' hc' h1 h2
  · simp only [List.getElem?_concat_length, Option.some.injEq] at hc'
    exact hc' ▸ hc h2
  · rw [List.getElem?_eq_none (by simp; omega)] at hc'
    cases hc'

/-- Ids behind the last chunk do not matter. -/
theorem Holds.raise {m' : ℤ} (h : Holds g cs m f x y) (hlen : (cs.length : ℤ) ≤ m + 1) (hm : m ≤ m') :
    Holds g cs m' f x y := by
  obtain ⟨k, d, hd, hk, hcar, hlater⟩ := h
  refine ⟨k, d, hd, hk.trans hm, hcar, fun k' c' hc' h1 _ => hlater k' c' hc' h1 ?_⟩
  have := (List.getElem?_eq_some_iff.mp hc').1
  omega

end Holds

/-- Byte `k` of the tensor is held by a chunk up to the tensor's last one. -/
def ByteHeld (g : Geometry) (chunks : List Chunk) (t : TensorMetadate) (k : ℕ) : Prop :=
  Holds g chunks t.lastChunkId t.fileIndex (t.fileOffset + k) (t.deviceBufferOffset + k)

theorem ByteHeld.congr {g : Geometry} {cs : List Chunk} {t t' : TensorMetadate} {k : ℕ}
    (h : ByteHeld g cs t k) (e : bare t' = bare t) : ByteHeld g cs t' k := by
  unfold ByteHeld at *
  rwa [bare_last e, bare_fileIndex e, bare_fileOffset e, bare_deviceOffset e]

/-- The tensor's last chunk is finished and its byte `k` is held, or the last
chunk is open, with bytes, and carries the byte or starts behind it. -/
def Held (g : Geometry) (s : Cursors) (t : TensorMetadate) (k : ℕ) : Prop :=
  (t.lastChunkId < s.chunks.length ∧ ByteHeld g s.chunks t k) ∨
    (t.lastChunkId = s.chunks.length ∧ 0 < s.currentChunkSize ∧
      (ByteHeld g s.chunks t k ∧ t.deviceBufferOffset + k < s.chunkDeviceBufferOffset ∨
        Carries (openChunk s) t.fileIndex (t.fileOffset + k) (t.deviceBufferOffset + k)))

/-- Every byte of every tensor. -/
def Holding (g : Geometry) (s : Cursors) : Prop :=
  ∀ i < s.tensorId, ∀ k < (s.tensor i).size, Held g s (s.tensor i) k

/-- Every byte of every tensor, with all last chunks finished. -/
def AllHeld (g : Geometry) (s : Cursors) : Prop :=
  ∀ i < s.tensorId, ∀ k < (s.tensor i).size,
    (s.tensor i).lastChunkId < s.chunks.length ∧ ByteHeld g s.chunks (s.tensor i) k

theorem AllHeld.holding {g : Geometry} {s : Cursors} (h : AllHeld g s) : Holding g s :=
  fun i hi k hk => Or.inl (h i hi k hk)

theorem AllHeld.congr {g : Geometry} {s s' : Cursors} (h : AllHeld g s) (hc : s'.chunks = s.chunks)
    (hid : s'.tensorId = s.tensorId) (hb : ∀ i, bare (s'.tensor i) = bare (s.tensor i)) :
    AllHeld g s' := by
  intro i hi k hk
  rw [hid] at hi
  rw [bare_size (hb i)] at hk
  obtain ⟨h1, h2⟩ := h i hi k hk
  rw [hc, bare_last (hb i)]
  exact ⟨h1, h2.congr (hb i)⟩

section Steps

variable {g : Geometry} {s s' : Cursors} {o : ℕ}

/-- The open chunk writes nothing in front of the device cursor. -/
theorem notMem_openChunk {y : ℕ} (h : y < s.chunkDeviceBufferOffset) : y ∉ paddedSpan g (openChunk s) :=
  fun hy => absurd hy.1 (not_le.mpr h)

theorem Holding.push (h : Holding g s) (hp : Pushed g s s') : AllHeld g s' := by
  intro i hi k hk
  rw [hp.tensorId] at hi
  have hb := hp.bare_eq i
  rw [bare_size hb] at hk
  rw [bare_last hb, hp.chunks, List.length_append, List.length_singleton]
  have hbyte : ByteHeld g (s.chunks ++ [openChunk s]) (s.tensor i) k := by
    rcases h i hi k hk with ⟨hlast, hw⟩ | ⟨hlast, -, ⟨hw, hlt⟩ | hc⟩
    · exact hw.append fun hle => absurd hlast (by omega)
    · exact hw.append fun _ => notMem_openChunk hlt
    · unfold ByteHeld
      rw [hlast]
      exact Holds.last hc
  refine ⟨?_, hbyte.congr hb⟩
  rcases h i hi k hk with ⟨hlast, -⟩ | ⟨hlast, -⟩ <;> omega

theorem Holding.flush (h : Holding g s) (ho : InOrder s) : AllHeld g (pushChunk g s) := by
  rcases Nat.eq_zero_or_pos s.currentChunkSize with h0 | hpos
  · rw [pushChunk_empty g h0]
    intro i hi k hk
    rcases h i hi k hk with hw | ⟨-, hpos, -⟩
    · exact hw
    · omega
  · exact h.push (pushChunk_pushed g ho hpos)

theorem Held.full {t : TensorMetadate} {k : ℕ} (h : Held g s t k) (hle : s.currentChunkSize ≤ g.worldChunkSize) :
    Held g (full g s) t k := by
  rcases h with hw | ⟨hlast, -, hw | hc⟩
  · exact Or.inl hw
  · exact Or.inr ⟨hlast, g.worldChunkSize_pos, Or.inl hw⟩
  · exact Or.inr ⟨hlast, g.worldChunkSize_pos, Or.inr (hc.grow hle)⟩

/-- The bytes of the tensor that is being placed at offset `o` of file `f` and
at device offset `d`, up to the end of the open chunk. -/
def PlacingHeld (g : Geometry) (f o d : ℕ) (s : Cursors) : Prop :=
  ∀ x, o ≤ x → x < s.chunkFileOffset + s.currentChunkSize →
    (Holds g s.chunks s.chunks.length f x (d + (x - o)) ∧ d + (x - o) < s.chunkDeviceBufferOffset) ∨
      Carries (openChunk s) f x (d + (x - o))

theorem PlacingHeld.extend {f d n : ℕ} (h : PlacingHeld g f o d s) (hf : s.chunkFileIndex = f)
    (hd : s.chunkDeviceBufferOffset + o = d + s.chunkFileOffset) :
    PlacingHeld g f o d { s with currentChunkSize := s.currentChunkSize + n } := by
  intro x h1 h2
  by_cases hx : x < s.chunkFileOffset + s.currentChunkSize
  · exact (h x h1 hx).imp_right fun hc => hc.grow (Nat.le_add_right _ _)
  · refine Or.inr ⟨hf, ?_, ?_, ?_⟩ <;> simp only [openChunk] at * <;> omega

/-- A finished chunk ends in front of the device cursor. -/
theorem Carries.lt_deviceOffset {f x y : ℕ} (hp : Pushed g s s') (h : Carries (openChunk s) f x y) :
    y < s'.chunkDeviceBufferOffset := by
  obtain ⟨-, h1, h2, h3⟩ := h
  have hr := le_roundUp g.worldChunkAlignment_pos s.currentChunkSize
  rw [hp.deviceOffset]
  simp only [openChunk] at h1 h2 h3
  omega

theorem PlacingHeld.push {f d : ℕ} (h : PlacingHeld g f o d s) (hp : Pushed g s s')
    (hend : s'.chunkFileOffset + s'.currentChunkSize = s.chunkFileOffset + s.currentChunkSize) :
    PlacingHeld g f o d s' := by
  intro x h1 h2
  left
  have hlen : (s'.chunks.length : ℤ) = s.chunks.length + 1 := by rw [hp.chunks]; simp
  have hle : s.chunkDeviceBufferOffset ≤ s'.chunkDeviceBufferOffset := by
    rw [hp.deviceOffset]
    exact Nat.le_add_right _ _
  rcases h x h1 (hend ▸ h2) with ⟨hw, hlt⟩ | hc
  · refine ⟨?_, hlt.trans_le hle⟩
    have hw' := hw.append (c := openChunk s) fun _ => notMem_openChunk hlt
    rw [← hp.chunks] at hw'
    exact hw'.raise (by omega) (by omega)
  · refine ⟨?_, hc.lt_deviceOffset hp⟩
    have hw' : Holds g (s.chunks ++ [openChunk s]) s.chunks.length f x (d + (x - o)) := Holds.last hc
    rw [← hp.chunks] at hw'
    exact hw'.raise (by omega) (by omega)

/-- The split loop, which leaves bytes of a tensor that has some. -/
theorem placingHeld_fillTensor (h : Holding g s) (hr : Ready g o s) (n : ℕ) :
    Holding g (fillTensor g n s).1 ∧ PlacingHeld g s.chunkFileIndex o
      (s.chunkDeviceBufferOffset + s.currentChunkSize) (fillTensor g n s).1 ∧
        (0 < n → 0 < (fillTensor g n s).2) := by
  have hends := hr.ends
  have hQ := fill_induct (g := g) (Q := fun s' left => Filling g o n s s' left ∧ Holding g s' ∧
      PlacingHeld g s.chunkFileIndex o (s.chunkDeviceBufferOffset + s.currentChunkSize) s' ∧
        (0 < n → 0 < left))
    (fun s' left ⟨hf, hm, hp, _⟩ hlt => by
      have ho := hf.toInOrder
      have h1 := hf.fileEnd
      have h2 := hf.deviceEnd
      have hle := hf.le
      have hfull : Layout.full g s' = { s' with currentChunkSize :=
          s'.currentChunkSize + (g.worldChunkSize - s'.currentChunkSize) } := by
        rw [Layout.full, Nat.add_sub_of_le hle]
      have hheld : Holding g (Layout.full g s') := fun i hi k hk => (hm i hi k hk).full hle
      refine ⟨hf.full hlt, (hheld.push (full_pushed ho)).holding, ?_, fun _ => by omega⟩
      refine PlacingHeld.push (s := Layout.full g s') ?_ (full_pushed ho) ?_
      · rw [hfull]
        exact hp.extend hf.fileIndex (by omega)
      · rw [full_fileOffset ho, full_size ho]
        rfl)
    (s.currentChunkSize + n + 1) s n
    ⟨.refl hr, h, fun x h1 h2 => absurd h2 (by omega), id⟩
  exact hQ.2

theorem Holding.placeHere (h : Holding g s) (hr : Ready g o s) (hlt : s.tensorId < s.tensors.length)
    {f : ℕ} (hfile : s.chunkFileIndex = f) (n : ℕ) : Holding g (placeHere g f o n s) := by
  have hf := fillTensor_filling hr n
  obtain ⟨hm, hp, hleft⟩ := placingHeld_fillTensor h hr n
  have hends := hr.ends
  have h1 := hf.fileEnd
  have h2 := hf.deviceEnd
  set r := fillTensor g n s with hr'
  have hext := hp.extend (n := r.2) hf.fileIndex (by omega)
  have ht : ∀ i, (Layout.placeHere g f o n s).tensor i =
      if i = r.1.tensorId then ⟨n, f, o, o - s.chunkFileOffset + s.chunkDeviceBufferOffset,
        r.1.chunks.length, 0⟩ else r.1.tensor i :=
    tensor_record (by rw [hf.tensorId, hf.length]; exact hlt) f o n _ _
  have hsize : (Layout.placeHere g f o n s).currentChunkSize = r.1.currentChunkSize + r.2 := rfl
  intro i hi k hk
  change i < r.1.tensorId + 1 at hi
  rw [ht] at hk ⊢
  split_ifs at hk ⊢ with hid
  · -- the tensor just placed
    have hb := hext (o + k) (by omega) (by simp only at hk ⊢; omega)
    rw [Nat.add_sub_cancel_left, Nat.add_comm s.chunkDeviceBufferOffset,
      show s.currentChunkSize = o - s.chunkFileOffset by omega, hfile] at hb
    have hpos := hleft (Nat.zero_lt_of_lt hk)
    exact Or.inr ⟨rfl, by omega, hb⟩
  · rcases hm i (by omega) k hk with hw | ⟨hlast, hpos, hw | hc⟩
    · exact Or.inl hw
    · exact Or.inr ⟨hlast, by omega, Or.inl hw⟩
    · exact Or.inr ⟨hlast, by omega, Or.inr (hc.grow (Nat.le_add_right _ _))⟩

theorem Holding.makeRoom (h : Holding g s) (hr : Ready g o s) (n : ℕ) : Holding g (makeRoom g n s) := by
  unfold Layout.makeRoom
  split_ifs
  · have hw := wrapRing_wrapped (pushChunk_flushed hr).toInOrder s.tensorId
    exact ((h.flush hr.toInOrder).congr hw.chunks hw.tensorId hw.bare_eq).holding
  · exact h

end Steps

/-! ### The main loop -/

theorem makeRoom_fileIndex {g : Geometry} {o : ℕ} {s : Cursors} (hr : Ready g o s) (n : ℕ) :
    (makeRoom g n s).chunkFileIndex = s.chunkFileIndex := by
  unfold makeRoom
  split_ifs
  · have hf := pushChunk_flushed hr
    exact (wrapRing_wrapped hf.toInOrder s.tensorId).fileIndex.trans hf.fileIndex
  · rfl

theorem Holding.step {g : Geometry} {s : Cursors} {a b : ℕ × ℕ} {l : List (ℕ × ℕ)}
    (hs : LoopState g a (b :: l) s) (h : Holding g s ∧ s.chunkFileIndex = a.1) :
    Holding g (step g a b s) ∧ (step g a b s).chunkFileIndex = b.1 := by
  obtain ⟨h, hfile⟩ := h
  have hr := hs.toReady
  unfold Layout.step
  split_ifs with hab
  · have hall : AllHeld g (Layout.openFile g b.1 b.2 (pushChunk g s)) :=
      (h.flush hr.toInOrder).congr rfl rfl fun _ => rfl
    exact ⟨hall.holding, rfl⟩
  · obtain ⟨-, -, hlt⟩ := hs.tensor (not_not.mp hab)
    obtain ⟨e1, e2⟩ := makeRoom_tensorId hr (b.2 - a.2)
    have hroom := makeRoom_ready hr (b.2 - a.2)
    have hindex := (makeRoom_fileIndex hr (b.2 - a.2)).trans hfile
    exact ⟨(h.makeRoom hr _).placeHere hroom (by rwa [e1, e2]) hindex _,
      (fillTensor_filling hroom _).fileIndex.trans (hindex.trans (not_not.mp hab))⟩

/-- A layout, with what its chunks leave in the device buffer. -/
structure HeldLayout (g : Geometry) (offs : List (ℕ × ℕ)) (l : Cursors) : Prop where
  payload : PayloadLayout g offs l
  /-- Of the chunks up to a tensor's last one, the last to write to the place of a byte writes that byte. -/
  held : ∀ t ∈ l.tensors, ∀ k < t.size, ByteHeld g l.chunks t k
  /-- The chunks after a tensor's last one, up to the watermark of an earlier tensor, do not touch it. -/
  kept : ∀ (i j : ℕ) (t u : TensorMetadate), l.tensors[i]? = some t → l.tensors[j]? = some u → i ≤ j →
    Untouched g l.chunks u (t.prefetchChunkId + 1)

/-- The watermarks of a finished layout. -/
theorem Watermark.kept {g : Geometry} {s : Cursors} (h : Watermark g s)
    (hin : s.inBufferTensorId = s.tensors.length) {i j : ℕ} {t u : TensorMetadate}
    (ht : s.tensors[i]? = some t) (hu : s.tensors[j]? = some u) (hij : i ≤ j) :
    Untouched g s.chunks u (t.prefetchChunkId + 1) := by
  obtain ⟨hi, rfl⟩ := tensor_of_getElem? ht
  obtain ⟨hj, rfl⟩ := tensor_of_getElem? hu
  have hmono := h.mono i j hij (by omega)
  exact fun k c hc h1 h2 => (h.past j (by omega)).2 k c hc h1 (by omega)

/-- **A tensor's bytes stay.** `compute_layout` returns, and its layout keeps
what its chunks write. -/
theorem computeLayout_held (g : Geometry) (offs : List (ℕ × ℕ)) (h : ValidOffsets g offs) :
    ∃ l, computeLayout g offs = .ok l ∧ HeldLayout g offs l := by
  obtain ⟨s, z, hl, hs, hlaid, hmark, hq, -⟩ := computeLayout_induct h
    (Q := fun a l s => Laid g (tensorRanges offs) a l s ∧ Watermark g s ∧ Holding g s ∧ s.chunkFileIndex = a.1)
    (fun o l ho => ⟨by rw [ho]; exact start_laid g o l, start_watermark g offs o,
      fun i hi => absurd hi (Nat.not_lt_zero i), rfl⟩)
    (fun _ _ _ _ hs ⟨h1, h2, h3⟩ => ⟨h1.step hs, h2.step hs, Holding.step hs h3⟩)
  have hf := pushChunk_flushed hs.toReady
  have hc := close_closed hs
  have hall := hq.flush hs.toInOrder
  have hlen := hc.length
  refine ⟨_, hl, hlaid.close hs, fun t ht k hk => ?_, fun i j t u ht hu hij =>
    (hmark.close hs).kept hc.inBuffer ht hu hij⟩
  obtain ⟨i, hi⟩ := List.getElem?_of_mem ht
  obtain ⟨hlt, rfl⟩ := tensor_of_getElem? hi
  have hb := (hc.bare_eq i).trans (hf.bare_eq i).symm
  rw [bare_size hb] at hk
  rw [hc.chunks]
  exact (hall i (by rw [hf.tensorId]; omega) k hk).2.congr hb

end Layout
end Siphon
