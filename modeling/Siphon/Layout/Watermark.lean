/-
# Prefetching up to the watermark overwrites no tensor

Every lap of the ring is laid out from left to right: a chunk's padded span
starts where the spans before it end, and the tensors of the lap lie in the
same order. A tensor of the previous lap keeps no watermark while it starts
behind the device cursor; the first chunk that reaches past its start gives
it the id of the chunk before. So a chunk after the tensor's last one and up
to its watermark lies behind the tensor in the tensor's own lap, or ends in
front of it in the next lap.
-/
import Mathlib.Order.CompletePartialOrder
import Mathlib.Order.Interval.Set.Disjoint
import Siphon.Layout.Steps

namespace Siphon
namespace Layout

open Rounding

/-- The device bytes that posting a chunk may write: its size rounded up to
the world alignment. -/
def paddedSpan (g : Geometry) (c : Chunk) : Set ℕ :=
  Set.Ico c.deviceBufferOffset (c.deviceBufferOffset + roundUp c.size g.worldChunkAlignment)

/-- The padded device spans of the two chunks share a byte. -/
def overlap (g : Geometry) (c d : Chunk) : Prop :=
  c.deviceBufferOffset < d.deviceBufferOffset + roundUp d.size g.worldChunkAlignment ∧
    d.deviceBufferOffset < c.deviceBufferOffset + roundUp c.size g.worldChunkAlignment

instance (g : Geometry) (c d : Chunk) : Decidable (overlap g c d) := by unfold overlap; infer_instance

/-- The device bytes of a tensor. -/
def payload (t : TensorMetadate) : Set ℕ :=
  Set.Ico t.deviceBufferOffset (t.deviceBufferOffset + t.size)

theorem disjoint_of_before {g : Geometry} {c : Chunk} {t : TensorMetadate}
    (h : c.deviceBufferOffset + roundUp c.size g.worldChunkAlignment ≤ t.deviceBufferOffset) :
    Disjoint (paddedSpan g c) (payload t) :=
  Set.disjoint_left.mpr fun _ hx hy => absurd (hx.2.trans_le h) (not_lt.mpr hy.1)

theorem disjoint_of_behind {g : Geometry} {c : Chunk} {t : TensorMetadate}
    (h : t.deviceBufferOffset + t.size ≤ c.deviceBufferOffset) :
    Disjoint (paddedSpan g c) (payload t) :=
  Set.disjoint_left.mpr fun _ hx hy => absurd (hy.2.trans_le h) (not_lt.mpr hx.1)

theorem payload_congr {t t' : TensorMetadate} (h : bare t = bare t') : payload t = payload t' := by
  simp only [payload, bare_size h, bare_deviceOffset h]

/-- The chunks with ids in `(last_chunk_id, limit)` do not touch the tensor. -/
def Untouched (g : Geometry) (chunks : List Chunk) (t : TensorMetadate) (limit : ℤ) : Prop :=
  ∀ (k : ℕ) (c : Chunk), chunks[k]? = some c → t.lastChunkId < k → k < limit →
    Disjoint (paddedSpan g c) (payload t)

/-- The invariant of the three tensor cursors. -/
structure Watermark (g : Geometry) (s : Cursors) : Prop where
  past : ∀ i < s.inBufferTensorId, (s.tensor i).prefetchChunkId < s.chunks.length ∧
    Untouched g s.chunks (s.tensor i) ((s.tensor i).prefetchChunkId + 1)
  mono : ∀ i j, i ≤ j → j < s.inBufferTensorId →
    (s.tensor i).prefetchChunkId ≤ (s.tensor j).prefetchChunkId
  live : ∀ i, s.inBufferTensorId ≤ i → i < s.tensorId →
    Untouched g s.chunks (s.tensor i) s.chunks.length
  prevLap : ∀ i j, s.inBufferTensorId ≤ i → i ≤ j → j < s.leftMostTensorId →
    (s.tensor i).deviceBufferOffset ≤ (s.tensor j).deviceBufferOffset
  thisLap : ∀ i j, s.leftMostTensorId ≤ i → i ≤ j → j < s.tensorId →
    (s.tensor i).deviceBufferOffset ≤ (s.tensor j).deviceBufferOffset
  ends : ∀ i, s.leftMostTensorId ≤ i → i < s.tensorId →
    (s.tensor i).deviceBufferOffset + (s.tensor i).size ≤
      s.chunkDeviceBufferOffset + s.currentChunkSize
  closed : ∀ i, s.leftMostTensorId ≤ i → i < s.tensorId → (s.tensor i).lastChunkId < s.chunks.length →
    (s.tensor i).deviceBufferOffset + (s.tensor i).size ≤ s.chunkDeviceBufferOffset

theorem Untouched.congr {g : Geometry} {cs : List Chunk} {t t' : TensorMetadate} {m : ℤ}
    (h : Untouched g cs t m) (e : bare t' = bare t) : Untouched g cs t' m := by
  intro k c hc h1 h2
  rw [payload_congr e]
  exact h k c hc (bare_last e ▸ h1) h2

/-- A new chunk has the id `chunks.length`, so it matters only to a limit
above it. -/
theorem Untouched.push {g : Geometry} {cs : List Chunk} {t : TensorMetadate} {m : ℤ} {new : Chunk}
    (h : Untouched g cs t m)
    (hnew : cs.length < m → t.lastChunkId < cs.length → Disjoint (paddedSpan g new) (payload t)) :
    Untouched g (cs ++ [new]) t m := by
  intro k c hc h1 h2
  rcases lt_trichotomy k cs.length with hlt | heq | hgt
  · exact h k c (by rwa [List.getElem?_append_left hlt] at hc) h1 h2
  · subst heq
    simp only [List.getElem?_concat_length, Option.some.injEq] at hc
    exact hc ▸ hnew h2 h1
  · rw [List.getElem?_eq_none (by simp; omega)] at hc
    cases hc

/-- There are no chunks beyond the vector. -/
theorem Untouched.all {g : Geometry} {cs : List Chunk} {t : TensorMetadate}
    (h : Untouched g cs t cs.length) (m : ℤ) : Untouched g cs t m :=
  fun k c hc h1 _ => h k c hc h1 (by have := (List.getElem?_eq_some_iff.mp hc).1; omega)

section Steps

variable {g : Geometry} {s s' : Cursors}

/-- `finish_chunk` leaves the tensors of the lap in front of the device cursor. -/
theorem Watermark.settled (h : Watermark g s) (hp : Pushed g s s') :
    ∀ i, s.leftMostTensorId ≤ i → i < s.tensorId →
      (s'.tensor i).deviceBufferOffset + (s'.tensor i).size ≤ s'.chunkDeviceBufferOffset := by
  intro i h1 h2
  have he := h.ends i h1 h2
  have hr := le_roundUp g.worldChunkAlignment_pos s.currentChunkSize
  rw [bare_deviceOffset (hp.bare_eq i), bare_size (hp.bare_eq i), hp.deviceOffset]
  omega

theorem Watermark.push (h : Watermark g s) (ho : InOrder s) (hp : Pushed g s s') :
    Watermark g s' := by
  have hlen : s'.chunks.length = s.chunks.length + 1 := by rw [hp.chunks]; simp
  have hlm := hp.leftMost
  have hid := hp.tensorId
  have hdev : ∀ i, (s'.tensor i).deviceBufferOffset = (s.tensor i).deviceBufferOffset :=
    fun i => bare_deviceOffset (hp.bare_eq i)
  -- the new chunk lies behind the tensors of this lap and in front of those left of the last
  have hnew : ∀ i, s'.inBufferTensorId ≤ i → i < s.tensorId → (s.tensor i).lastChunkId < s.chunks.length →
      Disjoint (paddedSpan g (openChunk s)) (payload (s.tensor i)) := by
    intro i h1 h2 hlast
    by_cases hi : i < s.leftMostTensorId
    · refine disjoint_of_before ?_
      have hs := hp.stop (h1.trans_lt hi)
      rw [hp.deviceOffset] at hs
      exact hs.trans (h.prevLap _ i hp.inBuffer_ge h1 hi)
    · exact disjoint_of_behind (h.closed i (not_lt.mp hi) h2 hlast)
  refine
    { past := fun i hi => ?_
      mono := fun i j hij hj => ?_
      live := fun i h1 h2 => ?_
      prevLap := fun i j h1 h2 h3 => ?_
      thisLap := fun i j h1 h2 h3 => ?_
      ends := fun i h1 h2 => ?_
      closed := fun i h1 h2 _ => h.settled hp i (by omega) (by omega) }
  · rw [hp.chunks]
    by_cases hold : i < s.inBufferTensorId
    · obtain ⟨h1, h2⟩ := h.past i hold
      rw [hp.kept i (Or.inl hold)]
      exact ⟨by rw [List.length_append, List.length_singleton]; omega, h2.push fun hc => by omega⟩
    · obtain ⟨hpf, -⟩ := hp.assigned i (not_lt.mp hold) hi
      have hl := h.live i (not_lt.mp hold) (by have := hp.inBuffer_le; have := ho.leftMost_le; omega)
      rw [hpf, Int.sub_add_cancel]
      exact ⟨by rw [List.length_append, List.length_singleton]; omega,
        (hl.congr (hp.bare_eq i)).push fun hc => by omega⟩
  · by_cases hold : j < s.inBufferTensorId
    · rw [hp.kept i (Or.inl (hij.trans_lt hold)), hp.kept j (Or.inl hold)]
      exact h.mono i j hij hold
    · rw [(hp.assigned j (not_lt.mp hold) hj).1]
      by_cases hi : i < s.inBufferTensorId
      · rw [hp.kept i (Or.inl hi)]
        have := (h.past i hi).1
        omega
      · rw [(hp.assigned i (not_lt.mp hi) (hij.trans_lt hj)).1]
  · rw [hp.chunks]
    have hl := h.live i (hp.inBuffer_ge.trans h1) (by omega)
    rw [hp.kept i (Or.inr h1)]
    exact (hl.all _).push fun _ => hnew i h1 (by omega)
  · rw [hdev, hdev]
    exact h.prevLap i j (hp.inBuffer_ge.trans h1) h2 (by omega)
  · rw [hdev, hdev]
    exact h.thisLap i j (by omega) h2 (by omega)
  · have := h.settled hp i (by omega) (by omega)
    omega

theorem Watermark.wrap (h : Watermark g s) (ho : InOrder s) (hw : Wrapped s.tensorId s s') :
    Watermark g s' := by
  have hlm := hw.leftMost
  have hid := hw.tensorId
  have hib := hw.inBuffer
  refine
    { past := fun i hi => ?_
      mono := fun i j hij hj => ?_
      live := fun i h1 h2 => ?_
      prevLap := fun i j h1 h2 h3 => ?_
      thisLap := fun i j h1 _ h3 => absurd h3 (by omega)
      ends := fun i h1 h2 => absurd h2 (by omega)
      closed := fun i h1 h2 => absurd h2 (by omega) }
  · rw [hw.chunks]
    by_cases hold : i < s.inBufferTensorId
    · rw [hw.kept i (Or.inl hold)]
      exact h.past i hold
    · have hl := h.live i (not_lt.mp hold) (by have := ho.leftMost_le; omega)
      rw [hw.assigned i (not_lt.mp hold) (by omega)]
      exact ⟨by omega, (hl.congr (hw.bare_eq i)).all _⟩
  · by_cases hold : j < s.inBufferTensorId
    · rw [hw.kept i (Or.inl (hij.trans_lt hold)), hw.kept j (Or.inl hold)]
      exact h.mono i j hij hold
    · rw [hw.assigned j (not_lt.mp hold) (by omega)]
      by_cases hi : i < s.inBufferTensorId
      · rw [hw.kept i (Or.inl hi)]
        have := (h.past i hi).1
        omega
      · rw [hw.assigned i (not_lt.mp hi) (by omega)]
  · rw [hw.chunks, hw.kept i (Or.inr (by omega))]
    exact h.live i (by have := ho.inBuffer_le; omega) (by omega)
  · rw [bare_deviceOffset (hw.bare_eq i), bare_deviceOffset (hw.bare_eq j)]
    exact h.thisLap i j (by omega) h2 (by omega)

/-- `finish_chunk`, also of an empty chunk; after it the lap's tensors lie in
front of the device cursor. -/
theorem Watermark.flush (h : Watermark g s) (ho : InOrder s) : Watermark g (pushChunk g s) ∧
    ∀ i, s.leftMostTensorId ≤ i → i < s.tensorId →
      ((pushChunk g s).tensor i).deviceBufferOffset + ((pushChunk g s).tensor i).size ≤
        (pushChunk g s).chunkDeviceBufferOffset := by
  rcases Nat.eq_zero_or_pos s.currentChunkSize with h0 | hpos
  · rw [pushChunk_empty g h0]
    refine ⟨h, fun i h1 h2 => ?_⟩
    have := h.ends i h1 h2
    omega
  · have hp := pushChunk_pushed g ho hpos
    exact ⟨h.push ho hp, h.settled hp⟩

theorem Watermark.openFile (h : Watermark g s)
    (hset : ∀ i, s.leftMostTensorId ≤ i → i < s.tensorId →
      (s.tensor i).deviceBufferOffset + (s.tensor i).size ≤ s.chunkDeviceBufferOffset) (f o : ℕ) :
    Watermark g (openFile g f o s) := by
  have hle : s.chunkDeviceBufferOffset ≤ (Layout.openFile g f o s).chunkDeviceBufferOffset := by
    have h1 := le_roundUp (y := firstTensorAlignment) (by decide) s.chunkDeviceBufferOffset
    have h2 := Nat.mod_lt (o % g.rankAlignment) (show 0 < firstTensorAlignment by decide)
    simp only [Layout.openFile]
    omega
  exact
    { past := h.past, mono := h.mono, live := h.live, prevLap := h.prevLap, thisLap := h.thisLap
      ends := fun i h1 h2 => ((hset i h1 h2).trans hle).trans (Nat.le_add_right _ _)
      closed := fun i h1 h2 _ => (hset i h1 h2).trans hle }

theorem Watermark.full (h : Watermark g s) (hle : s.currentChunkSize ≤ g.worldChunkSize) :
    Watermark g (full g s) :=
  { past := h.past, mono := h.mono, live := h.live, prevLap := h.prevLap, thisLap := h.thisLap
    ends := fun i h1 h2 => (h.ends i h1 h2).trans (Nat.add_le_add_left hle _)
    closed := h.closed }

/-- The split loop keeps the invariant: every iteration fills and finishes a
chunk. -/
theorem Watermark.fillTensor {o : ℕ} (h : Watermark g s) (hr : Ready g o s) (n : ℕ) :
    Watermark g (fillTensor g n s).1 := by
  have := fill_induct (g := g) (Q := fun s' left => Watermark g s' ∧ Filling g o n s s' left)
    (fun s' left hq hlt => ⟨(hq.1.full hq.2.le).push
      ⟨hq.2.inBuffer_le, hq.2.leftMost_le, hq.2.tensorId_le⟩ (full_pushed hq.2.toInOrder),
      hq.2.full hlt⟩) (s.currentChunkSize + n + 1) s n ⟨h, .refl hr⟩
  exact this.1

theorem Watermark.placeHere {o : ℕ} (h : Watermark g s) (hr : Ready g o s)
    (hlt : s.tensorId < s.tensors.length) (f n : ℕ) : Watermark g (placeHere g f o n s) := by
  have hw := h.fillTensor hr n
  have hf := fillTensor_filling hr n
  set r := Layout.fillTensor g n s with hr'
  have hlt' : r.1.tensorId < r.1.tensors.length := by rw [hf.tensorId, hf.length]; exact hlt
  have ht : ∀ i, (Layout.placeHere g f o n s).tensor i =
      if i = r.1.tensorId then ⟨n, f, o, o - s.chunkFileOffset + s.chunkDeviceBufferOffset,
        r.1.chunks.length, 0⟩ else r.1.tensor i := tensor_record hlt' f o n _ _
  have hid : (Layout.placeHere g f o n s).tensorId = r.1.tensorId + 1 := rfl
  have hib : (Layout.placeHere g f o n s).inBufferTensorId = r.1.inBufferTensorId := rfl
  have hlm : (Layout.placeHere g f o n s).leftMostTensorId = r.1.leftMostTensorId := rfl
  have hch : (Layout.placeHere g f o n s).chunks = r.1.chunks := rfl
  have hdo : (Layout.placeHere g f o n s).chunkDeviceBufferOffset = r.1.chunkDeviceBufferOffset := rfl
  have hcs : (Layout.placeHere g f o n s).currentChunkSize = r.1.currentChunkSize + r.2 := rfl
  -- the new tensor starts where the open chunk ended and ends where it ends now
  have hstart : o - s.chunkFileOffset = s.currentChunkSize := by have := hr.ends; omega
  have hend := hf.deviceEnd
  have hold : ∀ i, r.1.leftMostTensorId ≤ i → i < r.1.tensorId →
      (r.1.tensor i).deviceBufferOffset + (r.1.tensor i).size ≤
        s.chunkDeviceBufferOffset + s.currentChunkSize := by
    intro i h1 h2
    rw [bare_deviceOffset (hf.bare_eq i), bare_size (hf.bare_eq i)]
    exact h.ends i (by have := hf.leftMost; omega) (by have := hf.tensorId; omega)
  have hib' := hf.inBuffer_le
  have hlm' := hf.leftMost_le
  refine
    { past := fun i hi => ?_
      mono := fun i j hij hj => ?_
      live := fun i h1 h2 => ?_
      prevLap := fun i j h1 h2 h3 => ?_
      thisLap := fun i j h1 h2 h3 => ?_
      ends := fun i h1 h2 => ?_
      closed := fun i h1 h2 h3 => ?_ }
  · rw [ht, if_neg (by omega)]
    exact hw.past i hi
  · rw [ht, ht, if_neg (by omega), if_neg (by omega)]
    exact hw.mono i j hij hj
  · rw [ht]
    split_ifs with hi
    · intro k c hc hk hk'
      simp only [hch] at hk hk'
      omega
    · exact hw.live i h1 (by omega)
  · rw [ht, ht, if_neg (by omega), if_neg (by omega)]
    exact hw.prevLap i j h1 h2 h3
  · rw [ht, ht]
    by_cases hj : j = r.1.tensorId
    · rw [if_pos hj]
      split_ifs with hi
      · exact le_rfl
      · have := hold i h1 (by omega)
        simp only
        omega
    · rw [if_neg hj, if_neg (by omega)]
      exact hw.thisLap i j h1 h2 (by omega)
  · rw [ht, hdo, hcs]
    split_ifs with hi
    · simp only
      omega
    · have := hold i h1 (by omega)
      omega
  · rw [ht] at h3 ⊢
    split_ifs at h3 ⊢ with hi
    · simp only [hch] at h3
      omega
    · exact hw.closed i h1 (by omega) h3

theorem Watermark.makeRoom {o : ℕ} (h : Watermark g s) (hr : Ready g o s) (n : ℕ) :
    Watermark g (makeRoom g n s) := by
  unfold Layout.makeRoom
  split_ifs
  · have hf := pushChunk_flushed hr
    have hw := wrapRing_wrapped hf.toInOrder s.tensorId
    exact (h.flush hr.toInOrder).1.wrap hf.toInOrder (hf.tensorId ▸ hw)
  · exact h

theorem Watermark.step {a b : ℕ × ℕ} {l : List (ℕ × ℕ)} (hs : LoopState g a (b :: l) s)
    (h : Watermark g s) : Watermark g (step g a b s) := by
  unfold Layout.step
  split_ifs with hab
  · obtain ⟨h1, h2⟩ := h.flush hs.toInOrder
    have hf := pushChunk_flushed hs.toReady
    exact h1.openFile (by rw [hf.leftMost, hf.tensorId]; exact h2) b.1 b.2
  · obtain ⟨-, -, hlt⟩ := hs.tensor (not_not.mp hab)
    obtain ⟨e1, e2⟩ := makeRoom_tensorId hs.toReady (b.2 - a.2)
    exact (h.makeRoom hs.toReady _).placeHere (makeRoom_ready hs.toReady _) (by rwa [e1, e2]) _ _

theorem Watermark.close {z : ℕ × ℕ} (hs : LoopState g z [] s) (h : Watermark g s) :
    Watermark g (close g s) := by
  have hf := pushChunk_flushed hs.toReady
  obtain ⟨s1, w1, w2, ho1⟩ := (close_closed hs).wrapped
  have h1 : Watermark g s1 := (h.flush hs.toInOrder).1.wrap hf.toInOrder (hf.tensorId ▸ w1)
  exact h1.wrap ho1 (by rw [w1.tensorId, hf.tensorId]; exact w2)

end Steps

theorem start_watermark (g : Geometry) (offs : List (ℕ × ℕ)) (o : ℕ) : Watermark g (start g offs o) :=
  { past := fun i hi => absurd hi (Nat.not_lt_zero i)
    mono := fun _ j _ hj => absurd hj (Nat.not_lt_zero j)
    live := fun i _ hi => absurd hi (Nat.not_lt_zero i)
    prevLap := fun _ j _ _ hj => absurd hj (Nat.not_lt_zero j)
    thisLap := fun _ j _ _ hj => absurd hj (Nat.not_lt_zero j)
    ends := fun i _ hi => absurd hi (Nat.not_lt_zero i)
    closed := fun i _ hi => absurd hi (Nat.not_lt_zero i) }

/-- **Prefetching never overwrites a tensor in use.** `compute_layout`
returns, and no chunk after a tensor's last chunk and up to its watermark
writes, padding included, into the tensor's device bytes; nor does a chunk up
to the watermark of tensor `i` touch a later tensor `j` whose last chunk comes
before it. -/
theorem prefetch_disjoint (g : Geometry) (offs : List (ℕ × ℕ)) (h : ValidOffsets g offs) :
    ∃ l, computeLayout g offs = .ok l ∧
      (∀ (i : ℕ) (t : TensorMetadate), l.tensors[i]? = some t →
        ∀ (k : ℕ) (c : Chunk), l.chunks[k]? = some c →
          t.lastChunkId < k → k ≤ t.prefetchChunkId →
          Disjoint (paddedSpan g c) (payload t)) ∧
      ∀ (i j : ℕ) (t u : TensorMetadate), l.tensors[i]? = some t → l.tensors[j]? = some u → i ≤ j →
        ∀ (k : ℕ) (c : Chunk), l.chunks[k]? = some c →
          u.lastChunkId < k → k ≤ t.prefetchChunkId →
          Disjoint (paddedSpan g c) (payload u) := by
  obtain ⟨s, z, hl, hs, hq⟩ := computeLayout_induct h (Q := fun _ _ s => Watermark g s)
    (fun o _ _ => start_watermark g offs o) (fun _ _ _ _ hs hq => hq.step hs)
  have hw := hq.close hs
  have hin := (close_closed hs).inBuffer
  have hself : ∀ (i : ℕ) (t : TensorMetadate), (close g s).tensors[i]? = some t →
      Untouched g (close g s).chunks t (t.prefetchChunkId + 1) := by
    intro i t ht
    obtain ⟨hi, rfl⟩ := tensor_of_getElem? ht
    exact (hw.past i (by rw [hin]; exact hi)).2
  refine ⟨_, hl, fun i t ht k c hc h1 h2 => hself i t ht k c hc h1 (by omega), ?_⟩
  intro i j t u ht hu hij k c hc h1 h2
  refine hself j u hu k c hc h1 ?_
  obtain ⟨hi, rfl⟩ := tensor_of_getElem? ht
  obtain ⟨hj, rfl⟩ := tensor_of_getElem? hu
  have := hw.mono i j hij (by rw [hin]; exact hj)
  omega

/-- The layout of the documentation's example, where chunk 7 reuses the
bytes of tensor 0. -/
theorem prefetch_disjoint_nineTensors :
    ValidOffsets pageRing nineTensors ∧ ∃ l, computeLayout pageRing nineTensors = .ok l ∧
      ∀ (i : ℕ) (t : TensorMetadate), l.tensors[i]? = some t →
        ∀ (k : ℕ) (c : Chunk), l.chunks[k]? = some c →
          t.lastChunkId < k → k ≤ t.prefetchChunkId →
          Disjoint (paddedSpan pageRing c) (payload t) := by
  obtain ⟨l, hl, hd, -⟩ := prefetch_disjoint pageRing nineTensors nineTensors_valid
  exact ⟨nineTensors_valid, l, hl, hd⟩

end Layout
end Siphon
