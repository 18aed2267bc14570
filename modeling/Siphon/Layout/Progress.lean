/-
# When every watermark reaches the tensor's last chunk

The loader waits for a tensor's `last_chunk_id` while it prefetches up to the
tensor's `prefetch_chunk_id`, so the wait ends only if the watermark is at
least the last chunk. `last_chunk_id` is the id of the chunk that is open
when the tensor is placed. For a tensor in a chunk that gets finished the
watermark comes later than that chunk. But tensors without bytes on a page
boundary may leave the open chunk empty: if the ring then starts again, their
last chunk is the first chunk of the next lap, and if that chunk reaches
their place on the ring, their watermark is the chunk before it.

`progress_iff` says that this is the only way to lose the order: the layout
makes progress if and only if the first chunk of a lap ends in front of the
segment without bytes that the last lap ended with (`Clears`).
-/
import Siphon.Layout.Watermark
import Siphon.Layout.Plan
import Siphon.Layout.Payload

namespace Siphon
namespace Layout

open Rounding

/-! ### Last chunks -/

/-- The last chunks are in order, none behind the open chunk. -/
structure LastOrdered (s : Cursors) : Prop where
  nonneg : ∀ i < s.tensorId, 0 ≤ (s.tensor i).lastChunkId
  le : ∀ i < s.tensorId, (s.tensor i).lastChunkId ≤ s.chunks.length
  mono : ∀ i j, i ≤ j → j < s.tensorId → (s.tensor i).lastChunkId ≤ (s.tensor j).lastChunkId

/-- The watermarks assigned so far reach the last chunks. -/
def Timely (s : Cursors) : Prop :=
  ∀ i < s.inBufferTensorId, (s.tensor i).lastChunkId ≤ (s.tensor i).prefetchChunkId

/-- A tensor of the previous lap, at device offset `d`, waits for the open chunk. -/
def Waiting (s : Cursors) (d : ℕ) : Prop :=
  ∃ i, s.inBufferTensorId ≤ i ∧ i < s.leftMostTensorId ∧
    (s.tensor i).lastChunkId = s.chunks.length ∧ (s.tensor i).deviceBufferOffset = d

/-- Every tensor's last chunk is finished. -/
def Settled (s : Cursors) : Prop := ∀ i < s.tensorId, (s.tensor i).lastChunkId < s.chunks.length

section Steps

variable {g : Geometry} {s s' : Cursors} {o : ℕ}

theorem LastOrdered.congr (h : LastOrdered s) (hid : s'.tensorId = s.tensorId)
    (hlen : s.chunks.length ≤ s'.chunks.length) (hb : ∀ i, bare (s'.tensor i) = bare (s.tensor i)) :
    LastOrdered s' where
  nonneg := by
    intro i hi
    rw [bare_last (hb i)]
    exact h.nonneg i (hid ▸ hi)
  le := by
    intro i hi
    rw [bare_last (hb i)]
    exact (h.le i (hid ▸ hi)).trans (by exact_mod_cast hlen)
  mono := by
    intro i j hij hj
    rw [bare_last (hb i), bare_last (hb j)]
    exact h.mono i j hij (hid ▸ hj)

theorem Pushed.length_chunks (hp : Pushed g s s') : s'.chunks.length = s.chunks.length + 1 := by
  rw [hp.chunks]
  simp

theorem LastOrdered.push (h : LastOrdered s) (hp : Pushed g s s') : LastOrdered s' :=
  h.congr hp.tensorId (by rw [hp.length_chunks]; exact Nat.le_succ _) hp.bare_eq

theorem LastOrdered.wrap {n : ℕ} (h : LastOrdered s) (hw : Wrapped n s s') : LastOrdered s' :=
  h.congr hw.tensorId (by rw [hw.chunks]) hw.bare_eq

theorem LastOrdered.settled (h : LastOrdered s) (hp : Pushed g s s') : Settled s' := by
  intro i hi
  have := h.le i (hp.tensorId ▸ hi)
  rw [bare_last (hp.bare_eq i), hp.length_chunks]
  push_cast
  omega

theorem Settled.not_waiting (h : Settled s) (ho : InOrder s) (d : ℕ) : ¬ Waiting s d := by
  rintro ⟨i, -, h2, h3, -⟩
  have := h i (h2.trans_le ho.leftMost_le)
  omega

/-- `finish_chunk` gives a waiting tensor the id of the chunk before its last
one if the chunk reaches it. -/
theorem timely_push (hw : Watermark g s) (hl : LastOrdered s) (ho : InOrder s) (hp : Pushed g s s') :
    Timely s' ↔ Timely s ∧ ∀ d, Waiting s d → s'.chunkDeviceBufferOffset ≤ d := by
  constructor
  · intro h
    constructor
    · intro i hi
      have := h i (hi.trans_le hp.inBuffer_ge)
      rwa [hp.kept i (Or.inl hi)] at this
    · rintro d ⟨i, h1, h2, h3, rfl⟩
      by_contra hlt
      have hi : i < s'.inBufferTensorId := by
        by_contra hge
        have hstop := hp.stop ((not_lt.mp hge).trans_lt h2)
        have := hw.prevLap _ i hp.inBuffer_ge (not_lt.mp hge) h2
        omega
      have := h i hi
      rw [(hp.assigned i h1 hi).1, bare_last (hp.bare_eq i), h3] at this
      omega
  · rintro ⟨h, hwait⟩ i hi
    by_cases hold : i < s.inBufferTensorId
    · rw [hp.kept i (Or.inl hold)]
      exact h i hold
    · obtain ⟨hpf, hd⟩ := hp.assigned i (not_lt.mp hold) hi
      have hlm := hi.trans_le hp.inBuffer_le
      have hle := hl.le i (hlm.trans_le ho.leftMost_le)
      have hne : (s.tensor i).lastChunkId ≠ s.chunks.length := by
        intro he
        have := hwait _ ⟨i, not_lt.mp hold, hlm, he, rfl⟩
        omega
      rw [hpf, bare_last (hp.bare_eq i)]
      omega

/-- A new lap gives the tensors of the lap before the last the id of the last
chunk. -/
theorem timely_wrap {n : ℕ} (hl : LastOrdered s) (ho : InOrder s) (hw : Wrapped n s s')
    (hno : ∀ d, ¬ Waiting s d) : Timely s' ↔ Timely s := by
  constructor
  · intro h i hi
    have := h i (by rw [hw.inBuffer]; exact hi.trans_le ho.inBuffer_le)
    rwa [hw.kept i (Or.inl hi)] at this
  · intro h i hi
    rw [hw.inBuffer] at hi
    by_cases hold : i < s.inBufferTensorId
    · rw [hw.kept i (Or.inl hold)]
      exact h i hold
    · have hle := hl.le i (hi.trans_le ho.leftMost_le)
      have hne : (s.tensor i).lastChunkId ≠ s.chunks.length := fun he =>
        hno _ ⟨i, not_lt.mp hold, hi, he, rfl⟩
      rw [hw.assigned i (not_lt.mp hold) hi, bare_last (hw.bare_eq i)]
      omega

/-- After the reset the tensors of the lap that ended may wait. -/
theorem waiting_wrap (hw : Wrapped s.tensorId s s') (d : ℕ) : Waiting s' d ↔
    ∃ i, s.leftMostTensorId ≤ i ∧ i < s.tensorId ∧ (s.tensor i).lastChunkId = s.chunks.length ∧
      (s.tensor i).deviceBufferOffset = d := by
  unfold Waiting
  rw [hw.inBuffer, hw.leftMost, hw.chunks]
  refine exists_congr fun i => ?_
  rw [bare_last (hw.bare_eq i), bare_deviceOffset (hw.bare_eq i)]

/-- Placing a tensor after the split loop. -/
structure Placed (g : Geometry) (f o n : ℕ) (s s' : Cursors) : Prop where
  old : ∀ i < s.tensorId, s'.tensor i = (fillTensor g n s).1.tensor i
  new : s'.tensor s.tensorId = ⟨n, f, o, o - s.chunkFileOffset + s.chunkDeviceBufferOffset,
    (fillTensor g n s).1.chunks.length, 0⟩

theorem placeHere_placed (hr : Ready g o s) (hlt : s.tensorId < s.tensors.length) (f n : ℕ) :
    Placed g f o n s (placeHere g f o n s) := by
  have hf := fillTensor_filling hr n
  have ht := tensor_record (s := (fillTensor g n s).1) (by rw [hf.tensorId, hf.length]; exact hlt) f o n
    (o - s.chunkFileOffset + s.chunkDeviceBufferOffset) (fillTensor g n s).2
  rw [hf.tensorId] at ht
  constructor
  · intro i hi
    exact (ht i).trans (if_neg hi.ne)
  · exact (ht s.tensorId).trans (if_pos rfl)

theorem LastOrdered.placeHere (hr : Ready g o s) (hlt : s.tensorId < s.tensors.length) (f n : ℕ)
    (h : LastOrdered (fillTensor g n s).1) : LastOrdered (placeHere g f o n s) := by
  have hf := fillTensor_filling hr n
  have hp := placeHere_placed hr hlt f n
  have hid : (Layout.placeHere g f o n s).tensorId = s.tensorId + 1 := congrArg (· + 1) hf.tensorId
  have hch : (Layout.placeHere g f o n s).chunks = (fillTensor g n s).1.chunks := rfl
  have hle : ∀ i < (Layout.placeHere g f o n s).tensorId,
      ((Layout.placeHere g f o n s).tensor i).lastChunkId ≤ (fillTensor g n s).1.chunks.length := by
    intro i hi
    rcases Nat.lt_succ_iff_lt_or_eq.mp (hid ▸ hi) with hi' | rfl
    · rw [hp.old i hi']
      exact h.le i (by rw [hf.tensorId]; exact hi')
    · rw [hp.new]
  refine ⟨fun i hi => ?_, fun i hi => by rw [hch]; exact hle i hi, fun i j hij hj => ?_⟩
  · rcases Nat.lt_succ_iff_lt_or_eq.mp (hid ▸ hi) with hi' | rfl
    · rw [hp.old i hi']
      exact h.nonneg i (by rw [hf.tensorId]; exact hi')
    · rw [hp.new]
      exact Int.natCast_nonneg _
  rcases Nat.lt_succ_iff_lt_or_eq.mp (hid ▸ hj) with hj' | rfl
  · rw [hp.old i (hij.trans_lt hj'), hp.old j hj']
    exact h.mono i j hij (by rw [hf.tensorId]; exact hj')
  · rw [hp.new]
    exact hle i (hij.trans_lt hj)

/-- Placing the tensor changes nothing for those before it. -/
theorem waiting_placeHere (hr : Ready g o s) (hlt : s.tensorId < s.tensors.length) (f n d : ℕ) :
    Waiting (placeHere g f o n s) d ↔ Waiting (fillTensor g n s).1 d := by
  have hf := fillTensor_filling hr n
  have hp := placeHere_placed hr hlt f n
  refine exists_congr fun i => and_congr_right fun _ => and_congr_right fun (hi : i < _) => ?_
  have : i < s.tensorId := hi.trans_le (by rw [← hf.tensorId]; exact hf.leftMost_le)
  rw [hp.old i this]
  rfl

theorem timely_placeHere (hr : Ready g o s) (hlt : s.tensorId < s.tensors.length) (f n : ℕ) :
    Timely (placeHere g f o n s) ↔ Timely (fillTensor g n s).1 := by
  have hf := fillTensor_filling hr n
  have hp := placeHere_placed hr hlt f n
  refine forall_congr' fun i => forall_congr' fun (hi : i < _) => ?_
  have : i < s.tensorId :=
    hi.trans_le (hf.inBuffer_le.trans (by rw [← hf.tensorId]; exact hf.leftMost_le))
  rw [hp.old i this]

end Steps

/-! ### The plan -/

/-- The device offset behind the padded first chunk of the segment. -/
def Segment.firstEnd (g : Geometry) (p : Segment) : ℕ :=
  p.base + roundUp (min g.worldChunkSize p.size) g.worldChunkAlignment

/-- If the segment has tensors but no bytes, the first chunk of the next
segment ends in front of it. -/
def Clears (g : Geometry) (p next : Segment) : Prop :=
  p.size = 0 → 0 < p.count → next.firstEnd g ≤ p.base

instance (g : Geometry) (p next : Segment) : Decidable (Clears g p next) := by
  unfold Clears; infer_instance

/-- The current segment is planned with at least the bytes it has. -/
theorem exists_plan_eq (g : Geometry) : ∀ (l : List (ℕ × ℕ)) (a : ℕ × ℕ) (p : Segment),
    (a :: l).IsChain OffsetStep → p.stop = a.2 →
    ∃ t rest, plan g p (a :: l) = t :: rest ∧ t.base = p.base ∧ p.size ≤ t.size
  | [], _, p, _, _ => ⟨p, [], by simp [plan], rfl, le_rfl⟩
  | b :: l, a, p, hc, hp => by
    obtain ⟨hab, hl⟩ := List.isChain_cons_cons.mp hc
    rw [plan]
    split_ifs with h1 h2
    · exact ⟨_, _, rfl, rfl, le_rfl⟩
    · obtain ⟨t, rest, h, hb, hs⟩ := exists_plan_eq g l b (p.grow b.2) hl rfl
      refine ⟨t, rest, h, hb, le_trans ?_ hs⟩
      have hle : a.2 ≤ b.2 := by
        rcases hab with ⟨-, hle⟩ | hne
        · exact hle
        · exact absurd (not_not.mp h1) (by omega)
      simp only [Segment.grow, Segment.size]
      omega
    · exact ⟨_, _, rfl, rfl, le_rfl⟩

/-- Every file of the list has a tensor with bytes. -/
def FilesNonempty (offs : List (ℕ × ℕ)) : Prop :=
  ∀ a ∈ offs, ∃ r ∈ tensorRanges offs, r.1 = a.1 ∧ 0 < r.2.2

instance (offs : List (ℕ × ℕ)) : Decidable (FilesNonempty offs) := by
  unfold FilesNonempty; infer_instance

theorem le_of_mem_tensorRanges : ∀ (l : List (ℕ × ℕ)) (a : ℕ × ℕ), (a :: l).IsChain OffsetStep →
    ∀ r ∈ tensorRanges (a :: l), a.1 ≤ r.1
  | [], _, _, r, hr => by simp [tensorRanges] at hr
  | b :: l, a, hc, r, hr => by
    obtain ⟨hab, hl⟩ := List.isChain_cons_cons.mp hc
    have hle : a.1 ≤ b.1 := by rcases hab with ⟨h, -⟩ | h <;> omega
    have ih := le_of_mem_tensorRanges l b hl
    rw [tensorRanges] at hr
    split_ifs at hr
    · rcases List.mem_cons.mp hr with rfl | hr
      · exact le_rfl
      · exact hle.trans (ih r hr)
    · exact hle.trans (ih r hr)

/-- The current segment `p` and the offsets to come: while `p` has no bytes,
its file still has a tensor with bytes to come. -/
structure Alive (g : Geometry) (a : ℕ × ℕ) (l : List (ℕ × ℕ)) (p : Segment) : Prop where
  here : p.size = 0 → ∃ r ∈ tensorRanges (a :: l), r.1 = a.1 ∧ 0 < r.2.2
  later : ∀ c ∈ l, a.1 < c.1 → ∃ r ∈ tensorRanges (a :: l), r.1 = c.1 ∧ 0 < r.2.2
  fits : 0 < p.count → p.Fits g p.stop
  fresh : p.count = 0 → p.size = p.stop % g.rankAlignment

section Alive

variable {g : Geometry} {a b : ℕ × ℕ} {l : List (ℕ × ℕ)} {p : Segment}

theorem Alive.grow (h : Alive g a (b :: l) p) (hab : a.1 = b.1) (hle : a.2 ≤ b.2)
    (hstop : p.stop = a.2) (hbase : p.fileBase ≤ p.stop) (hfit : p.Fits g b.2) :
    Alive g b l (p.grow b.2) := by
  have hranges : tensorRanges (a :: b :: l) = (a.1, a.2, b.2 - a.2) :: tensorRanges (b :: l) := by
    rw [tensorRanges, if_pos hab]
  refine
    { here := fun h0 => ?_
      later := fun c hc hlt => ?_
      fits := fun _ => hfit
      fresh := fun h0 => absurd h0 (Nat.succ_ne_zero _) }
  · simp only [Segment.grow, Segment.size] at h0
    obtain ⟨r, hr, hf, hpos⟩ := h.here (by unfold Segment.size; omega)
    rw [hranges, List.mem_cons] at hr
    rcases hr with rfl | hr
    · simp only at hpos
      omega
    · exact ⟨r, hr, hf.trans hab, hpos⟩
  · obtain ⟨r, hr, hf, hpos⟩ := h.later c (List.mem_cons_of_mem _ hc) (hab ▸ hlt)
    rw [hranges, List.mem_cons] at hr
    rcases hr with rfl | hr
    · simp only at hf
      omega
    · exact ⟨r, hr, hf, hpos⟩

theorem ofLap_size (g : Geometry) (f o : ℕ) : (Segment.ofLap g f o).size = o % g.rankAlignment := by
  have := roundDown_add_mod o g.rankAlignment
  simp only [Segment.ofLap, Segment.size]
  omega

theorem ofFile_size (g : Geometry) (d f o : ℕ) :
    (Segment.ofFile g d f o).size = o % g.rankAlignment := by
  have := roundDown_add_mod o g.rankAlignment
  simp only [Segment.ofFile, Segment.size]
  omega

theorem Alive.wrap (h : Alive g a (b :: l) p) (hab : a.1 = b.1) (hle : a.2 ≤ b.2)
    (hstop : p.stop = a.2) (hfit : ¬ p.Fits g b.2) : Alive g a (b :: l) (.ofLap g a.1 a.2) := by
  refine
    { here := fun h0 => ?_
      later := h.later
      fits := fun h0 => absurd h0 (Nat.lt_irrefl 0)
      fresh := fun _ => ofLap_size g a.1 a.2 }
  rcases hle.lt_or_eq with hlt | heq
  · exact ⟨(a.1, a.2, b.2 - a.2), by rw [tensorRanges, if_pos hab]; exact List.mem_cons_self, rfl,
      Nat.sub_pos_of_lt hlt⟩
  · -- a tensor without bytes fits every segment that has a tensor
    have hc : p.count = 0 := by
      by_contra hne
      have := h.fits (Nat.pos_of_ne_zero hne)
      rw [hstop, heq] at this
      exact hfit this
    refine h.here ?_
    rw [h.fresh hc, hstop, ← ofLap_size g a.1 a.2, h0]

theorem Alive.openFile (h : Alive g a (b :: l) p) (hab : a.1 < b.1) (d : ℕ) :
    Alive g b l (.ofFile g d b.1 b.2) := by
  have hranges : tensorRanges (a :: b :: l) = tensorRanges (b :: l) := by
    rw [tensorRanges, if_neg hab.ne]
  refine
    { here := fun _ => ?_
      later := fun c hc hlt => ?_
      fits := fun h0 => absurd h0 (Nat.lt_irrefl 0)
      fresh := fun _ => ofFile_size g d b.1 b.2 }
  · rw [← hranges]
    exact h.later b List.mem_cons_self hab
  · rw [← hranges]
    exact h.later c (List.mem_cons_of_mem _ hc) (hab.trans hlt)

/-- A file does not end with a segment without bytes. -/
theorem Alive.size_pos (h : Alive g a (b :: l) p) (hab : a.1 < b.1)
    (hc : (b :: l).IsChain OffsetStep) : 0 < p.size := by
  by_contra h0
  obtain ⟨r, hr, hf, -⟩ := h.here (by omega)
  rw [tensorRanges, if_neg hab.ne] at hr
  have := le_of_mem_tensorRanges l b hc r hr
  omega

theorem Alive.size_pos_of_end (h : Alive g a [] p) : 0 < p.size := by
  by_contra h0
  obtain ⟨r, hr, -⟩ := h.here (by omega)
  simp [tensorRanges] at hr

end Alive

theorem start_alive {g : Geometry} {a : ℕ × ℕ} {l : List (ℕ × ℕ)} (h : FilesNonempty (a :: l)) (d : ℕ) :
    Alive g a l (.ofFile g d a.1 a.2) where
  here := fun _ => h a List.mem_cons_self
  later := fun c hc _ => h c (List.mem_cons_of_mem _ hc)
  fits := fun h0 => absurd h0 (Nat.lt_irrefl 0)
  fresh := fun _ => ofFile_size g d a.1 a.2

/-! ### The loop -/

/-- The state in segment `t`, with the segments `rest` to come: what is still
to be checked amounts to `ok`. A tensor of the last lap waits only until the
first chunk of the segment is finished. -/
structure Paced (g : Geometry) (ok : Prop) (t : Segment) (rest : List Segment) (s : Cursors) :
    Prop where
  marks : Watermark g s
  last : LastOrdered s
  first : ∀ d, Waiting s d → s.chunkDeviceBufferOffset = t.base ∧ 0 < t.size
  check : (Timely s ∧ (∀ d, Waiting s d → t.firstEnd g ≤ d) ∧ (t :: rest).IsChain (Clears g)) ↔ ok

section Paced

variable {g : Geometry} {ok : Prop} {t : Segment} {rest : List Segment} {s s' : Cursors} {o : ℕ}

/-- A finished chunk: if a tensor waits for it, it is the segment's first. -/
theorem Paced.push (h : Paced g ok t rest s) (ho : InOrder s) (hp : Pushed g s s')
    (hsize : ∀ d, Waiting s d → s.currentChunkSize = min g.worldChunkSize t.size) :
    Paced g ok t rest s' := by
  have hno := (h.last.settled hp).not_waiting (hp.inOrder ho)
  refine
    { marks := h.marks.push ho hp
      last := h.last.push hp
      first := fun d hd => absurd hd (hno d)
      check := ?_ }
  rw [timely_push h.marks h.last ho hp, ← h.check]
  have he : ∀ d, Waiting s d → s'.chunkDeviceBufferOffset = t.firstEnd g := by
    intro d hd
    rw [hp.deviceOffset, (h.first d hd).1, hsize d hd]
    rfl
  constructor
  · rintro ⟨⟨h1, h2⟩, -, h3⟩
    exact ⟨h1, fun d hd => he d hd ▸ h2 d hd, h3⟩
  · rintro ⟨h1, h2, h3⟩
    exact ⟨⟨h1, fun d hd => he d hd ▸ h2 d hd⟩, fun d hd => absurd hd (hno d), h3⟩

/-- The split loop. -/
theorem Paced.fillTensor (h : Paced g ok t rest s) (hr : Ready g o s) (n : ℕ)
    (hsize : ∀ d, Waiting s d → s.currentChunkSize + n ≤ t.size) :
    Paced g ok t rest (fillTensor g n s).1 := by
  have hQ := fill_induct (g := g) (Q := fun s' left => Filling g o n s s' left ∧ Paced g ok t rest s' ∧
      ∀ d, Waiting s' d → s'.currentChunkSize + left ≤ t.size)
    (fun s' left ⟨hf, hp, hw⟩ hlt => by
      have ho := hf.toInOrder
      have hpush := full_pushed (g := g) ho
      have hfull : Paced g ok t rest (full g s') :=
        { marks := hp.marks.full hf.le, last := ⟨hp.last.nonneg, hp.last.le, hp.last.mono⟩, first := hp.first
          check := hp.check }
      have hno := (hfull.last.settled hpush).not_waiting
        (hpush.inOrder ⟨ho.inBuffer_le, ho.leftMost_le, ho.tensorId_le⟩)
      refine ⟨hf.full hlt, hfull.push ⟨ho.inBuffer_le, ho.leftMost_le, ho.tensorId_le⟩ hpush ?_,
        fun d hd => absurd hd (hno d)⟩
      intro d hd
      have := hw d hd
      simp only [full]
      omega)
    (s.currentChunkSize + n + 1) s n ⟨.refl hr, h, hsize⟩
  exact hQ.2.1

theorem Paced.placeHere (h : Paced g ok t rest s) (hr : Ready g o s)
    (hlt : s.tensorId < s.tensors.length) (f n : ℕ)
    (hsize : ∀ d, Waiting s d → s.currentChunkSize + n ≤ t.size) :
    Paced g ok t rest (placeHere g f o n s) := by
  have hf := h.fillTensor hr n hsize
  refine
    { marks := h.marks.placeHere hr hlt f n
      last := LastOrdered.placeHere hr hlt f n hf.last
      first := fun d hd => hf.first d ((waiting_placeHere hr hlt f n d).mp hd)
      check := ?_ }
  rw [timely_placeHere hr hlt, ← hf.check]
  simp only [waiting_placeHere hr hlt]

end Paced

/-- The state before a pair of the main loop, in segment `p`: it is paced,
and if the open chunk is empty, the tensors of this lap that have no finished
last chunk are those of the segment, at its start. -/
structure Progress (g : Geometry) (ok : Prop) (a : ℕ × ℕ) (l : List (ℕ × ℕ)) (p : Segment)
    (s : Cursors) : Prop where
  follows : ∃ pre j, Follows g pre p j s
  alive : Alive g a l p
  paced : ∃ t rest, plan g p (a :: l) = t :: rest ∧ Paced g ok t rest s
  lap : ∀ i, s.leftMostTensorId ≤ i → i < s.tensorId → (s.tensor i).lastChunkId = s.chunks.length →
    s.currentChunkSize = 0 →
    (s.tensor i).deviceBufferOffset = s.chunkDeviceBufferOffset ∧ 0 < p.count
  newest : 0 < p.count → s.leftMostTensorId < s.tensorId ∧
    (s.tensor (s.tensorId - 1)).lastChunkId = s.chunks.length

section Progress

variable {g : Geometry} {ok : Prop} {a b : ℕ × ℕ} {l : List (ℕ × ℕ)} {p : Segment} {s : Cursors}

/-- The open chunk is empty if and only if the segment is. -/
theorem Follows.empty_iff {pre : List Chunk} {j : ℕ} (h : Follows g pre p j s) :
    s.currentChunkSize = 0 ↔ p.size = 0 := by
  have hs := h.size
  rcases h.count with h0 | hlt
  · subst h0
    rw [Nat.zero_mul] at hs
    omega
  · omega

/-- Before the first chunk of the segment is finished, the open chunk is all of it. -/
theorem Follows.size_of_base {pre : List Chunk} {j : ℕ} (h : Follows g pre p j s)
    (hb : s.chunkDeviceBufferOffset = p.base) : s.currentChunkSize = p.size := by
  have hs := h.size
  have hd := h.deviceOffset
  omega

/-- A tensor without bytes behind an empty chunk finishes nothing. -/
theorem fillTensor_empty (g : Geometry) {s : Cursors} (h : s.currentChunkSize = 0) :
    fillTensor g 0 s = (s, 0) := by
  rw [fillTensor, fill, if_neg (by rw [h]; exact Nat.not_lt_zero _)]

theorem Progress.placeHere (h : Progress g ok a (b :: l) p s) (hab : a.1 = b.1) (hle : a.2 ≤ b.2)
    (hc : (b :: l).IsChain OffsetStep) (hr : Ready g a.2 s) (hlt : s.tensorId < s.tensors.length)
    (hfit : p.Fits g b.2) :
    Progress g ok b l (p.grow b.2) (placeHere g a.1 a.2 (b.2 - a.2) s) := by
  obtain ⟨pre, j, hfol⟩ := h.follows
  obtain ⟨t, rest, hplan, hpaced⟩ := h.paced
  have hstop := hfol.stop_eq hr
  have hbase := hfol.base_le
  have hfill := fillTensor_filling hr (b.2 - a.2)
  have hpl := placeHere_placed hr hlt a.1 (b.2 - a.2)
  have hid : (Layout.placeHere g a.1 a.2 (b.2 - a.2) s).tensorId = s.tensorId + 1 :=
    congrArg (· + 1) hfill.tensorId
  have hfol' := hfol.placeHere hr a.1 (b.2 - a.2)
  rw [Nat.add_sub_of_le hle] at hfol'
  rw [plan, if_neg (not_not.mpr hab), if_pos hfit] at hplan
  obtain ⟨t', rest', hplan', hb', hs'⟩ := exists_plan_eq g l b (p.grow b.2) hc rfl
  obtain ⟨rfl, rfl⟩ := List.cons_eq_cons.mp (hplan'.symm.trans hplan)
  -- if the open chunk stays empty, the tensor has no bytes and nothing was finished
  have hempty : (Layout.placeHere g a.1 a.2 (b.2 - a.2) s).currentChunkSize = 0 →
      s.currentChunkSize = 0 ∧ fillTensor g (b.2 - a.2) s = (s, 0) := by
    intro h0
    obtain ⟨j', hj'⟩ := hfol'
    have hz := hj'.empty_iff.mp h0
    simp only [Segment.grow, Segment.size] at hz
    have hs0 := hfol.empty_iff.mpr (by unfold Segment.size; omega)
    rw [show b.2 - a.2 = 0 by omega]
    exact ⟨hs0, fillTensor_empty g hs0⟩
  refine
    { follows := ⟨pre, hfol'⟩
      alive := h.alive.grow hab hle hstop hbase hfit
      paced := ⟨t', rest', hplan', hpaced.placeHere hr hlt a.1 (b.2 - a.2) fun d hd => ?_⟩
      lap := fun i h1 h2 h3 h0 => ⟨?_, Nat.succ_pos _⟩
      newest := fun _ => ?_ }
  · have hsz := hfol.size_of_base ((hpaced.first d hd).1.trans hb')
    rw [hsz]
    simp only [Segment.grow, Segment.size] at hs' ⊢
    omega
  · obtain ⟨hs0, hf0⟩ := hempty h0
    have hd : (Layout.placeHere g a.1 a.2 (b.2 - a.2) s).chunkDeviceBufferOffset =
        s.chunkDeviceBufferOffset := congrArg (·.1.chunkDeviceBufferOffset) hf0
    have hch : (Layout.placeHere g a.1 a.2 (b.2 - a.2) s).chunks = s.chunks :=
      congrArg (·.1.chunks) hf0
    have hlm : (Layout.placeHere g a.1 a.2 (b.2 - a.2) s).leftMostTensorId = s.leftMostTensorId :=
      hfill.leftMost
    rw [hd]
    rcases Nat.lt_succ_iff_lt_or_eq.mp (hid ▸ h2) with hi | rfl
    · rw [hpl.old i hi, hf0] at h3 ⊢
      exact (h.lap i (hlm ▸ h1) hi (hch ▸ h3) hs0).1
    · have hends := hr.ends
      rw [hpl.new]
      simp only
      omega
  · rw [hid, Nat.add_sub_cancel, hpl.new]
    refine ⟨Nat.lt_succ_of_le ?_, rfl⟩
    rw [← hfill.tensorId]
    exact hfill.leftMost_le

/-- `finish_chunk` on the last chunk of a segment with bytes. -/
theorem Progress.flush (h : Progress g ok a l p s) (hr : Ready g a.2 s) (hpos : 0 < p.size)
    {t : Segment} {rest : List Segment} (hplan : plan g p (a :: l) = t :: rest) (ht : t = p) :
    Paced g ok t rest (pushChunk g s) ∧ Settled (pushChunk g s) := by
  obtain ⟨pre, j, hfol⟩ := h.follows
  obtain ⟨t', rest', hplan', hpaced⟩ := h.paced
  obtain ⟨rfl, rfl⟩ := List.cons_eq_cons.mp (hplan'.symm.trans hplan)
  subst ht
  have hcs : 0 < s.currentChunkSize := by
    have := hfol.empty_iff
    omega
  have hp := pushChunk_pushed g hr.toInOrder hcs
  refine ⟨hpaced.push hr.toInOrder hp fun d hd => ?_, hpaced.last.settled hp⟩
  have hsz := hfol.size_of_base (hpaced.first d hd).1
  have hle := hr.le
  omega

theorem isChain_of_size_pos {t : Segment} {rest : List Segment} (hpos : 0 < p.size) :
    (p :: t :: rest).IsChain (Clears g) ↔ (t :: rest).IsChain (Clears g) := by
  rw [List.isChain_cons_cons]
  exact and_iff_right fun h0 => absurd h0 hpos.ne'

/-- The tensor to come does not fit: a new lap. -/
theorem Progress.wrap (h : Progress g ok a (b :: l) p s) (hab : a.1 = b.1) (hle : a.2 ≤ b.2)
    (hn : b.2 - a.2 ≤ g.effectiveBufferSize) (hc : (a :: b :: l).IsChain OffsetStep)
    (hf : p.fileIndex = a.1) (hr : Ready g a.2 s) (hfit : ¬ p.Fits g b.2) :
    Progress g ok a (b :: l) (.ofLap g a.1 a.2) (wrapRing s.tensorId (pushChunk g s)) := by
  obtain ⟨pre, j, hfol⟩ := h.follows
  have hstop := hfol.stop_eq hr
  have hflush := pushChunk_flushed hr
  have hw := wrapRing_wrapped hflush.toInOrder s.tensorId
  have hw' : Wrapped (pushChunk g s).tensorId (pushChunk g s) (wrapRing s.tensorId (pushChunk g s)) :=
    hflush.tensorId.symm ▸ hw
  have hlap := ofLap_fits g (f := a.1) hle hn
  obtain ⟨t, rest, ht, htb, hts⟩ := exists_plan_eq g l b ((Segment.ofLap g a.1 a.2).grow b.2)
    (List.isChain_cons_cons.mp hc).2 rfl
  have hplan : plan g (.ofLap g a.1 a.2) (a :: b :: l) = t :: rest := by
    rw [plan, if_neg (not_not.mpr hab), if_pos hlap, ht]
  have hplan0 : plan g p (a :: b :: l) = p :: t :: rest := by
    rw [plan, if_neg (not_not.mpr hab), if_neg hfit, ht]
  have hbase : (wrapRing s.tensorId (pushChunk g s)).chunkDeviceBufferOffset = t.base := by
    rw [hw.deviceOffset, hflush.size, htb]
    rfl
  refine
    { follows := ⟨_, 0, hf ▸ hfol.wrap hr⟩
      alive := h.alive.wrap hab hle hstop hfit
      paced := ⟨t, rest, hplan, ?_⟩
      lap := fun i h1 h2 => ?_
      newest := fun h0 => absurd h0 (Nat.lt_irrefl 0) }
  · rcases Nat.eq_zero_or_pos p.size with h0 | hpos
    · -- nothing to finish: the tensors of the segment, if any, wait from now on
      have hcs := hfol.empty_iff.mpr h0
      obtain ⟨t', rest', hplan', hpaced⟩ := h.paced
      obtain ⟨rfl, rfl⟩ := List.cons_eq_cons.mp (hplan'.symm.trans hplan0)
      rw [pushChunk_empty g hcs] at hw hw' hbase ⊢
      have hno : ∀ d, ¬ Waiting s d := fun d hd => absurd h0 (hpaced.first d hd).2.ne'
      have hwait : ∀ d, Waiting (wrapRing s.tensorId s) d ↔ 0 < t'.count ∧ d = t'.base := by
        have hj : s.chunkDeviceBufferOffset = t'.base := by
          have h1 := hfol.size
          have h2 := hfol.deviceOffset
          omega
        intro d
        rw [waiting_wrap hw]
        constructor
        · rintro ⟨i, h1, h2, h3, rfl⟩
          obtain ⟨h4, h5⟩ := h.lap i h1 h2 h3 hcs
          exact ⟨h5, h4.trans hj⟩
        · rintro ⟨h1, rfl⟩
          obtain ⟨h2, h3⟩ := h.newest h1
          exact ⟨s.tensorId - 1, by omega, by omega, h3,
            (h.lap _ (by omega) (by omega) h3 hcs).1.trans hj⟩
      refine
        { marks := hpaced.marks.wrap hr.toInOrder hw
          last := hpaced.last.wrap hw
          first := fun d hd => ⟨hbase, ?_⟩
          check := ?_ }
      · -- a tensor without bytes would have fit
        have hfits := h.alive.fits ((hwait d).mp hd).1
        have hlt : a.2 < b.2 := by
          refine lt_of_le_of_ne hle fun he => hfit ?_
          rwa [hstop, he] at hfits
        have := roundDown_le a.2 g.rankAlignment
        refine lt_of_lt_of_le ?_ hts
        simp only [Segment.grow, Segment.ofLap, Segment.size]
        omega
      · rw [timely_wrap hpaced.last hr.toInOrder hw hno, ← hpaced.check, List.isChain_cons_cons]
        simp only [hwait, hno, false_implies, implies_true, true_and]
        refine and_congr_right fun _ => and_congr_left fun _ => ?_
        exact ⟨fun hd _ h1 => hd _ ⟨h1, rfl⟩, fun hd d h1 => h1.2 ▸ hd h0 h1.1⟩
    · obtain ⟨hpaced, hset⟩ := h.flush hr hpos hplan0 rfl
      have hno := hset.not_waiting hflush.toInOrder
      have hno' : ∀ d, ¬ Waiting (wrapRing s.tensorId (pushChunk g s)) d := by
        intro d hd
        obtain ⟨i, -, h2, h3, -⟩ := (waiting_wrap hw' d).mp hd
        have := hset i h2
        omega
      refine
        { marks := hpaced.marks.wrap hflush.toInOrder hw'
          last := hpaced.last.wrap hw
          first := fun d hd => absurd hd (hno' d)
          check := ?_ }
      rw [timely_wrap hpaced.last hflush.toInOrder hw hno, ← hpaced.check, isChain_of_size_pos hpos]
      simp only [hno, hno', false_implies, implies_true]
  · rw [hw.leftMost] at h1
    rw [hw.tensorId, hflush.tensorId] at h2
    omega

/-- A new file: the segment that ends has bytes. -/
theorem Progress.openFile (h : Progress g ok a (b :: l) p s) (hab : a.1 < b.1)
    (hc : (b :: l).IsChain OffsetStep) (hr : Ready g a.2 s) :
    Progress g ok b l (.ofFile g (p.free g) b.1 b.2) (openFile g b.1 b.2 (pushChunk g s)) := by
  obtain ⟨pre, j, hfol⟩ := h.follows
  have hpos := h.alive.size_pos hab hc
  have hflush := pushChunk_flushed hr
  obtain ⟨t, rest, ht, -, -⟩ := exists_plan_eq g l b (.ofFile g (p.free g) b.1 b.2) hc rfl
  have hplan0 : plan g p (a :: b :: l) = p :: t :: rest := by rw [plan, if_pos hab.ne, ht]
  obtain ⟨hpaced, hset⟩ := h.flush hr hpos hplan0 rfl
  have hno := hset.not_waiting hflush.toInOrder
  have hset' : Settled (Layout.openFile g b.1 b.2 (pushChunk g s)) := hset
  obtain ⟨t', rest', hplan', hpaced'⟩ := h.paced
  refine
    { follows := ⟨_, 0, hfol.openFile hr b.1 b.2⟩
      alive := h.alive.openFile hab _
      paced := ⟨t, rest, ht, ?_⟩
      lap := fun i _ h2 h3 => absurd h3 (hset' i h2).ne
      newest := fun h0 => absurd h0 (Nat.lt_irrefl 0) }
  exact
    { marks := hpaced.marks.openFile
        (by rw [hflush.leftMost, hflush.tensorId]; exact (hpaced'.marks.flush hr.toInOrder).2) b.1 b.2
      last := ⟨hpaced.last.nonneg, hpaced.last.le, hpaced.last.mono⟩
      first := fun d hd => absurd hd (hno d)
      check := by
        rw [← hpaced.check, isChain_of_size_pos hpos]
        exact and_congr_right fun _ => and_congr_left fun _ =>
          ⟨fun _ d hd => absurd hd (hno d), fun _ d hd => absurd hd (hno d)⟩ }

theorem Progress.step (hs : LoopState g a (b :: l) s) (h : Progress g ok a (b :: l) p s)
    (hf : p.fileIndex = a.1) :
    ∃ p', Progress g ok b l p' (step g a b s) ∧ p'.fileIndex = b.1 := by
  have hr := hs.toReady
  have hc := (List.isChain_cons_cons.mp hs.chain).2
  unfold Layout.step
  split_ifs with hab
  · have hlt : a.1 < b.1 := by
      rcases (List.isChain_cons_cons.mp hs.chain).1 with ⟨he, -⟩ | he
      · exact absurd he.symm hab
      · omega
    exact ⟨_, h.openFile hlt hc hr, rfl⟩
  · have hab' := not_not.mp hab
    obtain ⟨hle, hn, hlt⟩ := hs.tensor hab'
    obtain ⟨pre, j, hfol⟩ := h.follows
    have hover := hfol.overflows_iff hr hle
    obtain ⟨e1, e2⟩ := makeRoom_tensorId hr (b.2 - a.2)
    have hready := makeRoom_ready hr (b.2 - a.2)
    unfold place
    unfold makeRoom at *
    split_ifs at * with hov
    · exact ⟨_, (h.wrap hab' hle hn hs.chain hf hr (hover.mp hov)).placeHere hab' hle hc hready
        (by rwa [e1, e2]) (ofLap_fits g hle hn), hab'⟩
    · exact ⟨_, h.placeHere hab' hle hc hr hlt (not_not.mp (hover.not.mp hov)), hf.trans hab'⟩

/-- After the main loop the last segment has bytes, so no tensor waits. -/
theorem Progress.close {z : ℕ × ℕ} (hs : LoopState g z [] s) (h : Progress g ok z [] p s) :
    LastOrdered (close g s) ∧ Watermark g (close g s) ∧ (Timely (close g s) ↔ ok) := by
  have hr := hs.toReady
  have hflush := pushChunk_flushed hr
  obtain ⟨s1, w1, w2, ho1⟩ := (close_closed hs).wrapped
  have hc := close_closed hs
  obtain ⟨t', rest', hplan', hpaced'⟩ := h.paced
  have hplan : plan g p [z] = [p] := by simp [plan]
  obtain ⟨hpaced, hset⟩ := h.flush hr h.alive.size_pos_of_end hplan rfl
  have hno := hset.not_waiting hflush.toInOrder
  have hl1 : LastOrdered s1 := hpaced.last.wrap w1
  have hno1 : ∀ d, ¬ Waiting s1 d := by
    have hset1 : Settled s1 := by
      intro i hi
      rw [bare_last (w1.bare_eq i), w1.chunks]
      exact hset i (w1.tensorId ▸ hi)
    exact hset1.not_waiting ho1
  refine ⟨hl1.wrap w2, hpaced'.marks.close hs, ?_⟩
  rw [timely_wrap hl1 ho1 w2 hno1, timely_wrap hpaced.last hflush.toInOrder w1 hno, ← hpaced.check]
  simp [hno]

end Progress

theorem start_progress {g : Geometry} {o : ℕ} {l : List (ℕ × ℕ)}
    (hv : (((0, o) : ℕ × ℕ) :: l).IsChain OffsetStep) (hne : FilesNonempty ((0, o) :: l)) :
    Progress g ((planOf g ((0, o) :: l)).IsChain (Clears g)) (0, o) l (.ofFile g 0 0 o)
      (start g ((0, o) :: l) o) := by
  obtain ⟨t, rest, ht, -, -⟩ := exists_plan_eq g l (0, o) (.ofFile g 0 0 o) hv rfl
  refine
    { follows := ⟨[], 0, start_follows g _ o⟩
      alive := start_alive hne 0
      paced := ⟨t, rest, ht, ?_⟩
      lap := fun i _ hi => absurd hi (Nat.not_lt_zero i)
      newest := fun h0 => absurd h0 (Nat.lt_irrefl 0) }
  have hno : ∀ d, ¬ Waiting (start g ((0, o) :: l) o) d := by
    rintro d ⟨i, -, hi, -⟩
    exact absurd hi (Nat.not_lt_zero i)
  have ht0 : Timely (start g ((0, o) :: l) o) := fun i hi => absurd hi (Nat.not_lt_zero i)
  exact
    { marks := start_watermark g _ o
      last := ⟨fun i hi => absurd hi (Nat.not_lt_zero i), fun i hi => absurd hi (Nat.not_lt_zero i),
        fun _ j _ hj => absurd hj (Nat.not_lt_zero j)⟩
      first := fun d hd => absurd hd (hno d)
      check := by
        rw [show planOf g ((0, o) :: l) = t :: rest from ht]
        exact ⟨fun h => h.2.2, fun h => ⟨ht0, fun d hd => absurd hd (hno d), h⟩⟩ }

/-- What the runtime relies on: the watermarks are chunk ids and reach the
last chunks, and both are in order. -/
structure ProgressLayout (l : Cursors) : Prop where
  last_le : ∀ t ∈ l.tensors, t.lastChunkId ≤ t.prefetchChunkId
  prefetch_lt : ∀ t ∈ l.tensors, t.prefetchChunkId < l.chunks.length
  prefetch_mono : ∀ i j, i ≤ j → j < l.tensors.length →
    (l.tensor i).prefetchChunkId ≤ (l.tensor j).prefetchChunkId
  last_mono : ∀ i j, i ≤ j → j < l.tensors.length →
    (l.tensor i).lastChunkId ≤ (l.tensor j).lastChunkId

/-- The layout, its last chunks and its watermarks at the end of the run. -/
theorem exists_layout_progress {g : Geometry} {offs : List (ℕ × ℕ)} (h : ValidOffsets g offs)
    (hne : FilesNonempty offs) :
    ∃ l, computeLayout g offs = .ok l ∧ (∀ t ∈ l.tensors, 0 ≤ t.lastChunkId) ∧
      (ProgressLayout l ↔ (planOf g offs).IsChain (Clears g)) := by
  obtain ⟨s, z, hl, hs, p, hq, -⟩ := computeLayout_induct h
    (Q := fun a l s => ∃ p, Progress g ((planOf g offs).IsChain (Clears g)) a l p s ∧ p.fileIndex = a.1)
    (fun o l ho => by subst ho; exact ⟨_, start_progress h.chain hne, rfl⟩)
    (fun a b l s hs ⟨p, hq, hf⟩ => hq.step hs hf)
  obtain ⟨hlast, hmarks, htimely⟩ := hq.close hs
  have hc := close_closed hs
  have hin := hc.inBuffer
  have hid : (close g s).tensorId = (close g s).tensors.length := by
    obtain ⟨s1, w1, w2, -⟩ := hc.wrapped
    rw [hc.length, w2.tensorId, w1.tensorId, (pushChunk_flushed hs.toReady).tensorId]
  refine ⟨_, hl, fun t hm => ?_, ?_⟩
  · obtain ⟨i, hi⟩ := List.getElem?_of_mem hm
    obtain ⟨hlt, rfl⟩ := tensor_of_getElem? hi
    exact hlast.nonneg i (by rwa [hid])
  rw [← htimely]
  constructor
  · intro hp i hi
    rw [hin] at hi
    refine hp.last_le _ ?_
    rw [Cursors.tensor, List.getD_eq_getElem?_getD, List.getElem?_eq_getElem hi]
    exact List.getElem_mem hi
  · intro ht
    refine
      { last_le := fun t hm => ?_
        prefetch_lt := fun t hm => ?_
        prefetch_mono := fun i j hij hj => hmarks.mono i j hij (by rwa [hin])
        last_mono := fun i j hij hj => hlast.mono i j hij (by rwa [hid]) }
    · obtain ⟨i, hi⟩ := List.getElem?_of_mem hm
      obtain ⟨hlt, rfl⟩ := tensor_of_getElem? hi
      exact ht i (by rwa [hin])
    · obtain ⟨i, hi⟩ := List.getElem?_of_mem hm
      obtain ⟨hlt, rfl⟩ := tensor_of_getElem? hi
      exact (hmarks.past i (by rwa [hin])).1

/-- **When a layout makes progress.** If every file has a tensor with bytes,
the watermarks reach the last chunks if and only if no first chunk of a
segment reaches a segment without bytes in front of it. -/
theorem progress_iff (g : Geometry) (offs : List (ℕ × ℕ)) (h : ValidOffsets g offs)
    (hne : FilesNonempty offs) :
    ∃ l, computeLayout g offs = .ok l ∧ (ProgressLayout l ↔ (planOf g offs).IsChain (Clears g)) := by
  obtain ⟨l, hl, -, hiff⟩ := exists_layout_progress h hne
  exact ⟨l, hl, hiff⟩

theorem progress_iff_nineTensors :
    FilesNonempty nineTensors ∧ ∃ l, computeLayout pageRing nineTensors = .ok l ∧ ProgressLayout l := by
  have hne : FilesNonempty nineTensors := by decide
  obtain ⟨l, hl, hiff⟩ := progress_iff pageRing nineTensors nineTensors_valid hne
  exact ⟨hne, l, hl, hiff.mpr (by decide)⟩

/-- One rank, eight pages to a chunk. -/
def eightPageRing : Geometry :=
  initBuffer 4096 1 32768 1 32768 page_pos Nat.one_pos eightPages_pos Nat.one_pos

/-- A file of seven pages, then a file whose first tensor has no bytes and
whose second has eight pages. -/
def emptyAtRingEnd : List (ℕ × ℕ) := [(0, 4096), (0, 32768), (1, 4096), (1, 4096), (1, 36864)]

/-- The tensor without bytes stands at device offset 28704 and gets last chunk
1; the tensor behind it goes to the next lap, its first chunk, chunk 1, ends
at 32784, and the watermark of the tensor without bytes is chunk 0. -/
theorem empty_tensor_behind_watermark :
    ValidOffsets eightPageRing emptyAtRingEnd ∧ FilesNonempty emptyAtRingEnd ∧
      ∃ l, computeLayout eightPageRing emptyAtRingEnd = .ok l ∧
        ⟨0, 1, 4096, 28704, 1, 0⟩ ∈ l.tensors ∧ ¬ ProgressLayout l := by
  refine ⟨⟨⟨4096, rfl⟩, by decide, by decide⟩, by decide, ?_⟩
  obtain ⟨l, hl, hp⟩ := exists_ok_of_any eightPageRing emptyAtRingEnd
    (fun l => decide ((⟨0, 1, 4096, 28704, 1, 0⟩ : TensorMetadate) ∈ l.tensors)) (by decide)
  have hmem := of_decide_eq_true hp
  exact ⟨l, hl, hmem, fun h => absurd (h.last_le _ hmem) (by decide)⟩

end Layout
end Siphon
