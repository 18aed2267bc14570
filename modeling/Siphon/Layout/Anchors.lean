/-
# Which tensors keep two chunks apart

A chunk may land on the bytes of a chunk of an earlier lap. If a tensor that
needs the earlier chunk has its watermark in front of the later one, the later
chunk is not posted before that tensor is left behind; the tensor keeps the
two apart (`Guarded`). Every chunk of a file that starts on a page has such a
tensor, its anchor: the tensor that the chunk's first byte belongs to, or the
first tensor of the lap, which starts on the ring's first page. The prefix of
the first page counts for no tensor, so a later file that does not start on a
page has a chunk without an anchor.
-/
import Siphon.Layout.Progress
import Siphon.Layout.Watermark

namespace Siphon
namespace Layout

open Rounding

/-- A tensor that needs chunk `k₀` has a watermark in front of chunk `k`. -/
def KeptApart (tensors : List TensorMetadate) (k₀ k : ℕ) : Prop :=
  ∃ t ∈ tensors, (k₀ : ℤ) ≤ t.lastChunkId ∧ t.prefetchChunkId < k

/-- Chunks that collide are kept apart. -/
def Guarded (g : Geometry) (tensors : List TensorMetadate) (chunks : List Chunk) : Prop :=
  ∀ (k₀ k : ℕ) (c₀ c : Chunk), chunks[k₀]? = some c₀ → chunks[k]? = some c → k₀ < k →
    overlap g c₀ c → KeptApart tensors k₀ k

/-- Every file but the first starts its tensors on a page. -/
def PageStarts (g : Geometry) (offs : List (ℕ × ℕ)) : Prop :=
  offs.IsChain fun a b => a.1 = b.1 ∨ g.rankAlignment ∣ b.2

instance (g : Geometry) (offs : List (ℕ × ℕ)) : Decidable (PageStarts g offs) := by
  unfold PageStarts; infer_instance

/-! ### Anchors -/

/-- The tensor needs the chunk, and starts in front of the chunk's bytes or on
the first page of the ring. -/
def Anchors (g : Geometry) (t : TensorMetadate) (k dev : ℕ) : Prop :=
  (k : ℤ) ≤ t.lastChunkId ∧ t.deviceBufferOffset ≤ max dev g.rankAlignment

theorem Anchors.congr {g : Geometry} {t t' : TensorMetadate} {k dev : ℕ} (h : Anchors g t k dev)
    (e : bare t' = bare t) : Anchors g t' k dev := by
  obtain ⟨h1, h2⟩ := h
  exact ⟨by rwa [bare_last e], by rwa [bare_deviceOffset e]⟩

/-- A tensor of this lap is the chunk's anchor, or the tensor that is being
placed, at device offset `pending`, will be. -/
def Here (g : Geometry) (s : Cursors) (pending : Option ℕ) (k dev : ℕ) : Prop :=
  (∃ i, s.leftMostTensorId ≤ i ∧ i < s.tensorId ∧ Anchors g (s.tensor i) k dev) ∨
    ∃ d ∈ pending, d ≤ max dev g.rankAlignment

/-- A tensor of an earlier lap is the chunk's anchor; one that has its
watermark needs only to need the chunk. -/
def Before (g : Geometry) (s : Cursors) (k dev : ℕ) : Prop :=
  ∃ i < s.leftMostTensorId, (i < s.inBufferTensorId ∧ (k : ℤ) ≤ (s.tensor i).lastChunkId) ∨
    Anchors g (s.tensor i) k dev

/-- A tensor with a watermark keeps the two chunks apart. -/
def Apart (s : Cursors) (k₀ k : ℕ) : Prop :=
  ∃ i < s.inBufferTensorId, (k₀ : ℤ) ≤ (s.tensor i).lastChunkId ∧ (s.tensor i).prefetchChunkId < k

/-- Every finished chunk has its anchor, and those that collide are kept apart. -/
structure Anchored (g : Geometry) (pending : Option ℕ) (s : Cursors) : Prop where
  pos : 0 < s.chunkDeviceBufferOffset
  anchor : ∀ (k : ℕ) (c : Chunk), s.chunks[k]? = some c → Before g s k c.deviceBufferOffset ∨
    (c.deviceBufferOffset + roundUp c.size g.worldChunkAlignment ≤ s.chunkDeviceBufferOffset ∧
      Here g s pending k c.deviceBufferOffset)
  apart : ∀ (k₀ k : ℕ) (c₀ c : Chunk), s.chunks[k₀]? = some c₀ → s.chunks[k]? = some c → k₀ < k →
    overlap g c₀ c → Apart s k₀ k

/-- The open chunk has its anchor. -/
def OpenAnchored (g : Geometry) (pending : Option ℕ) (s : Cursors) : Prop :=
  Here g s pending s.chunks.length s.chunkDeviceBufferOffset

theorem getElem?_concat {cs : List Chunk} {new c : Chunk} {k : ℕ} (h : (cs ++ [new])[k]? = some c) :
    cs[k]? = some c ∨ k = cs.length ∧ c = new := by
  rcases lt_trichotomy k cs.length with hlt | rfl | hgt
  · exact Or.inl (by rwa [List.getElem?_append_left hlt] at h)
  · simp only [List.getElem?_concat_length, Option.some.injEq] at h
    exact Or.inr ⟨rfl, h.symm⟩
  · rw [List.getElem?_eq_none (by simp; omega)] at h
    cases h

section Steps

variable {g : Geometry} {s s' : Cursors} {pending : Option ℕ} {o : ℕ}

theorem Here.congr {k dev : ℕ} (h : Here g s pending k dev) (hlm : s'.leftMostTensorId = s.leftMostTensorId)
    (hid : s'.tensorId = s.tensorId) (hb : ∀ i, bare (s'.tensor i) = bare (s.tensor i)) :
    Here g s' pending k dev := by
  rcases h with ⟨i, h1, h2, ha⟩ | h
  · exact Or.inl ⟨i, by omega, by omega, ha.congr (hb i)⟩
  · exact Or.inr h

theorem Here.toPending {k dev : ℕ} (h : Here g s none k dev) (d : Option ℕ) : Here g s d k dev := by
  rcases h with h | ⟨d, hd, -⟩
  · exact Or.inl h
  · cases hd

theorem Before.push {k dev : ℕ} (h : Before g s k dev) (hp : Pushed g s s') : Before g s' k dev := by
  obtain ⟨i, hi, ha⟩ := h
  have hb := hp.bare_eq i
  have hge := hp.inBuffer_ge
  refine ⟨i, hp.leftMost ▸ hi, ha.imp (fun h => ⟨by omega, ?_⟩) fun h => h.congr hb⟩
  rw [bare_last hb]
  exact h.2

theorem Apart.push {k₀ k : ℕ} (h : Apart s k₀ k) (hp : Pushed g s s') : Apart s' k₀ k := by
  obtain ⟨i, hi, h1, h2⟩ := h
  have hkept := hp.kept i (Or.inl hi)
  exact ⟨i, hi.trans_le hp.inBuffer_ge, hkept ▸ h1, hkept ▸ h2⟩

/-- The new chunk and one of an earlier lap that it collides with: the
earlier chunk's anchor gets its watermark now at the latest. -/
theorem Before.apart {k : ℕ} {c : Chunk} (h : Before g s k c.deviceBufferOffset) (hw : Watermark g s)
    (hp : Pushed g s s') (hpos : 0 < s.chunkDeviceBufferOffset) (hsize : 0 < s.currentChunkSize)
    (hc : overlap g c (openChunk s)) : Apart s' k s.chunks.length := by
  obtain ⟨i, hi, ha⟩ := h
  have hlast : (k : ℤ) ≤ (s'.tensor i).lastChunkId := by
    rw [bare_last (hp.bare_eq i)]
    exact ha.elim And.right And.left
  by_cases hold : i < s.inBufferTensorId
  · refine ⟨i, hold.trans_le hp.inBuffer_ge, hlast, ?_⟩
    rw [hp.kept i (Or.inl hold)]
    exact (hw.past i hold).1
  · have hlow : (s.tensor i).deviceBufferOffset < s'.chunkDeviceBufferOffset := by
      have hoff := (ha.resolve_left fun h => hold h.1).2
      have hcur := hc.1
      have hpage : g.rankAlignment ≤ roundUp s.currentChunkSize g.worldChunkAlignment :=
        (Nat.le_of_dvd g.worldChunkAlignment_pos g.rankAlignment_dvd_worldChunkAlignment).trans
          (Nat.le_of_dvd (hsize.trans_le (le_roundUp g.worldChunkAlignment_pos _)) (dvd_roundUp _ _))
      rw [hp.deviceOffset]
      simp only [openChunk] at hcur
      omega
    have hin : i < s'.inBufferTensorId := by
      by_contra hno
      have hstop := hp.stop ((not_lt.mp hno).trans_lt hi)
      have hmono := hw.prevLap _ i hp.inBuffer_ge (not_lt.mp hno) hi
      omega
    refine ⟨i, hin, hlast, ?_⟩
    rw [(hp.assigned i (not_lt.mp hold) hin).1]
    omega

theorem Anchored.push (h : Anchored g pending s) (hopen : OpenAnchored g pending s) (hw : Watermark g s)
    (hp : Pushed g s s') (hsize : 0 < s.currentChunkSize) : Anchored g pending s' where
  pos := by
    rw [hp.deviceOffset]
    exact h.pos.trans_le (Nat.le_add_right _ _)
  anchor := by
    intro k c hc
    rw [hp.chunks] at hc
    rcases getElem?_concat hc with hc | ⟨rfl, rfl⟩
    · rcases h.anchor k c hc with hb | ⟨h1, h2⟩
      · exact Or.inl (hb.push hp)
      · refine Or.inr ⟨?_, h2.congr hp.leftMost hp.tensorId hp.bare_eq⟩
        rw [hp.deviceOffset]
        exact h1.trans (Nat.le_add_right _ _)
    · exact Or.inr ⟨hp.deviceOffset.ge, hopen.congr hp.leftMost hp.tensorId hp.bare_eq⟩
  apart := by
    intro k₀ k c₀ c hc₀ hc hlt hcol
    rw [hp.chunks] at hc₀ hc
    rcases getElem?_concat hc with hc | ⟨rfl, rfl⟩
    · rcases getElem?_concat hc₀ with hc₀ | ⟨rfl, -⟩
      · exact (h.apart k₀ k c₀ c hc₀ hc hlt hcol).push hp
      · have := (List.getElem?_eq_some_iff.mp hc).1
        omega
    · rcases getElem?_concat hc₀ with hc₀ | ⟨rfl, -⟩
      · rcases h.anchor k₀ c₀ hc₀ with hb | ⟨hend, -⟩
        · exact hb.apart hw hp h.pos hsize hcol
        · exact absurd hcol.2 (not_lt.mpr hend)
      · exact absurd hlt (lt_irrefl _)

theorem Anchored.flush (h : Anchored g none s) (hopen : 0 < s.currentChunkSize → OpenAnchored g none s)
    (hw : Watermark g s) (ho : InOrder s) : Anchored g none (pushChunk g s) := by
  rcases Nat.eq_zero_or_pos s.currentChunkSize with h0 | hpos
  · rwa [pushChunk_empty g h0]
  · exact h.push (hopen hpos) hw (pushChunk_pushed g ho hpos) hpos

/-- After a reset all chunks are of an earlier lap. -/
theorem Anchored.wrap (h : Anchored g none s) (ho : InOrder s) (hw : Wrapped s.tensorId s s') :
    Anchored g none s' where
  pos := by
    have := Nat.mod_lt s.currentChunkSize (show 0 < firstTensorAlignment by decide)
    rw [hw.deviceOffset]
    omega
  anchor := by
    intro k c hc
    rw [hw.chunks] at hc
    left
    rcases h.anchor k c hc with ⟨i, hi, ha⟩ | ⟨-, ⟨i, -, hi, ha⟩ | ⟨d, hd, -⟩⟩
    · refine ⟨i, ?_, Or.inl ⟨hw.inBuffer ▸ hi, ?_⟩⟩
      · rw [hw.leftMost]
        exact hi.trans_le ho.leftMost_le
      · rw [bare_last (hw.bare_eq i)]
        exact ha.elim And.right And.left
    · exact ⟨i, hw.leftMost ▸ hi, Or.inr (ha.congr (hw.bare_eq i))⟩
    · cases hd
  apart := by
    intro k₀ k c₀ c hc₀ hc hlt hcol
    rw [hw.chunks] at hc₀ hc
    obtain ⟨i, hi, h1, h2⟩ := h.apart k₀ k c₀ c hc₀ hc hlt hcol
    have hkept := hw.kept i (Or.inl hi)
    exact ⟨i, by rw [hw.inBuffer]; exact hi.trans_le ho.inBuffer_le, hkept ▸ h1, hkept ▸ h2⟩

/-- A new file starts behind the padding of the last one. -/
theorem Anchored.openFile (h : Anchored g none s) (f o : ℕ) : Anchored g none (openFile g f o s) where
  pos := by
    have := Nat.mod_lt (o % g.rankAlignment) (show 0 < firstTensorAlignment by decide)
    simp only [Layout.openFile]
    omega
  anchor := by
    intro k c hc
    refine (h.anchor k c hc).imp_right (And.imp_left fun h1 => h1.trans ?_)
    have h3 := le_roundUp (y := firstTensorAlignment) (by decide) s.chunkDeviceBufferOffset
    have h4 := Nat.mod_lt (o % g.rankAlignment) (show 0 < firstTensorAlignment by decide)
    simp only [Layout.openFile]
    omega
  apart := h.apart

/-- A tensor is being placed at device offset `d`. -/
theorem Anchored.toPending (h : Anchored g none s) (d : Option ℕ) : Anchored g d s where
  pos := h.pos
  anchor := fun k c hc => (h.anchor k c hc).imp_right (And.imp_right fun h2 => h2.toPending d)
  apart := h.apart

/-- The open chunk is the prefix of its first page, on the first page of the
ring, or has its anchor. -/
def Fresh (g : Geometry) (s : Cursors) : Prop :=
  s.chunkDeviceBufferOffset + s.currentChunkSize ≤ g.rankAlignment

/-- The split loop: the tensor that is being placed anchors the chunks that it
starts in front of. -/
theorem Anchored.fillTensor (h : Anchored g none s) (hw : Watermark g s) (hr : Ready g o s)
    (hopen : 0 < s.currentChunkSize → Fresh g s ∨ OpenAnchored g none s) (n : ℕ) :
    Anchored g (some (s.chunkDeviceBufferOffset + s.currentChunkSize)) (fillTensor g n s).1 ∧
      OpenAnchored g (some (s.chunkDeviceBufferOffset + s.currentChunkSize)) (fillTensor g n s).1 := by
  set d := s.chunkDeviceBufferOffset + s.currentChunkSize with hd
  have hQ := fill_induct (g := g) (Q := fun s' left => Filling g o n s s' left ∧ Watermark g s' ∧
      Anchored g (some d) s' ∧ OpenAnchored g (some d) s' ∧ d ≤ s'.chunkDeviceBufferOffset + g.worldChunkSize)
    (fun s' left ⟨hf, hw', ha, hop, hle⟩ hlt => by
      have hp := full_pushed (g := g) hf.toInOrder
      have hdev := full_deviceOffset (g := g) hf.toInOrder
      have ha' : Anchored g (some d) (Layout.full g s') := ⟨ha.pos, ha.anchor, ha.apart⟩
      refine ⟨hf.full hlt, (hw'.full hf.le).push ⟨hf.inBuffer_le, hf.leftMost_le, hf.tensorId_le⟩ hp,
        ha'.push hop (hw'.full hf.le) hp g.worldChunkSize_pos, Or.inr ⟨d, rfl, ?_⟩, ?_⟩
      · rw [hdev]
        exact hle.trans (le_max_left _ _)
      · rw [hdev]
        exact hle.trans (Nat.le_add_right _ _))
    (s.currentChunkSize + n + 1) s n
    ⟨.refl hr, hw, h.toPending _, ?_, Nat.add_le_add_left hr.le _⟩
  · exact ⟨hQ.2.2.1, hQ.2.2.2.1⟩
  · -- the tensor starts behind the anchored bytes, on the first page, or with the chunk
    rcases Nat.eq_zero_or_pos s.currentChunkSize with h0 | hpos
    · exact Or.inr ⟨d, rfl, by rw [hd, h0]; exact le_max_left _ _⟩
    · rcases hopen hpos with hfresh | hop
      · exact Or.inr ⟨d, rfl, le_max_of_le_right hfresh⟩
      · exact hop.toPending _

theorem Anchored.placeHere (h : Anchored g none s) (hw : Watermark g s) (hr : Ready g o s)
    (hopen : 0 < s.currentChunkSize → Fresh g s ∨ OpenAnchored g none s)
    (hlt : s.tensorId < s.tensors.length) (f n : ℕ) :
    Anchored g none (placeHere g f o n s) ∧ OpenAnchored g none (placeHere g f o n s) := by
  have hf := fillTensor_filling hr n
  obtain ⟨ha, hop⟩ := h.fillTensor hw hr hopen n
  have hends := hr.ends
  set r := Layout.fillTensor g n s with hr'
  have hlt' : r.1.tensorId < r.1.tensors.length := by rw [hf.tensorId, hf.length]; exact hlt
  have ht : ∀ i, (Layout.placeHere g f o n s).tensor i =
      if i = r.1.tensorId then ⟨n, f, o, o - s.chunkFileOffset + s.chunkDeviceBufferOffset,
        r.1.chunks.length, 0⟩ else r.1.tensor i := tensor_record hlt' f o n _ _
  have hle := hf.leftMost_le
  have hib := hf.inBuffer_le
  -- what waited for the tensor has it now
  have hhere : ∀ k dev : ℕ, (k : ℤ) ≤ r.1.chunks.length →
      Here g r.1 (some (s.chunkDeviceBufferOffset + s.currentChunkSize)) k dev →
      Here g (Layout.placeHere g f o n s) none k dev := by
    intro k dev hk hh
    left
    rcases hh with ⟨i, h1, h2, h3⟩ | ⟨d, hd, h3⟩
    · refine ⟨i, h1, h2.trans (Nat.lt_succ_self _), ?_⟩
      rw [ht, if_neg (by omega)]
      exact h3
    · refine ⟨r.1.tensorId, hle, Nat.lt_succ_self _, ?_⟩
      rw [ht, if_pos rfl]
      obtain rfl := Option.mem_some_iff.mp hd
      exact ⟨hk, by simp only; omega⟩
  have hkept : ∀ i < r.1.leftMostTensorId, (Layout.placeHere g f o n s).tensor i = r.1.tensor i := by
    intro i hi
    rw [ht, if_neg (by omega)]
  refine ⟨⟨ha.pos, fun k c hc => ?_, fun k₀ k c₀ c hc₀ hc h1 h2 => ?_⟩, hhere _ _ le_rfl hop⟩
  · have hk : k < r.1.chunks.length := (List.getElem?_eq_some_iff.mp hc).1
    rcases ha.anchor k c hc with ⟨i, hi, hb⟩ | ⟨h1, h2⟩
    · refine Or.inl ⟨i, hi, ?_⟩
      rw [hkept i hi]
      exact hb
    · exact Or.inr ⟨h1, hhere k _ (by omega) h2⟩
  · obtain ⟨i, hi, h3⟩ := ha.apart k₀ k c₀ c hc₀ hc h1 h2
    refine ⟨i, hi, ?_⟩
    rw [hkept i (hi.trans_le hib)]
    exact h3

/-- A tensor behind a page prefix on the first page of the ring fits. -/
theorem Fresh.not_overflows (h : Fresh g s) {n : ℕ} (hn : n ≤ g.effectiveBufferSize) :
    ¬ overflows g n s := by
  have h1 := roundUp_lt g.worldChunkAlignment_pos (s.currentChunkSize + n)
  unfold Fresh at h
  unfold overflows Geometry.bufferSize
  omega

theorem Anchored.place (h : Anchored g none s) (hw : Watermark g s) (hr : Ready g o s)
    (h16 : firstTensorAlignment ∣ g.rankAlignment)
    (hopen : 0 < s.currentChunkSize → Fresh g s ∨ OpenAnchored g none s)
    (hlt : s.tensorId < s.tensors.length) (f : ℕ) {o' : ℕ} (hn : o' - o ≤ g.effectiveBufferSize) :
    Anchored g none (place g f o o' s) ∧ OpenAnchored g none (place g f o o' s) := by
  obtain ⟨e1, e2⟩ := makeRoom_tensorId hr (o' - o)
  have hroom := makeRoom_ready hr (o' - o)
  have hw' := hw.makeRoom hr (o' - o)
  unfold Layout.place
  unfold makeRoom at *
  split_ifs at * with hover
  · -- a new lap: the open chunk is not fresh, and the rest of its page starts the ring
    have hf := pushChunk_flushed hr
    have hwr := wrapRing_wrapped hf.toInOrder s.tensorId
    have hflush := h.flush (fun hpos => (hopen hpos).resolve_left fun hfr => hfr.not_overflows hn hover) hw
      hr.toInOrder
    refine (hflush.wrap hf.toInOrder (hf.tensorId ▸ hwr)).placeHere hw' hroom (fun _ => Or.inl ?_)
      (by rwa [e1, e2]) f _
    obtain ⟨q, hq⟩ := h16
    have hlt := hf.lt
    rw [Fresh, hwr.deviceOffset, hwr.size]
    rw [hq] at hlt ⊢
    unfold firstTensorAlignment at *
    omega
  · exact h.placeHere hw hr hopen hlt f _

end Steps

/-! ### The main loop -/

/-- The anchors before a pair of the main loop. An open chunk that has no
anchor is the page prefix of the first file, which has a tensor. -/
structure LoopAnchored (g : Geometry) (a : ℕ × ℕ) (l : List (ℕ × ℕ)) (s : Cursors) : Prop where
  watermark : Watermark g s
  anchored : Anchored g none s
  opened : 0 < s.currentChunkSize → OpenAnchored g none s ∨ Fresh g s ∧ ∃ b l', l = b :: l' ∧ a.1 = b.1
  pages : PageStarts g (a :: l)

theorem LoopAnchored.step {g : Geometry} (h16 : firstTensorAlignment ∣ g.rankAlignment) {a b : ℕ × ℕ}
    {l : List (ℕ × ℕ)} {s : Cursors} (hs : LoopState g a (b :: l) s) (h : LoopAnchored g a (b :: l) s) :
    LoopAnchored g b l (step g a b s) := by
  have hr := hs.toReady
  obtain ⟨hab, hpages⟩ := List.isChain_cons_cons.mp h.pages
  refine ⟨h.watermark.step hs, ?_, ?_, hpages⟩ <;> unfold Layout.step <;> split_ifs with hne
  · refine (h.anchored.flush (fun hpos => ?_) h.watermark hr.toInOrder).openFile b.1 b.2
    refine (h.opened hpos).resolve_right ?_
    rintro ⟨-, b', l', he, hsame⟩
    obtain ⟨rfl, rfl⟩ := List.cons.inj he
    exact hne hsame
  · obtain ⟨-, hn, hlt⟩ := hs.tensor (not_not.mp hne)
    exact (h.anchored.place h.watermark hr h16 (fun hpos => (h.opened hpos).symm.imp_left And.left) hlt a.1 hn).1
  · intro hpos
    have := Nat.mod_eq_zero_of_dvd (hab.resolve_left hne)
    simp only [Layout.openFile] at hpos
    omega
  · obtain ⟨-, hn, hlt⟩ := hs.tensor (not_not.mp hne)
    exact fun _ => Or.inl
      (h.anchored.place h.watermark hr h16 (fun hpos => (h.opened hpos).symm.imp_left And.left) hlt a.1 hn).2

theorem start_loopAnchored {g : Geometry} (h16 : firstTensorAlignment ∣ g.rankAlignment) {o : ℕ}
    {l : List (ℕ × ℕ)} (hchain : ((0, o) :: l).IsChain OffsetStep) (hne : FilesNonempty ((0, o) :: l))
    (hpages : PageStarts g ((0, o) :: l)) : LoopAnchored g (0, o) l (start g ((0, o) :: l) o) where
  watermark := start_watermark g _ o
  anchored :=
    { pos := by
        have := Nat.mod_lt (o % g.rankAlignment) (show 0 < firstTensorAlignment by decide)
        simp only [start, openFile]
        omega
      anchor := fun k c hc => by simp [start, openFile, initialCursors] at hc
      apart := fun k₀ k c₀ c hc₀ => by simp [start, openFile, initialCursors] at hc₀ }
  opened := by
    intro _
    refine Or.inr ⟨?_, ?_⟩
    · obtain ⟨q, hq⟩ := h16
      have hlt := Nat.mod_lt o g.rankAlignment_pos
      have hzero : roundUp 0 firstTensorAlignment = 0 := roundUp_zero (by decide)
      simp only [Fresh, start, openFile, initialCursors, hzero]
      rw [hq] at hlt ⊢
      unfold firstTensorAlignment at *
      omega
    · obtain ⟨r, hr, hfile, -⟩ := hne (0, o) List.mem_cons_self
      cases l with
      | nil => simp [tensorRanges] at hr
      | cons b l' =>
        refine ⟨b, l', rfl, ?_⟩
        by_contra hab
        rw [tensorRanges, if_neg hab] at hr
        obtain ⟨hstep, hl⟩ := List.isChain_cons_cons.mp hchain
        have hle := le_of_mem_tensorRanges l' b hl r hr
        rcases hstep with ⟨he, -⟩ | he
        · exact hab he.symm
        · simp only at he hfile
          omega
  pages := hpages

/-- **Tensors keep colliding chunks apart.** If every file but the first
starts its tensors on a page, and no file is empty, then of two chunks that
collide on the device the earlier is needed by a tensor whose watermark is in
front of the later. -/
theorem computeLayout_guarded (g : Geometry) (offs : List (ℕ × ℕ)) (h : ValidOffsets g offs)
    (hne : FilesNonempty offs) (hpages : PageStarts g offs) (h16 : firstTensorAlignment ∣ g.rankAlignment) :
    ∃ l, computeLayout g offs = .ok l ∧ Guarded g l.tensors l.chunks := by
  obtain ⟨s, z, hl, hs, hq⟩ := computeLayout_induct h (Q := fun a l s => LoopAnchored g a l s)
    (fun o l ho => by subst ho; exact start_loopAnchored h16 h.chain hne hpages)
    (fun _ _ _ _ hs hq => hq.step h16 hs)
  have hflush := hq.anchored.flush (fun hpos => (hq.opened hpos).resolve_right (by simp)) hq.watermark
    hs.toInOrder
  have hf := pushChunk_flushed hs.toReady
  have hc := close_closed hs
  obtain ⟨s1, hw1, hw2, ho1⟩ := hc.wrapped
  have h1 := hflush.wrap hf.toInOrder (hf.tensorId ▸ hw1)
  have h2 := h1.wrap ho1 (by rw [hw1.tensorId, hf.tensorId]; exact hw2)
  refine ⟨_, hl, fun k₀ k c₀ c hc₀ hck hlt hcol => ?_⟩
  obtain ⟨i, hi, h3, h4⟩ := h2.apart k₀ k c₀ c hc₀ hck hlt hcol
  have hi' : i < (close g s).tensors.length := hi.trans_le hc.inBuffer.le
  refine ⟨(close g s).tensor i, ?_, h3, h4⟩
  simp [Cursors.tensor, List.getD_eq_getElem?_getD, hi']

end Layout
end Siphon
