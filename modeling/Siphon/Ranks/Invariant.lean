/-
# What every order of the ranks' steps keeps

`Base` holds in every state of the group: each rank's thread is in a state of
`Siphon.Runtime`, a chunk moves from the post over the copy and the exchange
to the completion, and a host window holds the slice that was read into it
until the slice is copied, because the window's next chunk is posted only
when this one is complete.
-/
import Siphon.Ranks.Model
import Siphon.Runtime.Ticks

namespace Siphon
namespace Ranks

open Rounding Memory Io Siphon.Runtime

/-- A layout that the loader is correct for, with tensors, and with chunks of
the right sizes. -/
structure Setup.Ok (w : Setup) : Prop where
  sound : Sound w.config
  nonempty : w.tensors ≠ []
  sizes : ∀ c ∈ w.chunks, 0 < c.size ∧ c.size ≤ w.g.worldChunkSize

/-! ### The chunks that a thread posts -/

/-- The chunks that a rank's loader has posted lie in front of the current
tensor's watermark. -/
theorem posted_le {cfg : Runtime.Config} (hs : Sound cfg) {v : Loader × Pc} (h : (loader cfg).Reachable v) {k : ℕ}
    (hk : k ∈ v.1.posted) {t : TensorMetadate} (ht : cfg.tensors[v.1.currentTensorIndex]? = some t) :
    (k : ℤ) ≤ t.prefetchChunkId := by
  obtain ⟨posts, next, hc, hle⟩ := (Runtime.reachable_inv hs h).core
  have hlt : k < v.1.posted.length := List.mem_range.mp (hc.posted_eq ▸ hk)
  have hlen := hc.posted_length
  have hpre := hc.prefetch t ht
  omega

theorem exists_current {cfg : Runtime.Config} (hs : Sound cfg) (hne : cfg.tensors ≠ []) {v : Loader × Pc}
    (h : (loader cfg).Reachable v) : ∃ t ∈ cfg.tensors, cfg.tensors[v.1.currentTensorIndex]? = some t := by
  obtain ⟨posts, next, hc, -⟩ := (Runtime.reachable_inv hs h).core
  have ht := List.getElem?_eq_getElem (hc.index hne)
  exact ⟨_, List.mem_of_getElem? ht, ht⟩

/-! ### The bytes of a chunk -/

namespace Setup

variable (w : Setup)

/-- `padded_rank_size`, which is the same on all ranks. -/
def slot (k : ℕ) : ℕ := (w.params 0 k).paddedRankSize

/-- The chunk's id is one of the layout's. -/
def Has (k : ℕ) : Prop := k < w.chunks.length

variable {w} {rank k b : ℕ}

theorem Ok.size (h : w.Ok) (hk : w.Has k) : 0 < (w.chunk k).size ∧ (w.chunk k).size ≤ w.g.worldChunkSize := by
  have hk' : k < w.chunks.length := hk
  have hc : w.chunk k = w.chunks[k] := by simp [chunk, List.getD_eq_getElem?_getD, hk']
  exact hc ▸ h.sizes _ (List.getElem_mem hk')

theorem params_rankDst (rank k : ℕ) :
    (w.params rank k).rankDst = (w.chunk k).deviceBufferOffset + w.slot k * rank := rfl

theorem slot_mul (k : ℕ) : w.slot k * w.g.worldSize = roundUp (w.chunk k).size w.g.worldChunkAlignment :=
  paddedRankSize_mul w.g 0 k (w.chunk k)

theorem rankSize_le_slot (rank k : ℕ) : (w.params rank k).rankSize ≤ w.slot k := rankSize_le

/-- The place of byte `b` of the chunk in the slice of its owner. -/
theorem Ok.byte (h : w.Ok) (hk : w.Has k) (hb : b < (w.chunk k).size) :
    b / w.slot k < w.g.worldSize ∧ w.slot k * (b / w.slot k) + b % w.slot k = b ∧
      b % w.slot k < (w.params (b / w.slot k) k).rankSize := by
  have hpos := (h.size hk).1
  have hslot : 0 < w.slot k := paddedRankSize_pos hpos
  have hlt : b < w.slot k * w.g.worldSize := hb.trans_le le_paddedRankSize_mul
  have hmem : b ∈ slice (ioParams w.g (b / w.slot k) k (w.chunk k)) := (mem_slice_iff hpos).mpr ⟨hb, rfl⟩
  have hsplit : w.slot k * (b / w.slot k) + b % w.slot k = b := Nat.div_add_mod b _
  refine ⟨(Nat.div_lt_iff_lt_mul hslot).mpr (Nat.mul_comm _ w.g.worldSize ▸ hlt), hsplit, ?_⟩
  rw [slice, Finset.mem_Ico] at hmem
  obtain ⟨-, hmem⟩ := hmem
  change b < w.slot k * (b / w.slot k) + (w.params (b / w.slot k) k).rankSize at hmem
  omega

/-- A place in the slot of a rank is in the span of the chunk, and only in
that rank's slot. -/
theorem mem_span {y i : ℕ} (hi : i < w.g.worldSize) (hge : (w.params i k).rankDst ≤ y)
    (hlt : y < (w.params i k).rankDst + w.slot k) : y ∈ Layout.paddedSpan w.g (w.chunk k) := by
  rw [params_rankDst] at hge hlt
  have hle : w.slot k * (i + 1) ≤ w.slot k * w.g.worldSize := Nat.mul_le_mul_left _ hi
  rw [slot_mul, Nat.mul_succ] at hle
  exact ⟨by omega, by omega⟩

end Setup

/-- Spans that share a place overlap. -/
theorem overlap_of_mem {g : Geometry} {c d : Chunk} {y : ℕ} (hc : y ∈ Layout.paddedSpan g c)
    (hd : y ∈ Layout.paddedSpan g d) : Layout.overlap g c d :=
  ⟨hc.1.trans_lt hd.2, hd.1.trans_lt hc.2⟩

/-! ### The chunks on their way -/

theorem triple_inj {i d k i' d' k' : ℕ} (h : (i, d, k) = (i', d', k')) : i = i' ∧ d = d' ∧ k = k' := by
  simpa using h

/-- What holds of the group in every order of its steps. -/
structure Base (w : Setup) (s : World) : Prop where
  loader : ∀ r < w.g.worldSize, (loader w.config).Reachable (s.loaders r)
  read : ∀ r k, (r, k) ∈ s.read → r < w.g.worldSize ∧ k ∈ s.posted r ∧ 0 < (w.params r k).rankSize
  copied : ∀ r k, (r, k) ∈ s.copied → r < w.g.worldSize ∧ k ∈ s.posted r ∧
    (w.direct = true ∨ (w.params r k).rankSize = 0 ∨ (r, k) ∈ s.read)
  indirect : ∀ r k, (r, k) ∈ s.read → w.direct = false
  sent : ∀ i d k, (i, d, k) ∈ s.sent → d < w.g.worldSize ∧ i ≠ d ∧ (i, k) ∈ s.copied
  received : ∀ i d k, (i, d, k) ∈ s.received → (i, d, k) ∈ s.sent ∧ (d, k) ∈ s.copied
  completed : ∀ r < w.g.worldSize, ∀ k ∈ (s.loaders r).1.completed, Finished w s r k
  host : ∀ r k, (r, k) ∈ s.read → (r, k) ∉ s.copied → ∀ j < (w.params r k).rankSize,
    (s.buffers r).hostBuffer ((w.params r k).windowOffset + j) =
      w.file k ((w.chunk k).fileOffset + (w.params r k).rankOffset + j)

section Steps

variable {w : Setup} {s s' : World} {r k : ℕ}

theorem threadStep_self (s : World) (rank : ℕ) (v : Loader × Pc) :
    (threadStep s rank v).loaders rank = v := by
  simp [threadStep]

theorem threadStep_of_ne {rank : ℕ} {v : Loader × Pc} (h : r ≠ rank) :
    (threadStep s rank v).loaders r = s.loaders r := by
  simp [threadStep, h]

/-- More copies and exchanges keep a chunk finished. -/
theorem Finished.mono (h : Finished w s r k) (h1 : s.copied ⊆ s'.copied) (h2 : s.sent ⊆ s'.sent)
    (h3 : s.received ⊆ s'.received) : Finished w s' r k :=
  ⟨h1 h.1, fun i hi hne => ⟨h3 (h.2 i hi hne).1, h2 (h.2 i hi hne).2⟩⟩

theorem Base.has (hw : w.Ok) (h : Base w s) (hr : r < w.g.worldSize) (hk : k ∈ s.posted r) : w.Has k := by
  obtain ⟨t, ht, hcur⟩ := exists_current hw.sound hw.nonempty (h.loader r hr)
  have h1 := posted_le hw.sound (h.loader r hr) hk hcur
  have h2 := hw.sound.prefetch_lt t ht
  exact Int.ofNat_lt.mp (h1.trans_lt h2)

/-- Two chunks in one window: the earlier one is copied and finished. -/
theorem Base.window (hw : w.Ok) (h : Base w s) {k' : ℕ} (hr : r < w.g.worldSize) (hk' : k' ∈ s.posted r)
    (hlt : k < k') (he : k % w.g.ioDepth = k' % w.g.ioDepth) : Finished w s r k := by
  obtain ⟨posts, next, hc, -⟩ := (Runtime.reachable_inv hw.sound (h.loader r hr)).core
  have hlen : k' < (s.loaders r).1.posted.length := List.mem_range.mp (hc.posted_eq ▸ hk')
  exact h.completed r hr k (hc.window k' hlen k (add_le_of_mod_eq hlt he))

/-- A thread's action, with what it leaves of the posted chunks. -/
theorem Base.thread {rank : ℕ} {a : Runtime.Action} {v : Loader × Pc} (h : Base w s) (hr : rank < w.g.worldSize)
    (he : eventPassed w s rank a = true) (hs : Runtime.step w.config (s.loaders rank) a = some v) :
    Base w (threadStep s rank v) := by
  obtain ⟨hpost, hcomp⟩ := step_posted hs
  have hmono : ∀ r, ∀ k ∈ s.posted r, k ∈ (threadStep s rank v).posted r := by
    intro r k hk
    by_cases hrr : r = rank
    · subst hrr
      rw [World.posted, threadStep_self]
      rcases hpost with h1 | h1 <;> rw [h1]
      · exact hk
      · exact List.mem_append_left _ hk
    · rw [World.posted, threadStep_of_ne hrr]
      exact hk
  exact
    { loader := fun r hr' => by
        by_cases hrr : r = rank
        · subst hrr
          rw [threadStep_self]
          exact (h.loader r hr).step hs
        · rw [threadStep_of_ne hrr]
          exact h.loader r hr'
      read := fun r k hk => ⟨(h.read r k hk).1, hmono r k (h.read r k hk).2.1, (h.read r k hk).2.2⟩
      copied := fun r k hk => ⟨(h.copied r k hk).1, hmono r k (h.copied r k hk).2.1, (h.copied r k hk).2.2⟩
      indirect := h.indirect
      sent := h.sent
      received := h.received
      completed := fun r hr' k hk => by
        by_cases hrr : r = rank
        · subst hrr
          rw [threadStep_self] at hk
          rcases hcomp k hk with hk | rfl
          · exact h.completed r hr k hk
          · exact of_decide_eq_true he
        · rw [threadStep_of_ne hrr] at hk
          exact h.completed r hr' k hk
      host := h.host }

/-- The read of a slice leaves the windows of the slices that wait for their
copy alone. -/
theorem Base.readStep (hw : w.Ok) (h : Base w s) {rank k₀ n : ℕ} (hr : rank < w.g.worldSize)
    (hd : w.direct = false) (hk₀ : k₀ ∈ s.posted rank) (hno : (rank, k₀) ∉ s.read)
    (hpos : 0 < (w.params rank k₀).rankSize) (hge : (w.params rank k₀).rankSize ≤ n)
    (hle : n ≤ rankSizeAligned w.g (w.params rank k₀)) : Base w (readStep w s rank k₀ n) where
  loader := h.loader
  read := by
    intro r k hk
    rcases Finset.mem_insert.mp hk with he | hk
    · obtain ⟨rfl, rfl⟩ := Prod.mk.inj he
      exact ⟨hr, hk₀, hpos⟩
    · exact h.read r k hk
  copied := by
    intro r k hk
    obtain ⟨h1, h2, h3⟩ := h.copied r k hk
    exact ⟨h1, h2, h3.imp_right (Or.imp_right fun hk => Finset.mem_insert_of_mem hk)⟩
  indirect := fun _ _ _ => hd
  sent := h.sent
  received := h.received
  completed := h.completed
  host := by
    intro r k hk hnc j hj
    by_cases hrr : r = rank
    · subst hrr
      simp only [Ranks.readStep, Function.update_self, readToHost]
      by_cases hkk : k = k₀
      · subst hkk
        exact copy_inside _ _ _ _ (hj.trans_le hge)
      · have hk' : (r, k) ∈ s.read := by
          rcases Finset.mem_insert.mp hk with he | hk
          · exact absurd (Prod.mk.inj he).2 hkk
          · exact hk
        obtain ⟨-, hpk, -⟩ := h.read r k hk'
        have hnc₀ : (r, k₀) ∉ s.copied := by
          intro hc
          rcases (h.copied r k₀ hc).2.2 with h1 | h1 | h1
          · simp [hd] at h1
          · omega
          · exact hno h1
        -- chunks of one window are not in it together
        have hne : k % w.g.ioDepth ≠ k₀ % w.g.ioDepth := by
          intro he
          rcases Nat.lt_or_gt_of_ne hkk with hlt | hlt
          · exact hnc (h.window hw hr hk₀ hlt he).1
          · exact hnc₀ (h.window hw hr hpk hlt he.symm).1
        have hfit : ∀ k, w.Has k → w.slot k ≤ w.g.rankChunkSize := fun k hk => paddedRankSize_le (hw.size hk).2
        have h1 := hfit k (h.has hw hr hpk)
        have h2 := hfit k₀ (h.has hw hr hk₀)
        have h3 : (w.params r k).rankSize ≤ w.slot k := Setup.rankSize_le_slot r k
        have h4 : rankSizeAligned w.g (w.params r k₀) ≤ w.slot k₀ := rankSizeAligned_le
        have hout : ¬ ((w.params r k₀).windowOffset ≤ (w.params r k).windowOffset + j ∧
            (w.params r k).windowOffset + j < (w.params r k₀).windowOffset + n) := by
          change ¬ (k₀ % w.g.ioDepth * w.g.rankChunkSize ≤ k % w.g.ioDepth * w.g.rankChunkSize + j ∧
            k % w.g.ioDepth * w.g.rankChunkSize + j < k₀ % w.g.ioDepth * w.g.rankChunkSize + n)
          rintro ⟨ha, hb⟩
          rcases Nat.lt_or_gt_of_ne hne with hlt | hlt
          · have := Nat.mul_le_mul_right w.g.rankChunkSize (Nat.succ_le_of_lt hlt)
            rw [Nat.succ_mul] at this
            omega
          · have := Nat.mul_le_mul_right w.g.rankChunkSize (Nat.succ_le_of_lt hlt)
            rw [Nat.succ_mul] at this
            omega
        rw [Memory.copy, if_neg hout]
        exact h.host r k hk' hnc j hj
    · have hk' : (r, k) ∈ s.read := by
        rcases Finset.mem_insert.mp hk with he | hk
        · exact absurd (Prod.mk.inj he).1 hrr
        · exact hk
      simp only [Ranks.readStep, Function.update_of_ne hrr]
      exact h.host r k hk' hnc j hj

/-- The backend's other steps write to no host window. -/
theorem copyStep_host (w : Setup) (s : World) (rank k₀ r : ℕ) :
    ((copyStep w s rank k₀).buffers r).hostBuffer = (s.buffers r).hostBuffer := by
  unfold copyStep fileToDevice copyToDevice
  by_cases hrr : r = rank
  · subst hrr
    simp only [Function.update_self]
    split_ifs <;> rfl
  · simp only [Function.update_of_ne hrr]

theorem Base.copyStep (h : Base w s) {rank k₀ : ℕ} (hr : rank < w.g.worldSize) (hk₀ : k₀ ∈ s.posted rank)
    (hsrc : w.direct = true ∨ (w.params rank k₀).rankSize = 0 ∨ (rank, k₀) ∈ s.read) :
    Base w (copyStep w s rank k₀) where
  loader := h.loader
  read := h.read
  copied := by
    intro r k hk
    rcases Finset.mem_insert.mp hk with he | hk
    · obtain ⟨rfl, rfl⟩ := Prod.mk.inj he
      exact ⟨hr, hk₀, hsrc⟩
    · exact h.copied r k hk
  indirect := h.indirect
  sent := fun i d k hk =>
    ⟨(h.sent i d k hk).1, (h.sent i d k hk).2.1, Finset.mem_insert_of_mem (h.sent i d k hk).2.2⟩
  received := fun i d k hk => ⟨(h.received i d k hk).1, Finset.mem_insert_of_mem (h.received i d k hk).2⟩
  completed := fun r hr' k hk => (h.completed r hr' k hk).mono (Finset.subset_insert _ _) subset_rfl subset_rfl
  host := by
    intro r k hk hnc j hj
    rw [copyStep_host]
    exact h.host r k hk (fun hc => hnc (Finset.mem_insert_of_mem hc)) j hj

theorem Base.sendStep (h : Base w s) {src dst k₀ : ℕ} (hd : dst < w.g.worldSize) (hne : src ≠ dst)
    (hc : (src, k₀) ∈ s.copied) : Base w (sendStep s src dst k₀) where
  loader := h.loader
  read := h.read
  copied := h.copied
  indirect := h.indirect
  sent := by
    intro i d k hk
    rcases Finset.mem_insert.mp hk with he | hk
    · obtain ⟨rfl, rfl, rfl⟩ := triple_inj he
      exact ⟨hd, hne, hc⟩
    · exact h.sent i d k hk
  received := fun i d k hk => ⟨Finset.mem_insert_of_mem (h.received i d k hk).1, (h.received i d k hk).2⟩
  completed := fun r hr' k hk => (h.completed r hr' k hk).mono subset_rfl (Finset.subset_insert _ _) subset_rfl
  host := h.host

theorem Base.receiveStep (h : Base w s) {src dst k₀ : ℕ} (hs : (src, dst, k₀) ∈ s.sent)
    (hc : (dst, k₀) ∈ s.copied) : Base w (receiveStep w s src dst k₀) where
  loader := h.loader
  read := h.read
  copied := h.copied
  indirect := h.indirect
  sent := h.sent
  received := by
    intro i d k hk
    rcases Finset.mem_insert.mp hk with he | hk
    · obtain ⟨rfl, rfl, rfl⟩ := triple_inj he
      exact ⟨hs, hc⟩
    · exact h.received i d k hk
  completed := fun r hr' k hk => (h.completed r hr' k hk).mono subset_rfl subset_rfl (Finset.subset_insert _ _)
  host := by
    intro r k hk hnc j hj
    by_cases hrr : r = dst
    · subst hrr
      simp only [Ranks.receiveStep, Function.update_self]
      exact h.host r k hk hnc j hj
    · simp only [Ranks.receiveStep, Function.update_of_ne hrr]
      exact h.host r k hk hnc j hj

/-- Every step of the group keeps `Base`. -/
theorem Base.step (hw : w.Ok) (h : Base w s) {a : Action} (hs : step w s a = some s') : Base w s' := by
  cases a with
  | thread rank a =>
    simp only [Ranks.step, Option.ite_none_right_eq_some] at hs
    obtain ⟨⟨hr, he⟩, hs⟩ := hs
    obtain ⟨v, hv, rfl⟩ := Option.map_eq_some_iff.mp hs
    exact h.thread hr he hv
  | read rank k n =>
    simp only [Ranks.step, Option.ite_none_right_eq_some, Option.some.injEq] at hs
    obtain ⟨⟨hd, hr, hk, hno, hpos, hge, hle⟩, rfl⟩ := hs
    exact h.readStep hw hr hd hk hno hpos hge hle
  | copy rank k =>
    simp only [Ranks.step, Option.ite_none_right_eq_some, Option.some.injEq] at hs
    obtain ⟨⟨hr, hk, -, hsrc⟩, rfl⟩ := hs
    exact h.copyStep hr hk hsrc
  | send src dst k =>
    simp only [Ranks.step, Option.ite_none_right_eq_some, Option.some.injEq] at hs
    obtain ⟨⟨-, hd, hne, hc, -⟩, rfl⟩ := hs
    exact h.sendStep hd hne hc
  | receive src dst k =>
    simp only [Ranks.step, Option.ite_none_right_eq_some, Option.some.injEq] at hs
    obtain ⟨⟨hsent, -, hc⟩, rfl⟩ := hs
    exact h.receiveStep hsent hc

end Steps

theorem init_base (w : Setup) (buffers : ℕ → RankBuffers) : Base w (world w buffers).init where
  loader := fun _ _ => .init
  read := fun _ _ h => absurd h (Finset.notMem_empty _)
  copied := fun _ _ h => absurd h (Finset.notMem_empty _)
  indirect := fun _ _ h => absurd h (Finset.notMem_empty _)
  sent := fun _ _ _ h => absurd h (Finset.notMem_empty _)
  received := fun _ _ _ h => absurd h (Finset.notMem_empty _)
  completed := fun _ _ _ h => absurd h (Finset.notMem_empty _)
  host := fun _ _ h => absurd h (Finset.notMem_empty _)

theorem base_of_reachable {w : Setup} (hw : w.Ok) {buffers : ℕ → RankBuffers} {s : World}
    (h : (world w buffers).Reachable s) : Base w s :=
  h.invariant (init_base w buffers) fun _ _ _ hb hs => hb.step hw hs

end Ranks
end Siphon
