/-
# The bytes of a tensor on every rank

`Clean` holds while no chunk is copied over one that is still on its way
(`apart`): the last copied chunk that uses a place of the device has put the
byte of its file there, if the byte has arrived. With the layout's guarantees
(`Layout.computeLayout_held`) a tensor that is returned holds the bytes of its
file on every rank, and keeps them until the rank's caller asks for a later
tensor (`tensors_delivered`).

`Siphon.Ranks.Orders` says when `apart` holds by itself, and what happens when
it does not.
-/
import Siphon.Layout.Holding
import Siphon.Ranks.Invariant

namespace Siphon
namespace Ranks

open Rounding Memory Io Siphon.Runtime

/-! ### The bytes on the device -/

/-- Byte `b` of the chunk has come to the rank: from the rank's own copy, or
from the rank whose slice it is in. -/
def Arrived (w : Setup) (s : World) (r k b : ℕ) : Prop :=
  (r, k) ∈ s.copied ∧ (b / w.slot k = r ∨ (b / w.slot k, r, k) ∈ s.received)

/-- No chunk copied after `k` uses the place of its byte `b`. -/
def LastAt (w : Setup) (s : World) (r k b : ℕ) : Prop :=
  ∀ k', (r, k') ∈ s.copied → k < k' →
    (w.chunk k).deviceBufferOffset + b ∉ Layout.paddedSpan w.g (w.chunk k')

/-- What holds of the group while chunks in flight stay apart. -/
structure Clean (w : Setup) (s : World) : Prop extends Base w s where
  apart : ∀ r k k', (r, k') ∈ s.copied → k ∈ s.posted r → k < k' →
    Layout.overlap w.g (w.chunk k) (w.chunk k') → Finished w s r k
  wire : ∀ i d k, (i, d, k) ∈ s.sent → ∀ b < (w.chunk k).size, b / w.slot k = i →
    s.wire (i, d, k) ((w.chunk k).deviceBufferOffset + b) = w.file k ((w.chunk k).fileOffset + b)
  bytes : ∀ r k b, b < (w.chunk k).size → Arrived w s r k b → LastAt w s r k b →
    s.device r ((w.chunk k).deviceBufferOffset + b) = w.file k ((w.chunk k).fileOffset + b)

section Steps

variable {w : Setup} {s s' : World} {r k b : ℕ}

/-- A place in a slot of a chunk that is copied later, or not finished, is not
the place of the byte. -/
theorem Clean.outside (h : Clean w s) {k₀ i : ℕ} (hi : i < w.g.worldSize)
    (hk₀ : k₀ ∈ s.posted r) (hno : ¬ Finished w s r k₀) (hne : k ≠ k₀) (hcop : (r, k) ∈ s.copied)
    (hb : b < (w.chunk k).size) (hlast : k < k₀ →
      (w.chunk k).deviceBufferOffset + b ∉ Layout.paddedSpan w.g (w.chunk k₀)) :
    ¬ ((w.params i k₀).rankDst ≤ (w.chunk k).deviceBufferOffset + b ∧
      (w.chunk k).deviceBufferOffset + b < (w.params i k₀).rankDst + w.slot k₀) := by
  rintro ⟨hge, hlt⟩
  have hmem := Setup.mem_span hi hge hlt
  rcases Nat.lt_or_gt_of_ne hne with hlt' | hlt'
  · exact hlast hlt' hmem
  · have hown : (w.chunk k).deviceBufferOffset + b ∈ Layout.paddedSpan w.g (w.chunk k) := by
      have := le_roundUp w.g.worldChunkAlignment_pos (w.chunk k).size
      exact ⟨Nat.le_add_right _ _, by omega⟩
    exact hno (h.apart r k₀ k hcop hk₀ hlt' (overlap_of_mem hmem hown))

/-- The device of a rank after its copy. -/
theorem copyStep_device_self {y : ℕ} (hy : ¬ ((w.params r k).rankDst ≤ y ∧
    y < (w.params r k).rankDst + (w.params r k).rankSize)) : (copyStep w s r k).device r y = s.device r y := by
  unfold World.device copyStep fileToDevice copyToDevice
  simp only [Function.update_self]
  split_ifs
  · exact if_neg hy
  · exact if_neg hy

theorem copyStep_device_of_ne {rank : ℕ} (hr : r ≠ rank) : (copyStep w s rank k).device r = s.device r := by
  simp [World.device, copyStep, hr]

/-- The copied slice. -/
theorem Base.copyStep_slice (h : Base w s) (hno : (r, k) ∉ s.copied)
    (hsrc : w.direct = true ∨ (w.params r k).rankSize = 0 ∨ (r, k) ∈ s.read) {j : ℕ}
    (hj : j < (w.params r k).rankSize) : (Ranks.copyStep w s r k).device r ((w.params r k).rankDst + j) =
      w.file k ((w.chunk k).fileOffset + (w.params r k).rankOffset + j) := by
  unfold World.device Ranks.copyStep
  simp only [Function.update_self]
  by_cases hd : w.direct = true
  · rw [if_pos hd, fileToDevice]
    exact copy_inside _ _ _ _ hj
  · have hread : (r, k) ∈ s.read := (hsrc.resolve_left hd).resolve_left (by omega)
    rw [if_neg hd, copyToDevice]
    exact (copy_inside _ _ _ _ hj).trans (h.host r k hread hno j hj)

theorem Clean.copyStep (hw : w.Ok) (h : Clean w s) {rank k₀ : ℕ} (hr : rank < w.g.worldSize)
    (hk₀ : k₀ ∈ s.posted rank) (hno : (rank, k₀) ∉ s.copied)
    (hsrc : w.direct = true ∨ (w.params rank k₀).rankSize = 0 ∨ (rank, k₀) ∈ s.read)
    (hap : ∀ k ∈ s.posted rank, k < k₀ →
      Layout.overlap w.g (w.chunk k) (w.chunk k₀) → Finished w s rank k) : Clean w (copyStep w s rank k₀) where
  toBase := h.toBase.copyStep hr hk₀ hsrc
  apart := by
    intro r k k' hk' hk hlt ho
    have hfin : Finished w s r k := by
      rcases Finset.mem_insert.mp hk' with he | hk'
      · obtain ⟨rfl, rfl⟩ := Prod.mk.inj he
        exact hap k hk hlt ho
      · exact h.apart r k k' hk' hk hlt ho
    exact hfin.mono (Finset.subset_insert _ _) subset_rfl subset_rfl
  wire := h.wire
  bytes := by
    intro r k b hb harr hlast
    obtain ⟨hcop, harr⟩ := harr
    by_cases hrr : r = rank
    · subst hrr
      by_cases hkk : k = k₀
      · -- the chunk that is copied: nothing has arrived from other ranks
        subst hkk
        have hown : b / w.slot k = r := by
          rcases harr with he | hrec
          · exact he
          · exact absurd (h.received _ _ _ hrec).2 hno
        obtain ⟨-, hsplit, hj⟩ := hw.byte (h.has hw hr hk₀) hb
        rw [hown] at hsplit hj
        have hcopy := h.copyStep_slice hno hsrc hj
        rw [Setup.params_rankDst, show (w.params r k).rankOffset = w.slot k * r from rfl] at hcopy
        rw [Nat.add_assoc, Nat.add_assoc, hsplit] at hcopy
        exact hcopy
      · have hcop' : (r, k) ∈ s.copied := by
          rcases Finset.mem_insert.mp hcop with he | hcop
          · exact absurd (Prod.mk.inj he).2 hkk
          · exact hcop
        have hout := h.outside hr hk₀ (fun hf => hno hf.1) hkk hcop' hb
          (hlast k₀ (Finset.mem_insert_self _ _))
        have hsize := Setup.rankSize_le_slot (w := w) r k₀
        rw [copyStep_device_self (by omega)]
        exact h.bytes r k b hb ⟨hcop', harr⟩ fun k' hk' => hlast k' (Finset.mem_insert_of_mem hk')
    · have hcop' : (r, k) ∈ s.copied := by
        rcases Finset.mem_insert.mp hcop with he | hcop
        · exact absurd (Prod.mk.inj he).1 hrr
        · exact hcop
      rw [copyStep_device_of_ne hrr]
      exact h.bytes r k b hb ⟨hcop', harr⟩ fun k' hk' => hlast k' (Finset.mem_insert_of_mem hk')

theorem Clean.sendStep (h : Clean w s) {src dst k₀ : ℕ} (hd : dst < w.g.worldSize) (hne : src ≠ dst)
    (hc : (src, k₀) ∈ s.copied) (hno : (src, dst, k₀) ∉ s.sent) : Clean w (sendStep s src dst k₀) where
  toBase := h.toBase.sendStep hd hne hc
  apart := by
    intro r k k' hk' hk hlt ho
    exact (h.apart r k k' hk' hk hlt ho).mono subset_rfl (Finset.subset_insert _ _) subset_rfl
  wire := by
    intro i d k hk b hb hown
    by_cases he : (i, d, k) = (src, dst, k₀)
    · -- what leaves is the sender's own slice, which no later chunk has used
      obtain ⟨rfl, rfl, rfl⟩ := triple_inj he
      simp only [Ranks.sendStep, Function.update_self]
      refine h.bytes i k b hb ⟨hc, Or.inl hown⟩ fun k' hk' hlt hmem => ?_
      have hin : (w.chunk k).deviceBufferOffset + b ∈ Layout.paddedSpan w.g (w.chunk k) := by
        have := le_roundUp w.g.worldChunkAlignment_pos (w.chunk k).size
        exact ⟨Nat.le_add_right _ _, by omega⟩
      have hfin := h.apart i k k' hk' (h.copied i k hc).2.1 hlt (overlap_of_mem hin hmem)
      exact hno (hfin.2 d hd hne.symm).2
    · have hk' : (i, d, k) ∈ s.sent := by
        rcases Finset.mem_insert.mp hk with he' | hk
        · exact absurd he' he
        · exact hk
      simp only [Ranks.sendStep, Function.update_of_ne he]
      exact h.wire i d k hk' b hb hown
  bytes := h.bytes

theorem Clean.receiveStep (hw : w.Ok) (h : Clean w s) {src dst k₀ : ℕ} (hs : (src, dst, k₀) ∈ s.sent)
    (hno : (src, dst, k₀) ∉ s.received) (hc : (dst, k₀) ∈ s.copied) :
    Clean w (receiveStep w s src dst k₀) where
  toBase := h.toBase.receiveStep hs hc
  apart := by
    intro r k k' hk' hk hlt ho
    exact (h.apart r k k' hk' hk hlt ho).mono subset_rfl subset_rfl (Finset.subset_insert _ _)
  wire := h.wire
  bytes := by
    intro r k b hb harr hlast
    obtain ⟨hcop, harr⟩ := harr
    obtain ⟨hdst, hne, hsrc⟩ := h.sent _ _ _ hs
    obtain ⟨hsrc, hposted, -⟩ := h.copied _ _ hsrc
    by_cases hrr : r = dst
    · subst hrr
      have hk₀ : k₀ ∈ s.posted r := (h.copied _ _ hc).2.1
      have hunfin : ¬ Finished w s r k₀ := fun hf => hno (hf.2 src hsrc hne).1
      unfold World.device Ranks.receiveStep
      simp only [Function.update_self]
      by_cases hkk : k = k₀
      · subst hkk
        obtain ⟨hi, hsplit, hj⟩ := hw.byte (h.has hw hdst hk₀) hb
        have hslot := Setup.rankSize_le_slot (w := w) (b / w.slot k) k
        by_cases hown : b / w.slot k = src
        · -- a byte of the slice that arrives
          have hin : (w.params src k).rankDst ≤ (w.chunk k).deviceBufferOffset + b ∧
              (w.chunk k).deviceBufferOffset + b < (w.params src k).rankDst + (w.params src k).paddedRankSize := by
            rw [hown] at hsplit hj hslot
            rw [Setup.params_rankDst, show (w.params src k).paddedRankSize = w.slot k from rfl]
            omega
          rw [Memory.copy, if_pos hin, Nat.add_sub_cancel' hin.1]
          exact h.wire src r k hs b hb hown
        · -- a byte of another slice
          have hout : ¬ ((w.params src k).rankDst ≤ (w.chunk k).deviceBufferOffset + b ∧
              (w.chunk k).deviceBufferOffset + b < (w.params src k).rankDst + (w.params src k).paddedRankSize) := by
            rw [Setup.params_rankDst, show (w.params src k).paddedRankSize = w.slot k from rfl]
            rintro ⟨h1, h2⟩
            apply hown
            rw [Nat.mul_comm (w.slot k)] at h1 h2
            apply Nat.div_eq_of_lt_le
            · omega
            · rw [Nat.succ_mul]
              omega
          rw [Memory.copy, if_neg hout]
          refine h.bytes r k b hb ⟨hcop, ?_⟩ hlast
          rcases harr with he | hrec
          · exact Or.inl he
          · rcases Finset.mem_insert.mp hrec with he | hrec
            · exact absurd (triple_inj he).1 hown
            · exact Or.inr hrec
      · have hout := h.outside hsrc hk₀ hunfin hkk hcop hb (hlast k₀ hc)
        refine (if_neg hout).trans (h.bytes r k b hb ⟨hcop, ?_⟩ hlast)
        rcases harr with he | hrec
        · exact Or.inl he
        · rcases Finset.mem_insert.mp hrec with he | hrec
          · exact absurd (triple_inj he).2.2 hkk
          · exact Or.inr hrec
    · have hdev : (Ranks.receiveStep w s src dst k₀).device r = s.device r := by
        simp [World.device, Ranks.receiveStep, hrr]
      rw [hdev]
      refine h.bytes r k b hb ⟨hcop, ?_⟩ hlast
      rcases harr with he | hrec
      · exact Or.inl he
      · rcases Finset.mem_insert.mp hrec with he | hrec
        · exact absurd (triple_inj he).2.1 hrr
        · exact Or.inr hrec

/-- Every step that keeps chunks in flight apart keeps the group clean. -/
theorem Clean.step (hw : w.Ok) (h : Clean w s) {a : Action} (hap : Ranks.apart w s a = true)
    (hs : Ranks.step w s a = some s') : Clean w s' := by
  have hbase := h.toBase.step hw hs
  cases a with
  | thread rank a =>
    simp only [Ranks.step, Option.ite_none_right_eq_some] at hs
    obtain ⟨⟨hr, he⟩, hs⟩ := hs
    obtain ⟨v, hv, rfl⟩ := Option.map_eq_some_iff.mp hs
    refine { toBase := hbase, apart := fun r k k' hk' hk hlt ho => ?_, wire := h.wire, bytes := h.bytes }
    -- a chunk posted now has no copied chunk behind it
    have hold : k ∈ s.posted r := by
      obtain ⟨hr', hpost, -⟩ := h.copied r k' hk'
      obtain ⟨posts, next, hc, -⟩ := (Runtime.reachable_inv hw.sound (h.loader r hr')).core
      have hlt' : k' < (s.loaders r).1.posted.length := List.mem_range.mp (hc.posted_eq ▸ hpost)
      rw [World.posted, hc.posted_eq]
      exact List.mem_range.mpr (hlt.trans hlt')
    exact (h.apart r k k' hk' hold hlt ho).mono subset_rfl subset_rfl subset_rfl
  | read rank k n =>
    simp only [Ranks.step, Option.ite_none_right_eq_some, Option.some.injEq] at hs
    obtain ⟨-, rfl⟩ := hs
    have hdev : ∀ r, (Ranks.readStep w s rank k n).device r = s.device r := by
      intro r
      by_cases hrr : r = rank
      · subst hrr
        simp [World.device, Ranks.readStep, readToHost]
      · simp [World.device, Ranks.readStep, hrr]
    exact
      { toBase := hbase
        apart := fun r k k' hk' hk hlt ho =>
          (h.apart r k k' hk' hk hlt ho).mono subset_rfl subset_rfl subset_rfl
        wire := h.wire
        bytes := fun r k b hb harr hlast => by rw [hdev]; exact h.bytes r k b hb harr hlast }
  | copy rank k =>
    simp only [Ranks.step, Option.ite_none_right_eq_some, Option.some.injEq] at hs
    obtain ⟨⟨hr, hk, hno, hsrc⟩, rfl⟩ := hs
    exact h.copyStep hw hr hk hno hsrc (of_decide_eq_true hap)
  | send src dst k =>
    simp only [Ranks.step, Option.ite_none_right_eq_some, Option.some.injEq] at hs
    obtain ⟨⟨-, hd, hne, hc, hno⟩, rfl⟩ := hs
    exact h.sendStep hd hne hc hno
  | receive src dst k =>
    simp only [Ranks.step, Option.ite_none_right_eq_some, Option.some.injEq] at hs
    obtain ⟨⟨hsent, hno, hc⟩, rfl⟩ := hs
    exact h.receiveStep hw hsent hno hc

end Steps

theorem clean_of_reachable {w : Setup} (hw : w.Ok) {buffers : ℕ → RankBuffers} {s : World}
    (h : ((world w buffers).restrict (apart w)).Reachable s) : Clean w s := by
  refine h.invariant ?_ fun s a s' hc hs => ?_
  · exact
      { toBase := init_base w buffers
        apart := fun _ _ _ h => absurd h (Finset.notMem_empty _)
        wire := fun _ _ _ h => absurd h (Finset.notMem_empty _)
        bytes := fun _ _ _ _ h => absurd h.1 (Finset.notMem_empty _) }
  · obtain ⟨hap, hs⟩ := Machine.restrict_step.mp hs
    exact hc.step hw hap hs

/-! ### The tensors -/

/-- The group has opened the layout of an offset list, of the kind that the
loader makes progress on. -/
structure Setup.Opened (w : Setup) (offs : List (ℕ × ℕ)) : Prop where
  valid : Layout.ValidOffsets w.g offs
  nonempty : Layout.FilesNonempty offs
  clears : (Layout.planOf w.g offs).IsChain (Layout.Clears w.g)
  ioDepth_le : w.g.ioDepth ≤ maxIoDepth
  layout : ∃ l, Layout.computeLayout w.g offs = .ok l ∧ l.tensors = w.tensors ∧ l.chunks = w.chunks

theorem Setup.Opened.ok {w : Setup} {offs : List (ℕ × ℕ)} (h : w.Opened offs) : w.Ok := by
  obtain ⟨l, hl, ht, hc⟩ := h.layout
  obtain ⟨l1, hl1, hs⟩ := sound_of_plan h.valid h.nonempty h.clears h.ioDepth_le
  obtain ⟨l2, hl2, hp, -, -⟩ := Layout.computeLayout_held w.g offs h.valid
  obtain rfl := Except.ok.inj (hl.symm.trans hl1)
  obtain rfl := Except.ok.inj (hl.symm.trans hl2)
  rw [ht, hc] at hs
  refine { sound := hs, nonempty := fun hnil => ?_, sizes := fun c hmem => ?_ }
  · -- the first file has a tensor with bytes
    obtain ⟨o, ho⟩ := h.valid.first
    obtain ⟨rest, rfl⟩ := List.head?_eq_some_iff.mp ho
    obtain ⟨r, hr, -⟩ := h.nonempty (0, o) List.mem_cons_self
    rw [← hp.ranges, ht, hnil] at hr
    cases hr
  · obtain ⟨h1, h2, -⟩ := hp.shape c (hc ▸ hmem)
    exact ⟨h1, h2⟩

/-- The device of the rank has the tensor's bytes of the file. -/
def Delivered (w : Setup) (s : World) (r : ℕ) (t : TensorMetadate) : Prop :=
  ∀ b < t.size, s.device r (t.deviceBufferOffset + b) = w.files t.fileIndex (t.fileOffset + b)

/-- All bytes of a completed chunk have arrived. -/
theorem Base.arrived {w : Setup} (hw : w.Ok) {s : World} (h : Base w s) {r k b : ℕ} (hr : r < w.g.worldSize)
    (hk : k ∈ (s.loaders r).1.completed) (hb : b < (w.chunk k).size) : Arrived w s r k b := by
  obtain ⟨hcop, hall⟩ := h.completed r hr k hk
  obtain ⟨-, hposted, -⟩ := h.copied r k hcop
  obtain ⟨hi, -⟩ := hw.byte (h.has hw hr hposted) hb
  refine ⟨hcop, ?_⟩
  by_cases hown : b / w.slot k = r
  · exact Or.inl hown
  · exact Or.inr (hall _ hi hown).1

/-- A tensor that is not behind the current one has its bytes from the
completion of its chunks on. -/
theorem Clean.delivered {w : Setup} {offs : List (ℕ × ℕ)} (h : w.Opened offs) {s : World} (hc : Clean w s)
    {r : ℕ} (hr : r < w.g.worldSize) {j : ℕ} {t : TensorMetadate} (ht : w.tensors[j]? = some t)
    (hj : (s.loaders r).1.currentTensorIndex ≤ j)
    (hdone : ∀ c : ℕ, (c : ℤ) ≤ t.lastChunkId → c ∈ (s.loaders r).1.completed) : Delivered w s r t := by
  have hw := h.ok
  obtain ⟨l, hl, htl, hcl⟩ := h.layout
  obtain ⟨l1, hl1, -, hheld, hkept⟩ := Layout.computeLayout_held w.g offs h.valid
  obtain rfl := Except.ok.inj (hl.symm.trans hl1)
  rw [htl, hcl] at hheld hkept
  intro b hb
  obtain ⟨k, c, hk, hle, ⟨hfile, hge, hlt, hplace⟩, hlater⟩ := hheld t (List.mem_of_getElem? ht) b hb
  have hchunk : w.chunk k = c := by simp [Setup.chunk, List.getD_eq_getElem?_getD, hk]
  obtain ⟨t₀, -, hcur⟩ := exists_current hw.sound hw.nonempty (hc.loader r hr)
  -- the byte's place in its chunk
  set x := t.fileOffset + b - c.fileOffset with hx
  have hxlt : x < (w.chunk k).size := by rw [hchunk]; omega
  have hlast : LastAt w s r k x := by
    intro k' hk' hlt' hmem
    obtain ⟨-, hposted, -⟩ := hc.copied r k' hk'
    have hhas := hc.has hw hr hposted
    have hk'' : w.chunks[k']? = some (w.chunk k') := by
      have : k' < w.chunks.length := hhas
      simp [Setup.chunk, List.getD_eq_getElem?_getD, this]
    rw [hchunk, hplace] at hmem
    by_cases hcase : (k' : ℤ) ≤ t.lastChunkId
    · exact hlater k' _ hk'' hlt' hcase hmem
    · have hpre := posted_le hw.sound (hc.loader r hr) hposted hcur
      refine Set.disjoint_left.mp (hkept _ j t₀ t hcur ht hj k' _ hk'' (by omega) (by omega)) hmem ?_
      exact ⟨Nat.le_add_right _ _, by omega⟩
  have hbyte := hc.bytes r k x hxlt (hc.arrived hw hr (hdone k hle) hxlt) hlast
  rw [Setup.file, hchunk, hplace, hfile] at hbyte
  rw [hbyte]
  congr 1
  omega

theorem returned_done {cfg : Runtime.Config} (hs : Sound cfg) {v : Loader × Pc} (h : (loader cfg).Reachable v)
    {index : ℕ} (hpc : v.2 = .returned index) : v.1.currentTensorIndex = index ∧
      ∀ c : ℕ, c ≤ cfg.lastChunkId index → c ∈ v.1.completed := by
  have hi := Runtime.reachable_inv hs h
  rw [hpc] at hi
  obtain ⟨hrest, hcall, hread⟩ := hi
  exact ⟨hcall.1.symm, fun c hc => hrest.done c (by omega)⟩

/-- What a rank's callers read on the device: the tensor that
`get_tensor_ptr` returns has its bytes, and so has every tensor from the
current one on whose chunks are complete. -/
structure Serves (w : Setup) (s : World) (r : ℕ) : Prop where
  returned : ∀ index t, (s.loaders r).2 = .returned index → w.tensors[index]? = some t → Delivered w s r t
  kept : ∀ j t, w.tensors[j]? = some t → (s.loaders r).1.currentTensorIndex ≤ j →
    (∀ c : ℕ, (c : ℤ) ≤ t.lastChunkId → c ∈ (s.loaders r).1.completed) → Delivered w s r t

theorem Clean.serves {w : Setup} {offs : List (ℕ × ℕ)} (h : w.Opened offs) {s : World} (hc : Clean w s)
    {r : ℕ} (hr : r < w.g.worldSize) : Serves w s r := by
  refine ⟨fun index t hpc ht => ?_, fun j t ht hj hdone => hc.delivered h hr ht hj hdone⟩
  obtain ⟨hcur, hdone⟩ := returned_done h.ok.sound (hc.loader r hr) hpc
  have hlast : w.config.lastChunkId index = t.lastChunkId := by
    simp [Runtime.Config.lastChunkId, Setup.config, List.getD_eq_getElem?_getD, ht]
  exact hc.delivered h hr ht hcur.le (by rwa [hlast] at hdone)

/-- **Every rank gets the bytes of the files.** In every order of the calls on
the ranks, the reads, the copies and the exchanges in which no slice is copied
over a chunk that is still in flight, a tensor that `get_tensor_ptr` returns
on a rank has the bytes of its file there, and keeps them until a later tensor
is asked for. -/
theorem tensors_delivered (w : Setup) (offs : List (ℕ × ℕ)) (h : w.Opened offs) (buffers : ℕ → RankBuffers)
    (s : World) (hs : ((world w buffers).restrict (apart w)).Reachable s) (r : ℕ) (hr : r < w.g.worldSize) :
    Serves w s r :=
  (clean_of_reachable h.ok hs).serves h hr

theorem sixteenPages_pos : 0 < 65536 := by decide

theorem thirtyTwoPages_pos : 0 < 131072 := by decide

/-- Two ranks with a window of two chunks of 32 pages. -/
def twoRanks : Geometry :=
  initBuffer 4096 2 65536 2 262144 page_pos Nat.two_pos sixteenPages_pos Nat.two_pos

/-- A file with a tensor of 11 pages, which are all ones, and one of 64 pages,
which are all twos; the second starts the ring again. -/
def smallThenLarge : Setup where
  g := twoRanks
  tensors := [⟨45056, 0, 4096, 16, 0, 0⟩, ⟨262144, 0, 49152, 16, 2, 2⟩]
  chunks := [⟨45056, 0, 4096, 16⟩, ⟨131072, 0, 49152, 16⟩, ⟨131072, 0, 180224, 131088⟩]
  files := fun _ x => if x < 49152 then 1 else 2
  direct := false

theorem smallThenLarge_opened : smallThenLarge.Opened [(0, 4096), (0, 49152), (0, 311296)] where
  valid := ⟨⟨4096, rfl⟩, by decide, by decide⟩
  nonempty := by decide
  clears := by decide
  ioDepth_le := by decide
  layout := by
    obtain ⟨l, hl, hp⟩ := Layout.exists_ok_of_any smallThenLarge.g [(0, 4096), (0, 49152), (0, 311296)]
      (fun l => decide (l.tensors = smallThenLarge.tensors ∧ l.chunks = smallThenLarge.chunks)) (by decide)
    exact ⟨l, hl, of_decide_eq_true hp⟩

/-- Buffers of zeros. -/
def zeroBuffers : ℕ → RankBuffers := fun _ => ⟨fun _ => 0, fun _ => 0⟩

/-- The first tensor on both ranks, from the call to its return. -/
def firstTensor : List Action :=
  [0, 1].flatMap (fun r => .thread r (.getTensorPtr 0) :: List.replicate 5 (.thread r .tick)) ++
  [.read 0 0 24576, .read 1 0 20480, .copy 1 0, .copy 0 0, .send 0 1 0, .send 1 0 0, .receive 1 0 0,
    .receive 0 1 0, .thread 0 (.complete 0), .thread 1 (.complete 0)] ++
  [0, 1].flatMap (fun r => List.replicate 4 (.thread r .tick))

theorem tensors_delivered_firstTensor : ∃ s,
    ((world smallThenLarge zeroBuffers).restrict (apart smallThenLarge)).Reachable s ∧
      (s.loaders 1).2 = .returned 0 ∧ Serves smallThenLarge s 1 := by
  obtain ⟨s, hs, hp⟩ := ((world smallThenLarge zeroBuffers).restrict (apart smallThenLarge)).exists_reachable
    firstTensor (fun s => decide ((s.loaders 1).2 = .returned 0)) (by decide +kernel)
  exact ⟨s, hs, of_decide_eq_true hp,
    tensors_delivered smallThenLarge _ smallThenLarge_opened zeroBuffers s hs 1 (by decide)⟩

end Ranks
end Siphon
