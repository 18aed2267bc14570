/-
# When the ranks of a group agree

The ranks take the same layout only with the same chunk size and the same
buffer size. Both come out of what a rank finds out for itself: the backends
it has and the state of its page cache decide the chunk size, and with its
CPUs and its disks the depth it asks for. Of all this only the memory budget
is reduced over the group. Two ranks agree exactly if their chunk sizes agree
and their depths do, once these are cut to the buffer and the budget, or if
the tensors need more than either window (`agree_iff_alike`).
-/
import Mathlib.Algebra.Order.BigOperators.Group.List
import Siphon.Frontend.Params
import Siphon.Layout.Model

namespace Siphon
namespace Frontend

open Fallible Rounding Layout

/-! ### What a condition on the observations says -/

/-- The parameters a rank asks for, from its own observations. -/
def asked (s : Shared) (o : Observed) : Option IoParams := (pickBackend s o).toOption.map (defaultParams s o)

/-- The chunk sizes agree: one was given, the files are in memory, or both or
neither of the ranks pick `MMAP`. -/
def SameChunk (s : Shared) (o o' : Observed) : Prop :=
  s.config.chunkSize.isSome ∨ inMemory s ∨ (pickBackend s o = .ok .mmap ↔ pickBackend s o' = .ok .mmap)

/-- A depth cut to what fits the buffer, if one was asked for without a depth,
and to what fits the budget. -/
def cut (s : Shared) (budget : ℤ) (chunkSize ioDepth : ℕ) : ℕ :=
  let ioDepth := match s.config.bufferSize with
    | some bufferSize =>
      if s.config.ioDepth.isSome then ioDepth else min ioDepth (bufferSize.toNat / windowSize s chunkSize 1)
    | none => ioDepth
  min ioDepth (budget / windowSize s chunkSize 1).toNat

/-- The tensors alone decide the buffer size: they need no less than either
window, or a given buffer is no larger than they are. -/
def Covered (s : Shared) (chunkSize d d' : ℕ) : Prop :=
  match s.config.bufferSize with
  | none => ∃ n, recommendedBufferSizeForTensors s = .ok n ∧ windowSize s chunkSize d ≤ n ∧ windowSize s chunkSize d' ≤ n
  | some bufferSize => (bufferSize.toNat ≤ s.tensorSizes.sum) ∨
      (windowSize s chunkSize d ≤ s.tensorSizes.sum ∧ windowSize s chunkSize d' ≤ s.tensorSizes.sum)

/-- What two ranks have to find for their layouts to agree. -/
def Alike (s : Shared) (budget : ℤ) (o o' : Observed) : Prop :=
  SameChunk s o o' ∧ ∀ p ∈ asked s o, ∀ p' ∈ asked s o',
    let d := cut s budget p.chunkSize.toNat p.ioDepth.toNat
    let d' := cut s budget p'.chunkSize.toNat p'.ioDepth.toNat
    d = d' ∨ Covered s p.chunkSize.toNat d d'

/-- The least of what the ranks may use of their memory. -/
def leastUsable (s : Shared) (ranks : List Observed) : ℤ := ((ranks.map fun o => s.usable o.freeBytes).min?).getD 0

/-- The layout the loader computes from what a rank holds. -/
def layoutOf (s : Shared) (r : Opened) (offsets : List (ℕ × ℕ)) : Option (Except LayoutError Cursors) :=
  if h : 0 < r.chunkSize ∧ 0 < r.ioDepth then
    some (computeLayout (initBuffer s.pageSize s.worldSize r.chunkSize r.ioDepth r.bufferSize s.pageSize_pos
      s.worldSize_pos h.1 h.2) offsets)
  else none

/-- Two ranks agree on the sizes, and so on the layout. -/
structure Agree (s : Shared) (r r' : Opened) : Prop where
  chunkSize : r.chunkSize = r'.chunkSize
  bufferSize : r.bufferSize = r'.bufferSize
  layout : ∀ offsets, layoutOf s r offsets = layoutOf s r' offsets

/-! ### Windows -/

section Window

variable {s : Shared} {c d d' : ℕ}

theorem windowSize_eq (s : Shared) (c d : ℕ) : windowSize s c d = windowSize s c 1 * d := by
  unfold windowSize requiredBufferSizeForIo
  ring

theorem windowSize_pos (hc : 0 < c) : 0 < windowSize s c 1 := by
  unfold windowSize requiredBufferSizeForIo
  have h := hc.trans_le (le_roundUp s.pageSize_pos c)
  rw [Nat.mul_one]
  exact Nat.mul_pos h s.worldSize_pos

theorem windowSize_inj (hc : 0 < c) : windowSize s c d = windowSize s c d' ↔ d = d' := by
  rw [windowSize_eq s c d, windowSize_eq s c d']
  exact Nat.mul_right_inj (windowSize_pos hc).ne'

end Window

/-! ### Before the all-reduce -/

theorem checkParams_eq_ok {p : IoParams} {u : Unit} (h : checkParams p = .ok u) :
    0 < p.chunkSize ∧ 0 < p.ioDepth ∧ p.ioDepth ≤ maxIoDepth := by
  unfold checkParams at h
  split_ifs at h with h1 h2 h3 h4
  exact ⟨by omega, by omega, not_lt.mp h4⟩

/-- The depth as it is cut to a buffer. -/
theorem fitBuffer_eq_ok {s : Shared} {c d n : ℕ} (hd : 0 < d) (h : fitBuffer s c d = .ok n) :
    0 < n ∧ (∀ b, s.config.bufferSize = some b → 0 < b ∧ windowSize s c n ≤ b.toNat) ∧
      n = match s.config.bufferSize with
        | some bufferSize =>
          if s.config.ioDepth.isSome then d else min d (bufferSize.toNat / windowSize s c 1)
        | none => d := by
  unfold fitBuffer at h
  cases hb : s.config.bufferSize with
  | none =>
    rw [hb] at h
    obtain rfl := Except.ok.inj h
    exact ⟨hd, (fun _ he => nomatch he), rfl⟩
  | some b =>
    rw [hb] at h
    dsimp only at h ⊢
    by_cases hb0 : b ≤ 0
    · rw [if_pos hb0] at h
      cases h
    rw [if_neg hb0] at h
    by_cases he : s.config.ioDepth.isSome
    · rw [if_pos he] at h ⊢
      by_cases hs : b.toNat < windowSize s c 1 * d
      · rw [if_pos hs] at h
        cases h
      · rw [if_neg hs] at h
        obtain rfl := Except.ok.inj h
        refine ⟨hd, fun b' hb' => ?_, rfl⟩
        obtain rfl := Option.some.inj hb'
        rw [windowSize_eq]
        exact ⟨by omega, by omega⟩
    · rw [if_neg he] at h ⊢
      by_cases hm : b.toNat / windowSize s c 1 < 1
      · rw [if_pos hm] at h
        cases h
      · rw [if_neg hm] at h
        have hn : n = min d (b.toNat / windowSize s c 1) := by
          rw [← Except.ok.inj h]
          split_ifs <;> omega
        refine ⟨by omega, fun b' hb' => ?_, hn⟩
        obtain rfl := Option.some.inj hb'
        refine ⟨by omega, ?_⟩
        calc windowSize s c n = windowSize s c 1 * n := windowSize_eq s c n
          _ ≤ windowSize s c 1 * (b.toNat / windowSize s c 1) := Nat.mul_le_mul_left _ (hn ▸ min_le_right _ _)
          _ ≤ b.toNat := Nat.mul_div_le _ _

/-- What a rank has when it enters the all-reduce. -/
structure Enters (s : Shared) (o : Observed) (p : Prepared) (q : IoParams) : Prop where
  asked : asked s o = some q
  chunkSize : p.chunkSize = q.chunkSize.toNat
  chunkSize_pos : 0 < p.chunkSize
  ioDepth_pos : 0 < p.ioDepth
  fits : ∀ b, s.config.bufferSize = some b → 0 < b ∧ windowSize s p.chunkSize p.ioDepth ≤ b.toNat
  ioDepth : p.ioDepth = match s.config.bufferSize with
    | some bufferSize =>
      if s.config.ioDepth.isSome then q.ioDepth.toNat
      else min q.ioDepth.toNat (bufferSize.toNat / windowSize s p.chunkSize 1)
    | none => q.ioDepth.toNat
  availBytes : p.availBytes = s.usable o.freeBytes

theorem prepare_eq_ok {s : Shared} {o : Observed} {p : Prepared} (h : prepare s o = .ok p) :
    ∃ q, Enters s o p q := by
  obtain ⟨b, hb, h1⟩ := bind_eq_ok h
  obtain ⟨u, hc, h2⟩ := bind_eq_ok h1
  obtain ⟨n, hn, h3⟩ := bind_eq_ok h2
  obtain ⟨hc1, hc2, -⟩ := checkParams_eq_ok hc
  obtain rfl := Except.ok.inj h3
  obtain ⟨h4, h5, h6⟩ := fitBuffer_eq_ok (by omega) hn
  refine ⟨defaultParams s o b, ?_, rfl, ?_, h4, h5, h6, rfl⟩
  · unfold asked
    rw [hb]
    rfl
  · show 0 < (defaultParams s o b).chunkSize.toNat
    omega

/-! ### Behind it -/

/-- What a rank holds in the end. -/
structure Holds (s : Shared) (budget : ℤ) (p : Prepared) (r : Opened) : Prop where
  chunkSize : r.chunkSize = p.chunkSize
  ioDepth : r.ioDepth = min p.ioDepth (budget / windowSize s p.chunkSize 1).toNat
  ioDepth_pos : 0 < r.ioDepth
  bufferSize : finalizeBufferSize s p.chunkSize r.ioDepth = .ok r.bufferSize

/-- What `complete` has checked, and what it returns. -/
theorem complete_cases {s : Shared} {budget : ℤ} {p : Prepared} {r : Opened} (h : complete s budget p = .ok r) :
    1 ≤ budget / windowSize s p.chunkSize 1 ∧ (r.bufferSize : ℤ) ≤ budget ∧ r.chunkSize = p.chunkSize ∧
      r.ioDepth = min p.ioDepth (budget / windowSize s p.chunkSize 1).toNat ∧
      finalizeBufferSize s p.chunkSize r.ioDepth = .ok r.bufferSize := by
  unfold complete at h
  dsimp only at h
  by_cases hm : budget / windowSize s p.chunkSize 1 < 1
  · rw [if_pos hm] at h
    cases h
  rw [if_neg hm] at h
  obtain ⟨b, hb, h1⟩ := bind_eq_ok h
  by_cases he : budget < b
  · rw [if_pos he] at h1
    cases h1
  rw [if_neg he] at h1
  obtain rfl := Except.ok.inj h1
  refine ⟨not_lt.mp hm, not_lt.mp he, rfl, ?_, hb⟩
  show (if budget / (windowSize s p.chunkSize 1 : ℤ) < p.ioDepth then
      (budget / (windowSize s p.chunkSize 1 : ℤ)).toNat else p.ioDepth) = _
  split_ifs <;> omega

theorem complete_eq_ok {s : Shared} {budget : ℤ} {p : Prepared} {r : Opened} (hp : 0 < p.ioDepth)
    (h : complete s budget p = .ok r) : Holds s budget p r := by
  obtain ⟨hm, -, hchunk, hdepth, hbuffer⟩ := complete_cases h
  exact ⟨hchunk, hdepth, hdepth ▸ lt_min hp (by omega), hbuffer⟩

/-! ### The buffer size and the depth -/

theorem max?_le_sum {l : List ℕ} {m : ℕ} (h : l.max? = some m) : m ≤ l.sum :=
  List.single_le_sum (fun _ _ => Nat.zero_le _) m (List.max?_mem h)

/-- The window fits the buffer in the end. -/
theorem windowSize_le_finalize {s : Shared} {c d n : ℕ}
    (hd : ∀ b, s.config.bufferSize = some b → 0 < b ∧ windowSize s c d ≤ b.toNat)
    (h : finalizeBufferSize s c d = .ok n) : windowSize s c d ≤ n := by
  unfold finalizeBufferSize at h
  cases hb : s.config.bufferSize with
  | none =>
    rw [hb] at h
    obtain ⟨m, -, h1⟩ := bind_eq_ok h
    rw [← Except.ok.inj h1]
    exact le_max_right _ _
  | some b =>
    rw [hb] at h
    obtain ⟨m, -, h1⟩ := bind_eq_ok h
    have hle := (hd b hb).2
    rw [← Except.ok.inj h1]
    split_ifs <;> omega

/-- Two depths give the same buffer size exactly if they are the same or the
tensors decide it. -/
theorem finalizeBufferSize_eq_iff {s : Shared} {c d d' n n' : ℕ} (hc : 0 < c)
    (hd : ∀ b, s.config.bufferSize = some b → 0 < b ∧ windowSize s c d ≤ b.toNat)
    (hd' : ∀ b, s.config.bufferSize = some b → 0 < b ∧ windowSize s c d' ≤ b.toNat)
    (h : finalizeBufferSize s c d = .ok n) (h' : finalizeBufferSize s c d' = .ok n') :
    n = n' ↔ d = d' ∨ Covered s c d d' := by
  have hinj : windowSize s c d = windowSize s c d' ↔ d = d' := windowSize_inj hc
  unfold finalizeBufferSize at h h'
  unfold Covered
  cases hb : s.config.bufferSize with
  | none =>
    rw [hb] at h h'
    obtain ⟨m, hm, h1⟩ := bind_eq_ok h
    obtain ⟨m', hm', h2⟩ := bind_eq_ok h'
    obtain rfl : m = m' := Except.ok.inj (hm.symm.trans hm')
    rw [← Except.ok.inj h1, ← Except.ok.inj h2, ← hinj]
    dsimp only
    constructor
    · intro he
      by_cases hw : windowSize s c d = windowSize s c d'
      · exact .inl hw
      · exact .inr ⟨m, hm, by omega, by omega⟩
    · rintro (he | ⟨k, hk, h3, h4⟩)
      · rw [he]
      · obtain rfl : m = k := Except.ok.inj (hm.symm.trans hk)
        omega
  | some b =>
    have e1 := hd b hb
    have e2 := hd' b hb
    rw [hb] at h h'
    obtain ⟨m, hm, h1⟩ := bind_eq_ok h
    obtain ⟨m', hm', h2⟩ := bind_eq_ok h'
    obtain rfl : m = m' := Except.ok.inj (hm.symm.trans hm')
    have hsum := max?_le_sum (orElse_eq_ok hm)
    rw [← Except.ok.inj h1, ← Except.ok.inj h2, ← hinj]
    dsimp only
    generalize windowSize s c d = w at *
    generalize windowSize s c d' = w' at *
    generalize s.tensorSizes.sum = total at *
    constructor
    · intro he
      split_ifs at he <;> omega
    · intro he
      split_ifs <;> omega

/-! ### The layout -/

/-- The geometry but for the depth. -/
structure SameRing (g g' : Geometry) : Prop where
  rankAlignment : g.rankAlignment = g'.rankAlignment
  worldSize : g.worldSize = g'.worldSize
  rankChunkSize : g.rankChunkSize = g'.rankChunkSize
  effectiveBufferSize : g.effectiveBufferSize = g'.effectiveBufferSize

section Ring

variable {g g' : Geometry} (h : SameRing g g')

include h

theorem SameRing.worldChunkAlignment : g.worldChunkAlignment = g'.worldChunkAlignment := by
  unfold Geometry.worldChunkAlignment
  rw [h.rankAlignment, h.worldSize]

theorem SameRing.worldChunkSize : g.worldChunkSize = g'.worldChunkSize := by
  unfold Geometry.worldChunkSize
  rw [h.rankChunkSize, h.worldSize]

theorem SameRing.bufferSize : g.bufferSize = g'.bufferSize := by
  unfold Geometry.bufferSize
  rw [h.effectiveBufferSize, h.rankAlignment, h.worldChunkAlignment]

theorem SameRing.finishChunk : finishChunk g = finishChunk g' := by
  funext s
  unfold Layout.finishChunk
  rw [h.rankAlignment, h.worldChunkAlignment]

theorem SameRing.resetChunkBufferOffset : resetChunkBufferOffset g = resetChunkBufferOffset g' := by
  funext n s
  unfold Layout.resetChunkBufferOffset
  rw [h.rankAlignment]

theorem SameRing.resetChunkFile : resetChunkFile g = resetChunkFile g' := by
  funext f o s
  unfold Layout.resetChunkFile
  rw [h.rankAlignment]

theorem SameRing.splitTensor (n : ℕ) : splitTensor g n = splitTensor g' n := by
  induction n with
  | zero => rfl
  | succ n ih =>
    funext s k
    rw [Layout.splitTensor, Layout.splitTensor, h.worldChunkSize, h.finishChunk, ih]

theorem SameRing.placeTensor : placeTensor g = placeTensor g' := by
  funext f o o' s
  unfold Layout.placeTensor Layout.fitTensor
  rw [h.bufferSize, h.worldChunkAlignment, h.finishChunk, h.resetChunkBufferOffset]
  simp only [h.splitTensor]

theorem SameRing.layoutLoop (l : List (ℕ × ℕ)) : layoutLoop g l = layoutLoop g' l := by
  induction l with
  | nil => rfl
  | cons a l ih =>
    cases l with
    | nil => rfl
    | cons b l =>
      funext s
      rw [Layout.layoutLoop, Layout.layoutLoop, ih]
      unfold layoutPair
      rw [h.finishChunk, h.resetChunkFile, h.placeTensor]

/-- The depth has no part in the layout. -/
theorem SameRing.computeLayout (l : List (ℕ × ℕ)) : computeLayout g l = computeLayout g' l := by
  unfold Layout.computeLayout
  rw [h.layoutLoop l, h.resetChunkFile, h.finishChunk, h.resetChunkBufferOffset]

end Ring

/-- `init_buffer` leaves a buffer that holds the window as it is. -/
theorem effectiveBufferSize_initBuffer {A P R D B : ℕ} (hA : 0 < A) (hP : 0 < P) (hR : 0 < R) (hD : 0 < D)
    (h : requiredBufferSizeForIo A R D P ≤ B) : (initBuffer A P R D B hA hP hR hD).effectiveBufferSize = B := by
  show enlargeBuffer B (requiredBufferSizeForIo A (alignRankChunk R A) D P) = B
  have hround : roundUp (alignRankChunk R A) A = roundUp R A := by
    rw [roundUp_of_dvd hA (dvd_alignRankChunk _ _)]
    unfold alignRankChunk
    split_ifs with hmod
    · rfl
    · exact (roundUp_of_dvd hA (Nat.dvd_of_mod_eq_zero (not_not.mp hmod))).symm
  unfold requiredBufferSizeForIo at h ⊢
  unfold enlargeBuffer
  rw [hround]
  exact if_neg (Nat.not_lt.mpr h)

/-- With the same sizes, and windows that fit, two ranks have the same layout. -/
theorem layoutOf_eq {s : Shared} {r r' : Opened} (hc : r.chunkSize = r'.chunkSize) (hb : r.bufferSize = r'.bufferSize)
    (hpos : 0 < r.chunkSize) (hd : 0 < r.ioDepth) (hd' : 0 < r'.ioDepth)
    (hw : windowSize s r.chunkSize r.ioDepth ≤ r.bufferSize)
    (hw' : windowSize s r'.chunkSize r'.ioDepth ≤ r'.bufferSize) (offsets : List (ℕ × ℕ)) :
    layoutOf s r offsets = layoutOf s r' offsets := by
  have hpos' : 0 < r'.chunkSize := hc ▸ hpos
  unfold layoutOf
  rw [dif_pos ⟨hpos, hd⟩, dif_pos ⟨hpos', hd'⟩]
  congr 1
  refine SameRing.computeLayout (SameRing.mk ?_ ?_ ?_ ?_) offsets
  · rfl
  · rfl
  · show alignRankChunk r.chunkSize s.pageSize = alignRankChunk r'.chunkSize s.pageSize
    rw [hc]
  · rw [effectiveBufferSize_initBuffer s.pageSize_pos s.worldSize_pos hpos hd hw,
      effectiveBufferSize_initBuffer s.pageSize_pos s.worldSize_pos hpos' hd' hw', hb]

/-! ### The group -/

/-- The chunk sizes that two ranks ask for agree as `SameChunk` says. -/
theorem chunkSize_eq_iff {s : Shared} {o o' : Observed} {q q' : IoParams} (h : asked s o = some q)
    (h' : asked s o' = some q') : q.chunkSize = q'.chunkSize ↔ SameChunk s o o' := by
  have key : ∀ {o : Observed} {q : IoParams}, asked s o = some q → ∃ b, pickBackend s o = .ok b ∧
      q.chunkSize = s.config.chunkSize.getD (if inMemory s ∨ b = .mmap then 2 * 1024 * 1024 else 8 * 1024 * 1024) := by
    intro o q h
    unfold asked at h
    cases hb : pickBackend s o with
    | error e =>
      rw [hb] at h
      cases h
    | ok b =>
      rw [hb] at h
      refine ⟨b, rfl, ?_⟩
      obtain rfl : defaultParams s o b = q := Option.some.inj h
      unfold defaultParams
      cases inMemory s <;> cases b <;> rfl
  obtain ⟨b, hb, hq⟩ := key h
  obtain ⟨b', hb', hq'⟩ := key h'
  have hp : ∀ {c : Backend}, (Except.ok c : Except OpenError Backend) = .ok .mmap ↔ c = .mmap := by
    intro c
    exact ⟨Except.ok.inj, congrArg _⟩
  unfold SameChunk
  rw [hq, hq', hb, hb', hp, hp]
  cases hc : s.config.chunkSize with
  | some c => simp
  | none =>
    cases hm : inMemory s with
    | true => simp
    | false =>
      by_cases h1 : b = .mmap <;> by_cases h2 : b' = .mmap <;> simp [h1, h2]

theorem leastBudget_eq {s : Shared} {ranks : List Observed} {ps : List Prepared}
    (h : ranks.mapM (prepare s) = .ok ps) : leastBudget ps = leastUsable s ranks := by
  have hmap : ranks.map (fun o => s.usable o.freeBytes) = ps.map (·.availBytes) := by
    have hall := forall₂_of_mapM h
    clear h
    induction hall with
    | nil => rfl
    | cons hp _ ih =>
      obtain ⟨q, hq⟩ := prepare_eq_ok hp
      rw [List.map_cons, List.map_cons, ih, hq.availBytes]
  unfold leastUsable
  rw [hmap]
  cases ps with
  | nil => rfl
  | cons p ps =>
    rw [List.map_cons, List.min?_cons', Option.getD_some, List.foldl_map]
    rfl

theorem prepare_of_mapM {s : Shared} {ranks : List Observed} {ps : List Prepared}
    (h : ranks.mapM (prepare s) = .ok ps) {i : ℕ} {o : Observed} {p : Prepared} (ho : ranks[i]? = some o)
    (hp : ps[i]? = some p) : prepare s o = .ok p := by
  obtain ⟨hi, rfl⟩ := List.getElem?_eq_some_iff.mp ho
  obtain ⟨hi', rfl⟩ := List.getElem?_eq_some_iff.mp hp
  exact (forall₂_of_mapM h).get hi hi'

/-- What a rank that finishes has asked for and holds. -/
theorem finishes_spec {s : Shared} {ranks : List Observed} {i : ℕ} {o : Observed} {r : Opened}
    (ho : ranks[i]? = some o) (h : Finishes s ranks i r) :
    ∃ p q, Enters s o p q ∧ Holds s (leastUsable s ranks) p r := by
  obtain ⟨ps, p, h1, h2, h3⟩ := h
  obtain ⟨q, hq⟩ := prepare_eq_ok (prepare_of_mapM h1 ho h2)
  rw [leastBudget_eq h1] at h3
  exact ⟨p, q, hq, complete_eq_ok hq.ioDepth_pos h3⟩

/-- The depth in the end is the depth asked for, cut. -/
theorem ioDepth_eq_cut {s : Shared} {o : Observed} {p : Prepared} {q : IoParams} {budget : ℤ} {r : Opened}
    (he : Enters s o p q) (hr : Holds s budget p r) :
    r.ioDepth = cut s budget q.chunkSize.toNat q.ioDepth.toNat := by
  unfold cut
  rw [hr.ioDepth, he.ioDepth, ← he.chunkSize]

/-- Cutting a depth to the budget keeps its window in the buffer. -/
theorem fits_holds {s : Shared} {o : Observed} {p : Prepared} {q : IoParams} {budget : ℤ} {r : Opened}
    (he : Enters s o p q) (hr : Holds s budget p r) :
    ∀ b, s.config.bufferSize = some b → 0 < b ∧ windowSize s p.chunkSize r.ioDepth ≤ b.toNat := by
  intro b hb
  obtain ⟨h1, h2⟩ := he.fits b hb
  refine ⟨h1, le_trans ?_ h2⟩
  rw [windowSize_eq s p.chunkSize r.ioDepth, windowSize_eq s p.chunkSize p.ioDepth]
  apply Nat.mul_le_mul_left
  rw [hr.ioDepth]
  exact min_le_left _ _

/-- A file in memory with one tensor, opened by two ranks without arguments. -/
def openedByTwo : Shared where
  files := [true]
  config := ⟨none, none, none, none, none⟩
  threshold := 9 / 10
  worldSize := 2
  pageSize := 4096
  tensorSizes := [4096]
  usable n := n
  overlapShare n := n * (9 / 10)
  worldSize_pos := Nat.two_pos
  pageSize_pos := page_pos

/-- A rank with all backends, a gigabyte of free memory and some CPUs. -/
def withCpus (n : ℕ) : Observed where
  freeBytes := 1000000000
  cpuCount := some n
  rotational := [false]
  residentRatio := [none]
  available _ := true

end Frontend
end Siphon
