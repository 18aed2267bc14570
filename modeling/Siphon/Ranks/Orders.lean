/-
# Orders in which no chunk lands on another

With one rank and one CUDA stream the copies come in the order of the posts,
so an earlier chunk is always finished (`stream_delivered`). In any order the
layout helps: a chunk is posted only when the one a window earlier is
complete, so nothing can go wrong if chunks less than a window apart share no
place of the device (`slots_delivered`).

Without either something can: the streams order the copies of a rank among
themselves and its exchanges among themselves, but a copy may run before the
exchange of an earlier chunk. `gather_lands_late` is such a run of two ranks.
-/
import Siphon.Ranks.Delivered

namespace Siphon
namespace Ranks

open Rounding Memory Io Siphon.Runtime

/-- A copy that meets the condition of `apart` wherever it can be made. -/
theorem apart_of_copy {w : Setup} {s : World} {a : Action}
    (h : ∀ rank k, a = .copy rank k → ∀ k₀ ∈ s.posted rank, k₀ < k →
      Layout.overlap w.g (w.chunk k₀) (w.chunk k) → Finished w s rank k₀) : apart w s a = true := by
  cases a with
  | copy rank k => exact decide_eq_true (h rank k rfl)
  | thread => rfl
  | read => rfl
  | send => rfl
  | receive => rfl

theorem copy_guard {w : Setup} {s s' : World} {rank k : ℕ} (h : step w s (.copy rank k) = some s') :
    rank < w.g.worldSize ∧ k ∈ s.posted rank := by
  simp only [step, Option.ite_none_right_eq_some] at h
  exact ⟨h.1.1, h.1.2.1⟩

/-- **One rank and one stream.** On a single rank that copies its chunks in
the order of the posts, the returned tensors have their bytes, whatever
tensors the caller skips and in whatever order the reads finish. -/
theorem stream_delivered (w : Setup) (offs : List (ℕ × ℕ)) (h : w.Opened offs) (hone : w.g.worldSize = 1)
    (buffers : ℕ → RankBuffers) (s : World) (hs : ((world w buffers).restrict streamOrder).Reachable s) :
    Serves w s 0 := by
  have hap := hs.restrict_mono (q := apart w) fun s a s' _ _ hp hstep => by
    refine apart_of_copy fun rank k ha k₀ hk₀ hlt _ => ?_
    subst ha
    have hrank := (copy_guard hstep).1
    exact ⟨of_decide_eq_true hp k₀ hk₀ hlt, fun i hi hne => by omega⟩
  exact (clean_of_reachable h.ok hap.2).serves h (by omega)

/-- One rank with a window of two chunks of 32 pages, and the tensors of
`smallThenLarge`. -/
def oneRank : Setup :=
  { smallThenLarge with
    g := initBuffer 4096 1 131072 2 262144 page_pos Nat.one_pos thirtyTwoPages_pos Nat.two_pos }

theorem oneRank_opened : oneRank.Opened [(0, 4096), (0, 49152), (0, 311296)] where
  valid := ⟨⟨4096, rfl⟩, by decide, by decide⟩
  nonempty := by decide
  clears := by decide
  ioDepth_le := by decide
  layout := by
    obtain ⟨l, hl, hp⟩ := Layout.exists_ok_of_any oneRank.g [(0, 4096), (0, 49152), (0, 311296)]
      (fun l => decide (l.tensors = oneRank.tensors ∧ l.chunks = oneRank.chunks)) (by decide)
    exact ⟨l, hl, of_decide_eq_true hp⟩

/-- The large tensor at once: its first chunk is read before the chunk of the
small one, which uses the same bytes of the device. -/
def skipFirst : List Action :=
  [.thread 0 (.getTensorPtr 1)] ++ List.replicate 10 (.thread 0 .tick) ++
  [.read 0 1 131072, .read 0 0 45056, .copy 0 0, .copy 0 1, .thread 0 (.complete 1), .thread 0 (.complete 0)] ++
  List.replicate 8 (.thread 0 .tick) ++ [.read 0 2 131072, .copy 0 2, .thread 0 (.complete 2)] ++
  List.replicate 4 (.thread 0 .tick)

theorem stream_delivered_skipFirst : oneRank.g.worldSize = 1 ∧ ∃ s,
    ((world oneRank zeroBuffers).restrict streamOrder).Reachable s ∧ (s.loaders 0).2 = .returned 1 ∧
      Serves oneRank s 0 := by
  obtain ⟨s, hs, hp⟩ := ((world oneRank zeroBuffers).restrict streamOrder).exists_reachable skipFirst
    (fun s => decide ((s.loaders 0).2 = .returned 1)) (by decide +kernel)
  exact ⟨rfl, s, hs, of_decide_eq_true hp, stream_delivered oneRank _ oneRank_opened rfl zeroBuffers s hs⟩

/-- Chunks less than a window apart share no place of the device. -/
def SlotsApart (w : Setup) : Prop :=
  ∀ k < w.chunks.length, ∀ k₀ < k, k < k₀ + w.g.ioDepth → ¬ Layout.overlap w.g (w.chunk k₀) (w.chunk k)

instance (w : Setup) : Decidable (SlotsApart w) := by unfold SlotsApart; infer_instance

/-- **A layout for every order.** If chunks less than a window apart share no
place of the device, the returned tensors have their bytes on every rank, in
every order of the calls, the reads, the copies and the exchanges. -/
theorem slots_delivered (w : Setup) (offs : List (ℕ × ℕ)) (h : w.Opened offs) (hslots : SlotsApart w)
    (buffers : ℕ → RankBuffers) (s : World) (hs : (world w buffers).Reachable s) (r : ℕ)
    (hr : r < w.g.worldSize) : Serves w s r := by
  have hap := hs.restrict (q := apart w) fun s a s' hreach hstep => by
    refine apart_of_copy fun rank k ha k₀ hk₀ hlt ho => ?_
    subst ha
    obtain ⟨hrank, hk⟩ := copy_guard hstep
    have hb := base_of_reachable h.ok hreach
    by_cases hwin : k < k₀ + w.g.ioDepth
    · exact absurd ho (hslots k (hb.has h.ok hrank hk) k₀ hlt hwin)
    · -- the earlier chunk left its window before
      obtain ⟨posts, next, hc, -⟩ := (Runtime.reachable_inv h.ok.sound (hb.loader rank hrank)).core
      have hlen : k < (s.loaders rank).1.posted.length := List.mem_range.mp (hc.posted_eq ▸ hk)
      exact hb.completed rank hrank k₀ (hc.window k hlen k₀ (not_lt.mp hwin))
  exact (clean_of_reachable h.ok hap).serves h hr

/-- Two ranks with a window of two chunks of a page, and two tensors of a
chunk each, read straight to the device. -/
def chunkEach : Setup where
  g := initBuffer 4096 2 4096 2 16384 page_pos Nat.two_pos page_pos Nat.two_pos
  tensors := [⟨8192, 0, 4096, 16, 0, 1⟩, ⟨8192, 0, 12288, 8208, 1, 1⟩]
  chunks := [⟨8192, 0, 4096, 16⟩, ⟨8192, 0, 12288, 8208⟩]
  files := fun _ x => UInt8.ofNat (x / 4096)
  direct := true

theorem chunkEach_opened : chunkEach.Opened [(0, 4096), (0, 12288), (0, 20480)] where
  valid := ⟨⟨4096, rfl⟩, by decide, by decide⟩
  nonempty := by decide
  clears := by decide
  ioDepth_le := by decide
  layout := by
    obtain ⟨l, hl, hp⟩ := Layout.exists_ok_of_any chunkEach.g [(0, 4096), (0, 12288), (0, 20480)]
      (fun l => decide (l.tensors = chunkEach.tensors ∧ l.chunks = chunkEach.chunks)) (by decide)
    exact ⟨l, hl, of_decide_eq_true hp⟩

/-- The second chunk is copied and exchanged before the first. -/
def secondFirst : List Action :=
  [0, 1].flatMap (fun r => .thread r (.getTensorPtr 1) :: List.replicate 10 (.thread r .tick)) ++
  [1, 0].flatMap (fun k => [.copy 0 k, .copy 1 k, .send 0 1 k, .send 1 0 k, .receive 1 0 k, .receive 0 1 k,
    .thread 0 (.complete k)]) ++
  List.replicate 5 (.thread 0 .tick)

theorem slots_delivered_secondFirst : SlotsApart chunkEach ∧ ∃ s,
    (world chunkEach zeroBuffers).Reachable s ∧ (s.loaders 0).2 = .returned 1 ∧ Serves chunkEach s 0 := by
  have hslots : SlotsApart chunkEach := by decide
  obtain ⟨s, hs, hp⟩ := (world chunkEach zeroBuffers).exists_reachable secondFirst
    (fun s => decide ((s.loaders 0).2 = .returned 1)) (by decide +kernel)
  exact ⟨hslots, s, hs, of_decide_eq_true hp,
    slots_delivered chunkEach _ chunkEach_opened hslots zeroBuffers s hs 0 (by decide)⟩

/-- Both ranks want the large tensor at once. Rank 0 copies its slices of the
first two chunks before rank 1 has copied one. -/
def gatherLate : List Action :=
  [0, 1].flatMap (fun r => .thread r (.getTensorPtr 1) :: List.replicate 10 (.thread r .tick)) ++
  [.read 0 0 24576, .read 0 1 65536, .read 1 0 20480, .read 1 1 65536, .copy 0 0, .copy 0 1, .copy 1 0,
    .send 0 1 0, .send 1 0 0, .receive 1 0 0, .receive 0 1 0, .copy 1 1, .send 0 1 1, .send 1 0 1,
    .receive 1 0 1, .receive 0 1 1] ++
  [0, 1].flatMap (fun r => [.thread r (.complete 0), .thread r (.complete 1)] ++
    List.replicate 8 (.thread r .tick)) ++
  [.read 0 2 65536, .read 1 2 65536, .copy 0 2, .copy 1 2, .send 0 1 2, .send 1 0 2, .receive 1 0 2,
    .receive 0 1 2, .thread 0 (.complete 2)] ++ List.replicate 4 (.thread 0 .tick)

/-- The slice of rank 1 of the small tensor's chunk arrives on rank 0 in the
middle of the large tensor, and stays there. -/
theorem gather_lands_late : ∃ s, ((world smallThenLarge zeroBuffers).restrict streamOrder).Reachable s ∧
    (s.loaders 0).2 = .returned 1 ∧ ¬ Serves smallThenLarge s 0 := by
  obtain ⟨s, hs, hp⟩ := ((world smallThenLarge zeroBuffers).restrict streamOrder).exists_reachable gatherLate
    (fun s => decide ((s.loaders 0).2 = .returned 1 ∧ s.device 0 (16 + 24576) = 1)) (by decide +kernel)
  obtain ⟨hpc, hbyte⟩ := of_decide_eq_true hp
  refine ⟨s, hs, hpc, fun hserves => ?_⟩
  have := hserves.returned 1 ⟨262144, 0, 49152, 16, 2, 2⟩ hpc rfl 24576 (by decide)
  rw [hbyte] at this
  exact absurd this (by decide)

end Ranks
end Siphon
