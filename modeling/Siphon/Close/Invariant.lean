/-
# What holds while the threads of a loader run

`Core` is kept by every step of every thread, in whatever order they come. The
`wait_func`s are reaped in the order of the chunks by the loader thread, the
`cuda_func`s by the `wait_func`s and the reads by the `cuda_func`s, so that
the chunks reaped, waited for and copied are each a prefix of the next, and
what is outstanding with an executor is in the window of `io_depth` chunks.

Key definitions: `Core`.
-/
import Siphon.Close.Buffers
import Siphon.Close.Posts

namespace Siphon
namespace Close

open Executor Frontend

/-! ### A function that reaps another executor -/

/-- What the thread of an executor does in a function, which asks an operation
for the id `ask` and is behind it, or has no id to ask for. -/
structure Turn {P : Type} (behind : Bool) (workers : List (Worker P Unit)) (ask : P → ℤ) (op : ReapOp)
    (reaper : Option (ReapOp × ℤ)) : Prop where
  some_pending : behind = true → reaper = none ∧ ∃ t, workers[0]? = some (.pending t)
  reap : ∀ o, reaper = some o → ∃ t, workers[0]? = some (.pending t) ∧ ask t.payload ≠ stopRequestId ∧
    o = (op, ask t.payload)

section Turn

variable {P : Type} {behind : Bool} {workers workers' : List (Worker P Unit)} {ask : P → ℤ} {op : ReapOp}
  {reaper : Option (ReapOp × ℤ)}

theorem turn_idle : Turn false workers ask op none :=
  { some_pending := fun h => by cases h
    reap := fun o h => by cases h }

/-- A worker that holds a task keeps it. -/
theorem Turn.quiet (h : Turn behind workers ask op reaper)
    (hp : ∀ (w : ℕ) (t : Executor.Task P), workers[w]? = some (.pending t) → workers'[w]? = some (.pending t)) :
    Turn behind workers' ask op reaper := by
  refine { some_pending := fun hb => ?_, reap := fun o ho => ?_ }
  · obtain ⟨hnone, t, ht⟩ := h.some_pending hb
    exact ⟨hnone, t, hp 0 t ht⟩
  · obtain ⟨t, ht, hne, ho⟩ := h.reap o ho
    exact ⟨t, hp 0 t ht, hne, ho⟩

/-- The operation is on the id of the function that runs. -/
theorem Turn.reaper_eq (h : Turn behind workers ask op reaper) {t : Executor.Task P}
    (ht : workers[0]? = some (.pending t)) {o : ReapOp × ℤ} (ho : reaper = some o) : o = (op, ask t.payload) := by
  obtain ⟨t', ht', -, rfl⟩ := h.reap o ho
  rw [ht, Option.some.injEq, Worker.pending.injEq] at ht'
  rw [ht']

/-- A function that has no id to ask for is in no operation. -/
theorem Turn.reaper_eq_none (h : Turn behind workers ask op reaper) {t : Executor.Task P}
    (ht : workers[0]? = some (.pending t)) (hstop : ask t.payload = stopRequestId) : reaper = none := by
  rcases hr : reaper with - | o
  · rfl
  · obtain ⟨t', ht', hne, -⟩ := h.reap o hr
    rw [ht, Option.some.injEq, Worker.pending.injEq] at ht'
    exact absurd (ht' ▸ hstop) hne

end Turn

/-! ### The invariant -/

namespace Config

/-- The chunks that may be in flight. -/
def inFlight (cfg : Config) : ℕ := min maxIoDepth cfg.geometry.ioDepth

theorem inFlight_le (cfg : Config) : cfg.inFlight ≤ maxIoDepth := Nat.min_le_left _ _

theorem inFlight_pos (cfg : Config) : 0 < cfg.inFlight :=
  Nat.lt_min.mpr ⟨Nat.succ_pos 1023, cfg.geometry.ioDepth_pos⟩

theorem inFlight_le_ioDepth (cfg : Config) : cfg.inFlight ≤ cfg.geometry.ioDepth := Nat.min_le_right _ _

theorem lt_waitChunkId {cfg : Config} {chunkId reaped : ℕ} :
    ¬(reaped : ℤ) ≤ cfg.waitChunkId chunkId ↔ chunkId + 1 ≤ reaped + cfg.inFlight := by
  unfold Config.waitChunkId inFlight
  omega

end Config

/-- What the loader thread reaps with. -/
def LoaderPc.reaps (cfg : Config) (posted reaped : ℕ) : LoaderPc → Option ReapOp
  | .window => if (reaped : ℤ) ≤ cfg.waitChunkId (posted - 1) then some .reap else none
  | .waitRead chunkId => if reaped ≤ chunkId then some .reap else none
  | .poll => if reaped < posted then some .tryReap else none
  | .idle | .read | .submitCuda _ | .submitWait _ | .join _ | .joinSample | .destroyBuffer => none

namespace State

variable (cfg : Config) (s : State)

/-- The chunks whose `wait_func` is behind its reap. -/
def waiting : ℕ := s.wait.executed.length + if s.waitPc = .synchronize then 1 else 0

/-- The chunks whose `cuda_func` is behind its reap. -/
def copying : ℕ := s.cuda.executed.length + if s.cudaPc = .loop then 1 else 0

/-- The chunks whose work was issued. -/
def issued : ℕ := if cfg.registered then staged 3 s.pc s.posted else s.cuda.executed.length

end State

/-- The invariant of the threads. -/
structure Core (cfg : Config) (s : State) : Prop where
  reader : Executor.Invariant s.reader
  cuda : Executor.Invariant s.cuda
  wait : Executor.Invariant s.wait
  cudaOrder : InSequence s.cuda
  waitOrder : InSequence s.wait
  posts : Posts cfg s.requests s.posted s.pc s.handles s.reader.submitted s.cuda.submitted s.wait.submitted
  /-- `post_read_chunk` waits for the window. -/
  window : s.posted ≤ s.reaped + cfg.inFlight + if s.pc = .window then 1 else 0
  waitRead : ∀ chunkId, s.pc = .waitRead chunkId → chunkId < s.posted
  waitReaped : s.wait.reaped.map (·.2.ticket) = List.range s.reaped
  cudaReaped : cfg.registered = false → s.cuda.reaped.map (·.2.ticket) = List.range s.waiting
  readerReaped : s.reader.reaped.map (·.2.ticket) = List.range (cfg.readsBefore s.copying)
  loaderTurn : ∀ o, s.wait.reaper = some o →
    s.pc.reaps cfg s.posted s.reaped = some o.1 ∧ o.2 = s.handles.getD s.reaped 0
  cudaTurn : Turn (s.cudaPc = .loop) s.cuda.workers CudaFunc.readReqId cfg.reapOp s.reader.reaper
  waitTurn : Turn (s.waitPc = .synchronize) s.wait.workers WaitFunc.cudaReqId .reap s.cuda.reaper
  reads : Reads cfg (staged 3 s.pc s.posted) s.cuda.executed.length (waits s.reader) s.unfinished s.kernel
    s.completions s.read
  copies : Copies cfg (s.issued cfg) s.wait.executed.length s.device s.copied s.events

section Core

variable {cfg : Config} {s : State}

theorem core_init : Core cfg (loader cfg).init :=
  { reader := .init _
    cuda := .init 1
    wait := .init 1
    cudaOrder := inSequence_init
    waitOrder := inSequence_init
    posts := posts_init
    window := Nat.zero_le _
    waitRead := fun chunkId h => by cases h
    waitReaped := rfl
    cudaReaped := fun _ => rfl
    readerReaped := by simp [loader, executor, State.copying, Config.readsBefore]
    loaderTurn := fun o h => by simp [loader, executor] at h
    cudaTurn := turn_idle
    waitTurn := turn_idle
    reads := reads_init.congr fun k => (inv_init cfg.readers).waits_eq_zero fun t ht => by simp [executor] at ht
    copies := by
      have hzero : ((loader cfg).init).issued cfg = 0 := by
        simp [State.issued, loader, executor, staged]
      rw [hzero]
      exact copies_init }

/-! ### Prefixes -/

theorem Core.reaped_le (h : Core cfg s) : s.reaped ≤ s.wait.executed.length :=
  h.waitOrder.le_executed h.wait.inv h.waitReaped

theorem Core.waiting_le (h : Core cfg s) (hreg : cfg.registered = false) : s.waiting ≤ s.cuda.executed.length :=
  h.cudaOrder.le_executed h.cuda.inv (h.cudaReaped hreg)

theorem Core.waited_le (h : Core cfg s) : s.wait.executed.length ≤ staged 1 s.pc s.posted := by
  rw [← h.posts.waits_length]
  exact h.waitOrder.executed_le

theorem Core.copied_le (h : Core cfg s) : s.cuda.executed.length ≤ staged 2 s.pc s.posted := by
  have hle := h.cudaOrder.executed_le
  rw [h.posts.cudas_length] at hle
  split_ifs at hle <;> omega

theorem staged_le (stage : ℕ) (pc : LoaderPc) (posted : ℕ) : staged stage pc posted ≤ posted := by
  unfold staged
  split_ifs <;> omega

theorem staged_mono {stage stage' : ℕ} (h : stage ≤ stage') (pc : LoaderPc) (posted : ℕ) :
    staged stage pc posted ≤ staged stage' pc posted := by
  unfold staged
  split_ifs <;> omega

/-- The reads of the window. -/
theorem Core.staged_le (h : Core cfg s) : staged 3 s.pc s.posted ≤ s.reaped + cfg.inFlight := by
  have hwindow := h.window
  by_cases hpc : s.pc = .window
  · rw [if_pos hpc] at hwindow
    rw [hpc, staged, if_pos (show 3 ≤ LoaderPc.window.ahead from le_refl 3)]
    omega
  · rw [if_neg hpc] at hwindow
    have := Close.staged_le 3 s.pc s.posted
    omega

/-! ### What is outstanding -/

theorem length_tickets {P R : Type} {e : Executor.State P R} {n : ℕ}
    (h : e.reaped.map (·.2.ticket) = List.range n) : e.reaped.length = n := by
  have hlen := congrArg List.length h
  rwa [List.length_map, List.length_range] at hlen

theorem Core.wait_room (h : Core cfg s) :
    s.wait.submitted.length ≤ s.wait.reaped.length + (staged 1 s.pc s.posted - s.reaped) := by
  rw [h.posts.waits_length, length_tickets h.waitReaped]
  omega

theorem Core.cuda_room (h : Core cfg s) :
    s.cuda.submitted.length ≤ s.cuda.reaped.length + (staged 2 s.pc s.posted - s.reaped) := by
  rw [h.posts.cudas_length]
  split_ifs with hreg
  · exact Nat.zero_le _
  · rw [length_tickets (h.cudaReaped (by simpa using hreg)), State.waiting]
    have := h.reaped_le
    omega

/-- A chunk is copied before it is reaped. -/
theorem Core.reaped_le_copying (h : Core cfg s) (hreg : cfg.registered = false) :
    s.reaped ≤ s.cuda.executed.length := by
  have hreaped := h.reaped_le
  have hwaiting := h.waiting_le hreg
  unfold State.waiting at hwaiting
  omega

theorem Core.reader_room (h : Core cfg s) :
    s.reader.submitted.length ≤ s.reader.reaped.length + (staged 3 s.pc s.posted - s.reaped) := by
  rw [h.posts.reads_length, length_tickets h.readerReaped]
  by_cases hreg : cfg.registered = true
  · rw [readsBefore_of_registered hreg]
    exact Nat.zero_le _
  · have hreaped := h.reaped_le_copying (by simpa using hreg)
    unfold State.copying
    rcases Nat.le_total s.cuda.executed.length (staged 3 s.pc s.posted) with hle | hle
    · have hsub : cfg.readsBefore (staged 3 s.pc s.posted) ≤ cfg.readsBefore s.cuda.executed.length + _ :=
        readsBefore_sub_le hle
      have hmono : cfg.readsBefore s.cuda.executed.length ≤
          cfg.readsBefore (s.cuda.executed.length + if s.cudaPc = .loop then 1 else 0) :=
        readsBefore_mono (Nat.le_add_right _ _)
      omega
    · exact (readsBefore_mono (hle.trans (Nat.le_add_right _ _))).trans (Nat.le_add_right _ _)

/-- The `wait_func` that runs is that of the next chunk. -/
theorem Core.waitFunc (h : Core cfg s) {t : Executor.Task WaitFunc} (ht : s.wait.workers[0]? = some (.pending t)) :
    t.payload.chunkId = s.wait.executed.length ∧ s.wait.executed.length < staged 1 s.pc s.posted ∧
    CudaId cfg s.cuda.submitted s.wait.executed.length t.payload.cudaReqId := by
  have hticket := h.waitOrder.pending_ticket ht
  have hsub := h.wait.inv.pending t (List.mem_of_getElem? ht)
  rw [hticket] at hsub
  obtain ⟨-, hk, -, hid⟩ := h.posts.wait _ t hsub
  have hlt := (List.getElem?_eq_some_iff.mp hsub).1
  rw [h.posts.waits_length] at hlt
  exact ⟨hk, hlt, hid⟩

/-- The `cuda_func` that runs is that of the next chunk. -/
theorem Core.cudaFunc (h : Core cfg s) {t : Executor.Task CudaFunc} (ht : s.cuda.workers[0]? = some (.pending t)) :
    t.payload.chunkId = s.cuda.executed.length ∧ s.cuda.executed.length < staged 2 s.pc s.posted ∧
    cfg.registered = false ∧ ReadId cfg s.reader.submitted s.cuda.executed.length t.payload.readReqId := by
  have hticket := h.cudaOrder.pending_ticket ht
  have hsub := h.cuda.inv.pending t (List.mem_of_getElem? ht)
  rw [hticket] at hsub
  obtain ⟨-, hk, -, hid⟩ := h.posts.cuda _ t hsub
  have hlt := (List.getElem?_eq_some_iff.mp hsub).1
  rw [h.posts.cudas_length] at hlt
  by_cases hreg : cfg.registered = true
  · rw [if_pos hreg] at hlt
    exact absurd hlt (Nat.not_lt_zero _)
  · rw [if_neg hreg] at hlt
    exact ⟨hk, hlt, by simpa using hreg, hid⟩

/-- A `wait_func` holds no id exactly where there is no `cuda_func`. -/
theorem Core.cudaReqId_eq (h : Core cfg s) {t : Executor.Task WaitFunc}
    (ht : s.wait.workers[0]? = some (.pending t)) : t.payload.cudaReqId = stopRequestId ↔ cfg.registered = true := by
  obtain ⟨-, -, hid⟩ := h.waitFunc ht
  unfold CudaId at hid
  split_ifs at hid with hreg
  · simp [hid, hreg]
  · obtain ⟨u, hu, hid⟩ := hid
    have hne := (h.posts.cuda _ u hu).2.2.1.ne_stop
    simp [hreg, ← hid, hne]

/-- A `cuda_func` holds no id exactly where the read is no task. -/
theorem Core.readReqId_eq (h : Core cfg s) {t : Executor.Task CudaFunc}
    (ht : s.cuda.workers[0]? = some (.pending t)) :
    t.payload.readReqId = stopRequestId ↔ cfg.readTask s.cuda.executed.length = false := by
  obtain ⟨-, -, -, hid⟩ := h.cudaFunc ht
  unfold ReadId at hid
  split_ifs at hid with hread
  · obtain ⟨u, hu, hid⟩ := hid
    have hne := (h.posts.read _ u hu).2.2.2.ne_stop
    simp [hread, ← hid, hne]
  · simp [hid, hread]

/-- The loader thread looks at a chunk that is posted. -/
theorem Core.reaped_lt (h : Core cfg s) {op : ReapOp} (hpc : s.pc.reaps cfg s.posted s.reaped = some op) :
    s.reaped < staged 1 s.pc s.posted := by
  have hread := h.waitRead
  have hpos := cfg.inFlight_pos
  unfold LoaderPc.reaps at hpc
  split at hpc
  · rename_i heq
    split_ifs at hpc with hle
    have hlt := mt Config.lt_waitChunkId.mpr (not_not.mpr hle)
    rw [heq, staged, if_pos (show 1 ≤ LoaderPc.window.ahead from Nat.le_add_left 1 2)]
    omega
  · rename_i chunkId heq
    split_ifs at hpc with hle
    rw [heq]
    exact hle.trans_lt (hread chunkId heq)
  · rename_i heq
    split_ifs at hpc with hlt
    rw [heq]
    exact hlt
  all_goals cases hpc

/-- The request that the loader thread reaps. -/
theorem Core.outstanding_wait (h : Core cfg s) {op : ReapOp} (hpc : s.pc.reaps cfg s.posted s.reaped = some op) :
    ∃ t, Outstanding s.wait s.reaped t ∧ t.requestId = s.handles.getD s.reaped 0 := by
  have hlt := h.reaped_lt hpc
  rw [← h.posts.waits_length] at hlt
  obtain ⟨t, ht⟩ : ∃ t, s.wait.submitted[s.reaped]? = some t := ⟨_, List.getElem?_eq_getElem hlt⟩
  refine ⟨t, ⟨ht, (h.posts.wait _ t ht).1, ?_⟩, ?_⟩
  · rw [h.waitReaped, List.mem_range]
    exact Nat.lt_irrefl _
  · rw [h.posts.waits_handles, List.getD_eq_getElem?_getD, List.getElem?_map, ht]
    rfl

/-- The request that a `wait_func` reaps. -/
theorem Core.outstanding_cuda (h : Core cfg s) {t : Executor.Task WaitFunc}
    (ht : s.wait.workers[0]? = some (.pending t)) (hpc : s.waitPc = .reap)
    (hne : t.payload.cudaReqId ≠ stopRequestId) :
    ∃ u, Outstanding s.cuda s.wait.executed.length u ∧ u.requestId = t.payload.cudaReqId := by
  have hreg : ¬cfg.registered = true := fun hreg => hne ((h.cudaReqId_eq ht).mpr hreg)
  obtain ⟨-, -, hid⟩ := h.waitFunc ht
  rw [CudaId, if_neg hreg] at hid
  obtain ⟨u, hu, hid⟩ := hid
  refine ⟨u, ⟨hu, (h.posts.cuda _ u hu).1, ?_⟩, hid⟩
  rw [h.cudaReaped (by simpa using hreg), State.waiting, hpc, List.mem_range]
  simp

/-- The request that a `cuda_func` reaps. -/
theorem Core.outstanding_reader (h : Core cfg s) {t : Executor.Task CudaFunc}
    (ht : s.cuda.workers[0]? = some (.pending t)) (hpc : s.cudaPc = .reap)
    (hne : t.payload.readReqId ≠ stopRequestId) :
    ∃ u, Outstanding s.reader (cfg.readsBefore s.cuda.executed.length) u ∧ u.requestId = t.payload.readReqId := by
  have hread : cfg.readTask s.cuda.executed.length = true := by
    have := mt (h.readReqId_eq ht).mpr hne
    simpa using this
  obtain ⟨-, -, -, hid⟩ := h.cudaFunc ht
  rw [ReadId, if_pos hread] at hid
  obtain ⟨u, hu, hid⟩ := hid
  refine ⟨u, ⟨hu, (h.posts.read _ u hu).1, ?_⟩, hid⟩
  rw [h.readerReaped, State.copying, hpc, List.mem_range]
  simp

end Core

end Close
end Siphon
