/-
# Every thread keeps the invariant

One lemma for each thing that a thread can do: go on without a task, submit
one, make a turn of a worker, of a reap or of a join, take a completion, and
end a function (`Core.step`).

Key theorems: `Core.step`, `reachable_core`.
-/
import Siphon.Close.Invariant

namespace Siphon
namespace Close

open Executor Frontend

variable {cfg : Config} {s : State}

/-! ### Without a task -/

/-- Between its loops, the loader thread reaps nothing. -/
theorem Core.reaper_eq_none (h : Core cfg s) (hpc : s.pc.reaps cfg s.posted s.reaped = none) :
    s.wait.reaper = none := by
  rcases hr : s.wait.reaper with - | o
  · rfl
  · rw [(h.loaderTurn o hr).1] at hpc
    cases hpc

/-- The loader thread goes on. -/
theorem Core.goto (h : Core cfg s) {pc : LoaderPc} (ha : pc.ahead = s.pc.ahead) (hcuda : ∀ id, pc ≠ .submitCuda id)
    (hwait : ∀ id, pc ≠ .submitWait id) (hread : ∀ k, pc = .waitRead k → k < s.posted)
    (hreaper : s.wait.reaper = none) (hwindow : s.posted ≤ s.reaped + cfg.inFlight) : Core cfg { s with pc } := by
  have hstaged : staged 3 pc s.posted = staged 3 s.pc s.posted := by rw [staged, ha, staged]
  exact
    { h with
      posts := h.posts.goto ha hcuda hwait
      window := hwindow.trans (Nat.le_add_right _ _)
      waitRead := hread
      loaderTurn := fun o ho => by simp [hreaper] at ho
      reads := by
        rw [hstaged]
        exact h.reads
      copies := by
        simp only [State.issued, hstaged]
        exact h.copies }

/-- The next chunk. -/
theorem Core.next (h : Core cfg s) (hpc : s.pc = .idle) :
    Core cfg { s with posted := s.posted + 1, pc := .window } := by
  have hwindow := h.window
  have hstaged : staged 3 .window (s.posted + 1) = staged 3 s.pc s.posted := by
    rw [hpc]
    rfl
  have hreaper := h.reaper_eq_none (by rw [hpc]; rfl)
  exact
    { h with
      posts := h.posts.next (by rw [hpc]; rfl)
      window := by
        rw [if_neg (by simp [hpc])] at hwindow
        simp only [if_true]
        omega
      waitRead := fun k hk => by cases hk
      loaderTurn := fun o ho => by simp [hreaper] at ho
      reads := by
        rw [hstaged]
        exact h.reads
      copies := by
        simp only [State.issued, hstaged]
        exact h.copies }

/-! ### Turns of the workers -/

theorem Core.reader_quiet (h : Core cfg s) {reader : Executor.State ℕ Unit} (hs : Steps s.reader reader)
    (hq : Quiet s.reader reader) : Core cfg { s with reader } :=
  { h with
    reader := h.reader.steps hs
    posts := by
      simp only [hq.submitted]
      exact h.posts
    readerReaped := by
      simp only [hq.reaped]
      exact h.readerReaped
    cudaTurn := by
      simp only [hq.reaper]
      exact h.cudaTurn
    reads := h.reads.congr hq.waits }

theorem Core.cuda_quiet (h : Core cfg s) {cuda : Executor.State CudaFunc Unit} (hs : Steps s.cuda cuda)
    (hq : Quiet s.cuda cuda) : Core cfg { s with cuda } :=
  { h with
    cuda := h.cuda.steps hs
    cudaOrder := h.cudaOrder.steps hs
    posts := by
      simp only [hq.submitted]
      exact h.posts
    cudaReaped := by
      simp only [hq.reaped]
      exact h.cudaReaped
    readerReaped := by
      simp only [State.copying, hq.executed]
      exact h.readerReaped
    cudaTurn := h.cudaTurn.quiet hq.pending
    waitTurn := by
      simp only [hq.reaper]
      exact h.waitTurn
    reads := by
      simp only [hq.executed]
      exact h.reads
    copies := by
      simp only [State.issued, hq.executed]
      exact h.copies }

theorem Core.wait_quiet (h : Core cfg s) {wait : Executor.State WaitFunc Unit} (hs : Steps s.wait wait)
    (hq : Quiet s.wait wait) : Core cfg { s with wait } :=
  { h with
    wait := h.wait.steps hs
    waitOrder := h.waitOrder.steps hs
    posts := by
      simp only [hq.submitted]
      exact h.posts
    waitReaped := by
      simp only [hq.reaped]
      exact h.waitReaped
    cudaReaped := by
      simp only [State.waiting, hq.executed]
      exact h.cudaReaped
    loaderTurn := by
      simp only [hq.reaper]
      exact h.loaderTurn
    waitTurn := h.waitTurn.quiet hq.pending
    copies := by
      simp only [hq.executed]
      exact h.copies }

/-! ### Reaps -/

section Outcome

variable {P Q : Type} {e e' : Executor.State P Unit} {op : ReapOp} {id : ℤ} {k : ℕ}

theorem outcome_tickets (ho : Outcome op id k e e') (hb : op.blocks = true) :
    e'.reaped.map (·.2.ticket) = e.reaped.map (·.2.ticket) ++ if e'.reaper.isNone then [k] else [] := by
  rcases ho with ⟨hr, hd⟩ | ⟨hr, hd, -⟩ | ⟨-, -, hno, -⟩
  · simp [hr, hd]
  · simp [hr, hd]
  · rw [hb] at hno
    cases hno

theorem outcome_turn {workers : List (Worker Q Unit)} {ask : Q → ℤ} {t : Executor.Task Q}
    (ht : workers[0]? = some (.pending t)) (hne : ask t.payload ≠ stopRequestId)
    (ho : Outcome op (ask t.payload) k e e') : Turn e'.reaper.isNone workers ask op e'.reaper := by
  refine { some_pending := fun hb => ⟨by simpa using hb, t, ht⟩, reap := fun o hr => ⟨t, ht, hne, ?_⟩ }
  rcases ho with ⟨hw, -⟩ | ⟨hw, -, -⟩ | ⟨hw, -, -, -⟩ <;> rw [hw] at hr <;> simp_all

end Outcome

/-- A `cuda_func` reaps its read. -/
theorem Core.reap_reader (h : Core cfg s) {t : Executor.Task CudaFunc} (ht : s.cuda.workers[0]? = some (.pending t))
    (hpc : s.cudaPc = .reap) (hne : t.payload.readReqId ≠ stopRequestId) {reader : Executor.State ℕ Unit}
    (hs : reapTurn cfg.reapOp t.payload.readReqId s.reader = some reader) :
    Core cfg { s with reader, cudaPc := if reader.reaper.isNone then .loop else .reap } := by
  obtain ⟨u, hu, hid⟩ := h.outstanding_reader ht hpc hne
  have hop : cfg.reapOp ≠ .ready ∧ cfg.reapOp.blocks = true := by
    unfold Config.reapOp
    split_ifs <;> simp [ReapOp.blocks]
  have hreads : cfg.readTask s.cuda.executed.length = true := by
    have := mt (h.readReqId_eq ht).mpr hne
    simpa using this
  have ho := reapTurn_outcome h.reader.inv hop.1 hu hid (fun o hr => h.cudaTurn.reaper_eq ht hr) hs
  obtain ⟨hsub, -, -, -, -⟩ := (reapTurn_reaps h.reader.inv hs).frame
  have hloop : ((if reader.reaper.isNone then CudaPc.loop else CudaPc.reap) = .loop) ↔
      reader.reaper.isNone = true := by
    split_ifs <;> simp_all
  have hbefore := h.readerReaped
  rw [State.copying, hpc, if_neg (by simp), Nat.add_zero] at hbefore
  exact
    { h with
      reader := h.reader.steps (reapTurn_steps hs)
      posts := by
        simp only [hsub]
        exact h.posts
      readerReaped := by
        rw [outcome_tickets ho hop.2, hbefore]
        simp only [State.copying, hloop]
        split_ifs
        · rw [readsBefore_succ, if_pos hreads, List.range_succ]
        · simp
      cudaTurn := by
        simp only [hloop, Bool.decide_eq_true]
        exact outcome_turn ht hne ho
      reads := h.reads.congr fun k => (reapTurn_reaps h.reader.inv hs).waits_eq k }

/-- A `cuda_func` whose read is no task has none to reap. -/
theorem Core.skip_reader (h : Core cfg s) {t : Executor.Task CudaFunc} (ht : s.cuda.workers[0]? = some (.pending t))
    (hpc : s.cudaPc = .reap) (hstop : t.payload.readReqId = stopRequestId) : Core cfg { s with cudaPc := .loop } := by
  have hbefore := h.readerReaped
  rw [State.copying, hpc, if_neg (by simp), Nat.add_zero] at hbefore
  have hnone := h.cudaTurn.reaper_eq_none ht hstop
  exact
    { h with
      readerReaped := by
        simp only [State.copying, if_true]
        rw [hbefore, readsBefore_succ, if_neg (by simp [(h.readReqId_eq ht).mp hstop]), Nat.add_zero]
      cudaTurn :=
        { some_pending := fun _ => ⟨hnone, t, ht⟩
          reap := fun o hr => by simp [hnone] at hr } }

/-- A `wait_func` reaps its `cuda_func`. -/
theorem Core.reap_cuda (h : Core cfg s) {t : Executor.Task WaitFunc} (ht : s.wait.workers[0]? = some (.pending t))
    (hpc : s.waitPc = .reap) (hne : t.payload.cudaReqId ≠ stopRequestId) {cuda : Executor.State CudaFunc Unit}
    (hs : reapTurn .reap t.payload.cudaReqId s.cuda = some cuda) :
    Core cfg { s with cuda, waitPc := if cuda.reaper.isNone then .synchronize else .reap } := by
  obtain ⟨u, hu, hid⟩ := h.outstanding_cuda ht hpc hne
  have ho := reapTurn_outcome h.cuda.inv (by simp) hu hid (fun o hr => h.waitTurn.reaper_eq ht hr) hs
  have hreaps := reapTurn_reaps h.cuda.inv hs
  obtain ⟨hsub, hran, -, -, hworkers⟩ := hreaps.frame
  have hsync : ((if cuda.reaper.isNone then WaitPc.synchronize else WaitPc.reap) = .synchronize) ↔
      cuda.reaper.isNone = true := by
    split_ifs <;> simp_all
  have hbefore := h.cudaReaped
  rw [State.waiting, hpc, if_neg (by simp), Nat.add_zero] at hbefore
  exact
    { h with
      cuda := h.cuda.steps (reapTurn_steps hs)
      cudaOrder := h.cudaOrder.steps (reapTurn_steps hs)
      posts := by
        simp only [hsub]
        exact h.posts
      cudaReaped := fun hreg => by
        rw [outcome_tickets ho rfl, hbefore hreg]
        simp only [State.waiting, hsync]
        split_ifs
        · rw [List.range_succ]
        · simp
      readerReaped := by
        simp only [State.copying, hran]
        exact h.readerReaped
      cudaTurn := by
        simp only [hworkers]
        exact h.cudaTurn
      waitTurn := by
        simp only [hsync, Bool.decide_eq_true]
        exact outcome_turn ht hne ho
      reads := by
        simp only [hran]
        exact h.reads
      copies := by
        simp only [State.issued, hran]
        exact h.copies }

/-- A `wait_func` of a registered mapping has no `cuda_func` to reap. -/
theorem Core.skip_cuda (h : Core cfg s) {t : Executor.Task WaitFunc} (ht : s.wait.workers[0]? = some (.pending t))
    (hstop : t.payload.cudaReqId = stopRequestId) : Core cfg { s with waitPc := .synchronize } := by
  have hreg := (h.cudaReqId_eq ht).mp hstop
  have hnone := h.waitTurn.reaper_eq_none ht hstop
  exact
    { h with
      cudaReaped := fun hno => by
        rw [hreg] at hno
        cases hno
      waitTurn :=
        { some_pending := fun _ => ⟨hnone, t, ht⟩
          reap := fun o hr => by simp [hnone] at hr } }

/-- The loader thread reaps a `wait_func`. -/
theorem Core.reap_wait (h : Core cfg s) {op : ReapOp} (hop : op ≠ .ready)
    (hpc : s.pc.reaps cfg s.posted s.reaped = some op) {wait : Executor.State WaitFunc Unit}
    (hs : reapTurn op (s.handles.getD s.reaped 0) s.wait = some wait) :
    (wait.reaper.isSome = true ∧ Core cfg { s with wait }) ∨
    (wait.reaper = none ∧ wait.answers.getLast? = some (op, s.handles.getD s.reaped 0, true) ∧
      Core cfg { s with wait, reaped := s.reaped + 1 }) ∨
    wait.reaper = none ∧ wait.answers.getLast? = some (op, s.handles.getD s.reaped 0, false) ∧ op.blocks = false ∧
      Core cfg { s with wait } := by
  obtain ⟨u, hu, hid⟩ := h.outstanding_wait hpc
  have ho := reapTurn_outcome h.wait.inv hop hu hid (fun o hr => ?_) hs
  · obtain ⟨hsub, hran, -, -, hworkers⟩ := (reapTurn_reaps h.wait.inv hs).frame
    have hsteps := reapTurn_steps hs
    -- what does not depend on the outcome
    have hcore : ∀ reaped, s.reaped ≤ reaped → wait.reaped.map (·.2.ticket) = List.range reaped →
        (∀ o, wait.reaper = some o → s.pc.reaps cfg s.posted reaped = some o.1 ∧ o.2 = s.handles.getD reaped 0) →
        Core cfg { s with wait, reaped } := fun reaped hle htickets hturn =>
      { h with
        wait := h.wait.steps hsteps
        waitOrder := h.waitOrder.steps hsteps
        posts := by
          simp only [hsub]
          exact h.posts
        window := h.window.trans (by simp only; omega)
        waitReaped := htickets
        cudaReaped := by
          simp only [State.waiting, hran]
          exact h.cudaReaped
        loaderTurn := hturn
        waitTurn := by
          simp only [hworkers]
          exact h.waitTurn
        copies := by
          simp only [hran]
          exact h.copies }
    rcases ho with ⟨hr, hd⟩ | ⟨hr, hd, ha⟩ | ⟨hr, hd, hb, ha⟩
    · refine .inl ⟨by rw [hr]; rfl, hcore s.reaped le_rfl (hd ▸ h.waitReaped) fun o ho => ?_⟩
      rw [hr, Option.some.injEq] at ho
      subst ho
      exact ⟨hpc, rfl⟩
    · refine .inr (.inl ⟨hr, ha, hcore _ (Nat.le_succ _) ?_ fun o ho => ?_⟩)
      · rw [hd, h.waitReaped, List.range_succ]
      · rw [hr] at ho
        cases ho
    · refine .inr (.inr ⟨hr, ha, hb, hcore s.reaped le_rfl (hd ▸ h.waitReaped) fun o ho => ?_⟩)
      rw [hr] at ho
      cases ho
  · obtain ⟨hop', hid'⟩ := h.loaderTurn o hr
    rw [hpc, Option.some.injEq] at hop'
    exact Prod.ext hop'.symm hid'

/-! ### The ends of the functions -/

/-- A read that was reaped is with no task. -/
theorem Core.waits_eq_zero (h : Core cfg s) (hpc : s.cudaPc = .loop) : waits s.reader s.cuda.executed.length = 0 := by
  refine h.reader.inv.waits_eq_zero fun t ht hk => ?_
  obtain ⟨i, hi⟩ := List.mem_iff_getElem?.mp ht
  obtain ⟨-, hread, hbefore, -⟩ := h.posts.read i t hi
  rw [hk] at hread hbefore
  rw [h.reader.inv.numbered i t hi, h.readerReaped, State.copying, hpc, if_pos rfl, List.mem_range, hbefore,
    readsBefore_succ, if_pos hread]
  exact Nat.lt_succ_self _

/-- A `cuda_func` issues the work of its chunk and ends. -/
theorem Core.end_cuda (h : Core cfg s) {t : Executor.Task CudaFunc} (ht : s.cuda.workers[0]? = some (.pending t))
    (hpc : s.cudaPc = .loop) (hzero : s.unfinished t.payload.chunkId = 0) {cuda : Executor.State CudaFunc Unit}
    (hs : processTasks 0 () s.cuda = some cuda) :
    Core cfg { issue cfg t.payload.chunkId s with cuda, cudaPc := .reap } := by
  obtain ⟨hk, hlt, hreg, -⟩ := h.cudaFunc ht
  obtain ⟨t', ht', hsub, hran, hreaped, hreaper, -, -⟩ := processTasks_waits hs
  have hsteps : Steps s.cuda cuda := ⟨.processTasks 0 (), rfl, hs⟩
  have hlen : cuda.executed.length = s.cuda.executed.length + 1 := by simp [hran]
  have hwaited := h.waiting_le hreg
  have hissued : s.issued cfg = s.cuda.executed.length := by simp [State.issued, hreg]
  have hcopies := h.copies
  rw [hissued] at hcopies
  obtain ⟨device, events, heq, hcopies⟩ := hcopies.issue
    (by unfold State.waiting at hwaited; omega)
    (by
      have := h.reaped_le
      have := h.staged_le
      have := staged_mono (show 2 ≤ 3 by omega) s.pc s.posted
      have := cfg.inFlight_le_ioDepth
      omega)
  have hbefore := h.readerReaped
  rw [State.copying, hpc, if_pos rfl] at hbefore
  rw [hk] at hzero ⊢
  rw [heq]
  exact
    { h with
      cuda := h.cuda.steps hsteps
      cudaOrder := h.cudaOrder.steps hsteps
      posts := by
        simp only [hsub]
        exact h.posts
      cudaReaped := by
        simp only [hreaped]
        exact h.cudaReaped
      readerReaped := by
        simp only [State.copying, hlen, if_false, Nat.add_zero, reduceCtorEq]
        exact hbefore
      cudaTurn := by
        rw [(h.cudaTurn.some_pending (by simp [hpc])).1]
        exact turn_idle
      waitTurn := by
        simp only [hreaper]
        exact h.waitTurn
      reads := by
        simp only [hlen]
        exact h.reads.done hzero fun _ => h.waits_eq_zero hpc
      copies := by
        simp only [State.issued, hreg, hlen]
        exact hcopies }

/-- A `wait_func` ends behind its event. -/
theorem Core.end_wait (h : Core cfg s) {t : Executor.Task WaitFunc} (ht : s.wait.workers[0]? = some (.pending t))
    (hpc : s.waitPc = .synchronize) (hsync : synchronized cfg s t.payload.chunkId = true)
    {wait : Executor.State WaitFunc Unit} (hs : processTasks 0 () s.wait = some wait) :
    Core cfg { s with wait, waitPc := .reap } := by
  obtain ⟨hk, hlt, -⟩ := h.waitFunc ht
  obtain ⟨t', ht', hsub, hran, hreaped, hreaper, -, -⟩ := processTasks_waits hs
  have hsteps : Steps s.wait wait := ⟨.processTasks 0 (), rfl, hs⟩
  have hlen : wait.executed.length = s.wait.executed.length + 1 := by simp [hran]
  have hissued : s.wait.executed.length < s.issued cfg := by
    unfold State.issued
    split_ifs with hreg
    · exact hlt.trans_le (staged_mono (show 1 ≤ 3 by omega) s.pc s.posted)
    · have hle := h.waiting_le (by simpa using hreg)
      rw [State.waiting, hpc, if_pos rfl] at hle
      exact hle
  have hbefore := h.cudaReaped
  rw [State.waiting, hpc, if_pos rfl] at hbefore
  rw [hk] at hsync
  exact
    { h with
      wait := h.wait.steps hsteps
      waitOrder := h.waitOrder.steps hsteps
      posts := by
        simp only [hsub]
        exact h.posts
      waitReaped := by
        simp only [hreaped]
        exact h.waitReaped
      cudaReaped := by
        simp only [State.waiting, hlen, if_false, Nat.add_zero, reduceCtorEq]
        exact hbefore
      loaderTurn := by
        simp only [hreaper]
        exact h.loaderTurn
      waitTurn := by
        rw [(h.waitTurn.some_pending (by simp [hpc])).1]
        exact turn_idle
      copies := by
        simp only [hlen]
        exact h.copies.done hissued hsync }

/-- A worker of the reader runs its task. -/
theorem Core.run_reader (h : Core cfg s) {w : ℕ} {t : Executor.Task ℕ} (ht : s.reader.workers[w]? = some (.pending t))
    {reader : Executor.State ℕ Unit} (hs : processTasks w () s.reader = some reader) :
    Core cfg (if cfg.kernelReads then { s with reader, kernel := s.kernel ++ [t.payload] }
      else { s with reader, read := s.read ++ [t.payload] }) := by
  obtain ⟨t', ht', hsub, -, hreaped, hreaper, hwaits, -⟩ := processTasks_waits hs
  rw [ht, Option.some.injEq, Worker.pending.injEq] at ht'
  subst ht'
  have hsteps : Steps s.reader reader := ⟨.processTasks w (), rfl, hs⟩
  have hreads := h.reads.run hwaits
  have hposts : Posts cfg s.requests s.posted s.pc s.handles reader.submitted s.cuda.submitted s.wait.submitted := by
    rw [hsub]
    exact h.posts
  have hhanded : reader.reaped.map (·.2.ticket) = List.range (cfg.readsBefore s.copying) := by
    rw [hreaped]
    exact h.readerReaped
  have hturn : Turn (s.cudaPc = .loop) s.cuda.workers CudaFunc.readReqId cfg.reapOp reader.reaper := by
    rw [hreaper]
    exact h.cudaTurn
  split_ifs at hreads ⊢
  · exact { h with
      reader := h.reader.steps hsteps, posts := hposts, readerReaped := hhanded, cudaTurn := hturn, reads := hreads }
  · exact { h with
      reader := h.reader.steps hsteps, posts := hposts, readerReaped := hhanded, cudaTurn := hturn, reads := hreads }

/-! ### Submissions -/

theorem nextExecutorRequestId_ne : s.nextExecutorRequestId ≠ stopRequestId := by
  unfold State.nextExecutorRequestId stopRequestId
  omega

/-- The chunks that are outstanding are in the window. -/
theorem Core.posted_le (h : Core cfg s) {k : ℕ} (hk : s.reaped ≤ k) : s.posted ≤ k + 2 * maxIoDepth := by
  have hwindow := h.window
  have hle := cfg.inFlight_le
  unfold maxIoDepth at hle ⊢
  split_ifs at hwindow <;> omega

theorem Core.steps_read (h : Core cfg s) {payload : ℕ} {reader : Executor.State ℕ Unit}
    (hs : submitTask s.nextExecutorRequestId payload s.reader = some reader) : Steps s.reader reader := by
  refine submitTask_steps h.reader.inv (fun k t ht => ?_) hs
  obtain ⟨hsub, -, hnot⟩ := ht
  obtain ⟨-, hread, hk, hid⟩ := h.posts.read k t hsub
  have hreg := registered_of_readTask hread
  refine hid.ne (h.posted_le ((h.reaped_le_copying hreg).trans ?_))
  by_contra hlt
  refine hnot ?_
  rw [h.readerReaped, List.mem_range, hk, State.copying]
  exact readsBefore_lt hread (by omega)

theorem Core.steps_cuda (h : Core cfg s) (hreg : cfg.registered = false) {f : CudaFunc}
    {cuda : Executor.State CudaFunc Unit} (hs : submitTask s.nextExecutorRequestId f s.cuda = some cuda) :
    Steps s.cuda cuda := by
  refine submitTask_steps h.cuda.inv (fun k t ht => ?_) hs
  obtain ⟨hsub, -, hnot⟩ := ht
  obtain ⟨-, -, hid, -⟩ := h.posts.cuda k t hsub
  refine hid.ne (h.posted_le (h.reaped_le.trans ?_))
  by_contra hlt
  refine hnot ?_
  rw [h.cudaReaped hreg, List.mem_range, State.waiting]
  omega

theorem Core.steps_wait (h : Core cfg s) {f : WaitFunc} {wait : Executor.State WaitFunc Unit}
    (hs : submitTask s.nextExecutorRequestId f s.wait = some wait) : Steps s.wait wait := by
  refine submitTask_steps h.wait.inv (fun k t ht => ?_) hs
  obtain ⟨hsub, -, hnot⟩ := ht
  obtain ⟨-, -, hid, -⟩ := h.posts.wait k t hsub
  refine hid.ne (h.posted_le ?_)
  by_contra hlt
  refine hnot ?_
  rw [h.waitReaped, List.mem_range]
  omega

theorem current_succ (hpos : 0 < s.posted) : s.current + 1 = s.posted := Nat.sub_add_cancel hpos

/-- The window of a chunk that is past it. -/
theorem Core.posted_window (h : Core cfg s) (hpc : s.pc ≠ .window) : s.posted ≤ s.reaped + cfg.inFlight := by
  have hwindow := h.window
  rwa [if_neg hpc] at hwindow

/-- The read of the chunk is submitted. -/
theorem Core.submit_read (h : Core cfg s) (hpc : s.pc = .read) (hread : cfg.readTask s.current = true)
    (hstop : s.reader.stopRequested = false) {reader : Executor.State ℕ Unit}
    (hs : submitTask s.nextExecutorRequestId s.current s.reader = some reader) :
    Core cfg { s with
      requests := s.requests + 1, reader
      unfinished :=
        if cfg.kernelReads then Function.update s.unfinished s.current (cfg.submitCnt s.current) else s.unfinished
      pc := .submitCuda s.nextExecutorRequestId } := by
  have hreaper := h.reaper_eq_none (by rw [hpc]; rfl)
  have hwindow := h.posted_window (by simp [hpc])
  have hposts := h.posts
  have hreads := h.reads
  have hle := h.copied_le
  rw [hpc] at hposts hreads hle
  have hpos := hposts.some_posted (Nat.succ_pos 2)
  have hreg := registered_of_readTask hread
  have hsteps := h.steps_read hs
  have hwaits := submitTask_waits nextExecutorRequestId_ne hstop hs
  have hcurrent : staged 3 .read s.posted = s.current := rfl
  have hnext : staged 3 (.submitCuda s.nextExecutorRequestId) s.posted = s.current + 1 := (current_succ hpos).symm
  rw [hcurrent] at hreads
  have hpost : Reads cfg (s.current + 1) s.cuda.executed.length (waits reader) _ s.kernel s.completions s.read :=
    hreads.post hle (hasRead_of_readTask hread) h.reads.no_kernel fun k => by
      rw [hwaits k]
      omega
  obtain rfl := submitTask_eq nextExecutorRequestId_ne hstop hs
  exact
    { h with
      reader := h.reader.steps hsteps
      posts := hposts.readTask hread
      window := hwindow.trans (Nat.le_add_right _ _)
      waitRead := fun k hk => by cases hk
      loaderTurn := fun o ho => by simp [hreaper] at ho
      reads := by
        rw [hnext]
        exact hpost
      copies := by
        have hissued := h.copies
        simp only [State.issued, hreg] at hissued ⊢
        exact hissued }

/-- The chunk has no task for its read: the kernel has it, or there is nothing to read. -/
theorem Core.skip_read (h : Core cfg s) (hpc : s.pc = .read) (hreg : cfg.registered = false)
    (hread : cfg.readTask s.current = false) :
    Core cfg { s with
      kernel := if cfg.kernelReads ∧ 0 < cfg.rankSize s.current then s.kernel ++ [s.current] else s.kernel
      unfinished :=
        if cfg.kernelReads then Function.update s.unfinished s.current (cfg.submitCnt s.current) else s.unfinished
      pc := .submitCuda stopRequestId } := by
  have hreaper := h.reaper_eq_none (by rw [hpc]; rfl)
  have hwindow := h.posted_window (by simp [hpc])
  have hposts := h.posts
  have hreads := h.reads
  have hle := h.copied_le
  rw [hpc] at hposts hreads hle
  have hpos := hposts.some_posted (Nat.succ_pos 2)
  have hhas : cfg.hasRead s.current = decide (0 < cfg.rankSize s.current) := by
    simp [Config.hasRead, hreg]
  refine
    { h with
      posts := hposts.skipTask hread hreg
      window := hwindow.trans (Nat.le_add_right _ _)
      waitRead := fun k hk => by cases hk
      loaderTurn := fun o ho => by simp [hreaper] at ho
      reads := ?_
      copies := by
        have hissued := h.copies
        simp only [State.issued, hreg] at hissued ⊢
        exact hissued }
  have hcurrent : staged 3 .read s.posted = s.current := rfl
  have hnext : staged 3 (.submitCuda stopRequestId) s.posted = s.current + 1 := (current_succ hpos).symm
  rw [hcurrent] at hreads
  rw [hnext]
  by_cases hsize : 0 < cfg.rankSize s.current
  · have hkernel : cfg.kernelReads = true := by
      by_contra hno
      rw [readTask_eq (by simpa using hno), hhas] at hread
      simp [hsize] at hread
    simp only [hkernel, hsize, and_self, if_true]
    have hpost : Reads cfg (s.current + 1) s.cuda.executed.length (waits s.reader) _ (s.kernel ++ [s.current])
        s.completions s.read :=
      hreads.post hle (by simpa [hhas] using hsize) (fun hno => by simp [hkernel] at hno) fun k => by
        rw [List.count_append, List.count_singleton]
        simp only [beq_iff_eq]
        omega
    rw [if_pos hkernel] at hpost
    exact hpost
  · simp only [hsize, and_false, if_false]
    exact hreads.none (by simpa [hhas] using hsize)

/-- The loader thread gives a registered chunk to the device. -/
theorem Core.issue_read (h : Core cfg s) (hpc : s.pc = .read) (hreg : cfg.registered = true) :
    Core cfg { issue cfg s.current s with pc := .submitWait stopRequestId } := by
  have hreaper := h.reaper_eq_none (by rw [hpc]; rfl)
  have hwindow := h.posted_window (by simp [hpc])
  have hposts := h.posts
  have hreads := h.reads
  have hcopies := h.copies
  have hle := h.waited_le
  rw [State.issued, if_pos hreg] at hcopies
  rw [hpc] at hposts hreads hcopies hle
  have hpos := hposts.some_posted (Nat.succ_pos 2)
  have hcurrent : staged 3 .read s.posted = s.current := rfl
  have hnext : staged 3 (.submitWait stopRequestId) s.posted = s.current + 1 := (current_succ hpos).symm
  rw [hcurrent] at hreads hcopies
  have hnone := hreads.none (by simp [Config.hasRead, hreg])
  have hkernel : ¬cfg.kernelReads = true := fun hkernel => by
    rw [registered_of_kernelReads hkernel] at hreg
    cases hreg
  rw [if_neg hkernel] at hnone
  obtain ⟨device, events, heq, hissued⟩ := hcopies.issue hle (by
    have := h.reaped_le
    have := cfg.inFlight_le_ioDepth
    have := current_succ hpos
    omega)
  rw [heq]
  exact
    { h with
      posts := hposts.skipCuda hreg
      window := hwindow.trans (Nat.le_add_right _ _)
      waitRead := fun k hk => by cases hk
      loaderTurn := fun o ho => by simp [hreaper] at ho
      reads := by
        rw [hnext]
        exact hnone
      copies := by
        rw [State.issued, if_pos hreg, hnext]
        exact hissued }

/-- The `cuda_func` of the chunk is submitted. -/
theorem Core.submit_cuda (h : Core cfg s) {readReqId : ℤ} (hpc : s.pc = .submitCuda readReqId)
    (hstop : s.cuda.stopRequested = false) {cuda : Executor.State CudaFunc Unit}
    (hs : submitTask s.nextExecutorRequestId ⟨s.current, readReqId⟩ s.cuda = some cuda) :
    Core cfg { s with requests := s.requests + 1, cuda, pc := .submitWait s.nextExecutorRequestId } := by
  have hreaper := h.reaper_eq_none (by rw [hpc]; rfl)
  have hwindow := h.posted_window (by simp [hpc])
  have hreg := (h.posts.submitCuda readReqId hpc).1
  have hposts := h.posts
  have hreads := h.reads
  rw [hpc] at hposts hreads
  have hsteps := h.steps_cuda hreg hs
  obtain rfl := submitTask_eq nextExecutorRequestId_ne hstop hs
  exact
    { h with
      cuda := h.cuda.steps hsteps
      cudaOrder := h.cudaOrder.steps hsteps
      posts := hposts.cudaFunc
      window := hwindow.trans (Nat.le_add_right _ _)
      waitRead := fun k hk => by cases hk
      loaderTurn := fun o ho => by simp [hreaper] at ho
      reads := hreads
      copies := by
        have hissued := h.copies
        simp only [State.issued, hreg] at hissued ⊢
        exact hissued }

/-- The `wait_func` of the chunk is submitted. -/
theorem Core.submit_wait (h : Core cfg s) {cudaReqId : ℤ} (hpc : s.pc = .submitWait cudaReqId)
    (hstop : s.wait.stopRequested = false) {wait : Executor.State WaitFunc Unit}
    (hs : submitTask s.nextExecutorRequestId ⟨s.current, cudaReqId⟩ s.wait = some wait) :
    Core cfg { s with
      requests := s.requests + 1, wait, handles := s.handles ++ [s.nextExecutorRequestId], pc := .poll } := by
  have hreaper := h.reaper_eq_none (by rw [hpc]; rfl)
  have hwindow := h.posted_window (by simp [hpc])
  have hposts := h.posts
  have hreads := h.reads
  have hcopies := h.copies
  rw [State.issued] at hcopies
  rw [hpc] at hposts hreads hcopies
  have hsteps := h.steps_wait hs
  obtain rfl := submitTask_eq nextExecutorRequestId_ne hstop hs
  exact
    { h with
      wait := h.wait.steps hsteps
      waitOrder := h.waitOrder.steps hsteps
      posts := hposts.waitFunc
      window := hwindow.trans (Nat.le_add_right _ _)
      waitRead := fun k hk => by cases hk
      loaderTurn := fun o ho => by simp [hreaper] at ho
      reads := hreads
      copies := hcopies }

/-! ### The kernel and the device -/

/-- A completion is taken. -/
theorem Core.take (h : Core cfg s) {c k : ℕ} {rest : List ℕ} (hc : s.completions = c :: rest)
    (hpos : 0 < s.unfinished k) :
    Core cfg { s with
      completions := rest, unfinished := Function.update s.unfinished c (s.unfinished c - 1) } := by
  have hreads := h.reads
  have hkernel : cfg.kernelReads = true := by
    by_contra hno
    rw [hreads.counted k, if_neg hno] at hpos
    exact absurd hpos (Nat.lt_irrefl 0)
  rw [hc] at hreads
  exact { h with reads := hreads.take hkernel }

theorem Core.completeRead (h : Core cfg s) {k : ℕ} {s' : State} (hs : completeRead k s = some s') : Core cfg s' := by
  unfold Close.completeRead at hs
  split_ifs at hs with hk
  obtain rfl := Option.some.inj hs
  exact { h with reads := h.reads.complete hk }

theorem Core.completeCopy (h : Core cfg s) {k : ℕ} {s' : State} (hs : completeCopy k s = some s') : Core cfg s' := by
  unfold Close.completeCopy at hs
  split_ifs at hs with hk
  obtain rfl := Option.some.inj hs
  exact { h with copies := h.copies.complete hk }

end Close
end Siphon
