/-
# Close drains

Before the last join there is always a thread that can take a step: the
loader thread waits for `wait_thread`, a `wait_func` for its `cuda_func` or
its event, a `cuda_func` for its read, and a read for nothing; the queues
never fill, since what is outstanding is in the window. From CLOSE on, every
step lowers `State.work`, so a run comes to `destroy_buffer`. There, every
task has run and every posted chunk is read, copied and waited for
(`close_drains`).

Key definitions: `Drained`, `State.work`.
Key theorems: `exists_step`, `step_work`, `close_drains`.
-/
import Siphon.Close.Run

namespace Siphon
namespace Close

open Executor Frontend

/-! ### Some thread can take a step -/

/-- A step of a thread, of the kernel or of the device, and not a call of the client. -/
def Action.ofThread : Action → Bool
  | .postReadChunk | .pollReadChunk | .waitReadChunk _ | .close => false
  | .loader | .reader _ | .cuda | .wait | .completeRead _ | .completeCopy _ | .sample => true

/-- A thread can take a step. -/
def Goes (cfg : Config) (s : State) : Prop := ∃ a : Action, a.ofThread = true ∧ (step cfg s a).isSome

section Goes

variable {cfg : Config} {s : State}

theorem Core.in_window (h : Core cfg s) {stage : ℕ} (hle : stage ≤ 3) :
    staged stage s.pc s.posted - s.reaped ≤ maxIoDepth := by
  have := staged_mono hle s.pc s.posted
  have := h.staged_le
  have := cfg.inFlight_le
  omega

/-- A worker of the reader waits for nothing. -/
theorem goes_of_reader (ht : Turns s.reader) : Goes cfg s := by
  obtain ⟨w, ht⟩ := ht
  refine ⟨.reader w, rfl, ?_⟩
  simp only [step, readerStep]
  split
  · rename_i t hw
    have hrun : (processTasks w () s.reader).isSome := by
      simp only [processTasks, hw]
      split_ifs <;> rfl
    obtain ⟨reader, hr⟩ := Option.isSome_iff_exists.mp hrun
    rw [hr, Option.bind_eq_bind, Option.bind_some]
    split_ifs <;> rfl
  · rename_i hno
    rcases ht with ⟨t, hw⟩ | hturn
    · exact absurd hw (hno t)
    · obtain ⟨reader, hr⟩ := Option.isSome_iff_exists.mp hturn
      rw [hr]
      rfl

/-- A `cuda_func` waits for its read only. -/
theorem Core.goes_of_cudaFunc (h : Core cfg s) {t : Executor.Task CudaFunc}
    (ht : s.cuda.workers[0]? = some (.pending t)) : Goes cfg s := by
  have hstep : step cfg s .cuda = Close.cudaFunc cfg t.payload s := by
    simp only [step, cudaStep, ht]
  have hgoes : (Close.cudaFunc cfg t.payload s).isSome → Goes cfg s := fun hsome => ⟨.cuda, rfl, hstep ▸ hsome⟩
  rcases hpc : s.cudaPc with - | -
  · by_cases hstop : t.payload.readReqId = stopRequestId
    · refine hgoes ?_
      rw [Close.cudaFunc, hpc]
      simp [hstop]
    · obtain ⟨u, hu, hid⟩ := h.outstanding_reader ht hpc hstop
      have hroom := h.reader_room.trans (Nat.add_le_add_left (h.in_window le_rfl) _)
      have hcase : (reapTurn cfg.reapOp t.payload.readReqId s.reader).isSome ∨ Turns s.reader :=
        h.reader.exists_reapTurn hroom hu hid fun o hr => h.cudaTurn.reaper_eq ht hr
      rcases hcase with hturn | hturns
      · refine hgoes ?_
        obtain ⟨reader, hr⟩ := Option.isSome_iff_exists.mp hturn
        rw [Close.cudaFunc, hpc]
        simp [hstop, hr]
      · exact goes_of_reader hturns
  · by_cases hzero : s.unfinished t.payload.chunkId = 0
    · refine hgoes ?_
      rw [Close.cudaFunc, hpc]
      by_cases hneeds : t.needsResult = true <;> simp [hzero, processTasks, ht, hneeds]
    · rcases hc : s.completions with - | ⟨c, rest⟩
      · -- the completion of the chunk itself is still to come
        obtain ⟨hk, -⟩ := h.cudaFunc ht
        have hcounted := h.reads.counted t.payload.chunkId
        have hwaits := h.waits_eq_zero hpc
        rw [← hk] at hwaits
        split_ifs at hcounted
        · rw [hwaits, hc, List.count_nil] at hcounted
          have hmem : t.payload.chunkId ∈ s.kernel := List.count_pos_iff.mp (by omega)
          exact ⟨.completeRead t.payload.chunkId, rfl, by simp [step, Close.completeRead, hmem]⟩
        · exact absurd hcounted hzero
      · refine hgoes ?_
        rw [Close.cudaFunc, hpc]
        simp [Nat.pos_of_ne_zero hzero, hc]

/-- With one worker, it is the one that has something to do. -/
theorem turns_zero {P R : Type} {e : Executor.State P R} (h : InSequence e) (ht : Turns e) :
    (∃ t, e.workers[0]? = some (.pending t)) ∨ (workerTurn 0 e).isSome := by
  obtain ⟨w, ⟨t, hw⟩ | hturn⟩ := ht
  · obtain ⟨rfl, -⟩ := h.workers_eq hw
    exact .inl ⟨t, hw⟩
  · rcases hw : e.workers[w]? with - | x
    · rw [workerTurn, hw] at hturn
      cases hturn
    · obtain ⟨rfl, -⟩ := h.workers_eq hw
      exact .inr hturn

theorem Core.goes_of_cuda (h : Core cfg s) (ht : Turns s.cuda) : Goes cfg s := by
  rcases turns_zero h.cudaOrder ht with ⟨t, hw⟩ | hturn
  · exact h.goes_of_cudaFunc hw
  · refine ⟨.cuda, rfl, ?_⟩
    obtain ⟨cuda, hc⟩ := Option.isSome_iff_exists.mp hturn
    simp only [step, cudaStep]
    split
    · rename_i t hw
      rw [workerTurn, hw] at hturn
      cases hturn
    · rw [hc]
      rfl

/-- A `wait_func` waits for its `cuda_func` and its event. -/
theorem Core.goes_of_waitFunc (h : Core cfg s) {t : Executor.Task WaitFunc}
    (ht : s.wait.workers[0]? = some (.pending t)) : Goes cfg s := by
  have hstep : step cfg s .wait = Close.waitFunc cfg t.payload s := by
    simp only [step, waitStep, ht]
  have hgoes : (Close.waitFunc cfg t.payload s).isSome → Goes cfg s := fun hsome => ⟨.wait, rfl, hstep ▸ hsome⟩
  rcases hpc : s.waitPc with - | -
  · by_cases hstop : t.payload.cudaReqId = stopRequestId
    · refine hgoes ?_
      rw [Close.waitFunc, hpc]
      simp [hstop]
    · obtain ⟨u, hu, hid⟩ := h.outstanding_cuda ht hpc hstop
      have hroom := h.cuda_room.trans (Nat.add_le_add_left (h.in_window (Nat.le_succ 2)) _)
      have hcase : (reapTurn .reap t.payload.cudaReqId s.cuda).isSome ∨ Turns s.cuda :=
        h.cuda.exists_reapTurn hroom hu hid fun o hr => h.waitTurn.reaper_eq ht hr
      rcases hcase with hturn | hturns
      · refine hgoes ?_
        obtain ⟨cuda, hc⟩ := Option.isSome_iff_exists.mp hturn
        rw [Close.waitFunc, hpc]
        simp [hstop, hc]
      · exact h.goes_of_cuda hturns
  · by_cases hsync : synchronized cfg s t.payload.chunkId = true
    · refine hgoes ?_
      rw [Close.waitFunc, hpc]
      by_cases hneeds : t.needsResult = true <;> simp [hsync, processTasks, ht, hneeds]
    · simp only [synchronized, Option.all_eq_true, decide_eq_true_eq, not_forall] at hsync
      obtain ⟨k, -, hmem⟩ := hsync
      exact ⟨.completeCopy k, rfl, by simp [step, Close.completeCopy, not_not.mp hmem]⟩

theorem Core.goes_of_wait (h : Core cfg s) (ht : Turns s.wait) : Goes cfg s := by
  rcases turns_zero h.waitOrder ht with ⟨t, hw⟩ | hturn
  · exact h.goes_of_waitFunc hw
  · refine ⟨.wait, rfl, ?_⟩
    obtain ⟨wait, hw⟩ := Option.isSome_iff_exists.mp hturn
    simp only [step, waitStep]
    split
    · rename_i t hp
      rw [workerTurn, hp] at hturn
      cases hturn
    · rw [hw]
      rfl

/-- The loader thread waits for `wait_thread` only. -/
theorem Core.goes_of_reaps (h : Core cfg s) {op : ReapOp} (hpc : s.pc.reaps cfg s.posted s.reaped = some op) :
    (reapTurn op (s.handles.getD s.reaped 0) s.wait).isSome ∨ Goes cfg s := by
  obtain ⟨u, hu, hid⟩ := h.outstanding_wait hpc
  have hroom := h.wait_room.trans (Nat.add_le_add_left (h.in_window (by omega)) _)
  refine (h.wait.exists_reapTurn hroom hu hid fun o hr => ?_).imp_right h.goes_of_wait
  obtain ⟨hop, hid⟩ := h.loaderTurn o hr
  rw [hpc, Option.some.injEq] at hop
  exact Prod.ext hop.symm hid

/-- The loader thread takes its step. -/
theorem goes_of_loader (h : (loaderStep cfg s).isSome) : Goes cfg s := ⟨.loader, rfl, h⟩

theorem waitReadChunk_isSome {chunkId : ℤ} {resume : LoaderPc}
    (h : (s.reaped : ℤ) ≤ chunkId → (reapTurn .reap (s.handles.getD s.reaped 0) s.wait).isSome) :
    (waitReadChunk chunkId resume s).isSome := by
  unfold waitReadChunk
  split_ifs with hle
  · obtain ⟨wait, hw⟩ := Option.isSome_iff_exists.mp (h hle)
    rw [hw]
    rfl
  · rfl

theorem Core.goes_of_read (h : Core cfg s) (hj : Joins cfg s) (hpc : s.pc = .read) : Goes cfg s := by
  have hroom := h.reader_room
  have hwindow := h.posted_window (by simp [hpc])
  have hpos := h.posts.some_posted (by simp [hpc, LoaderPc.ahead])
  have hle := cfg.inFlight_le
  have hstaged : staged 3 s.pc s.posted = s.posted - 1 := by
    rw [hpc]
    rfl
  refine goes_of_loader ?_
  rw [loaderStep, hpc]
  dsimp only
  rw [postRead]
  dsimp only
  by_cases hreg : cfg.registered = true
  · rw [if_pos hreg]
    rfl
  rw [if_neg hreg]
  by_cases hread : cfg.readTask s.current = true
  · rw [if_pos hread]
    have hsome := h.reader.submitTask_isSome (hj.running (by rw [hpc]; rfl) .workerThreads)
      (by have := cfg.inFlight_pos; omega) s.nextExecutorRequestId s.current
    obtain ⟨reader, hr⟩ := Option.isSome_iff_exists.mp hsome
    rw [hr]
    rfl
  · rw [if_neg hread]
    rfl

theorem Core.goes_of_submitCuda (h : Core cfg s) (hj : Joins cfg s) {readReqId : ℤ}
    (hpc : s.pc = .submitCuda readReqId) : Goes cfg s := by
  have hroom := h.cuda_room
  have hwindow := h.posted_window (by simp [hpc])
  have hpos := h.posts.some_posted (by simp [hpc, LoaderPc.ahead])
  have hle := cfg.inFlight_le
  have hstaged : staged 2 s.pc s.posted = s.posted - 1 := by
    rw [hpc]
    rfl
  have hsome := h.cuda.submitTask_isSome (hj.running (by rw [hpc]; rfl) .cudaThread)
    (by have := cfg.inFlight_pos; omega) s.nextExecutorRequestId ⟨s.current, readReqId⟩
  obtain ⟨cuda, hc⟩ := Option.isSome_iff_exists.mp hsome
  refine goes_of_loader ?_
  rw [loaderStep, hpc]
  dsimp only
  rw [submitCuda, hc]
  rfl

theorem Core.goes_of_submitWait (h : Core cfg s) (hj : Joins cfg s) {cudaReqId : ℤ}
    (hpc : s.pc = .submitWait cudaReqId) : Goes cfg s := by
  have hroom := h.wait_room
  have hwindow := h.posted_window (by simp [hpc])
  have hpos := h.posts.some_posted (by simp [hpc, LoaderPc.ahead])
  have hle := cfg.inFlight_le
  have hstaged : staged 1 s.pc s.posted = s.posted - 1 := by
    rw [hpc]
    rfl
  have hsome := h.wait.submitTask_isSome (hj.running (by rw [hpc]; rfl) .waitThread)
    (by have := cfg.inFlight_pos; omega) s.nextExecutorRequestId ⟨s.current, cudaReqId⟩
  obtain ⟨wait, hw⟩ := Option.isSome_iff_exists.mp hsome
  refine goes_of_loader ?_
  rw [loaderStep, hpc]
  dsimp only
  rw [submitWait, hw]
  rfl

/-- A join waits for its threads only. -/
theorem Core.goes_of_join (h : Core cfg s) {t : Thread} {rest : List Thread} (hpc : s.pc = .join (t :: rest)) :
    Goes cfg s := by
  have hgoes : (joinThread rest s t).isSome → Goes cfg s := fun hsome => by
    refine goes_of_loader ?_
    rw [loaderStep, hpc]
    exact hsome
  have hreader : (joinTurn s.reader).isSome ∨ Turns s.reader :=
    h.reader.exists_joinTurn (h.reader_room.trans (Nat.add_le_add_left (h.in_window le_rfl) _))
  have hcuda : (joinTurn s.cuda).isSome ∨ Turns s.cuda :=
    h.cuda.exists_joinTurn (h.cuda_room.trans (Nat.add_le_add_left (h.in_window (Nat.le_succ 2)) _))
  have hwait : (joinTurn s.wait).isSome ∨ Turns s.wait :=
    h.wait.exists_joinTurn (h.wait_room.trans (Nat.add_le_add_left (h.in_window (by omega)) _))
  rcases t with - | - | - | -
  · rcases hreader with hturn | hturns
    · obtain ⟨reader, hr⟩ := Option.isSome_iff_exists.mp hturn
      exact hgoes (by simp [joinThread, hr])
    · exact goes_of_reader hturns
  · rcases hcuda with hturn | hturns
    · obtain ⟨cuda, hc⟩ := Option.isSome_iff_exists.mp hturn
      exact hgoes (by simp [joinThread, hc])
    · exact h.goes_of_cuda hturns
  · rcases hreader with hturn | hturns
    · obtain ⟨reader, hr⟩ := Option.isSome_iff_exists.mp hturn
      exact hgoes (by simp [joinThread, hr])
    · exact goes_of_reader hturns
  · rcases hwait with hturn | hturns
    · obtain ⟨wait, hw⟩ := Option.isSome_iff_exists.mp hturn
      exact hgoes (by simp [joinThread, hw])
    · exact h.goes_of_wait hturns

/-- **No deadlock.** In a call and in `close`, some thread can take a step. -/
theorem Core.goes (h : Core cfg s) (hj : Joins cfg s) (hidle : s.pc ≠ .idle) (hend : s.pc ≠ .destroyBuffer) :
    Goes cfg s := by
  rcases hpc : s.pc with - | - | - | readReqId | cudaReqId | - | chunkId | (- | ⟨t, rest⟩) | - | -
  · exact absurd hpc hidle
  · -- `wait_read_chunk` of the window
    by_cases hle : (s.reaped : ℤ) ≤ cfg.waitChunkId s.current
    · have hreaps : s.pc.reaps cfg s.posted s.reaped = some .reap := by
        rw [hpc]
        exact if_pos hle
      rcases h.goes_of_reaps hreaps with hturn | hgoes
      · refine goes_of_loader ?_
        rw [loaderStep, hpc]
        exact waitReadChunk_isSome fun _ => hturn
      · exact hgoes
    · refine goes_of_loader ?_
      rw [loaderStep, hpc]
      exact waitReadChunk_isSome fun hle' => absurd hle' hle
  · exact h.goes_of_read hj hpc
  · exact h.goes_of_submitCuda hj hpc
  · exact h.goes_of_submitWait hj hpc
  · by_cases hlt : s.reaped < s.posted
    · have hreaps : s.pc.reaps cfg s.posted s.reaped = some .tryReap := by
        rw [hpc]
        exact if_pos hlt
      rcases h.goes_of_reaps hreaps with hturn | hgoes
      · obtain ⟨wait, hw⟩ := Option.isSome_iff_exists.mp hturn
        refine goes_of_loader ?_
        rw [loaderStep, hpc]
        dsimp only
        rw [pollReadChunk, if_pos hlt, hw, Option.bind_eq_bind, Option.bind_some]
        split_ifs <;> rfl
      · exact hgoes
    · refine goes_of_loader ?_
      rw [loaderStep, hpc]
      dsimp only
      rw [pollReadChunk, if_neg hlt]
      rfl
  · by_cases hle : s.reaped ≤ chunkId
    · have hreaps : s.pc.reaps cfg s.posted s.reaped = some .reap := by
        rw [hpc]
        exact if_pos hle
      rcases h.goes_of_reaps hreaps with hturn | hgoes
      · refine goes_of_loader ?_
        rw [loaderStep, hpc]
        exact waitReadChunk_isSome fun _ => hturn
      · exact hgoes
    · refine goes_of_loader ?_
      rw [loaderStep, hpc]
      exact waitReadChunk_isSome fun hle' => absurd (Int.ofNat_le.mp hle') hle
  · refine goes_of_loader ?_
    rw [loaderStep, hpc]
    rfl
  · exact h.goes_of_join hpc
  · by_cases hsampling : s.sampling = true
    · have hstop := (hj.closing [] (by rw [hpc]; rfl)).1
      exact ⟨.sample, rfl, by simp [step, hstop, hsampling]⟩
    · refine goes_of_loader ?_
      rw [loaderStep, hpc]
      simp [hsampling]
  · exact absurd hpc hend

end Goes

/-! ### Every run ends -/

def LoaderPc.work : LoaderPc → ℕ
  | .join rest => rest.length + 2
  | .joinSample => 1
  | .idle | .window | .read | .submitCuda _ | .submitWait _ | .poll | .waitRead _ | .destroyBuffer => 0

/-- What is in front of the threads, from CLOSE on. -/
def State.work (s : State) : ℕ :=
  Executor.work s.reader + Executor.work s.cuda + Executor.work s.wait + 2 * s.kernel.length + s.completions.length +
    s.device.length + reapWork (s.cudaPc = .loop) s.reader.reaper + reapWork (s.waitPc = .synchronize) s.cuda.reaper +
    s.pc.work + if s.sampling then 1 else 0

section Work

variable {cfg : Config} {s s' : State}

theorem reapWork_le (behind : Bool) (reaper : Option (ReapOp × ℤ)) : reapWork behind reaper ≤ 2 := by
  unfold reapWork
  split_ifs <;> omega

theorem reapWork_pos (reaper : Option (ReapOp × ℤ)) : 0 < reapWork false reaper := by
  unfold reapWork
  split_ifs <;> simp_all

/-- A turn of a join does some work, or the loader thread goes on. -/
theorem joinThread_work {t : Thread} {rest : List Thread} (hpc : s.pc = .join (t :: rest))
    (hs : joinThread rest s t = some s') : s'.work < s.work ∧ s'.pc.joins.isSome := by
  have hpcs : ∀ (done : Bool) (n n' : ℕ), (n' < n ∨ n' = n ∧ done = true) →
      n' + (if done then LoaderPc.join rest else s.pc).work < n + s.pc.work := by
    rintro (- | -) n n' hwork <;> simp [hpc, LoaderPc.work] at hwork ⊢ <;> omega
  have hjoins : ∀ done : Bool, (if done then LoaderPc.join rest else s.pc).joins.isSome := by
    rintro (- | -) <;> simp [hpc, LoaderPc.joins]
  unfold joinThread at hs
  rcases t with - | - | - | -
  · obtain ⟨reader, hr, heq⟩ := Option.bind_eq_some_iff.mp hs
    obtain rfl := Option.some.inj heq
    refine ⟨?_, hjoins reader.joined⟩
    have hlt := hpcs _ _ _ (joinTurn_work hr)
    simp only [State.work, (joinTurn_quiet hr).reaper]
    omega
  · obtain ⟨cuda, hc, heq⟩ := Option.bind_eq_some_iff.mp hs
    obtain rfl := Option.some.inj heq
    refine ⟨?_, hjoins cuda.joined⟩
    have hlt := hpcs _ _ _ (joinTurn_work hc)
    simp only [State.work, (joinTurn_quiet hc).reaper]
    omega
  · obtain ⟨reader, hr, heq⟩ := Option.bind_eq_some_iff.mp hs
    obtain rfl := Option.some.inj heq
    refine ⟨?_, hjoins reader.joined⟩
    have hlt := hpcs _ _ _ (joinTurn_work hr)
    simp only [State.work, (joinTurn_quiet hr).reaper]
    omega
  · obtain ⟨wait, hw, heq⟩ := Option.bind_eq_some_iff.mp hs
    obtain rfl := Option.some.inj heq
    refine ⟨?_, hjoins wait.joined⟩
    have hlt := hpcs _ _ _ (joinTurn_work hw)
    simp only [State.work]
    omega

/-- In `close`, the loader thread does some work with every step. -/
theorem loaderStep_work (hclosing : s.pc.joins.isSome) (hs : loaderStep cfg s = some s') :
    s'.work < s.work ∧ s'.pc.joins.isSome := by
  unfold loaderStep at hs
  rcases hpc : s.pc with - | - | - | readReqId | cudaReqId | - | chunkId | (- | ⟨t, rest⟩) | - | - <;>
    rw [hpc] at hs hclosing <;> try cases hclosing
  · obtain rfl := Option.some.inj hs
    exact ⟨by simp [State.work, hpc, LoaderPc.work], rfl⟩
  · exact joinThread_work hpc hs
  · dsimp only at hs
    split_ifs at hs with hsampling
    obtain rfl := Option.some.inj hs
    exact ⟨by simp [State.work, hpc, LoaderPc.work], rfl⟩
  · cases hs

theorem readerStep_work {w : ℕ} (hs : readerStep cfg w s = some s') : s'.work < s.work ∧ s'.pc = s.pc := by
  unfold readerStep at hs
  split at hs
  · rename_i t ht
    obtain ⟨reader, hr, heq⟩ := Option.bind_eq_some_iff.mp hs
    have hwork := processTasks_work hr
    have hreaper : reader.reaper = s.reader.reaper := (processTasks_waits hr).choose_spec.2.2.2.2.1
    split_ifs at heq <;> obtain rfl := Option.some.inj heq <;> refine ⟨?_, rfl⟩ <;>
      simp only [State.work, hreaper, List.length_append, List.length_singleton] <;> omega
  · obtain ⟨reader, hr, heq⟩ := Option.bind_eq_some_iff.mp hs
    obtain rfl := Option.some.inj heq
    have hwork := workerTurn_work hr
    refine ⟨?_, rfl⟩
    simp only [State.work, (workerTurn_quiet hr).reaper]
    omega

/-- The work of a chunk adds no more than itself. -/
theorem issue_work (cfg : Config) (s : State) (chunkId : ℕ) : ∃ device events,
    issue cfg chunkId s = { s with device, events } ∧ device.length ≤ s.device.length + 1 := by
  unfold issue
  split_ifs
  · exact ⟨_, _, rfl, by simp⟩
  · exact ⟨s.device, s.events, rfl, Nat.le_succ _⟩

theorem cudaFunc_work {f : CudaFunc} (hs : cudaFunc cfg f s = some s') : s'.work < s.work ∧ s'.pc = s.pc := by
  unfold cudaFunc at hs
  rcases hpc : s.cudaPc with - | -
  · rw [hpc] at hs
    dsimp only at hs
    split_ifs at hs with hstop
    · obtain rfl := Option.some.inj hs
      have hpos := reapWork_pos s.reader.reaper
      refine ⟨?_, rfl⟩
      simp only [State.work, hpc, reduceCtorEq, decide_false, decide_true]
      have hzero : reapWork true s.reader.reaper = 0 := rfl
      omega
    · obtain ⟨reader, hr, heq⟩ := Option.bind_eq_some_iff.mp hs
      obtain rfl := Option.some.inj heq
      have hblocks : cfg.reapOp.blocks = true := by
        unfold Config.reapOp
        split_ifs <;> rfl
      have hwork := reapTurn_work hblocks hr
      have hloop : decide ((if reader.reaper.isNone then CudaPc.loop else CudaPc.reap) = .loop) =
          reader.reaper.isNone := by
        rcases reader.reaper <;> rfl
      refine ⟨?_, rfl⟩
      simp only [State.work, hpc, hloop, reduceCtorEq, decide_false]
      omega
  · rw [hpc] at hs
    dsimp only at hs
    split_ifs at hs
    · split at hs
      · cases hs
      · rename_i c rest hc
        obtain rfl := Option.some.inj hs
        refine ⟨?_, rfl⟩
        simp only [State.work, hpc, hc, List.length_cons]
        omega
    · obtain ⟨cuda, hc, heq⟩ := Option.bind_eq_some_iff.mp hs
      obtain ⟨device, events, hissue, hle⟩ := issue_work cfg s f.chunkId
      rw [hissue] at heq
      obtain rfl := Option.some.inj heq
      have hwork := processTasks_work hc
      have hreaper : cuda.reaper = s.cuda.reaper := (processTasks_waits hc).choose_spec.2.2.2.2.1
      have hreap := reapWork_le false s.reader.reaper
      refine ⟨?_, rfl⟩
      simp only [State.work, hpc, hreaper, reduceCtorEq, decide_false, decide_true]
      omega

theorem waitFunc_work {f : WaitFunc} (hs : waitFunc cfg f s = some s') : s'.work < s.work ∧ s'.pc = s.pc := by
  unfold waitFunc at hs
  rcases hpc : s.waitPc with - | -
  · rw [hpc] at hs
    dsimp only at hs
    split_ifs at hs with hstop
    · obtain rfl := Option.some.inj hs
      have hpos := reapWork_pos s.cuda.reaper
      refine ⟨?_, rfl⟩
      simp only [State.work, hpc, reduceCtorEq, decide_false, decide_true]
      have hzero : reapWork true s.cuda.reaper = 0 := rfl
      omega
    · obtain ⟨cuda, hc, heq⟩ := Option.bind_eq_some_iff.mp hs
      obtain rfl := Option.some.inj heq
      have hwork := reapTurn_work rfl hc
      have hsync : decide ((if cuda.reaper.isNone then WaitPc.synchronize else WaitPc.reap) = .synchronize) =
          cuda.reaper.isNone := by
        rcases cuda.reaper <;> rfl
      refine ⟨?_, rfl⟩
      simp only [State.work, hpc, hsync, reduceCtorEq, decide_false]
      omega
  · rw [hpc] at hs
    dsimp only at hs
    split_ifs at hs
    obtain ⟨wait, hw, heq⟩ := Option.bind_eq_some_iff.mp hs
    obtain rfl := Option.some.inj heq
    have hwork := processTasks_work hw
    have hreap := reapWork_le false s.cuda.reaper
    refine ⟨?_, rfl⟩
    simp only [State.work, hpc, reduceCtorEq, decide_false, decide_true]
    omega

/-- **From CLOSE on, every step does some work**, and there are no calls. -/
theorem step_work {a : Action} (hclosing : s.pc.joins.isSome) (hs : step cfg s a = some s') :
    s'.pc.joins.isSome ∧ s'.work < s.work := by
  have hidle : s.pc ≠ .idle := by
    intro hpc
    rw [hpc] at hclosing
    cases hclosing
  rcases a with - | - | k | - | - | w | - | - | k | k | - <;> simp only [step] at hs
  · rw [if_neg (fun h => hidle h.1)] at hs
    cases hs
  · rw [if_neg hidle] at hs
    cases hs
  · rw [if_neg (fun h => hidle h.1)] at hs
    cases hs
  · rw [if_neg hidle] at hs
    cases hs
  · exact (loaderStep_work hclosing hs).symm
  · obtain ⟨hwork, hpc⟩ := readerStep_work hs
    exact ⟨hpc ▸ hclosing, hwork⟩
  · unfold cudaStep at hs
    split at hs
    · obtain ⟨hwork, hpc⟩ := cudaFunc_work hs
      exact ⟨hpc ▸ hclosing, hwork⟩
    · obtain ⟨cuda, hc, heq⟩ := Option.bind_eq_some_iff.mp hs
      obtain rfl := Option.some.inj heq
      have hwork := workerTurn_work hc
      refine ⟨hclosing, ?_⟩
      simp only [State.work, (workerTurn_quiet hc).reaper]
      omega
  · unfold waitStep at hs
    split at hs
    · obtain ⟨hwork, hpc⟩ := waitFunc_work hs
      exact ⟨hpc ▸ hclosing, hwork⟩
    · obtain ⟨wait, hw, heq⟩ := Option.bind_eq_some_iff.mp hs
      obtain rfl := Option.some.inj heq
      have hwork := workerTurn_work hw
      refine ⟨hclosing, ?_⟩
      simp only [State.work]
      omega
  · unfold completeRead at hs
    split_ifs at hs with hk
    obtain rfl := Option.some.inj hs
    have hlen := List.length_erase_of_mem hk
    have hpos := List.length_pos_of_mem hk
    refine ⟨hclosing, ?_⟩
    simp only [State.work, List.length_append, List.length_singleton, hlen]
    omega
  · unfold completeCopy at hs
    split_ifs at hs with hk
    obtain rfl := Option.some.inj hs
    have hlen := List.length_erase_of_mem hk
    have hpos := List.length_pos_of_mem hk
    refine ⟨hclosing, ?_⟩
    simp only [State.work, hlen]
    omega
  · split_ifs at hs with hsample
    obtain rfl := Option.some.inj hs
    refine ⟨hclosing, ?_⟩
    simp [State.work, hsample.2]

end Work

/-! ### What is over when `destroy_buffer` starts -/

/-- Nothing uses the buffers any more. -/
structure Drained (cfg : Config) (s : State) : Prop where
  /-- Every task has run, once. -/
  reads_ran : ∀ k < s.reader.submitted.length, (s.reader.executed.map Prod.fst).count k = 1
  cudas_ran : ∀ k < s.cuda.submitted.length, (s.cuda.executed.map Prod.fst).count k = 1
  waits_ran : ∀ k < s.wait.submitted.length, (s.wait.executed.map Prod.fst).count k = 1
  /-- Every posted chunk has its `wait_func`, is read and is copied. -/
  waited : ∀ k < s.posted, ∃ t, s.wait.submitted[k]? = some t ∧ t.payload.chunkId = k
  read : ∀ k < s.posted, cfg.hasRead k = true → k ∈ s.read
  copied : ∀ k < s.posted, cfg.deviceWork = true → k ∈ s.copied
  kernel : s.kernel = []
  device : s.device = []

section Drained

variable {cfg : Config} {s : State}

/-- The joins of `destroy_threads` cover every thread that has tasks. -/
theorem mem_destroyThreads (cfg : Config) : .waitThread ∈ cfg.destroyThreads ∧
    (cfg.registered = false → .cudaThread ∈ cfg.destroyThreads) ∧
    ∀ k, cfg.readTask k = true → .workerThreads ∈ cfg.destroyThreads ∨ .lastPageReaderThread ∈ cfg.destroyThreads := by
  refine ⟨by simp [Config.destroyThreads], fun hreg => ?_, fun k hread => ?_⟩
  · simp [Config.destroyThreads, Config.needCudaThread, hreg]
  · simp only [Config.readTask, Bool.decide_and, Bool.decide_or, Bool.and_eq_true, Bool.or_eq_true,
      decide_eq_true_eq] at hread
    rcases hread.2 with hworkers | ⟨haio, -⟩
    · exact .inl (by simp [Config.destroyThreads, hworkers])
    · exact .inr (by simp [Config.destroyThreads, haio])

theorem Joins.joined_of_mem (hj : Joins cfg s) (hpc : s.pc = .destroyBuffer) {t : Thread}
    (ht : t ∈ cfg.destroyThreads) : s.joined t = true :=
  ((hj.closing [] (by rw [hpc]; rfl)).2 t ht).resolve_left List.not_mem_nil

theorem staged_destroyBuffer {stage : ℕ} (h : 0 < stage) (posted : ℕ) :
    staged stage .destroyBuffer posted = posted :=
  if_neg (Nat.not_le_of_lt h)

/-- Every posted chunk is waited for. -/
theorem Core.waits_ended (h : Core cfg s) (hj : Joins cfg s) (hpc : s.pc = .destroyBuffer) :
    s.wait.executed.length = s.posted := by
  have hjoined := hj.joined_of_mem hpc (mem_destroyThreads cfg).1
  rw [h.waitOrder.executed_of_joined h.wait hjoined, h.posts.waits_length, hpc]
  exact staged_destroyBuffer Nat.one_pos s.posted

/-- Every posted chunk has had its `cuda_func`, where there are any. -/
theorem Core.cudas_ended (h : Core cfg s) (hj : Joins cfg s) (hpc : s.pc = .destroyBuffer)
    (hreg : cfg.registered = false) : s.cuda.executed.length = s.posted := by
  have hjoined := hj.joined_of_mem hpc ((mem_destroyThreads cfg).2.1 hreg)
  rw [h.cudaOrder.executed_of_joined h.cuda hjoined, h.posts.cudas_length, hpc, hreg]
  exact staged_destroyBuffer Nat.two_pos s.posted

theorem Core.drained (h : Core cfg s) (hj : Joins cfg s) (hpc : s.pc = .destroyBuffer) : Drained cfg s := by
  obtain ⟨hwait, hcuda, hreader⟩ := mem_destroyThreads cfg
  have hstaged : staged 3 s.pc s.posted = s.posted := by
    rw [hpc]
    exact staged_destroyBuffer (Nat.succ_pos 2) s.posted
  have hissued : s.issued cfg = s.posted := by
    unfold State.issued
    split_ifs with hreg
    · exact hstaged
    · exact h.cudas_ended hj hpc (by simpa using hreg)
  have hreads := h.reads
  have hcopies := h.copies
  rw [hstaged] at hreads
  rw [hissued, h.waits_ended hj hpc] at hcopies
  have hover : ∀ k < s.posted, cfg.hasRead k = true → k < s.cuda.executed.length := fun k hk hread => by
    rw [h.cudas_ended hj hpc (hasRead_iff.mp hread).1]
    exact hk
  refine
    { reads_ran := fun k hk => ?_
      cudas_ran := fun k hk => ?_
      waits_ran := fun k hk => h.wait.executed_of_joined (hj.joined_of_mem hpc hwait) hk
      waited := fun k hk => ?_
      read := fun k hk hread => hreads.mem_read hk (hover k hk hread) hread
      copied := fun k hk hwork => hcopies.mem_copied hk hwork
      kernel := hreads.kernel_eq_nil hover
      device := hcopies.device_eq_nil }
  · obtain ⟨t, ht⟩ : ∃ t, s.reader.submitted[k]? = some t := ⟨_, List.getElem?_eq_getElem hk⟩
    obtain ⟨-, hread, -, -⟩ := h.posts.read k t ht
    refine h.reader.executed_of_joined ?_ hk
    rcases hreader _ hread with hmem | hmem
    · exact hj.joined_of_mem hpc hmem
    · exact hj.joined_of_mem hpc hmem
  · refine h.cuda.executed_of_joined (hj.joined_of_mem hpc (hcuda ?_)) hk
    by_contra hreg
    rw [h.posts.cudas_length, if_pos (by simpa using hreg)] at hk
    exact absurd hk (Nat.not_lt_zero _)
  · have hlt : k < s.wait.submitted.length :=
      hk.trans_le ((h.waits_ended hj hpc).ge.trans h.waitOrder.executed_le)
    obtain ⟨t, ht⟩ : ∃ t, s.wait.submitted[k]? = some t := ⟨_, List.getElem?_eq_getElem hlt⟩
    exact ⟨t, ht, (h.posts.wait k t ht).2.1⟩

end Drained

/-! ### Close drains -/

/-- What a loader promises in a state. -/
structure Drains (cfg : Config) (s : State) : Prop where
  /-- In a call, and in `close` up to `destroy_buffer`, some thread can take a step. -/
  goes : s.pc ≠ .idle → s.pc ≠ .destroyBuffer → ∃ a : Action, a.ofThread = true ∧ (step cfg s a).isSome
  /-- From CLOSE on, a run has an end, which is `destroy_buffer`. -/
  ends : s.pc.joins.isSome → ∀ l s', (loader cfg).exec l s = some s' →
    l.length ≤ s.work ∧ ((∀ a, step cfg s' a = none) → s'.pc = .destroyBuffer)
  drained : s.pc = .destroyBuffer → Drained cfg s

/-- **Close drains.** For every backend, any window and however the threads, the
kernel and the device interleave with the joins of `destroy_threads`, no run
gets stuck before `destroy_buffer`, every run from CLOSE comes to it, and then
every task has run and every posted chunk is read, copied and waited for. -/
theorem close_drains (cfg : Config) (s : State) (h : (loader cfg).Reachable s) : Drains cfg s := by
  obtain ⟨hcore, hjoins⟩ := reachable_core h
  refine
    { goes := fun hidle hend => hcore.goes hjoins hidle hend
      ends := fun hclosing l s' hs => ?_
      drained := fun hpc => hcore.drained hjoins hpc }
  have hrun := Machine.length_exec_le (m := loader cfg) (I := fun s => s.pc.joins.isSome = true)
    (fun s a s' hi hstep => step_work hi hstep) l hclosing hs
  refine ⟨by omega, fun hstuck => ?_⟩
  by_contra hend
  obtain ⟨hcore', hjoins'⟩ := reachable_core (h.exec l hs)
  have hidle : s'.pc ≠ .idle := by
    intro hpc
    rw [hpc] at hrun
    cases hrun.1
  obtain ⟨a, -, hsome⟩ := hcore'.goes hjoins' hidle hend
  rw [hstuck a] at hsome
  cases hsome

/-- Two chunks, of which the second ends in the middle of a page. -/
def twoChunks : Config where
  geometry := initBuffer 4096 1 8192 2 0 (by decide) (by decide) (by decide) (by decide)
  rank := 0
  backend := .aio
  useInternalMemoryRegister := false
  concurrency := 1
  chunks := [⟨8192, 0, 4096, 16⟩, ⟨4100, 0, 12288, 8208⟩]
  debug := true

/-- Both chunks are in flight at CLOSE, and the last page is read while `cuda_thread` is joined. -/
def inFlightAtClose : List Action :=
  .postReadChunk :: List.replicate 6 .loader ++ .postReadChunk :: List.replicate 6 .loader ++
    [.close, .loader, .loader, .reader 0, .reader 0, .reader 0, .cuda, .cuda, .wait, .wait, .sample, .completeRead 0,
      .cuda, .cuda, .cuda, .cuda, .cuda, .cuda, .wait, .completeRead 1, .cuda, .cuda, .cuda, .cuda, .loader, .loader,
      .loader, .reader 0, .loader, .loader, .loader, .completeCopy 0, .wait, .wait, .wait, .wait, .wait,
      .completeCopy 1, .wait, .wait, .wait, .loader, .loader, .loader]

theorem close_drains_twoChunks : ∃ s, (loader twoChunks).Reachable s ∧ s.pc = .destroyBuffer ∧ s.posted = 2 ∧
    s.read = [0, 1] ∧ s.copied = [0, 1] ∧ Drains twoChunks s := by
  obtain ⟨s, hs, hp⟩ := (loader twoChunks).exists_reachable inFlightAtClose
    (fun s => decide (s.pc = .destroyBuffer ∧ s.posted = 2 ∧ s.read = [0, 1] ∧ s.copied = [0, 1])) (by decide +kernel)
  obtain ⟨hpc, hposted, hread, hcopied⟩ := of_decide_eq_true hp
  exact ⟨s, hs, hpc, hposted, hread, hcopied, close_drains twoChunks s hs⟩

end Close
end Siphon
