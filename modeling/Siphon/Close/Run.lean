/-
# What every run of the threads keeps

The executors are stopped and joined by `destroy_threads` only (`Joins`), and
a step of any thread is one of the steps of the invariant
(`reachable_core`).

Key theorems: `step_core`, `step_joins`, `reachable_core`.
-/
import Siphon.Close.Steps

namespace Siphon
namespace Close

open Executor Frontend

/-! ### Joins -/

/-- The joins of `destroy_threads` that are still to make, when it runs. -/
def LoaderPc.joins : LoaderPc → Option (List Thread)
  | .join rest => some rest
  | .joinSample | .destroyBuffer => some []
  | .idle | .window | .read | .submitCuda _ | .submitWait _ | .poll | .waitRead _ => none

namespace State

variable (s : State)

/-- `stop_requested` of the executor. -/
def stopRequested : Thread → Bool
  | .workerThreads | .lastPageReaderThread => s.reader.stopRequested
  | .cudaThread => s.cuda.stopRequested
  | .waitThread => s.wait.stopRequested

/-- `join` of the executor has returned. -/
def joined : Thread → Bool
  | .workerThreads | .lastPageReaderThread => s.reader.joined
  | .cudaThread => s.cuda.joined
  | .waitThread => s.wait.joined

end State

/-- Nothing is stopped before `close`, and what `destroy_threads` has passed is joined. -/
structure Joins (cfg : Config) (s : State) : Prop where
  running : s.pc.joins = none → ∀ t, s.stopRequested t = false
  closing : ∀ rest, s.pc.joins = some rest → s.stop = true ∧ ∀ t ∈ cfg.destroyThreads, t ∈ rest ∨ s.joined t = true

section Joins

variable {cfg : Config} {s s' : State}

theorem joins_init : Joins cfg (loader cfg).init :=
  { running := fun _ t => by rcases t <;> rfl
    closing := fun rest h => by cases h }

theorem keeps_rfl {P R : Type} {e : Executor.State P R} : Keeps e e := ⟨rfl, rfl⟩

theorem Joins.keep (h : Joins cfg s) (hpc : s'.pc.joins = s.pc.joins) (hstop : s'.stop = s.stop)
    (hr : Keeps s.reader s'.reader) (hc : Keeps s.cuda s'.cuda) (hw : Keeps s.wait s'.wait) : Joins cfg s' := by
  have hreq : ∀ t, s'.stopRequested t = s.stopRequested t := by
    rintro (- | - | - | -)
    · exact hr.stopRequested
    · exact hc.stopRequested
    · exact hr.stopRequested
    · exact hw.stopRequested
  have hjoined : ∀ t, s'.joined t = s.joined t := by
    rintro (- | - | - | -)
    · exact hr.joined
    · exact hc.joined
    · exact hr.joined
    · exact hw.joined
  refine { running := fun hnone t => ?_, closing := fun rest hrest => ?_ }
  · rw [hreq]
    exact h.running (hpc ▸ hnone) t
  · obtain ⟨hclosed, hall⟩ := h.closing rest (hpc ▸ hrest)
    refine ⟨hstop.trans hclosed, fun t ht => ?_⟩
    rw [hjoined]
    exact hall t ht

end Joins

section Steps

variable {cfg : Config} {s s' : State}

/-! ### The loader thread -/

theorem waitReadChunk_keeps (h : Core cfg s) (hj : Joins cfg s) {chunkId : ℤ} {resume : LoaderPc}
    (hreaps : s.pc.reaps cfg s.posted s.reaped = if (s.reaped : ℤ) ≤ chunkId then some .reap else none)
    (hresume : ¬(s.reaped : ℤ) ≤ chunkId → s.wait.reaper = none → Core cfg { s with pc := resume })
    (hjoins : resume.joins = s.pc.joins) (hs : waitReadChunk chunkId resume s = some s') :
    Core cfg s' ∧ Joins cfg s' := by
  unfold waitReadChunk at hs
  split_ifs at hs with hle
  · obtain ⟨wait, hw, heq⟩ := Option.bind_eq_some_iff.mp hs
    obtain rfl := Option.some.inj heq
    refine ⟨?_, hj.keep rfl rfl keeps_rfl keeps_rfl (reapTurn_reaps h.wait.inv hw).keeps⟩
    rw [if_pos hle] at hreaps
    rcases h.reap_wait (by simp) hreaps hw with ⟨hsome, hcore⟩ | ⟨hnone, -, hcore⟩ | ⟨-, -, hno, -⟩
    · rw [if_neg (by rw [← Option.not_isSome]; simp [hsome])]
      exact hcore
    · rw [if_pos (by simp [hnone])]
      exact hcore
    · cases hno
  · obtain rfl := Option.some.inj hs
    rw [if_neg hle] at hreaps
    exact ⟨hresume hle (h.reaper_eq_none hreaps), hj.keep hjoins rfl keeps_rfl keeps_rfl keeps_rfl⟩

theorem pollReadChunk_keeps (h : Core cfg s) (hj : Joins cfg s) (hpc : s.pc = .poll)
    (hs : pollReadChunk s = some s') : Core cfg s' ∧ Joins cfg s' := by
  have hwindow := h.posted_window (by simp [hpc])
  have hidle : ∀ {s'' : State}, Core cfg s'' → s''.pc = .poll → s''.wait.reaper = none →
      Core cfg { s'' with pc := .idle } := fun hcore hpoll hnone =>
    hcore.goto (by rw [hpoll]; rfl) (by simp) (by simp) (by simp) hnone (hcore.posted_window (by simp [hpoll]))
  unfold pollReadChunk at hs
  split_ifs at hs with hlt
  · obtain ⟨wait, hw, heq⟩ := Option.bind_eq_some_iff.mp hs
    have hk := (reapTurn_reaps h.wait.inv hw).keeps
    have hreaps : s.pc.reaps cfg s.posted s.reaped = some .tryReap := by
      rw [hpc]
      exact if_pos hlt
    rcases h.reap_wait (by simp) hreaps hw with ⟨hsome, hcore⟩ | ⟨hnone, hlast, hcore⟩ | ⟨hnone, hlast, -, hcore⟩
    · rw [if_pos hsome] at heq
      obtain rfl := Option.some.inj heq
      exact ⟨hcore, hj.keep rfl rfl keeps_rfl keeps_rfl hk⟩
    · rw [if_neg (by simp [hnone]), if_pos hlast] at heq
      obtain rfl := Option.some.inj heq
      exact ⟨hcore, hj.keep rfl rfl keeps_rfl keeps_rfl hk⟩
    · rw [if_neg (by simp [hnone]), if_neg (by simp [hlast])] at heq
      obtain rfl := Option.some.inj heq
      exact ⟨hidle hcore hpc hnone, hj.keep (by rw [hpc]; rfl) rfl keeps_rfl keeps_rfl hk⟩
  · obtain rfl := Option.some.inj hs
    have hnone := h.reaper_eq_none (by rw [hpc]; exact if_neg hlt)
    exact ⟨hidle h hpc hnone, hj.keep (by rw [hpc]; rfl) rfl keeps_rfl keeps_rfl keeps_rfl⟩

theorem submitTask_keeps {P R : Type} {e e' : Executor.State P R} {requestId : ℤ} {payload : P}
    (hid : requestId ≠ stopRequestId) (hstop : e.stopRequested = false)
    (hs : submitTask requestId payload e = some e') : Keeps e e' := by
  rw [submitTask_eq hid hstop hs]
  exact ⟨rfl, rfl⟩

theorem postRead_keeps (h : Core cfg s) (hj : Joins cfg s) (hpc : s.pc = .read) (hs : postRead cfg s = some s') :
    Core cfg s' ∧ Joins cfg s' := by
  have hstop := hj.running (by rw [hpc]; rfl) .workerThreads
  unfold postRead at hs
  dsimp only at hs
  by_cases hreg : cfg.registered = true
  · rw [if_pos hreg] at hs
    obtain rfl := Option.some.inj hs
    refine ⟨h.issue_read hpc hreg, ?_⟩
    unfold issue
    split_ifs <;> exact hj.keep (by rw [hpc]; rfl) rfl keeps_rfl keeps_rfl keeps_rfl
  rw [if_neg hreg] at hs
  by_cases hread : cfg.readTask s.current = true
  · rw [if_pos hread] at hs
    obtain ⟨reader, hr, heq⟩ := Option.bind_eq_some_iff.mp hs
    obtain rfl := Option.some.inj heq
    exact ⟨h.submit_read hpc hread hstop hr,
      hj.keep (by rw [hpc]; rfl) rfl (submitTask_keeps nextExecutorRequestId_ne hstop hr) keeps_rfl keeps_rfl⟩
  · rw [if_neg hread] at hs
    obtain rfl := Option.some.inj hs
    exact ⟨h.skip_read hpc (by simpa using hreg) (by simpa using hread),
      hj.keep (by rw [hpc]; rfl) rfl keeps_rfl keeps_rfl keeps_rfl⟩

theorem submitCuda_keeps (h : Core cfg s) (hj : Joins cfg s) {readReqId : ℤ} (hpc : s.pc = .submitCuda readReqId)
    (hs : submitCuda readReqId s = some s') : Core cfg s' ∧ Joins cfg s' := by
  have hstop := hj.running (by rw [hpc]; rfl) .cudaThread
  obtain ⟨cuda, hc, heq⟩ := Option.bind_eq_some_iff.mp hs
  obtain rfl := Option.some.inj heq
  exact ⟨h.submit_cuda hpc hstop hc,
    hj.keep (by rw [hpc]; rfl) rfl keeps_rfl (submitTask_keeps nextExecutorRequestId_ne hstop hc) keeps_rfl⟩

theorem submitWait_keeps (h : Core cfg s) (hj : Joins cfg s) {cudaReqId : ℤ} (hpc : s.pc = .submitWait cudaReqId)
    (hs : submitWait cudaReqId s = some s') : Core cfg s' ∧ Joins cfg s' := by
  have hstop := hj.running (by rw [hpc]; rfl) .waitThread
  obtain ⟨wait, hw, heq⟩ := Option.bind_eq_some_iff.mp hs
  obtain rfl := Option.some.inj heq
  exact ⟨h.submit_wait hpc hstop hw,
    hj.keep (by rw [hpc]; rfl) rfl keeps_rfl keeps_rfl (submitTask_keeps nextExecutorRequestId_ne hstop hw)⟩

/-- A turn of a join, which the loader thread may leave. -/
theorem joinThread_keeps (h : Core cfg s) (hj : Joins cfg s) {t : Thread} {rest : List Thread}
    (hpc : s.pc = .join (t :: rest)) (hs : joinThread rest s t = some s') : Core cfg s' ∧ Joins cfg s' := by
  obtain ⟨hstop, hall⟩ := hj.closing (t :: rest) (by rw [hpc]; rfl)
  -- behind the turn, the thread stays or goes on to the next join
  have hgoto : ∀ (s'' : State) (done : Bool), Core cfg s'' → s''.pc = s.pc → s''.stop = s.stop →
      (∀ u, s.joined u = true → s''.joined u = true) → (done = true → s''.joined t = true) →
      Core cfg { s'' with pc := if done then .join rest else s.pc } ∧
        Joins cfg { s'' with pc := if done then .join rest else s.pc } := by
    intro s'' done hcore hpc' hstop' hmono hdone
    have hnone := hcore.reaper_eq_none (by rw [hpc', hpc]; rfl)
    have hwindow := hcore.posted_window (by simp [hpc', hpc])
    rcases done with - | -
    · refine ⟨hcore.goto (by rw [hpc']; rfl) (by simp [hpc]) (by simp [hpc]) (by simp [hpc]) hnone hwindow,
        { running := fun hno => ?_, closing := fun rest' hrest' => ⟨hstop'.trans hstop, fun u hu => ?_⟩ }⟩
      · rw [if_neg (by simp), hpc] at hno
        cases hno
      · rw [if_neg (by simp), hpc] at hrest'
        obtain rfl := Option.some.inj hrest'
        exact (hall u hu).imp_right (hmono u)
    · refine ⟨hcore.goto (by rw [hpc', hpc]; rfl) (by simp) (by simp) (by simp) hnone hwindow,
        { running := fun hno => ?_, closing := fun rest' hrest' => ⟨hstop'.trans hstop, fun u hu => ?_⟩ }⟩
      · cases hno
      · obtain rfl := Option.some.inj hrest'
        rcases hall u hu with hmem | hjoined
        · rcases List.mem_cons.mp hmem with rfl | hmem
          · exact .inr (hdone rfl)
          · exact .inl hmem
        · exact .inr (hmono u hjoined)
  unfold joinThread at hs
  rcases t with - | - | - | -
  · obtain ⟨reader, hr, heq⟩ := Option.bind_eq_some_iff.mp hs
    obtain rfl := Option.some.inj heq
    have hcore := h.reader_quiet (joinTurn_steps hr) (joinTurn_quiet hr)
    refine hgoto { s with reader } reader.joined hcore rfl rfl ?_ id
    rintro (- | - | - | -) hu
    all_goals first | exact joinTurn_joined hr hu | exact hu
  · obtain ⟨cuda, hc, heq⟩ := Option.bind_eq_some_iff.mp hs
    obtain rfl := Option.some.inj heq
    have hcore := h.cuda_quiet (joinTurn_steps hc) (joinTurn_quiet hc)
    refine hgoto { s with cuda } cuda.joined hcore rfl rfl ?_ id
    rintro (- | - | - | -) hu
    all_goals first | exact joinTurn_joined hc hu | exact hu
  · obtain ⟨reader, hr, heq⟩ := Option.bind_eq_some_iff.mp hs
    obtain rfl := Option.some.inj heq
    have hcore := h.reader_quiet (joinTurn_steps hr) (joinTurn_quiet hr)
    refine hgoto { s with reader } reader.joined hcore rfl rfl ?_ id
    rintro (- | - | - | -) hu
    all_goals first | exact joinTurn_joined hr hu | exact hu
  · obtain ⟨wait, hw, heq⟩ := Option.bind_eq_some_iff.mp hs
    obtain rfl := Option.some.inj heq
    have hcore := h.wait_quiet (joinTurn_steps hw) (joinTurn_quiet hw)
    refine hgoto { s with wait } wait.joined hcore rfl rfl ?_ id
    rintro (- | - | - | -) hu
    all_goals first | exact joinTurn_joined hw hu | exact hu

theorem loaderStep_keeps (h : Core cfg s) (hj : Joins cfg s) (hs : loaderStep cfg s = some s') :
    Core cfg s' ∧ Joins cfg s' := by
  unfold loaderStep at hs
  split at hs
  · cases hs
  · rename_i hpc
    refine waitReadChunk_keeps h hj (by rw [hpc]; rfl) (fun hle hnone => ?_) (by rw [hpc]; rfl) hs
    have hpos := h.posts.some_posted (by simp [hpc, LoaderPc.ahead])
    have hwindow := Config.lt_waitChunkId.mp hle
    rw [current_succ hpos] at hwindow
    exact h.goto (by rw [hpc]; rfl) (by simp) (by simp) (by simp) hnone hwindow
  · rename_i hpc
    exact postRead_keeps h hj hpc hs
  · rename_i hpc
    exact submitCuda_keeps h hj hpc hs
  · rename_i hpc
    exact submitWait_keeps h hj hpc hs
  · rename_i hpc
    exact pollReadChunk_keeps h hj hpc hs
  · rename_i chunkId hpc
    refine waitReadChunk_keeps h hj ?_ (fun _ hnone => ?_) (by rw [hpc]; rfl) hs
    · rw [hpc]
      simp [LoaderPc.reaps]
    · exact h.goto (by rw [hpc]; rfl) (by simp) (by simp) (by simp) hnone (h.posted_window (by simp [hpc]))
  · rename_i hpc
    obtain rfl := Option.some.inj hs
    have hnone := h.reaper_eq_none (by rw [hpc]; rfl)
    exact ⟨h.goto (by rw [hpc]; rfl) (by simp) (by simp) (by simp) hnone (h.posted_window (by simp [hpc])),
      hj.keep (by rw [hpc]; rfl) rfl keeps_rfl keeps_rfl keeps_rfl⟩
  · rename_i t rest hpc
    exact joinThread_keeps h hj hpc hs
  · rename_i hpc
    split_ifs at hs
    obtain rfl := Option.some.inj hs
    have hnone := h.reaper_eq_none (by rw [hpc]; rfl)
    exact ⟨h.goto (by rw [hpc]; rfl) (by simp) (by simp) (by simp) hnone (h.posted_window (by simp [hpc])),
      hj.keep (by rw [hpc]; rfl) rfl keeps_rfl keeps_rfl keeps_rfl⟩
  · cases hs

/-! ### The other threads -/

theorem readerStep_keeps (h : Core cfg s) (hj : Joins cfg s) {w : ℕ} (hs : readerStep cfg w s = some s') :
    Core cfg s' ∧ Joins cfg s' := by
  unfold readerStep at hs
  split at hs
  · rename_i t ht
    obtain ⟨reader, hr, heq⟩ := Option.bind_eq_some_iff.mp hs
    have hcore := h.run_reader ht hr
    split_ifs at heq hcore
    · obtain rfl := Option.some.inj heq
      exact ⟨hcore, hj.keep rfl rfl (processTasks_keeps hr) keeps_rfl keeps_rfl⟩
    · obtain rfl := Option.some.inj heq
      exact ⟨hcore, hj.keep rfl rfl (processTasks_keeps hr) keeps_rfl keeps_rfl⟩
  · obtain ⟨reader, hr, heq⟩ := Option.bind_eq_some_iff.mp hs
    obtain rfl := Option.some.inj heq
    exact ⟨h.reader_quiet (workerTurn_steps hr) (workerTurn_quiet hr),
      hj.keep rfl rfl (workerTurn_keeps hr) keeps_rfl keeps_rfl⟩

theorem cudaFunc_keeps (h : Core cfg s) (hj : Joins cfg s) {t : Executor.Task CudaFunc}
    (ht : s.cuda.workers[0]? = some (.pending t)) (hs : cudaFunc cfg t.payload s = some s') :
    Core cfg s' ∧ Joins cfg s' := by
  unfold cudaFunc at hs
  split at hs
  · rename_i hpc
    split_ifs at hs with hstop
    · obtain rfl := Option.some.inj hs
      exact ⟨h.skip_reader ht hpc hstop, hj.keep rfl rfl keeps_rfl keeps_rfl keeps_rfl⟩
    · obtain ⟨reader, hr, heq⟩ := Option.bind_eq_some_iff.mp hs
      obtain rfl := Option.some.inj heq
      exact ⟨h.reap_reader ht hpc hstop hr,
        hj.keep rfl rfl (reapTurn_reaps h.reader.inv hr).keeps keeps_rfl keeps_rfl⟩
  · rename_i hpc
    split_ifs at hs with hpos
    · split at hs
      · cases hs
      · rename_i c rest hc
        obtain rfl := Option.some.inj hs
        exact ⟨h.take hc hpos, hj.keep rfl rfl keeps_rfl keeps_rfl keeps_rfl⟩
    · obtain ⟨cuda, hc, heq⟩ := Option.bind_eq_some_iff.mp hs
      obtain rfl := Option.some.inj heq
      refine ⟨h.end_cuda ht hpc (Nat.eq_zero_of_not_pos hpos) hc, ?_⟩
      unfold issue
      split_ifs <;> exact hj.keep rfl rfl keeps_rfl (processTasks_keeps hc) keeps_rfl

theorem cudaStep_keeps (h : Core cfg s) (hj : Joins cfg s) (hs : cudaStep cfg s = some s') :
    Core cfg s' ∧ Joins cfg s' := by
  unfold cudaStep at hs
  split at hs
  · rename_i t ht
    exact cudaFunc_keeps h hj ht hs
  · obtain ⟨cuda, hc, heq⟩ := Option.bind_eq_some_iff.mp hs
    obtain rfl := Option.some.inj heq
    exact ⟨h.cuda_quiet (workerTurn_steps hc) (workerTurn_quiet hc),
      hj.keep rfl rfl keeps_rfl (workerTurn_keeps hc) keeps_rfl⟩

theorem waitFunc_keeps (h : Core cfg s) (hj : Joins cfg s) {t : Executor.Task WaitFunc}
    (ht : s.wait.workers[0]? = some (.pending t)) (hs : waitFunc cfg t.payload s = some s') :
    Core cfg s' ∧ Joins cfg s' := by
  unfold waitFunc at hs
  split at hs
  · rename_i hpc
    split_ifs at hs with hstop
    · obtain rfl := Option.some.inj hs
      exact ⟨h.skip_cuda ht hstop, hj.keep rfl rfl keeps_rfl keeps_rfl keeps_rfl⟩
    · obtain ⟨cuda, hc, heq⟩ := Option.bind_eq_some_iff.mp hs
      obtain rfl := Option.some.inj heq
      exact ⟨h.reap_cuda ht hpc hstop hc,
        hj.keep rfl rfl keeps_rfl (reapTurn_reaps h.cuda.inv hc).keeps keeps_rfl⟩
  · rename_i hpc
    split_ifs at hs with hsync
    obtain ⟨wait, hw, heq⟩ := Option.bind_eq_some_iff.mp hs
    obtain rfl := Option.some.inj heq
    exact ⟨h.end_wait ht hpc hsync hw, hj.keep rfl rfl keeps_rfl keeps_rfl (processTasks_keeps hw)⟩

theorem waitStep_keeps (h : Core cfg s) (hj : Joins cfg s) (hs : waitStep cfg s = some s') :
    Core cfg s' ∧ Joins cfg s' := by
  unfold waitStep at hs
  split at hs
  · rename_i t ht
    exact waitFunc_keeps h hj ht hs
  · obtain ⟨wait, hw, heq⟩ := Option.bind_eq_some_iff.mp hs
    obtain rfl := Option.some.inj heq
    exact ⟨h.wait_quiet (workerTurn_steps hw) (workerTurn_quiet hw),
      hj.keep rfl rfl keeps_rfl keeps_rfl (workerTurn_keeps hw)⟩

/-! ### Every step -/

/-- Between two calls, the loader thread starts one. -/
theorem call_keeps (h : Core cfg s) (hj : Joins cfg s) (hpc : s.pc = .idle) {pc : LoaderPc} (ha : pc.ahead = 0)
    (hjoins : pc.joins = none) (hread : ∀ k, pc = .waitRead k → k < s.posted) :
    Core cfg { s with pc } ∧ Joins cfg { s with pc } := by
  have hnone := h.reaper_eq_none (by rw [hpc]; rfl)
  refine ⟨h.goto (ha.trans (by rw [hpc]; rfl)) (fun id he => ?_) (fun id he => ?_) hread hnone
    (h.posted_window (by simp [hpc])), hj.keep (hjoins.trans (by rw [hpc]; rfl)) rfl keeps_rfl keeps_rfl keeps_rfl⟩
  · rw [he] at ha
    cases ha
  · rw [he] at ha
    cases ha

theorem close_keeps (h : Core cfg s) (hpc : s.pc = .idle) :
    Core cfg { s with stop := true, pc := .join cfg.destroyThreads } ∧
    Joins cfg { s with stop := true, pc := .join cfg.destroyThreads } := by
  have hnone := h.reaper_eq_none (by rw [hpc]; rfl)
  have hcore : Core cfg { s with pc := .join cfg.destroyThreads } :=
    h.goto (by rw [hpc]; rfl) (by simp) (by simp) (by simp) hnone (h.posted_window (by simp [hpc]))
  refine ⟨{ hcore with }, { running := fun hno => ?_, closing := fun rest hrest => ⟨rfl, fun t ht => ?_⟩ }⟩
  · cases hno
  · obtain rfl := Option.some.inj hrest
    exact .inl ht

theorem step_keeps (h : Core cfg s) (hj : Joins cfg s) {a : Action} (hs : step cfg s a = some s') :
    Core cfg s' ∧ Joins cfg s' := by
  rcases a with - | - | k | - | - | w | - | - | k | k | - <;> simp only [step] at hs
  · split_ifs at hs with hidle
    obtain rfl := Option.some.inj hs
    exact ⟨h.next hidle.1, hj.keep (by rw [hidle.1]; rfl) rfl keeps_rfl keeps_rfl keeps_rfl⟩
  · split_ifs at hs with hidle
    obtain rfl := Option.some.inj hs
    exact call_keeps h hj hidle rfl rfl (by simp)
  · split_ifs at hs with hidle
    obtain rfl := Option.some.inj hs
    exact call_keeps h hj hidle.1 rfl rfl fun k' hk => by
      obtain rfl := LoaderPc.waitRead.inj hk
      exact hidle.2
  · split_ifs at hs with hidle
    obtain rfl := Option.some.inj hs
    exact close_keeps h hidle
  · exact loaderStep_keeps h hj hs
  · exact readerStep_keeps h hj hs
  · exact cudaStep_keeps h hj hs
  · exact waitStep_keeps h hj hs
  · refine ⟨h.completeRead hs, ?_⟩
    unfold completeRead at hs
    split_ifs at hs
    obtain rfl := Option.some.inj hs
    exact hj.keep rfl rfl keeps_rfl keeps_rfl keeps_rfl
  · refine ⟨h.completeCopy hs, ?_⟩
    unfold completeCopy at hs
    split_ifs at hs
    obtain rfl := Option.some.inj hs
    exact hj.keep rfl rfl keeps_rfl keeps_rfl keeps_rfl
  · split_ifs at hs
    obtain rfl := Option.some.inj hs
    exact ⟨{ h with }, hj.keep rfl rfl keeps_rfl keeps_rfl keeps_rfl⟩

/-- **Every state that a run reaches** satisfies the invariant. -/
theorem reachable_core (h : (loader cfg).Reachable s) : Core cfg s ∧ Joins cfg s :=
  h.invariant (I := fun s => Core cfg s ∧ Joins cfg s) ⟨core_init, joins_init⟩ fun _ _ _ hi hs =>
    step_keeps hi.1 hi.2 hs

end Steps

end Close
end Siphon
