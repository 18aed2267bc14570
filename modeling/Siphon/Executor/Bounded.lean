/-
# Bounded queues

The queues of the loader's executors hold `MAX_IO_DEPTH` items, and a push into
a full one waits. Here are the turns of the threads with these waits: a thread
that would only spin makes no step. As long as no more than `MAX_IO_DEPTH`
requests are outstanding, an executor with something to do has a worker that
can make its next step (`Invariant.exists_turn`), and `join` waits for nothing
else (`Invariant.exists_joinTurn`).

Key definitions: `workerTurn`, `reapTurn`, `joinTurn`.
Key theorems: `Invariant.exists_turn`, `Invariant.exists_joinTurn`,
`reapTurn_outcome`.
-/
import Siphon.Executor.Run
import Siphon.Types

namespace Siphon
namespace Executor

open Census

variable {P R : Type}

/-! ### The turns -/

/-- `submit`, which waits for room in the task queue. -/
def submitTask (requestId : ℤ) (payload : P) (s : State P R) : Option (State P R) :=
  if s.taskQueue.length < maxIoDepth then some (submit requestId true payload s) else none

/-- A turn of `worker_loop` outside of a task: the worker pops, or pushes its result. -/
def workerTurn (w : ℕ) (s : State P R) : Option (State P R) :=
  match s.workers[w]? with
  | some .idle => popTask w s
  | some (.finished _) => if s.resultQueue.length < maxIoDepth then pushResult w s else none
  | _ => none

/-- A turn of an operation of the reaper. -/
def reapTurn (op : ReapOp) (id : ℤ) (s : State P R) : Option (State P R) :=
  match s.reaper with
  | none => callReaper op id s
  | some _ => if op.blocks ∧ s.resultQueue.isEmpty then none else drain s

/-- A turn of `join`: it stops, pushes the sentinels and waits for the threads. -/
def joinTurn (s : State P R) : Option (State P R) :=
  if s.stopRequested = false then some (stop s)
  else if 0 < s.stopsLeft then if s.taskQueue.length < maxIoDepth then pushStop s else none
  else join s

/-! ### What is outstanding -/

section Length

variable {s : State P R}

/-- Every submission is in one place, so the lengths add up. -/
theorem Inv.length_eq (h : Inv s) : (held TaskItem.ticket? s.taskQueue).length +
    (held Worker.ticket? s.workers).length + s.resultQueue.length + s.completedResults.length +
    s.reaped.length + s.discarded.length = s.submitted.length := by
  have hperm : (held TaskItem.ticket? s.taskQueue ++ held Worker.ticket? s.workers ++
      s.resultQueue.map (·.ticket) ++ s.completedResults.map (·.ticket) ++ s.reaped.map (·.2.ticket) ++
      s.discarded).Perm (List.range s.submitted.length) := by
    rw [List.perm_iff_count]
    intro k
    have hc := h.census k
    simp only [places, done] at hc
    simp only [List.count_append, List.count_range]
    rw [← hc]
    omega
  have hlen := hperm.length_eq
  simp only [List.length_append, List.length_map, List.length_range] at hlen
  exact hlen

/-- Where no more than the capacity is outstanding, there is room for the result of a worker. -/
theorem Inv.room (h : Inv s) (hle : s.submitted.length ≤ s.reaped.length + maxIoDepth) {w : ℕ}
    {r : ResultItem R} (hw : s.workers[w]? = some (.finished r)) : s.resultQueue.length < maxIoDepth := by
  have hmem : r.ticket ∈ held Worker.ticket? s.workers :=
    List.mem_filterMap.mpr ⟨_, List.mem_of_getElem? hw, rfl⟩
  have hpos := List.length_pos_of_mem hmem
  have hlen := h.length_eq
  omega

end Length

/-! ### Progress -/

section Progress

variable {s : State P R}

/-- A worker can make its next step, or has a task to run. -/
def Turns (s : State P R) : Prop := ∃ w, (∃ t, s.workers[w]? = some (.pending t)) ∨ (workerTurn w s).isSome

/-- Where less than the capacity is outstanding, `submit` does not wait. -/
theorem Invariant.submitTask_isSome (h : Invariant s) (hstop : s.stopRequested = false)
    (hlt : s.submitted.length < s.reaped.length + maxIoDepth) (requestId : ℤ) (payload : P) :
    (submitTask requestId payload s).isSome := by
  obtain ⟨ts, m, hl⟩ := h.life
  have hbalance := hl.balance
  rw [if_neg (by simp [hstop])] at hbalance
  have hm : m = 0 := by omega
  have htickets : (held TaskItem.ticket? s.taskQueue).length = s.taskQueue.length := by
    rw [hl.queue, hm]
    simp [held, List.filterMap_map, Function.comp_def, TaskItem.ticket?]
  have hlen := h.inv.length_eq
  rw [submitTask, if_pos (by omega)]
  rfl

/-- A worker that has not exited is not at rest while there is something to do. -/
theorem Inv.exists_turn (h : Inv s) (hle : s.submitted.length ≤ s.reaped.length + maxIoDepth)
    (hlive : ∃ x ∈ s.workers, x ≠ .exited) (hwork : s.taskQueue ≠ [] ∨ ∃ x ∈ s.workers, x.ticket? ≠ none) :
    Turns s := by
  by_cases hheld : ∃ x ∈ s.workers, x.ticket? ≠ none
  · obtain ⟨x, hx, hticket⟩ := hheld
    obtain ⟨w, hw⟩ := List.mem_iff_getElem?.mp hx
    rcases x with - | t | r | -
    · exact absurd rfl hticket
    · exact ⟨w, .inl ⟨t, hw⟩⟩
    · refine ⟨w, .inr ?_⟩
      simp [workerTurn, Executor.pushResult, hw, h.room hle hw]
    · exact absurd rfl hticket
  · obtain ⟨x, hx, hne⟩ := hlive
    obtain ⟨w, hw⟩ := List.mem_iff_getElem?.mp hx
    have hqueue := hwork.resolve_right hheld
    rcases x with - | t | r | -
    · obtain ⟨i, rest, hq⟩ := List.exists_cons_of_ne_nil hqueue
      refine ⟨w, .inr ?_⟩
      rcases i with t | - <;> simp [workerTurn, Executor.popTask, hw, hq]
    · exact ⟨w, .inl ⟨t, hw⟩⟩
    · exact absurd ⟨_, hx, by simp [Worker.ticket?]⟩ hheld
    · exact absurd rfl hne

/-- An exit is counted. -/
theorem exits_eq_zero (hexit : exits s = 0) : ∀ x ∈ s.workers, x ≠ .exited := by
  rintro x hx rfl
  exact List.count_eq_zero.mp hexit (List.mem_filterMap.mpr ⟨_, hx, rfl⟩)

/-- While a task is in the queue, no worker has exited. -/
theorem Life.alive {ts : List (Task P)} {m k : ℕ} (h : Life s ts m) (hk : k ∈ held TaskItem.ticket? s.taskQueue) :
    ∀ x ∈ s.workers, x ≠ .exited := by
  refine exits_eq_zero (Nat.eq_zero_of_not_pos fun hpos => ?_)
  rw [h.queue, h.after hpos] at hk
  obtain ⟨i, hi, hticket⟩ := List.mem_filterMap.mp hk
  obtain rfl := List.eq_of_mem_replicate hi
  exact absurd hticket (by simp [TaskItem.ticket?])

/-- An operation that waits for a result leaves a worker with something to do. -/
theorem Invariant.turns_of_wait (h : Invariant s) (hle : s.submitted.length ≤ s.reaped.length + maxIoDepth)
    {op : ReapOp} {id : ℤ} (hr : s.reaper = some (op, id)) (hq : s.resultQueue = []) {k : ℕ} {t : Task P}
    (ht : Outstanding s k t) (hid : t.requestId = id) : Turns s := by
  obtain ⟨ts, m, hl⟩ := h.life
  rcases h.inv.still_coming hr hq ht hid with hk | hk
  · obtain ⟨x, hx⟩ := List.exists_mem_of_ne_nil _ h.workers
    obtain ⟨i, hi, -⟩ := List.mem_filterMap.mp hk
    exact h.inv.exists_turn hle ⟨x, hx, hl.alive hk x hx⟩ (.inl (List.ne_nil_of_mem hi))
  · obtain ⟨x, hx, hticket⟩ := List.mem_filterMap.mp hk
    refine h.inv.exists_turn hle ⟨x, hx, ?_⟩ (.inr ⟨x, hx, by simp [hticket]⟩)
    rintro rfl
    exact absurd hticket (by simp [Worker.ticket?])

/-- A turn of `join` is possible, or a worker has something to do. -/
theorem Invariant.exists_joinTurn (h : Invariant s) (hle : s.submitted.length ≤ s.reaped.length + maxIoDepth) :
    (joinTurn s).isSome ∨ Turns s := by
  obtain ⟨ts, m, hl⟩ := h.life
  have hbalance := hl.balance
  unfold joinTurn
  by_cases hstop : s.stopRequested = false
  · exact .inl (by rw [if_pos hstop]; rfl)
  rw [if_neg hstop]
  rw [if_pos (by simpa using hstop)] at hbalance
  -- fewer have exited than there are workers, unless all have
  have hexits : (∃ x ∈ s.workers, x ≠ .exited) ∨ ∀ x ∈ s.workers, x = .exited := by
    by_cases hall : ∀ x ∈ s.workers, x = .exited
    · exact .inr hall
    · simp only [not_forall] at hall
      obtain ⟨x, hx, hne⟩ := hall
      exact .inl ⟨x, hx, hne⟩
  by_cases hleft : 0 < s.stopsLeft
  · rw [if_pos hleft]
    by_cases hroom : s.taskQueue.length < maxIoDepth
    · exact .inl (by simp [pushStop, hroom, hleft])
    · have hlive := hexits.resolve_right fun hall => by
        have := exits_eq_length hall
        omega
      refine .inr (h.inv.exists_turn hle hlive (.inl fun hnil => hroom ?_))
      rw [hnil]
      exact Nat.zero_lt_succ _
  · rw [if_neg hleft]
    rcases hexits with hlive | hall
    · by_cases hm : m = 0
      · -- no sentinel is left, so each worker has popped one
        have hlen : exits s = s.workers.length := by omega
        obtain ⟨x, hx, hne⟩ := hlive
        have hlt : (held Worker.exit? s.workers).length < s.workers.length :=
          List.length_filterMap_lt_length_iff_exists.mpr
            ⟨x, hx, by rcases x with - | - | - | - <;> simp_all [Worker.exit?]⟩
        have hle' := List.count_le_length (a := ()) (l := held Worker.exit? s.workers)
        unfold exits at hlen
        omega
      · refine .inr (h.inv.exists_turn hle hlive (.inl ?_))
        rw [hl.queue]
        obtain ⟨n, rfl⟩ := Nat.exists_eq_succ_of_ne_zero hm
        simp [List.replicate_succ]
    · refine .inl ?_
      have hnone : s.stopsLeft = 0 := by omega
      rw [join, if_pos ⟨by simpa using hstop, hnone, fun x hx => by rw [hall x hx]⟩]
      rfl

end Progress

/-! ### Steps that the tasks do not see -/

/-- What a task item asks for. -/
def TaskItem.payload? : TaskItem P → Option P
  | .task t => some t.payload
  | .stop => none

/-- What the task of a worker asks for. -/
def Worker.payload? : Worker P R → Option P
  | .pending t => some t.payload
  | .idle | .finished _ | .exited => none

/-- How often `p` was submitted and has not run. -/
def waits [DecidableEq P] (s : State P R) (p : P) : ℕ :=
  (held TaskItem.payload? s.taskQueue).count p + (held Worker.payload? s.workers).count p

/-- A step of the machine, by callers that keep the ids apart. -/
def Steps (s s' : State P R) : Prop := ∃ a, distinctIds s a = true ∧ step s a = some s'

theorem Invariant.steps {s s' : State P R} (h : Invariant s) (hs : Steps s s') : Invariant s' := by
  obtain ⟨a, hd, hs⟩ := hs
  exact h.step hd hs

theorem InSequence.steps {s s' : State P R} (h : InSequence s) (hs : Steps s s') : InSequence s' := by
  obtain ⟨a, -, hs⟩ := hs
  exact h.step hs

/-- A step that runs no task, submits none and hands out no result. -/
structure Quiet [DecidableEq P] (s s' : State P R) : Prop where
  submitted : s'.submitted = s.submitted
  executed : s'.executed = s.executed
  reaped : s'.reaped = s.reaped
  reaper : s'.reaper = s.reaper
  waits : ∀ p, Executor.waits s' p = Executor.waits s p
  pending : ∀ (w : ℕ) (t : Task P), s.workers[w]? = some (.pending t) → s'.workers[w]? = some (.pending t)

section Turns

variable {s s' : State P R}

/-- A worker that holds no task is replaced. -/
theorem pending_set {w : ℕ} {x y : Worker P R} (hw : s.workers[w]? = some y) (hy : y.payload? = none) (v : ℕ)
    (t : Task P) (ht : s.workers[v]? = some (.pending t)) : (s.workers.set w x)[v]? = some (.pending t) := by
  rw [List.getElem?_set_ne, ht]
  rintro rfl
  obtain rfl := Option.some.inj (hw.symm.trans ht)
  exact absurd hy (by simp [Worker.payload?])

theorem workerTurn_cases {w : ℕ} (hs : workerTurn w s = some s') :
    popTask w s = some s' ∨ pushResult w s = some s' := by
  unfold workerTurn at hs
  split at hs
  · exact .inl hs
  · split_ifs at hs
    exact .inr hs
  · cases hs

theorem workerTurn_steps {w : ℕ} (hs : workerTurn w s = some s') : Steps s s' := by
  rcases workerTurn_cases hs with hs | hs
  · exact ⟨.popTask w, rfl, hs⟩
  · exact ⟨.pushResult w, rfl, hs⟩

theorem workerTurn_quiet [DecidableEq P] {w : ℕ} (hs : workerTurn w s = some s') : Quiet s s' := by
  rcases workerTurn_cases hs with hs | hs
  · obtain ⟨i, rest, hw, hq, rfl⟩ := popTask_cases hs
    refine ⟨rfl, rfl, rfl, rfl, fun p => ?_, pending_set hw rfl⟩
    have hset := count_held_set Worker.payload? i.worker p s.workers w _ hw
    have hpayload : (i.worker : Worker P R).payload? = i.payload? := by rcases i with t | - <;> rfl
    rw [hpayload] at hset
    simp only [waits, hq, count_held_cons, Worker.payload?, count_toList_none] at hset ⊢
    omega
  · obtain ⟨r, hw, rfl⟩ := pushResult_cases hs
    refine ⟨rfl, rfl, rfl, rfl, fun p => ?_, pending_set hw rfl⟩
    have hset := count_held_set Worker.payload? .idle p s.workers w _ hw
    simp only [waits, Worker.payload?, count_toList_none] at hset ⊢
    omega

theorem joinTurn_cases (hs : joinTurn s = some s') : stop s = s' ∨ pushStop s = some s' ∨ join s = some s' := by
  unfold joinTurn at hs
  split_ifs at hs
  · exact .inl (Option.some.inj hs)
  · exact .inr (.inl hs)
  · exact .inr (.inr hs)

theorem joinTurn_steps (hs : joinTurn s = some s') : Steps s s' := by
  rcases joinTurn_cases hs with hs | hs | hs
  · exact ⟨.stop, rfl, congrArg some hs⟩
  · exact ⟨.pushStop, rfl, hs⟩
  · exact ⟨.join, rfl, hs⟩

theorem joinTurn_quiet [DecidableEq P] (hs : joinTurn s = some s') : Quiet s s' := by
  rcases joinTurn_cases hs with rfl | hs | hs
  · unfold stop
    split_ifs <;> exact ⟨rfl, rfl, rfl, rfl, fun _ => rfl, fun _ _ ht => ht⟩
  · unfold pushStop at hs
    split_ifs at hs
    obtain rfl := Option.some.inj hs
    refine ⟨rfl, rfl, rfl, rfl, fun p => ?_, fun _ _ ht => ht⟩
    simp only [waits, count_held_snoc, TaskItem.payload?, count_toList_none, Nat.add_zero]
  · unfold join at hs
    split_ifs at hs
    obtain rfl := Option.some.inj hs
    exact ⟨rfl, rfl, rfl, rfl, fun _ => rfl, fun _ _ ht => ht⟩

/-- A step that is none of `stop` and `join`. -/
structure Keeps (s s' : State P R) : Prop where
  stopRequested : s'.stopRequested = s.stopRequested
  joined : s'.joined = s.joined

theorem workerTurn_keeps {w : ℕ} (hs : workerTurn w s = some s') : Keeps s s' := by
  rcases workerTurn_cases hs with hs | hs
  · obtain ⟨i, rest, -, -, rfl⟩ := popTask_cases hs
    exact ⟨rfl, rfl⟩
  · obtain ⟨r, -, rfl⟩ := pushResult_cases hs
    exact ⟨rfl, rfl⟩

theorem processTasks_keeps {w : ℕ} {value : R} (hs : processTasks w value s = some s') : Keeps s s' := by
  obtain ⟨t, -, ⟨-, rfl⟩ | ⟨-, rfl⟩⟩ := processTasks_cases hs <;> exact ⟨rfl, rfl⟩

theorem Reaps.keeps (hr : Reaps s s') : Keeps s s' := by
  rcases hr with ⟨_, _, _⟩ | ⟨_, _, _, _, _, _⟩ | ⟨_, _, _, _⟩ | ⟨_, _, _, _, _⟩ <;> exact ⟨rfl, rfl⟩

theorem joinTurn_joined (hs : joinTurn s = some s') (hj : s.joined = true) : s'.joined = true := by
  rcases joinTurn_cases hs with rfl | hs | hs
  · unfold stop
    split_ifs <;> exact hj
  · unfold pushStop at hs
    split_ifs at hs
    exact Option.some.inj hs ▸ hj
  · unfold join at hs
    split_ifs at hs
    exact Option.some.inj hs ▸ rfl

/-! ### Steps that they do -/

/-- A task that needs a result is run. -/
theorem processTasks_waits [DecidableEq P] {w : ℕ} {value : R} (hs : processTasks w value s = some s') : ∃ t,
    s.workers[w]? = some (.pending t) ∧ s'.submitted = s.submitted ∧
    s'.executed = s.executed ++ [(t.ticket, value)] ∧ s'.reaped = s.reaped ∧ s'.reaper = s.reaper ∧
    (∀ p, waits s p = waits s' p + if t.payload = p then 1 else 0) ∧
    ∀ v u, v ≠ w → s.workers[v]? = some (.pending u) → s'.workers[v]? = some (.pending u) := by
  obtain ⟨t, hw, hcase⟩ := processTasks_cases hs
  have hset := fun (x : Worker P R) (p : P) => count_held_set Worker.payload? x p s.workers w _ hw
  simp only [Worker.payload?, count_toList_some] at hset
  refine ⟨t, hw, ?_⟩
  rcases hcase with ⟨-, rfl⟩ | ⟨-, rfl⟩
  · refine ⟨rfl, rfl, rfl, rfl, fun p => ?_, fun v u hv hu => (List.getElem?_set_ne hv.symm).trans hu⟩
    have hcount := hset (.finished ⟨t.requestId, value, t.ticket⟩) p
    simp only [waits, count_toList_none] at hcount ⊢
    omega
  · refine ⟨rfl, rfl, rfl, rfl, fun p => ?_, fun v u hv hu => (List.getElem?_set_ne hv.symm).trans hu⟩
    have hcount := hset .idle p
    simp only [waits, count_toList_none] at hcount ⊢
    omega

theorem submitTask_eq {requestId : ℤ} {payload : P} (hid : requestId ≠ stopRequestId)
    (hstop : s.stopRequested = false) (hs : submitTask requestId payload s = some s') : s' = { s with
      taskQueue := s.taskQueue ++ [.task ⟨requestId, true, payload, s.submitted.length⟩]
      submitted := s.submitted ++ [⟨requestId, true, payload, s.submitted.length⟩] } := by
  unfold submitTask at hs
  split_ifs at hs
  rw [← Option.some.inj hs, submit, if_neg (by simp [hid, hstop])]

theorem submitTask_waits [DecidableEq P] {requestId : ℤ} {payload : P} (hid : requestId ≠ stopRequestId)
    (hstop : s.stopRequested = false) (hs : submitTask requestId payload s = some s') (p : P) :
    waits s' p = waits s p + if payload = p then 1 else 0 := by
  obtain rfl := submitTask_eq hid hstop hs
  simp only [waits, count_held_snoc, TaskItem.payload?, count_toList_some]
  omega

theorem submitTask_steps (h : Inv s) {requestId : ℤ} {payload : P}
    (hne : ∀ k t, Outstanding s k t → t.requestId ≠ requestId) (hs : submitTask requestId payload s = some s') :
    Steps s s' := by
  unfold submitTask at hs
  split_ifs at hs
  refine ⟨.submit requestId true payload, ?_, hs⟩
  simp only [distinctIds, Bool.not_true, Bool.false_or, List.all_eq_true]
  intro t ht
  by_cases hout : outstanding s t = true
  · obtain ⟨k, hk⟩ := List.mem_iff_getElem?.mp ht
    have hticket := h.numbered k t hk
    simp only [outstanding, Bool.and_eq_true, Bool.not_eq_true', List.contains_eq_mem,
      decide_eq_false_iff_not, hticket] at hout
    simpa using .inr (hne k t ⟨hk, hout.1, hout.2⟩)
  · simp [hout]

/-- Of a request whose result was handed out, nothing waits. -/
theorem Inv.waits_eq_zero [DecidableEq P] (h : Inv s) {p : P}
    (hall : ∀ t ∈ s.submitted, t.payload = p → t.ticket ∈ s.reaped.map (·.2.ticket)) : waits s p = 0 := by
  -- a request that was handed out is in no other place
  have hgone : ∀ t ∈ s.submitted, t.payload = p → places s t.ticket = 0 := by
    intro t ht hp
    have hpos := List.count_pos_iff.mpr (hall t ht hp)
    have hc := h.census t.ticket
    unfold done at hc
    split_ifs at hc <;> omega
  have hqueue : p ∉ held TaskItem.payload? s.taskQueue := by
    rintro hmem
    obtain ⟨i, hi, hpayload⟩ := List.mem_filterMap.mp hmem
    rcases i with t | -
    · have hmem := List.mem_of_getElem? (h.queued t hi)
      have hpos : 0 < (held TaskItem.ticket? s.taskQueue).count t.ticket :=
        List.count_pos_iff.mpr (List.mem_filterMap.mpr ⟨_, hi, rfl⟩)
      have hzero := hgone t hmem (Option.some.inj hpayload)
      unfold places at hzero
      omega
    · exact absurd hpayload (by simp [TaskItem.payload?])
  have hworkers : p ∉ held Worker.payload? s.workers := by
    rintro hmem
    obtain ⟨x, hx, hpayload⟩ := List.mem_filterMap.mp hmem
    rcases x with - | t | r | -
    · exact absurd hpayload (by simp [Worker.payload?])
    · have hmem := List.mem_of_getElem? (h.pending t hx)
      have hpos : 0 < (held Worker.ticket? s.workers).count t.ticket :=
        List.count_pos_iff.mpr (List.mem_filterMap.mpr ⟨_, hx, rfl⟩)
      have hzero := hgone t hmem (Option.some.inj hpayload)
      unfold places at hzero
      omega
    · exact absurd hpayload (by simp [Worker.payload?])
    · exact absurd hpayload (by simp [Worker.payload?])
  rw [waits, List.count_eq_zero.mpr hqueue, List.count_eq_zero.mpr hworkers]

end Turns

/-! ### A reap -/

section Reap

variable {s s' : State P R} {op : ReapOp} {id : ℤ}

theorem reapTurn_cases (hs : reapTurn op id s = some s') : callReaper op id s = some s' ∨ drain s = some s' := by
  unfold reapTurn at hs
  split at hs
  · exact .inl hs
  · split_ifs at hs
    exact .inr hs

theorem reapTurn_steps (hs : reapTurn op id s = some s') : Steps s s' := by
  rcases reapTurn_cases hs with hs | hs
  · exact ⟨.callReaper op id, rfl, hs⟩
  · exact ⟨.drain, rfl, hs⟩

theorem reapTurn_reaps (h : Inv s) (hs : reapTurn op id s = some s') : Reaps s s' := by
  rcases reapTurn_cases hs with hs | hs
  · exact callReaper_reaps hs
  · exact drain_reaps h hs

/-- What a turn of an operation on the id of submission `k` leaves. -/
inductive Outcome (op : ReapOp) (id : ℤ) (k : ℕ) (s s' : State P R) : Prop where
  | waits (h : s'.reaper = some (op, id)) (hr : s'.reaped = s.reaped)
  | found (h : s'.reaper = none) (hr : s'.reaped.map (·.2.ticket) = s.reaped.map (·.2.ticket) ++ [k])
      (ha : s'.answers.getLast? = some (op, id, true))
  | missed (h : s'.reaper = none) (hr : s'.reaped = s.reaped) (hb : op.blocks = false)
      (ha : s'.answers.getLast? = some (op, id, false))

/-- An operation that has found the result has handed it out. -/
theorem Found.outcome {k : ℕ} {t : Task P} (hf : Found op id k s') (hop : op ≠ .ready) (hr : Reaps s s')
    (ht : Outstanding s k t) : Outcome op id k s s' := by
  obtain ⟨hnone, hanswer, hhanded⟩ := hf
  rw [if_neg hop] at hhanded
  obtain ⟨r, hmem, rfl⟩ := hhanded
  refine .found hnone ?_ hanswer
  have hnot : (id, r) ∉ s.reaped := fun hold => ht.2.2 (List.mem_map_of_mem hold)
  have hsnoc : ∀ r' : ResultItem R, (id, r) ∈ s.reaped ++ [(r'.requestId, r')] → r = r' := by
    intro r' hr'
    rcases List.mem_append.mp hr' with hold | hnew
    · exact absurd hold hnot
    · exact (Prod.mk.inj (List.mem_singleton.mp hnew)).2
  rcases hr with ⟨_, _, _⟩ | ⟨_, _, _, _, _, _⟩ | ⟨r', rest, answers, hq⟩ | ⟨r', l1, l2, answers, hc⟩
  · exact absurd hmem hnot
  · exact absurd hmem hnot
  · rw [hsnoc r' hmem]
    simp
  · rw [hsnoc r' hmem]
    simp

/-- **A turn of an operation** on the id of an outstanding request stays in the
loop, hands out its result, or ends without one where it does not wait. -/
theorem reapTurn_outcome (h : Inv s) (hop : op ≠ .ready) {k : ℕ} {t : Task P} (ht : Outstanding s k t)
    (hid : t.requestId = id) (hr : ∀ o, s.reaper = some o → o = (op, id)) (hs : reapTurn op id s = some s') :
    Outcome op id k s s' := by
  subst hid
  have hreaps := reapTurn_reaps h hs
  unfold reapTurn at hs
  rcases hreaper : s.reaper with - | o
  · rw [hreaper] at hs
    rcases hc : cached t.requestId s.completedResults with - | r
    · simp only [callReaper, hreaper, hc, Option.some.injEq] at hs
      subst hs
      exact .waits rfl rfl
    · obtain ⟨s1, hs1, hfound⟩ := callReaper_own h op ht hreaper hc
      obtain rfl := Option.some.inj (hs1.symm.trans hs)
      exact hfound.outcome hop hreaps ht
  · obtain rfl := hr o hreaper
    rw [hreaper] at hs
    simp only at hs
    split_ifs at hs with hblock
    rcases hq : s.resultQueue with - | ⟨r, rest⟩
    · have hnot : op.blocks = false := by simpa [hq] using hblock
      simp only [drain, hreaper, hq, hnot, Bool.false_eq_true, if_false, Option.some.injEq] at hs
      subst hs
      exact .missed rfl rfl hnot (by simp [answer])
    · by_cases hid : r.requestId = t.requestId
      · have hticket := h.ticket_eq (.inl (by rw [hq]; exact List.mem_cons_self)) ht hid
        rw [← hid] at hreaper ⊢
        obtain ⟨s1, hs1, hfound⟩ := drain_own h hreaper hq
        obtain rfl := Option.some.inj (hs1.symm.trans hs)
        rw [hticket] at hfound
        exact hfound.outcome hop hreaps ht
      · rw [drain_other hreaper hq hid] at hs
        obtain rfl := Option.some.inj hs
        exact .waits hreaper rfl

/-- What a reap leaves as it is. -/
theorem Reaps.waits_eq [DecidableEq P] (hr : Reaps s s') (p : P) : waits s' p = waits s p := by
  obtain ⟨-, -, -, hq, hw⟩ := hr.frame
  rw [waits, hq, hw, waits]

/-- A blocking operation on an outstanding request makes its turn, or a worker has something to do. -/
theorem Invariant.exists_reapTurn (h : Invariant s) (hle : s.submitted.length ≤ s.reaped.length + maxIoDepth)
    {k : ℕ} {t : Task P} (ht : Outstanding s k t) (hid : t.requestId = id)
    (hr : ∀ o, s.reaper = some o → o = (op, id)) : (reapTurn op id s).isSome ∨ Turns s := by
  unfold reapTurn
  rcases hreaper : s.reaper with - | o
  · refine .inl ?_
    rcases hc : cached id s.completedResults with - | r
    · simp [callReaper, hreaper, hc]
    · rcases op <;> simp [callReaper, hreaper, hc]
  · obtain rfl := hr o hreaper
    rcases hq : s.resultQueue with - | ⟨r, rest⟩
    · exact .inr (h.turns_of_wait hle hreaper hq ht hid)
    · refine .inl ?_
      by_cases hown : r.requestId = id
      · subst hown
        obtain ⟨s1, hs1, -⟩ := drain_own h.inv hreaper hq
        simp [hs1]
      · simp [drain_other hreaper hq hown]

end Reap

/-! ### One worker -/

section Single

variable {s : State P R}

/-- The task that runs is the first that has not. -/
theorem InSequence.pending_ticket (h : InSequence s) {w : ℕ} {t : Task P} (hw : s.workers[w]? = some (.pending t)) :
    t.ticket = s.executed.length := by
  obtain ⟨-, hworkers⟩ := h.workers_eq hw
  have horder := congrArg (·[s.executed.length]?) h.order
  rw [hworkers] at horder
  simp only [held_cons, Worker.next?, Option.toList_some, held_nil, List.append_nil] at horder
  rw [List.getElem?_append_right (by simp)] at horder
  simp only [List.length_map, Nat.sub_self, List.cons_append, List.getElem?_cons_zero] at horder
  obtain ⟨hlt, heq⟩ := List.getElem?_eq_some_iff.mp horder.symm
  rw [← heq, List.getElem_range]

/-- The requests that were handed out have run. -/
theorem InSequence.reaped_lt (h : InSequence s) (hi : Inv s) {k : ℕ} (hk : k ∈ s.reaped.map (·.2.ticket)) :
    k < s.executed.length := by
  obtain ⟨⟨id, r⟩, hmem, rfl⟩ := List.mem_map.mp hk
  obtain ⟨t, -, -, -, hran⟩ := hi.own r (.inr (.inr (.inr ⟨id, hmem⟩)))
  have hin : r.ticket ∈ s.executed.map Prod.fst := List.mem_map_of_mem hran
  rw [h.executed_eq] at hin
  exact List.mem_range.mp hin

/-- When `join` has returned, every submission has run. -/
theorem InSequence.executed_of_joined (h : InSequence s) (hi : Invariant s) (hj : s.joined = true) :
    s.executed.length = s.submitted.length := by
  refine Nat.le_antisymm h.executed_le (Nat.le_of_not_lt fun hlt => ?_)
  have hran := hi.executed_of_joined hj hlt
  rw [h.executed_eq, List.count_range, if_neg (Nat.lt_irrefl _)] at hran
  cases hran

theorem InSequence.le_executed (h : InSequence s) (hi : Inv s) {n : ℕ}
    (hr : s.reaped.map (·.2.ticket) = List.range n) : n ≤ s.executed.length := by
  by_contra hlt
  have hmem : s.executed.length ∈ s.reaped.map (·.2.ticket) := by
    rw [hr, List.mem_range]
    omega
  exact absurd (h.reaped_lt hi hmem) (Nat.lt_irrefl _)

end Single

/-! ### Work that is left

What an executor has in front of it, when nothing more is submitted. A task
counts for what it may start elsewhere when it runs. -/

def Worker.work : Worker P R → ℕ
  | .pending _ => 6
  | .finished _ => 2
  | .idle | .exited => 0

def work (s : State P R) : ℕ :=
  7 * s.taskQueue.length + (s.workers.map Worker.work).sum + s.resultQueue.length +
    if s.stopRequested then 8 * s.stopsLeft else 8 * s.workers.length + 1

/-- The same for a reap, at its start and in its loop. -/
def reapWork (behind : Bool) (reaper : Option (ReapOp × ℤ)) : ℕ :=
  if behind then 0 else if reaper.isNone then 2 else 1

section Work

variable {s s' : State P R}

theorem sum_work_set (x : Worker P R) : ∀ (l : List (Worker P R)) (i : ℕ) (y : Worker P R), l[i]? = some y →
    ((l.set i x).map Worker.work).sum + y.work = (l.map Worker.work).sum + x.work
  | [], _, _, h => by simp at h
  | a :: l, 0, y, h => by
    simp only [List.getElem?_cons_zero, Option.some.injEq] at h
    subst h
    simp only [List.set_cons_zero, List.map_cons, List.sum_cons]
    omega
  | a :: l, i + 1, y, h => by
    have ih := sum_work_set x l i y (by simpa using h)
    simp only [List.set_cons_succ, List.map_cons, List.sum_cons]
    omega

/-- A step that changes the results only. -/
theorem work_congr (hq : s'.taskQueue = s.taskQueue) (hw : s'.workers = s.workers)
    (hstop : s'.stopRequested = s.stopRequested) (hleft : s'.stopsLeft = s.stopsLeft) {n : ℕ}
    (hr : s.resultQueue.length = s'.resultQueue.length + n) : work s = work s' + n := by
  rw [work, work, hq, hw, hstop, hleft, hr]
  omega

theorem workerTurn_work {w : ℕ} (hs : workerTurn w s = some s') : work s' < work s := by
  rcases workerTurn_cases hs with hs | hs
  · obtain ⟨i, rest, hw, hq, rfl⟩ := popTask_cases hs
    have hset := sum_work_set i.worker s.workers w _ hw
    have hle : (i.worker : Worker P R).work ≤ 6 := by rcases i with t | - <;> simp [TaskItem.worker, Worker.work]
    have hidle : (Worker.idle : Worker P R).work = 0 := rfl
    simp only [work, hq, List.length_cons, List.length_set]
    omega
  · obtain ⟨r, hw, rfl⟩ := pushResult_cases hs
    have hset := sum_work_set .idle s.workers w _ hw
    simp only [work, List.length_append, List.length_singleton, List.length_set]
    simp only [Worker.work] at hset
    omega

theorem processTasks_work {w : ℕ} {value : R} (hs : processTasks w value s = some s') : work s' + 4 ≤ work s := by
  obtain ⟨t, hw, ⟨-, rfl⟩ | ⟨-, rfl⟩⟩ := processTasks_cases hs
  · have hset := sum_work_set (.finished ⟨t.requestId, value, t.ticket⟩) s.workers w _ hw
    simp only [work, List.length_set]
    simp only [Worker.work] at hset
    omega
  · have hset := sum_work_set .idle s.workers w _ hw
    simp only [work, List.length_set]
    simp only [Worker.work] at hset
    omega

/-- A turn of `join` does some work, unless `join` returns. -/
theorem joinTurn_work (hs : joinTurn s = some s') : work s' < work s ∨ work s' = work s ∧ s'.joined = true := by
  unfold joinTurn at hs
  split_ifs at hs with hstop hleft hroom
  · obtain rfl := Option.some.inj hs
    refine .inl ?_
    simp only [stop, hstop, work, Bool.false_eq_true, if_false, if_true]
    omega
  · unfold pushStop at hs
    rw [if_pos hleft] at hs
    obtain rfl := Option.some.inj hs
    refine .inl ?_
    simp only [work, List.length_append, List.length_singleton, hstop, if_true]
    omega
  · unfold join at hs
    split_ifs at hs
    obtain rfl := Option.some.inj hs
    exact .inr ⟨rfl, rfl⟩

/-- A turn of a reap does some work. -/
theorem reapTurn_work {op : ReapOp} {id : ℤ} (hb : op.blocks = true) (hs : reapTurn op id s = some s') :
    work s' + reapWork s'.reaper.isNone s'.reaper < work s + reapWork false s.reaper := by
  unfold reapTurn at hs
  rcases hreaper : s.reaper with - | o
  · rw [hreaper] at hs
    dsimp only at hs
    unfold callReaper at hs
    rw [hreaper] at hs
    rcases hc : cached id s.completedResults with - | r
    · rw [hc] at hs
      obtain rfl := Option.some.inj hs
      simp [work, reapWork]
    · rw [hc] at hs
      have hready : op ≠ .ready := by
        rintro rfl
        cases hb
      have hhand : hand op id r { s with
          reaper := none, completedResults := uncache id s.completedResults } = s' := by
        rcases op with - | - | - | - <;> first | exact absurd rfl hready | exact Option.some.inj hs
      subst hhand
      exact Nat.lt_add_of_pos_right (Nat.succ_pos 1)
  · rw [hreaper] at hs
    dsimp only at hs
    split_ifs at hs with hblock
    rcases hq : s.resultQueue with - | ⟨r, rest⟩
    · exact absurd ⟨hb, by simp [hq]⟩ hblock
    · have hwork : work s = work s' + 1 := by
        have hlen : s.resultQueue.length = rest.length + 1 := by rw [hq, List.length_cons]
        unfold drain at hs
        rw [hreaper, hq] at hs
        dsimp only at hs
        split_ifs at hs
        · split at hs <;> obtain rfl := Option.some.inj hs <;> refine work_congr ?_ ?_ ?_ ?_ hlen <;> rfl
        all_goals
          obtain rfl := Option.some.inj hs
          refine work_congr ?_ ?_ ?_ ?_ hlen <;> rfl
      have hle : reapWork s'.reaper.isNone s'.reaper ≤ 1 := by
        unfold reapWork
        split_ifs <;> omega
      have hone : reapWork false (some o) = 1 := rfl
      omega

end Work

end Executor
end Siphon
