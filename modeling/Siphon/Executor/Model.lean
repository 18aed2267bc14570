/-
# The executors

`ExecutorCore` with `FunctionWorkerDriver` (`csrc/siphon/async_executor.hpp`,
`csrc/siphon/function_executor.hpp`): one thread submits tasks, some workers
take them from the task queue, run them and push the results, and one thread
reaps the results by request id, keeping the results of other requests in
`completed_results`. The queues are FIFO lists.

A worker holds at most one task: it pops when it holds none, runs the task it
holds, and pushes the result. The reaper's loops pop one result at a time.
`stop` pushes one stop sentinel for every worker (an item with the request id
-1, which `submit` refuses), and a worker that pops one exits.

`ticket` numbers the submissions, so that a request whose id is used again
can be told from the one before; `submitted`, `executed`, `reaped` and
`discarded` record what happened. Nothing in the executor reads them.
-/
import Mathlib.Data.Int.Notation
import Mathlib.Algebra.Group.Nat.Defs
import Siphon.Lib.Machine
import Siphon.Lib.Census

namespace Siphon
namespace Executor

/-- `EXECUTOR_STOP_REQUEST_ID`. -/
def stopRequestId : ℤ := -1

/-- A task that was submitted. -/
structure Task (P : Type) where
  requestId : ℤ
  needsResult : Bool
  payload : P
  ticket : ℕ
  deriving DecidableEq

/-- `ExecutorTaskItem`: a task or the stop sentinel. -/
inductive TaskItem (P : Type) where
  | task (t : Task P)
  | stop
  deriving DecidableEq

/-- `ExecutorResultItem`. -/
structure ResultItem (R : Type) where
  requestId : ℤ
  value : R
  ticket : ℕ
  deriving DecidableEq

/-- A worker: in front of `try_pop`, with a pending task, with the result of a
task that it has run, or at the end of its loop. -/
inductive Worker (P R : Type) where
  | idle
  | pending (t : Task P)
  | finished (r : ResultItem R)
  | exited
  deriving DecidableEq

/-- The operations of the reaper: `ready(id)`, `try_reap(id, result)`,
`reap(id, result)` and `reap(id)`. -/
inductive ReapOp where
  | ready
  | tryReap
  | reapInto
  | reap
  deriving Repr, DecidableEq

/-- The operations that wait in the loop. -/
def ReapOp.blocks : ReapOp → Bool
  | .reapInto | .reap => true
  | .ready | .tryReap => false

/-- The operations that drain the queue with `cache_until_ready`; the others
use `take_until_ready`. -/
def ReapOp.caches : ReapOp → Bool
  | .ready | .reap => true
  | .tryReap | .reapInto => false

/-- The executor, its threads and what happened. -/
structure State (P R : Type) where
  taskQueue : List (TaskItem P)
  workers : List (Worker P R)
  resultQueue : List (ResultItem R)
  completedResults : List (ResultItem R)
  /-- The operation in whose loop the reaper is. -/
  reaper : Option (ReapOp × ℤ)
  stopRequested : Bool
  /-- Sentinels that `stop` has still to push. -/
  stopsLeft : ℕ
  joined : Bool
  submitted : List (Task P)
  executed : List (ℕ × R)
  /-- Results handed out, with the id asked for. -/
  reaped : List (ℤ × ResultItem R)
  /-- Tasks that were run and had no result to hand out. -/
  discarded : List ℕ
  /-- What the operations answered. -/
  answers : List (ReapOp × ℤ × Bool)
  deriving DecidableEq

variable {P R : Type}

/-- `submit`. The exceptions change nothing. -/
def submit (requestId : ℤ) (needsResult : Bool) (payload : P) (s : State P R) : State P R :=
  if requestId = stopRequestId ∨ s.stopRequested = true then
    s
  else
    let t : Task P := ⟨requestId, needsResult, payload, s.submitted.length⟩
    { s with taskQueue := s.taskQueue ++ [.task t], submitted := s.submitted ++ [t] }

/-- `try_pop` and `add_task` in `worker_loop`. -/
def popTask (w : ℕ) (s : State P R) : Option (State P R) :=
  match s.workers[w]?, s.taskQueue with
  | some .idle, .task t :: rest => some { s with taskQueue := rest, workers := s.workers.set w (.pending t) }
  | some .idle, .stop :: rest => some { s with taskQueue := rest, workers := s.workers.set w .exited }
  | _, _ => none

/-- `process_tasks`: the payload is run and returns `value`. -/
def processTasks (w : ℕ) (value : R) (s : State P R) : Option (State P R) :=
  match s.workers[w]? with
  | some (.pending t) =>
    if t.needsResult then
      some { s with
        workers := s.workers.set w (.finished ⟨t.requestId, value, t.ticket⟩)
        executed := s.executed ++ [(t.ticket, value)] }
    else
      some { s with
        workers := s.workers.set w .idle
        executed := s.executed ++ [(t.ticket, value)]
        discarded := s.discarded ++ [t.ticket] }
  | _ => none

/-- The result goes to the result queue. -/
def pushResult (w : ℕ) (s : State P R) : Option (State P R) :=
  match s.workers[w]? with
  | some (.finished r) =>
    some { s with workers := s.workers.set w .idle, resultQueue := s.resultQueue ++ [r] }
  | _ => none

/-- The entry of `completed_results`. -/
def cached (requestId : ℤ) (l : List (ResultItem R)) : Option (ResultItem R) :=
  l.find? fun r => r.requestId = requestId

/-- `completed_results.erase`. -/
def uncache (requestId : ℤ) (l : List (ResultItem R)) : List (ResultItem R) :=
  l.eraseP fun r => r.requestId = requestId

/-- `completed_results.emplace`: an entry with the same id stays. -/
def emplace (r : ResultItem R) (l : List (ResultItem R)) : List (ResultItem R) :=
  if (cached r.requestId l).isSome then l else l ++ [r]

/-- The result is handed out. -/
def hand (op : ReapOp) (id : ℤ) (r : ResultItem R) (s : State P R) : State P R :=
  { s with reaper := none, reaped := s.reaped ++ [(id, r)], answers := s.answers ++ [(op, id, true)] }

/-- The operation ends without a result. -/
def answer (op : ReapOp) (id : ℤ) (found : Bool) (s : State P R) : State P R :=
  { s with reaper := none, answers := s.answers ++ [(op, id, found)] }

/-- The start of an operation: a cached result is found at once. -/
def callReaper (op : ReapOp) (id : ℤ) (s : State P R) : Option (State P R) :=
  match s.reaper, cached id s.completedResults with
  | some _, _ => none
  | none, none => some { s with reaper := some (op, id) }
  | none, some r =>
    match op with
    | .ready => some (answer op id true s)
    | _ => some (hand op id r { s with completedResults := uncache id s.completedResults })

/-- One turn of `cache_until_ready` or `take_until_ready`, and what the
operation does when the loop ends. -/
def drain (s : State P R) : Option (State P R) :=
  match s.reaper, s.resultQueue with
  | none, _ => none
  | some (op, id), [] => if op.blocks then some s else some (answer op id false s)
  | some (op, id), r :: rest =>
    if op.caches then
      let s := { s with resultQueue := rest, completedResults := emplace r s.completedResults }
      if r.requestId = id then
        match op, cached id s.completedResults with
        | .reap, some r => some (hand op id r { s with completedResults := uncache id s.completedResults })
        | _, _ => some (answer op id true s)
      else
        some s
    else if r.requestId = id then
      some (hand op id r { s with resultQueue := rest })
    else
      some { s with resultQueue := rest, completedResults := emplace r s.completedResults }

/-- `stop`, in front of its loop. -/
def stop (s : State P R) : State P R :=
  if s.stopRequested then s else { s with stopRequested := true, stopsLeft := s.workers.length }

/-- One turn of the loop of `stop`. -/
def pushStop (s : State P R) : Option (State P R) :=
  if 0 < s.stopsLeft then
    some { s with taskQueue := s.taskQueue ++ [.stop], stopsLeft := s.stopsLeft - 1 }
  else
    none

/-- `join` returns: `stop` has returned and every worker thread has ended. -/
def join (s : State P R) : Option (State P R) :=
  if s.stopRequested = true ∧ s.stopsLeft = 0 ∧ ∀ w ∈ s.workers, w matches .exited then
    some { s with joined := true }
  else
    none

inductive Action (P R : Type) where
  | submit (requestId : ℤ) (needsResult : Bool) (payload : P)
  | popTask (w : ℕ)
  | processTasks (w : ℕ) (value : R)
  | pushResult (w : ℕ)
  | callReaper (op : ReapOp) (id : ℤ)
  | drain
  | stop
  | pushStop
  | join

def step (s : State P R) : Action P R → Option (State P R)
  | .submit requestId needsResult payload => some (submit requestId needsResult payload s)
  | .popTask w => popTask w s
  | .processTasks w value => processTasks w value s
  | .pushResult w => pushResult w s
  | .callReaper op id => callReaper op id s
  | .drain => drain s
  | .stop => some (stop s)
  | .pushStop => pushStop s
  | .join => join s

/-- The executor after `start(num_workers)`. -/
def executor (P R : Type) (numWorkers : ℕ) : Machine (State P R) (Action P R) where
  init := ⟨[], List.replicate (if numWorkers = 0 then 1 else numWorkers) .idle, [], [], none, false, 0,
    false, [], [], [], [], []⟩
  step := step

/-- Submitted with a result to hand out, and not reaped. -/
def outstanding (s : State P R) (t : Task P) : Bool :=
  t.needsResult && !(s.reaped.map (·.2.ticket)).contains t.ticket

/-- What the caller has to keep: a request whose result is needed gets an id
that no outstanding request has. -/
def distinctIds (s : State P R) : Action P R → Bool
  | .submit requestId needsResult _ =>
    !needsResult || s.submitted.all fun t => !outstanding s t || t.requestId ≠ requestId
  | _ => true

/-! ### Request ids -/

/-- The counter behind `next_executor_request_id`: a call returns it and
stores the next one. -/
def nextExecutorRequestId (id : UInt32) : UInt32 := (id + 1) &&& 0x7fffffff

/-- The ids of successive calls, from 0 on. -/
def executorRequestId : ℕ → UInt32
  | 0 => 0
  | k + 1 => nextExecutorRequestId (executorRequestId k)

end Executor
end Siphon
