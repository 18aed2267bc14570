/-
# The loader thread

The methods of `Loader` (`csrc/loader_common.cpp`) that read chunks:
`post_read_chunk`, `poll_read_chunk`, `wait_read_chunk`, `can_step`,
`try_step`, `wait_step` and `get_tensor_ptr`. They run on the loader thread
while the executors complete chunks in any order, so they are a machine: the
loader's variables, a place in the code (`Pc`), and one action for every call,
for every step of the thread and for every completion.

A step of the thread goes from one place to the next; `chunk_read` is stored
only when a reap loop ends, and the loops keep their own `next_chunk_id`.
`posted`, `completed` and `reaped` record which chunks were handed to the
backend (with the host window and event `chunk_id % io_depth`), which of them
the executor has completed, and which completions were consumed.
-/
import Mathlib.Data.Finset.Insert
import Siphon.Lib.Machine
import Siphon.Types

namespace Siphon
namespace Runtime

/-- The exceptions of these methods. -/
inductive RuntimeError where
  | currentOutOfRange (index size : ℕ)
  | readingBeyondPrefetch
  | chunkOutOfRange
  | indexOutOfRange
  | outOfOrder
  deriving Repr, DecidableEq

/-- The text of the exception. -/
def RuntimeError.message : RuntimeError → String
  | .currentOutOfRange index size => "Internal error: current_tensor_index (" ++ toString index ++
    ") out of range (" ++ toString size ++ ")."
  | .readingBeyondPrefetch => "Internal error: chunk_reading is greater than prefetch_chunk_id."
  | .chunkOutOfRange => "Internal error: chunk_id out of range."
  | .indexOutOfRange => "Internal error: index out of range."
  | .outOfOrder => "Should call get_tensor_ptr(key) with keys in order of keys()."

/-- The exceptions of `can_step` and `wait_read_chunk`, which only a defect of
the loader can raise; the others are errors of the caller. -/
def RuntimeError.isInternal : RuntimeError → Bool
  | .currentOutOfRange _ _ | .readingBeyondPrefetch | .chunkOutOfRange => true
  | .indexOutOfRange | .outOfOrder => false

/-- What the loader thread reads of an opened loader. -/
structure Config where
  tensors : List TensorMetadate
  chunks : List Chunk
  ioDepth : ℕ
  deriving Repr, DecidableEq

/-- `this->tensors[i].last_chunk_id`. -/
def Config.lastChunkId (cfg : Config) (i : ℕ) : ℤ := (cfg.tensors.getD i default).lastChunkId

/-- The host window and the event slot of a chunk. -/
def Config.windowIdx (cfg : Config) (chunkId : ℕ) : ℕ := chunkId % cfg.ioDepth

/-- The loader's variables, and what became of the chunks. -/
structure Loader where
  currentTensorIndex : ℕ := 0
  chunkReading : ℤ := -1
  chunkRead : ℤ := -1
  posted : List ℕ := []
  completed : Finset ℕ := ∅
  reaped : Finset ℕ := ∅
  deriving DecidableEq

/-- Who called `step`. -/
inductive Caller where
  | tryStep
  | waitStep (index : ℕ)
  deriving Repr, DecidableEq

/-- Who called `wait_read_chunk`. -/
inductive Waiter where
  | postReadChunk (caller : Caller)
  | waitStep (index : ℕ)
  deriving Repr, DecidableEq

/-- Where the loader thread is. -/
inductive Pc where
  /-- Between two calls. -/
  | idle
  /-- At the `can_step` of `try_step`. -/
  | tryStep
  /-- At the loop test of `wait_step`, called by `get_tensor_ptr(index)`. -/
  | waitStep (index : ℕ)
  /-- At the start of `post_read_chunk`. -/
  | postReadChunk (caller : Caller)
  /-- `chunk_reading` is advanced; the window of the chunk is still to be waited for. -/
  | waitWindow (caller : Caller)
  /-- The window is free; the backend is still to be called. -/
  | submit (caller : Caller)
  /-- In the loop of `wait_read_chunk(chunkId)`. -/
  | reap (chunkId nextChunkId : ℤ) (waiter : Waiter)
  /-- In the loop of `poll_read_chunk`. -/
  | poll (nextChunkId : ℤ) (caller : Caller)
  /-- `get_tensor_ptr(index)` returns the tensor's address. -/
  | returned (index : ℕ)
  /-- An exception has ended the thread. -/
  | failed (e : RuntimeError)
  deriving Repr, DecidableEq

/-- Where `step` returns to. -/
def Caller.resume : Caller → Pc
  | .tryStep => .idle
  | .waitStep index => .waitStep index

/-- Where `wait_read_chunk` returns to. -/
def Waiter.resume : Waiter → Pc
  | .postReadChunk caller => .submit caller
  | .waitStep index => .waitStep index

/-- `can_step`. -/
def canStep (cfg : Config) (v : Loader) : Except RuntimeError Bool :=
  if cfg.tensors.length = 0 then
    .ok false
  else
    match cfg.tensors[v.currentTensorIndex]? with
    | none => .error (.currentOutOfRange v.currentTensorIndex cfg.tensors.length)
    | some tensor =>
      if v.chunkReading > tensor.prefetchChunkId then
        .error .readingBeyondPrefetch
      else
        .ok (v.chunkReading < tensor.prefetchChunkId)

/-- `wait_read_chunk`, up to its loop. -/
def waitReadChunk (v : Loader) (chunkId : ℤ) (waiter : Waiter) : Pc :=
  if chunkId > v.chunkReading then
    .failed .chunkOutOfRange
  else
    .reap chunkId (v.chunkRead + 1) waiter

/-- `poll_read_chunk`, up to its loop. -/
def pollReadChunk (v : Loader) (caller : Caller) : Pc := .poll (v.chunkRead + 1) caller

/-- The completion of the chunk is in the executor and was not consumed. -/
def Loader.canReap (v : Loader) (chunkId : ℤ) : Bool :=
  decide (chunkId.toNat ∈ v.completed ∧ chunkId.toNat ∉ v.reaped)

/-- `reap` and a successful `try_reap`. -/
def Loader.reap (v : Loader) (chunkId : ℤ) : Loader := { v with reaped := insert chunkId.toNat v.reaped }

/-- The chunk that `post_read_chunk` waits for. -/
def waitChunkId (cfg : Config) (v : Loader) : ℤ :=
  max (v.chunkReading - maxIoDepth) (v.chunkReading - cfg.ioDepth)

/-- One step of the thread. There is none between two calls, after an
exception, and while `reap` waits for a completion. -/
def tick (cfg : Config) (v : Loader) : Pc → Option (Loader × Pc)
  | .idle => none
  | .failed _ => none
  | .returned _ => some (v, .idle)
  | .tryStep =>
    match canStep cfg v with
    | .error e => some (v, .failed e)
    | .ok true => some (v, .postReadChunk .tryStep)
    | .ok false => some (v, pollReadChunk v .tryStep)
  | .waitStep index =>
    if v.chunkRead < cfg.lastChunkId index then
      match canStep cfg v with
      | .error e => some (v, .failed e)
      | .ok true => some (v, .postReadChunk (.waitStep index))
      | .ok false => some (v, waitReadChunk v (cfg.lastChunkId index) (.waitStep index))
    else
      some (v, .returned index)
  | .postReadChunk caller =>
    some ({ v with chunkReading := v.chunkReading + 1 }, .waitWindow caller)
  | .waitWindow caller =>
    if waitChunkId cfg v ≥ 0 then
      some (v, waitReadChunk v (waitChunkId cfg v) (.postReadChunk caller))
    else
      some (v, .submit caller)
  | .submit caller =>
    some ({ v with posted := v.posted ++ [v.chunkReading.toNat] }, pollReadChunk v caller)
  | .reap chunkId next waiter =>
    if next ≤ chunkId then
      if v.canReap next then some (v.reap next, .reap chunkId (next + 1) waiter) else none
    else
      some ({ v with chunkRead := next - 1 }, waiter.resume)
  | .poll next caller =>
    if next ≤ v.chunkReading ∧ v.canReap next then
      some (v.reap next, .poll (next + 1) caller)
    else
      some ({ v with chunkRead := next - 1 }, caller.resume)

/-- `get_tensor_ptr`, up to the wait. -/
def getTensorPtr (cfg : Config) (v : Loader) (index : ℕ) : Loader × Pc :=
  if index ≥ cfg.tensors.length then
    (v, .failed .indexOutOfRange)
  else if index < v.currentTensorIndex then
    (v, .failed .outOfOrder)
  else
    ({ v with currentTensorIndex := index }, .waitStep index)

/-- A call, a step of the thread, or a completion. -/
inductive Action where
  | tryStep
  | pollReadChunk
  | getTensorPtr (index : ℕ)
  | tick
  | complete (chunkId : ℕ)
  deriving Repr, DecidableEq

/-- What an action does. The executor completes every posted chunk at most once. -/
def step (cfg : Config) (s : Loader × Pc) : Action → Option (Loader × Pc)
  | .tryStep => if s.2 = .idle then some (s.1, .tryStep) else none
  | .pollReadChunk => if s.2 = .idle then some (s.1, pollReadChunk s.1 .tryStep) else none
  | .getTensorPtr index => if s.2 = .idle then some (getTensorPtr cfg s.1 index) else none
  | .tick => tick cfg s.1 s.2
  | .complete chunkId =>
    if chunkId ∈ s.1.posted ∧ chunkId ∉ s.1.completed then
      some ({ s.1 with completed := insert chunkId s.1.completed }, s.2)
    else
      none

/-- The loader of an opened handle. -/
def loader (cfg : Config) : Machine (Loader × Pc) Action where
  init := ({}, .idle)
  step := step cfg

end Runtime
end Siphon
