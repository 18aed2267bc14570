/-
# The calls of `LoaderManager` and the loader threads behind them

`LoaderManager` (`csrc/main.cpp`) keeps a pair of queues for every handle, and
a loader thread (`Loader::run`) at their other end. Its methods are `call`,
which counts a request and pushes it, and `get_result`, which pops responses
until the one of the request comes. The client, the threads and the executors
take their steps in any order; a client that waits in `get_result` makes no
other call.

A thread goes on when its handle was erased: one `try_step` follows `CLOSE`,
and it may post a chunk to the executors that `CLOSE` has joined, which throws.
An exception that leaves a thread ends the process and every call in it
(`State.terminated`). An `open` that throws before its request is sent
(`openFails`) leaves a thread that waits for a request for ever, behind a
handle that the client does not have.

The lifetime of the queues is not modelled: `run_loader` owns them and frees
them when the thread ends, also where the client still looks into them.
-/
import Siphon.Manager
import Siphon.Runtime.Run

namespace Siphon
namespace Rpc

open Siphon.Runtime

/-- What `open` makes of its arguments, or nothing where `compute_layout` throws. -/
def openedOf (args : Manager.OpenArgs) : Option Config :=
  match Layout.computeLayout args.geometry args.tensorOffsets with
  | .ok layout => some ⟨layout.tensors, layout.chunks, args.geometry.ioDepth⟩
  | .error _ => none

/-- `RPCHandle`, with the thread at the other end of its queues and the
address of that thread's device buffer. -/
structure Handle where
  latestReqId : ℕ
  args : Manager.OpenArgs
  deviceBuffer : ℕ
  thread : RunState

/-- The request that the client waits for in `get_result`. -/
structure Pending where
  loaderHandle : ℕ
  reqId : ℕ
  call : Manager.Call

/-- The process: `LoaderManager`, the threads, the client, and the calls that
have returned. -/
structure State where
  handles : ℕ → Option Handle
  /-- The erased handles, whose threads go on to their ends. -/
  closed : List Handle
  loaderIdIter : ℕ
  deviceIdx : ℤ
  pending : Option Pending
  history : List (Manager.Call × Manager.Reply)

/-- The thread of the handle at its next place, or its queues after a call. -/
def State.put (s : State) (h : ℕ) (hd : Handle) : State :=
  { s with handles := Function.update s.handles h (some hd) }

/-- `RPCRequest{req_id, opcode, args}` on the input queue. -/
def Handle.push (hd : Handle) (op : Op) : Handle :=
  { hd with
    latestReqId := hd.latestReqId + 1
    thread := { hd.thread with inputQueue := hd.thread.inputQueue ++ [⟨hd.latestReqId + 1, op⟩] } }

/-- `LoaderManager::call`, and the client in `get_result`. -/
def send (s : State) (h : ℕ) (hd : Handle) (op : Op) (c : Manager.Call) : State :=
  { s.put h (hd.push op) with pending := some ⟨h, hd.latestReqId + 1, c⟩ }

/-- The loader of a new handle. -/
def newHandle (args : Manager.OpenArgs) (deviceBuffer : ℕ) : Handle :=
  ⟨0, args, deviceBuffer, (run notOpened).init⟩

/-- A method of `LoaderManager`, up to the wait in `get_result`. -/
def call (s : State) : Manager.Call → Option State
  | .open args deviceBuffer =>
    some (send { s with deviceIdx := args.deviceIdx, loaderIdIter := s.loaderIdIter + 1 } s.loaderIdIter
      (newHandle args deviceBuffer) (.open (openedOf args)) (.open args deviceBuffer))
  | .openFails deviceIdx =>
    some { s with
      deviceIdx := deviceIdx, loaderIdIter := s.loaderIdIter + 1
      history := s.history ++ [(.openFails deviceIdx, .raised)] }
  | .getDlTensor loaderHandle tensorIndex size =>
    (s.handles loaderHandle).map fun hd =>
      send s loaderHandle hd (.getTensorPtr tensorIndex) (.getDlTensor loaderHandle tensorIndex size)
  | .close loaderHandle =>
    (s.handles loaderHandle).map fun hd => send s loaderHandle hd .close (.close loaderHandle)

/-- What the method does with the result, and what it returns. A tensor needs
the address that the response carries. -/
def finish (deviceType : Manager.DeviceType) (s : State) (p : Pending) (hd : Handle) (result : Option ℕ) :
    Option State :=
  match p.call with
  | .open _ _ =>
    some { s with pending := none, history := s.history ++ [(p.call, .handle p.loaderHandle)] }
  | .openFails _ => none
  | .getDlTensor _ _ size =>
    result.map fun offset =>
      { s with
        pending := none
        history := s.history ++ [(p.call, .tensor (Manager.packDlpack deviceType (hd.deviceBuffer + offset)
          [(size : ℤ)] Manager.int8 s.deviceIdx))] }
  | .close loaderHandle =>
    some { s with
      handles := Function.update s.handles loaderHandle none, closed := s.closed ++ [hd]
      pending := none, history := s.history ++ [(p.call, .closed)] }

/-- The handle without its first response. -/
def Handle.popped (hd : Handle) (rest : List Response) : Handle :=
  { hd with thread := { hd.thread with outputQueue := rest } }

/-- A `pop` in `get_result`: a response to another request is dropped. -/
def pop (deviceType : Manager.DeviceType) (s : State) : Option State :=
  s.pending.bind fun p => (s.handles p.loaderHandle).bind fun hd =>
    match hd.thread.outputQueue with
    | [] => none
    | response :: rest =>
      if response.id ≠ p.reqId then
        some (s.put p.loaderHandle (hd.popped rest))
      else
        finish deviceType (s.put p.loaderHandle (hd.popped rest)) p (hd.popped rest) response.result

/-- A call, a `pop` of the client that waits, a step of a handle's thread, or
a completion by its executor; and the same two of an erased handle, which are
given by their place. -/
inductive Action where
  | call (c : Manager.Call)
  | pop
  | tick (loaderHandle : ℕ)
  | complete (loaderHandle chunkId : ℕ)
  | closedTick (i : ℕ)
  | closedComplete (i chunkId : ℕ)

/-- A step of the handle's thread or executor. -/
def threadStep (s : State) (h : ℕ) (a : RunAction) : Option State :=
  (s.handles h).bind fun hd => (runStep hd.thread a).map fun t => s.put h { hd with thread := t }

/-- A step of the thread or executor of an erased handle. -/
def closedStep (s : State) (i : ℕ) (a : RunAction) : Option State :=
  s.closed[i]?.bind fun hd => (runStep hd.thread a).map fun t =>
    { s with closed := s.closed.set i { hd with thread := t } }

/-- A method of the loader has thrown. -/
def methodThrew : Pc → Bool
  | .failed _ => true
  | _ => false

/-- An exception leaves `run`: of a method, of `open`, or of `submit`, to which
a chunk goes after `close` has joined the executors. -/
def Handle.threw (hd : Handle) : Bool :=
  hd.thread.place = .threw || methodThrew hd.thread.pc || (hd.thread.closed && hd.thread.pc.inPost)

/-- `std::terminate` -/
def State.terminated (s : State) : Bool :=
  ((List.range s.loaderIdIter).any fun h => (s.handles h).any Handle.threw) || s.closed.any Handle.threw

/-- A step of the process while it runs. -/
def act (deviceType : Manager.DeviceType) (s : State) : Action → Option State
  | .call c => if s.pending.isNone then call s c else none
  | .pop => pop deviceType s
  | .tick loaderHandle => threadStep s loaderHandle .tick
  | .complete loaderHandle chunkId => threadStep s loaderHandle (.complete chunkId)
  | .closedTick i => closedStep s i .tick
  | .closedComplete i chunkId => closedStep s i (.complete chunkId)

def step (deviceType : Manager.DeviceType) (s : State) (a : Action) : Option State :=
  if s.terminated then none else act deviceType s a

/-- The process, with any clients and in any order of its steps. -/
def system (deviceType : Manager.DeviceType) : Machine State Action where
  init := ⟨fun _ => none, [], 0, 0, none, []⟩
  step := step deviceType

theorem act_of_step {deviceType : Manager.DeviceType} {s s' : State} {a : Action}
    (h : step deviceType s a = some s') : act deviceType s a = some s' := by
  unfold step at h
  split at h
  · cases h
  · exact h

/-! ### The manager that the client sees -/

/-- The handle between two calls. -/
def Handle.toRpcHandle (hd : Handle) : Manager.RpcHandle :=
  ⟨hd.latestReqId, hd.args, hd.deviceBuffer, hd.thread.cfg.tensors, hd.thread.loader.currentTensorIndex⟩

/-- The process between two calls. -/
def State.manager (s : State) : Manager.LoaderManager :=
  ⟨fun h => (s.handles h).map Handle.toRpcHandle, s.loaderIdIter, s.deviceIdx⟩

end Rpc
end Siphon
