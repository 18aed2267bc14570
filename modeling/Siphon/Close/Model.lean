/-
# The threads of a loader that is closed

`post_read_chunk` of every backend (`csrc/loader_io_inmem.cpp`,
`csrc/loader_io_cufile.cpp`, `csrc/loader_io_uring.cpp`,
`csrc/loader_io_aio.cpp`) on bounded executors, and `close`
(`csrc/loader_common.cpp`) up to `destroy_buffer`. A chunk is read by a task of
`worker_threads`, by the kernel, or by the kernel for a task of
`last_page_reader_thread`; its `cuda_func` reaps that task, waits for the
completion and issues the work of the device; its `wait_func` reaps the
`cuda_func` and waits for the event. The loader thread reaps the `wait_func`s,
until it dispatches CLOSE and joins one executor after the other.

A loader has `worker_threads` or `last_page_reader_thread` or neither; `reader`
is the one there is. Reads, copies and events do not fail, and which completes
when is open. A thread that would only spin makes no step.
-/
import Mathlib.Logic.Function.Basic
import Siphon.Executor.Bounded
import Siphon.Frontend.Params
import Siphon.Io.Rank

namespace Siphon
namespace Close

open Executor Frontend Io

/-- What the threads read of an opened loader. -/
structure Config where
  geometry : Geometry
  rank : ℕ
  backend : Backend
  useInternalMemoryRegister : Bool
  concurrency : ℕ
  chunks : List Chunk
  /-- `_env_debug()`, with which `io_depth_sample_thread` runs. -/
  debug : Bool

/-- The executors, in the order in which `destroy_threads` joins them. -/
inductive Thread where
  | workerThreads
  | cudaThread
  | lastPageReaderThread
  | waitThread
  deriving Repr, DecidableEq

namespace Config

variable (cfg : Config)

def rankSize (chunkId : ℕ) : ℕ :=
  (ioParams cfg.geometry cfg.rank chunkId (cfg.chunks.getD chunkId default)).rankSize

/-- The device copies from the mapped file. -/
def registered : Bool := cfg.backend = .mmap ∧ cfg.useInternalMemoryRegister = true

def isAio : Bool := cfg.backend = .aio ∨ cfg.backend = .aioBuffered

def isUring : Bool := cfg.backend = .uring ∨ cfg.backend = .uringBuffered

/-- The backends with kernel reads, which count `unfinished_cnt`. -/
def kernelReads : Bool := cfg.isAio || cfg.isUring

/-- `need_worker_threads` -/
def needWorkerThreads : Bool :=
  cfg.backend = .cufile ∨ cfg.backend = .mmap ∧ cfg.useInternalMemoryRegister = false

/-- `need_cuda_thread` -/
def needCudaThread : Bool := !cfg.registered

/-- `submit_cnt` -/
def submitCnt (chunkId : ℕ) : ℕ := if 0 < cfg.rankSize chunkId then 1 else 0

/-- `unaligned_last_page` -/
def unalignedLastPage (chunkId : ℕ) : Bool := cfg.rankSize chunkId % cfg.geometry.rankAlignment ≠ 0

/-- The read of the chunk is a task of the reader. -/
def readTask (chunkId : ℕ) : Bool :=
  0 < cfg.rankSize chunkId ∧ (cfg.needWorkerThreads = true ∨ cfg.isAio = true ∧ cfg.unalignedLastPage chunkId = true)

/-- The `cuda_func` copies or gathers, and records the event. -/
def deviceWork : Bool := cfg.backend ≠ .cufile ∨ 1 < cfg.geometry.worldSize

/-- How a `cuda_func` reaps its read: `cufile` asks for the bytes read. -/
def reapOp : ReapOp := if cfg.backend = .cufile then .reapInto else .reap

/-- `wait_chunk_id` -/
def waitChunkId (chunkId : ℕ) : ℤ :=
  max ((chunkId : ℤ) - maxIoDepth) ((chunkId : ℤ) - cfg.geometry.ioDepth)

/-- `window_idx`, which is also the slot of the event. -/
def windowIdx (chunkId : ℕ) : ℕ := chunkId % cfg.geometry.ioDepth

/-- The workers of the reader. -/
def readers : ℕ := if cfg.needWorkerThreads then cfg.concurrency else 1

/-- The joins of `destroy_threads`. -/
def destroyThreads : List Thread :=
  (if cfg.needWorkerThreads then [.workerThreads] else []) ++ (if cfg.needCudaThread then [.cudaThread] else []) ++
    (if cfg.isAio then [.lastPageReaderThread] else []) ++ [.waitThread]

end Config

/-- A `cuda_func`, with `memcpy_req_id`, `read_req_id` or `aio_req_id`. -/
structure CudaFunc where
  chunkId : ℕ
  readReqId : ℤ
  deriving Repr, DecidableEq

/-- A `wait_func`; where there is no `cuda_func`, `cudaReqId` is `EXECUTOR_STOP_REQUEST_ID`. -/
structure WaitFunc where
  chunkId : ℕ
  cudaReqId : ℤ
  deriving Repr, DecidableEq

/-- Where a `cuda_func` is: in front of or in the reap, or behind it. -/
inductive CudaPc where
  | reap
  | loop
  deriving Repr, DecidableEq

/-- Where a `wait_func` is: in front of or in the reap, or at `cudaEventSynchronize`. -/
inductive WaitPc where
  | reap
  | synchronize
  deriving Repr, DecidableEq

/-- Where the loader thread is. -/
inductive LoaderPc where
  /-- Between two calls. -/
  | idle
  /-- In the `wait_read_chunk` of `post_read_chunk`. -/
  | window
  /-- In front of the read. -/
  | read
  | submitCuda (readReqId : ℤ)
  | submitWait (cudaReqId : ℤ)
  /-- In `poll_read_chunk`. -/
  | poll
  /-- In the `wait_read_chunk` of `wait_step`. -/
  | waitRead (chunkId : ℕ)
  /-- In `destroy_threads`, with these joins still to make. -/
  | join (rest : List Thread)
  /-- At the join of `io_depth_sample_thread`. -/
  | joinSample
  /-- In front of `destroy_buffer`. -/
  | destroyBuffer
  deriving Repr, DecidableEq

/-- The threads, the kernel and the device. -/
structure State where
  /-- Calls of `next_executor_request_id`. -/
  requests : ℕ
  /-- `chunk_reading + 1` -/
  posted : ℕ
  /-- `chunks[k].request.wait_handle` -/
  handles : List ℤ
  /-- `next_chunck_id` of the loops that reap, and `chunk_read + 1` outside of them. -/
  reaped : ℕ
  pc : LoaderPc
  stop : Bool
  /-- `io_depth_sample_thread` runs. -/
  sampling : Bool
  reader : Executor.State ℕ Unit
  cuda : Executor.State CudaFunc Unit
  cudaPc : CudaPc
  wait : Executor.State WaitFunc Unit
  waitPc : WaitPc
  /-- `unfinished_cnt` of each chunk. -/
  unfinished : ℕ → ℕ
  /-- Reads that the kernel has. -/
  kernel : List ℕ
  completions : List ℕ
  /-- Chunks whose work the device has. -/
  device : List ℕ
  /-- The chunk behind which each event was last recorded. -/
  events : ℕ → Option ℕ
  /-- Reads that have finished. -/
  read : List ℕ
  /-- Chunks whose work the device has finished. -/
  copied : List ℕ

/-- `next_executor_request_id` -/
def State.nextExecutorRequestId (s : State) : ℤ := (executorRequestId s.requests).toNat

/-- `chunk_id` in `post_read_chunk`. -/
def State.current (s : State) : ℕ := s.posted - 1

section Threads

variable (cfg : Config)

/-! ### The loader thread -/

/-- A turn of `wait_read_chunk`. -/
def waitReadChunk (chunkId : ℤ) (resume : LoaderPc) (s : State) : Option State :=
  if (s.reaped : ℤ) ≤ chunkId then do
    let wait ← reapTurn .reap (s.handles.getD s.reaped 0) s.wait
    some { s with wait, reaped := if wait.reaper.isNone then s.reaped + 1 else s.reaped }
  else
    some { s with pc := resume }

/-- A turn of `poll_read_chunk`. -/
def pollReadChunk (s : State) : Option State :=
  if s.reaped < s.posted then do
    let wait ← reapTurn .tryReap (s.handles.getD s.reaped 0) s.wait
    if wait.reaper.isSome then some { s with wait }
    else if wait.answers.getLast? = some (.tryReap, s.handles.getD s.reaped 0, true) then
      some { s with wait, reaped := s.reaped + 1 }
    else
      some { s with wait, pc := .idle }
  else
    some { s with pc := .idle }

/-- The work of the device for a chunk: the copy, the gather of several ranks, and the event behind them. -/
def issue (chunkId : ℕ) (s : State) : State :=
  if cfg.deviceWork then
    { s with
      device := s.device ++ [chunkId]
      events := Function.update s.events (cfg.windowIdx chunkId) (some chunkId) }
  else
    s

/-- The read of the current chunk. -/
def postRead (s : State) : Option State :=
  let unfinished :=
    if cfg.kernelReads then Function.update s.unfinished s.current (cfg.submitCnt s.current) else s.unfinished
  if cfg.registered then
    some { issue cfg s.current s with pc := .submitWait stopRequestId }
  else if cfg.readTask s.current then do
    let reader ← submitTask s.nextExecutorRequestId s.current s.reader
    some { s with
      requests := s.requests + 1, reader, unfinished
      pc := .submitCuda s.nextExecutorRequestId }
  else
    let kernel := if cfg.kernelReads ∧ 0 < cfg.rankSize s.current then s.kernel ++ [s.current] else s.kernel
    some { s with kernel, unfinished, pc := .submitCuda stopRequestId }

def submitCuda (readReqId : ℤ) (s : State) : Option State := do
  let cuda ← submitTask s.nextExecutorRequestId ⟨s.current, readReqId⟩ s.cuda
  some { s with requests := s.requests + 1, cuda, pc := .submitWait s.nextExecutorRequestId }

def submitWait (cudaReqId : ℤ) (s : State) : Option State := do
  let wait ← submitTask s.nextExecutorRequestId ⟨s.current, cudaReqId⟩ s.wait
  some { s with
    requests := s.requests + 1, wait
    handles := s.handles ++ [s.nextExecutorRequestId]
    pc := .poll }

/-- A turn of the join of an executor. -/
def joinThread (rest : List Thread) (s : State) : Thread → Option State
  | .workerThreads | .lastPageReaderThread => do
    let reader ← joinTurn s.reader
    some { s with reader, pc := if reader.joined then .join rest else s.pc }
  | .cudaThread => do
    let cuda ← joinTurn s.cuda
    some { s with cuda, pc := if cuda.joined then .join rest else s.pc }
  | .waitThread => do
    let wait ← joinTurn s.wait
    some { s with wait, pc := if wait.joined then .join rest else s.pc }

/-- A step of the loader thread in a call. -/
def loaderStep (s : State) : Option State :=
  match s.pc with
  | .idle => none
  | .window => waitReadChunk (cfg.waitChunkId s.current) .read s
  | .read => postRead cfg s
  | .submitCuda readReqId => submitCuda readReqId s
  | .submitWait cudaReqId => submitWait cudaReqId s
  | .poll => pollReadChunk s
  | .waitRead chunkId => waitReadChunk chunkId .idle s
  | .join [] => some { s with pc := .joinSample }
  | .join (t :: rest) => joinThread rest s t
  | .joinSample => if s.sampling then none else some { s with pc := .destroyBuffer }
  | .destroyBuffer => none

/-! ### The other threads -/

/-- A step of a worker of the reader. `aio_func` hands the read to the kernel, the others make it. -/
def readerStep (w : ℕ) (s : State) : Option State :=
  match s.reader.workers[w]? with
  | some (.pending t) => do
    let reader ← processTasks w () s.reader
    if cfg.kernelReads then some { s with reader, kernel := s.kernel ++ [t.payload] }
    else some { s with reader, read := s.read ++ [t.payload] }
  | _ => do
    let reader ← workerTurn w s.reader
    some { s with reader }

/-- A step of a `cuda_func`. It takes completions of any chunk until its own is counted. -/
def cudaFunc (f : CudaFunc) (s : State) : Option State :=
  match s.cudaPc with
  | .reap =>
    if f.readReqId = stopRequestId then some { s with cudaPc := .loop }
    else do
      let reader ← reapTurn cfg.reapOp f.readReqId s.reader
      some { s with reader, cudaPc := if reader.reaper.isNone then .loop else .reap }
  | .loop =>
    if 0 < s.unfinished f.chunkId then
      match s.completions with
      | [] => none
      | c :: rest =>
        some { s with completions := rest, unfinished := Function.update s.unfinished c (s.unfinished c - 1) }
    else do
      let cuda ← processTasks 0 () s.cuda
      some { issue cfg f.chunkId s with cuda, cudaPc := .reap }

def cudaStep (s : State) : Option State :=
  match s.cuda.workers[0]? with
  | some (Worker.pending t) => cudaFunc cfg t.payload s
  | _ => do
    let cuda ← workerTurn 0 s.cuda
    some { s with cuda }

/-- `cudaEventSynchronize` returns: the device has finished what the event was recorded behind. -/
def synchronized (s : State) (chunkId : ℕ) : Bool :=
  (s.events (cfg.windowIdx chunkId)).all fun recorded => recorded ∉ s.device

/-- A step of a `wait_func`. -/
def waitFunc (f : WaitFunc) (s : State) : Option State :=
  match s.waitPc with
  | .reap =>
    if f.cudaReqId = stopRequestId then some { s with waitPc := .synchronize }
    else do
      let cuda ← reapTurn .reap f.cudaReqId s.cuda
      some { s with cuda, waitPc := if cuda.reaper.isNone then .synchronize else .reap }
  | .synchronize =>
    if synchronized cfg s f.chunkId then do
      let wait ← processTasks 0 () s.wait
      some { s with wait, waitPc := .reap }
    else
      none

def waitStep (s : State) : Option State :=
  match s.wait.workers[0]? with
  | some (Worker.pending t) => waitFunc cfg t.payload s
  | _ => do
    let wait ← workerTurn 0 s.wait
    some { s with wait }

/-! ### The kernel and the device -/

/-- The kernel completes a read. -/
def completeRead (chunkId : ℕ) (s : State) : Option State :=
  if chunkId ∈ s.kernel then
    some { s with
      kernel := s.kernel.erase chunkId
      completions := s.completions ++ [chunkId]
      read := s.read ++ [chunkId] }
  else
    none

/-- The device finishes the work of a chunk. -/
def completeCopy (chunkId : ℕ) (s : State) : Option State :=
  if chunkId ∈ s.device then
    some { s with device := s.device.erase chunkId, copied := s.copied ++ [chunkId] }
  else
    none

end Threads

inductive Action where
  /-- `post_read_chunk`, up to its `wait_read_chunk`. -/
  | postReadChunk
  | pollReadChunk
  /-- The `wait_read_chunk` of `wait_step`. -/
  | waitReadChunk (chunkId : ℕ)
  /-- `close`, up to `destroy_threads`. -/
  | close
  | loader
  | reader (w : ℕ)
  | cuda
  | wait
  | completeRead (chunkId : ℕ)
  | completeCopy (chunkId : ℕ)
  /-- `io_depth_sample_thread` sees `stop`. -/
  | sample
  deriving Repr, DecidableEq

def step (cfg : Config) (s : State) : Action → Option State
  | .postReadChunk =>
    if s.pc = .idle ∧ s.posted < cfg.chunks.length then some { s with posted := s.posted + 1, pc := .window }
    else none
  | .pollReadChunk => if s.pc = .idle then some { s with pc := .poll } else none
  | .waitReadChunk chunkId =>
    if s.pc = .idle ∧ chunkId < s.posted then some { s with pc := .waitRead chunkId } else none
  | .close => if s.pc = .idle then some { s with stop := true, pc := .join cfg.destroyThreads } else none
  | .loader => loaderStep cfg s
  | .reader w => readerStep cfg w s
  | .cuda => cudaStep cfg s
  | .wait => waitStep cfg s
  | .completeRead chunkId => completeRead chunkId s
  | .completeCopy chunkId => completeCopy chunkId s
  | .sample => if s.stop = true ∧ s.sampling = true then some { s with sampling := false } else none

/-- The threads of an opened loader. -/
def loader (cfg : Config) : Machine State Action where
  init :=
    { requests := 0, posted := 0, handles := [], reaped := 0, pc := .idle, stop := false, sampling := cfg.debug
      reader := (executor ℕ Unit cfg.readers).init
      cuda := (executor CudaFunc Unit 1).init, cudaPc := .reap
      wait := (executor WaitFunc Unit 1).init, waitPc := .reap
      unfinished := fun _ => 0, kernel := [], completions := [], device := [], events := fun _ => none
      read := [], copied := [] }
  step := step cfg

end Close
end Siphon
