/-
# The disk-completion protocol

`post_read_chunk_uring` (`csrc/loader_io_uring.cpp`) and `post_read_chunk_aio`
(`csrc/loader_io_aio.cpp`) with the part of `post_read_chunk` in front of
them. Four threads and the kernel share the state:

* the loader thread prepares the read of a chunk, sets its `unfinished_cnt`,
  submits the read, and submits a `cuda_func` and a `wait_func`;
* the last-page thread (AIO) submits the reads that end inside a page, since
  `io_submit` blocks on them;
* the kernel completes the reads it has in any order;
* the cuda thread runs the `cuda_func`s in FIFO order: it takes completions of
  any chunk until the count of its own chunk is 0, and then copies the chunk
  to the device;
* the wait thread runs the `wait_func`s, and the loader thread uses a window
  again when that of the chunk before has returned.

A read is named by its chunk: `io_uring` carries the id in the SQE, AIO in
the `iocb`, which is the slot of the chunk's window. What a system call
returns is part of the action. `processed` and `copied` record the
completions that were counted and the copies that were issued.

The result of a read is the number of bytes or a negative `errno`. A CQE has
it in a signed field. The field of an `io_event` is declared by libaio, which
is not part of the repository: `unsigned long`, where `Config.resSigned` is
false, so that no value of it is less than 0.
-/
import Siphon.Io.Rank
import Siphon.Lib.Machine

namespace Siphon
namespace Io

open Rounding

/-- The backends with kernel reads. The buffered ones only differ in flags. -/
inductive Backend where
  | uring
  | aio
  deriving Repr, DecidableEq

/-- What the threads read of the loader. -/
structure Config where
  geometry : Geometry
  rank : ℕ
  backend : Backend
  chunks : List Chunk
  /-- Whether libaio declares `res` of an `io_event` with a sign. -/
  resSigned : Bool

namespace Config

variable (cfg : Config)

def params (chunkId : ℕ) : ChunkIOParams :=
  ioParams cfg.geometry cfg.rank chunkId (cfg.chunks.getD chunkId default)

/-- `submit_cnt`. -/
def submitCnt (chunkId : ℕ) : ℕ := if 0 < (cfg.params chunkId).rankSize then 1 else 0

/-- `unaligned_last_page`. -/
def unalignedLastPage (chunkId : ℕ) : Bool :=
  (cfg.params chunkId).rankSize % cfg.geometry.rankAlignment ≠ 0

/-- Whether `aio_func` is submitted to the last-page thread, so that
`aio_req_id` is not `EXECUTOR_STOP_REQUEST_ID`. -/
def aioReq (chunkId : ℕ) : Bool :=
  cfg.backend = .aio ∧ 0 < cfg.submitCnt chunkId ∧ cfg.unalignedLastPage chunkId = true

/-- `logical_size`, as a `cuda_func` computes it for a completion. -/
def logicalSize (chunkId : ℕ) : ℕ :=
  let chunk := cfg.chunks.getD chunkId default
  let paddedWorldSize := roundUp chunk.size cfg.geometry.worldChunkAlignment
  let paddedRankSize := paddedWorldSize / cfg.geometry.worldSize
  rankLogicalSize chunk.size (paddedRankSize * cfg.rank) paddedRankSize

/-- The entries of the submission queue: `io_uring_queue_init` rounds up to a
power of two. -/
def sqEntries : ℕ := cfg.geometry.ioDepth.nextPowerOfTwo

/-- `wait_chunk_id`. -/
def waitChunkId (chunkId : ℕ) : ℤ :=
  max ((chunkId : ℤ) - maxIoDepth) ((chunkId : ℤ) - cfg.geometry.ioDepth)

end Config

/-- A completion: `user_data` of a CQE or `data` of an `io_event`, and the
result that the kernel gives the read. -/
structure Completion where
  chunkId : ℕ
  res : ℤ
  deriving Repr, DecidableEq

/-- `res`, as the field of the CQE or of the `io_event` reads. -/
def Config.readRes (cfg : Config) (c : Completion) : ℤ :=
  match cfg.backend with
  | .uring => c.res
  | .aio => if cfg.resSigned then c.res else c.res % 2 ^ 64

/-- The exceptions, with the `errno` of a system call. -/
inductive IoError where
  | sqFull
  | submit (errno : ℕ)
  | wait (errno : ℕ)
  | read (chunkId errno : ℕ)
  | shortRead (chunkId bytesRead logicalSize : ℕ)
  deriving Repr, DecidableEq

/-- The text of the exception; `strerror` is the C library's. -/
def IoError.message (strerror : ℕ → String) : Backend → IoError → String
  | .uring, .sqFull => "io_uring SQ full"
  | .uring, .submit errno => "io_uring_submit failed: " ++ strerror errno
  | .uring, .wait errno => "io_uring_wait_cqe failed: " ++ strerror errno
  | .uring, .read chunkId errno =>
    "io_uring read error for chunk id: " ++ toString chunkId ++ ", error: " ++ strerror errno
  | .uring, .shortRead chunkId bytesRead logicalSize =>
    "Unexpected io_uring short read: chunk_id=" ++ toString chunkId ++ ", bytes_read=" ++
      toString bytesRead ++ ", logical_size=" ++ toString logicalSize
  | .aio, .sqFull => ""
  | .aio, .submit errno => "Failed to submit aio: " ++ strerror errno
  | .aio, .wait errno | .aio, .read _ errno => "Failed to get aio events: " ++ strerror errno
  | .aio, .shortRead chunkId bytesRead logicalSize =>
    "Unexpected AIO short read: chunk_id=" ++ toString chunkId ++ ", bytes_read=" ++
      toString bytesRead ++ ", logical_size=" ++ toString logicalSize

/-- Where the loader thread is in `post_read_chunk`. -/
inductive PostPc where
  | idle
  /-- In `wait_read_chunk`. -/
  | window
  /-- In front of `io_uring_prep_read` or `io_prep_pread`. -/
  | prepare
  /-- In front of the store to `unfinished_cnt`. -/
  | count
  /-- In `uring_func` or `aio_func`. -/
  | submit (submitted : ℕ)
  | submitCuda
  | submitWait
  deriving Repr, DecidableEq

/-- A `cuda_func`. -/
structure CudaFunc where
  chunkId : ℕ
  aioReq : Bool
  deriving Repr, DecidableEq

/-- Where the cuda thread is. -/
inductive CudaPc where
  | idle
  /-- In `last_page_reader_thread->reap`. -/
  | reapAio (f : CudaFunc)
  /-- At the loop test. -/
  | loop (f : CudaFunc)
  /-- In `io_uring_wait_cqe` or `io_getevents`. -/
  | wait (f : CudaFunc)
  /-- With completions that are still to be counted. -/
  | events (f : CudaFunc) (es : List Completion)
  /-- In front of `cudaMemcpyAsync`. -/
  | copy (f : CudaFunc)
  deriving Repr, DecidableEq

/-- The threads, the kernel and the queues. A thread that has thrown keeps its
place and makes no more steps. -/
structure State where
  /-- `chunk_reading + 1`. -/
  posted : ℕ
  post : PostPc
  postError : Option IoError
  unfinishedCnt : List UInt64
  /-- Prepared SQEs. -/
  sq : List ℕ
  /-- `aio_iocbs`. -/
  iocbs : List ℕ
  lastPageQueue : List ℕ
  /-- The chunk of the `aio_func` that runs, and its `submitted`. -/
  lastPage : Option (ℕ × ℕ)
  lastPageError : Option IoError
  lastPageResults : List ℕ
  /-- Reads that the kernel has. -/
  kernel : List ℕ
  completions : List Completion
  cudaQueue : List CudaFunc
  cuda : CudaPc
  cudaError : Option IoError
  waitQueue : List ℕ
  /-- Chunks whose `wait_func` has returned. -/
  waited : List ℕ
  processed : List Completion
  copied : List ℕ
  deriving DecidableEq

/-- `chunk_id` in `post_read_chunk`. -/
def State.current (s : State) : ℕ := s.posted - 1

/-- `chunks[chunk_id].extra_data.unfinished_cnt`. -/
def State.unfinished (s : State) (chunkId : ℕ) : UInt64 := s.unfinishedCnt.getD chunkId 0

section Threads

variable (cfg : Config)

/-- `io_submit` of `ret` entries from `aio_iocb_ptrs + window_idx + submitted`. -/
def ioSubmit (iocbs : List ℕ) (windowIdx submitted ret : ℕ) : List ℕ :=
  (iocbs.drop (windowIdx + submitted)).take ret

/-- The wait for the window: `wait_read_chunk(wait_chunk_id)` returns. -/
def waitWindow (s : State) : Option State :=
  let waitChunkId := cfg.waitChunkId s.current
  if waitChunkId < 0 ∨ waitChunkId.toNat ∈ s.waited then some { s with post := .prepare } else none

/-- The read is prepared in an SQE or in the `iocb` of the window. -/
def prepareRead (s : State) : State :=
  if (cfg.params s.current).rankSize = 0 then
    { s with post := .count }
  else
    match cfg.backend with
    | .uring =>
      if s.sq.length < cfg.sqEntries then { s with sq := s.sq ++ [s.current], post := .count }
      else { s with postError := some .sqFull }
    | .aio => { s with iocbs := s.iocbs.set (cfg.params s.current).windowIdx s.current, post := .count }

/-- One turn of `uring_func` or `aio_func`. -/
def submitRead (submitted : ℕ) (ret : ℤ) (s : State) : Option State :=
  if ret < 0 then
    some { s with postError := some (.submit ret.natAbs) }
  else
    match cfg.backend with
    | .uring =>
      if ret.toNat ≤ s.sq.length then
        some { s with
          sq := s.sq.drop ret.toNat
          kernel := s.kernel ++ s.sq.take ret.toNat
          post := .submit (submitted + ret.toNat) }
      else none
    | .aio =>
      if submitted + ret.toNat ≤ cfg.submitCnt s.current then
        some { s with
          kernel := s.kernel ++ ioSubmit s.iocbs (cfg.params s.current).windowIdx submitted ret.toNat
          post := .submit (submitted + ret.toNat) }
      else none

/-- A step of the loader thread; `ret` is what a system call returns. -/
def postStep (ret : ℤ) (s : State) : Option State :=
  if s.postError.isSome then
    none
  else
    match s.post with
    | .idle =>
      if s.posted < cfg.chunks.length then some { s with posted := s.posted + 1, post := .window } else none
    | .window => waitWindow cfg s
    | .prepare => some (prepareRead cfg s)
    | .count =>
      some { s with
        unfinishedCnt := s.unfinishedCnt.set s.current (cfg.submitCnt s.current).toUInt64
        post := .submit 0 }
    | .submit submitted =>
      if cfg.submitCnt s.current ≤ submitted then
        some { s with post := .submitCuda }
      else if cfg.aioReq s.current then
        some { s with lastPageQueue := s.lastPageQueue ++ [s.current], post := .submitCuda }
      else
        submitRead cfg submitted ret s
    | .submitCuda =>
      some { s with cudaQueue := s.cudaQueue ++ [⟨s.current, cfg.aioReq s.current⟩], post := .submitWait }
    | .submitWait => some { s with waitQueue := s.waitQueue ++ [s.current], post := .idle }

/-- A step of the last-page thread. -/
def lastPageStep (ret : ℤ) (s : State) : Option State :=
  if s.lastPageError.isSome then
    none
  else
    match s.lastPage, s.lastPageQueue with
    | none, [] => none
    | none, chunkId :: rest => some { s with lastPageQueue := rest, lastPage := some (chunkId, 0) }
    | some (chunkId, submitted), _ =>
      if cfg.submitCnt chunkId ≤ submitted then
        some { s with lastPage := none, lastPageResults := s.lastPageResults ++ [chunkId] }
      else if ret < 0 then
        some { s with lastPageError := some (.submit ret.natAbs) }
      else if submitted + ret.toNat ≤ cfg.submitCnt chunkId then
        some { s with
          kernel := s.kernel ++ ioSubmit s.iocbs (cfg.params chunkId).windowIdx submitted ret.toNat
          lastPage := some (chunkId, submitted + ret.toNat) }
      else none

/-- The kernel completes the read of a chunk. -/
def complete (c : Completion) (s : State) : Option State :=
  if c.chunkId ∈ s.kernel then
    some { s with kernel := s.kernel.erase c.chunkId, completions := s.completions ++ [c] }
  else none

/-- The loop body of `cuda_func` for one completion. -/
def countCompletion (f : CudaFunc) (c : Completion) (es : List Completion) (s : State) : State :=
  if cfg.readRes c < 0 then
    { s with cudaError := some (.read c.chunkId (cfg.readRes c).natAbs) }
  else if (cfg.readRes c).toNat < cfg.logicalSize c.chunkId then
    { s with cudaError := some (.shortRead c.chunkId (cfg.readRes c).toNat (cfg.logicalSize c.chunkId)) }
  else
    { s with
      unfinishedCnt := s.unfinishedCnt.set c.chunkId (s.unfinished c.chunkId - 1)
      processed := s.processed ++ [c]
      cuda := .events f es }

/-- `io_uring_wait_cqe` gives the first completion, `io_getevents` gives up to
`unfinished_cnt` of them. -/
def takeCompletions (f : CudaFunc) (ret : ℤ) (s : State) : Option State :=
  match cfg.backend with
  | .uring =>
    if ret ≠ 0 then
      some { s with cudaError := some (.wait ret.natAbs) }
    else
      match s.completions with
      | [] => none
      | c :: rest => some { s with completions := rest, cuda := .events f [c] }
  | .aio =>
    if ret < 0 then
      some { s with cudaError := some (.wait ret.natAbs) }
    else if ret.toNat ≤ (s.unfinished f.chunkId).toNat ∧ ret.toNat ≤ s.completions.length then
      some { s with
        completions := s.completions.drop ret.toNat
        cuda := .events f (s.completions.take ret.toNat) }
    else none

/-- A step of the cuda thread. -/
def cudaStep (ret : ℤ) (s : State) : Option State :=
  if s.cudaError.isSome then
    none
  else
    match s.cuda with
    | .idle =>
      match s.cudaQueue with
      | [] => none
      | f :: rest => some { s with cudaQueue := rest, cuda := if f.aioReq then .reapAio f else .loop f }
    | .reapAio f =>
      if f.chunkId ∈ s.lastPageResults then
        some { s with lastPageResults := s.lastPageResults.erase f.chunkId, cuda := .loop f }
      else none
    | .loop f => some { s with cuda := if 0 < s.unfinished f.chunkId then .wait f else .copy f }
    | .wait f => takeCompletions cfg f ret s
    | .events f [] => some { s with cuda := .loop f }
    | .events f (c :: es) => some (countCompletion cfg f c es s)
    | .copy f => some { s with copied := s.copied ++ [f.chunkId], cuda := .idle }

/-- `wait_func` returns: the `cuda_func` of the chunk is done. -/
def waitStep (s : State) : Option State :=
  match s.waitQueue with
  | [] => none
  | chunkId :: rest =>
    if chunkId ∈ s.copied then some { s with waitQueue := rest, waited := s.waited ++ [chunkId] } else none

end Threads

inductive Action where
  | post (ret : ℤ)
  | lastPage (ret : ℤ)
  | complete (c : Completion)
  | cuda (ret : ℤ)
  | wait
  deriving Repr, DecidableEq

def step (cfg : Config) (s : State) : Action → Option State
  | .post ret => postStep cfg ret s
  | .lastPage ret => lastPageStep cfg ret s
  | .complete c => complete c s
  | .cuda ret => cudaStep cfg ret s
  | .wait => waitStep s

/-- The threads of an opened loader. -/
def io (cfg : Config) : Machine State Action where
  init := ⟨0, .idle, none, List.replicate cfg.chunks.length 0, [], List.replicate cfg.geometry.ioDepth 0,
    [], none, none, [], [], [], [], .idle, none, [], [], [], []⟩
  step := step cfg

end Io
end Siphon
