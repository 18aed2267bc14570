/-
# The parameters a rank opens its files with

`safe_open.__init__` (`siphon/_impl.py`) picks a backend, a chunk size, an I/O
depth and a buffer size. What all ranks have in common (the files and their
tensors, the arguments, the environment and the world size) is `Shared`; what
each rank finds out for itself is `Observed`. The ranks meet once, in the
all-reduce that takes the least of their memory budgets: `prepare` is what
comes before, `complete` what comes after. A rank that fails before it keeps
the others waiting there, so then none of them finishes (`Finishes`).

Two products with a floating-point number are functions of `Shared`: the part
of the free memory that may be used, and the share of the tensor bytes that
should overlap with their use.
-/
import Mathlib.Algebra.Order.Ring.Rat
import Siphon.Types
import Siphon.Lib.Fallible

namespace Siphon
namespace Frontend

open Fallible

inductive Backend where
  | aio
  | aioBuffered
  | uring
  | uringBuffered
  | cufile
  | mmap
  deriving DecidableEq, Repr

def defaultBackend : List Backend := [.uring, .aio]
def defaultBufferedIoBackend : List Backend := [.uringBuffered, .aioBuffered, .mmap]
def defaultInMemoryBackend : List Backend := [.mmap]
def availableInMemoryBackends : List Backend := [.mmap, .uringBuffered, .aioBuffered]

/-- A backend, or the policy `BUFFERED`. -/
inductive Candidate where
  | backend (b : Backend)
  | buffered
  deriving DecidableEq, Repr

/-- `_OpenConfig`: the arguments, with the environment behind them. -/
structure OpenConfig where
  bufferSize : Option ℤ
  chunkSize : Option ℤ
  concurrency : Option ℤ
  ioDepth : Option ℤ
  backend : Option (List Candidate)

/-- What the ranks have in common. -/
structure Shared where
  /-- Whether each file is in memory. -/
  files : List Bool
  config : OpenConfig
  /-- `SIPHON_CACHE_RESIDENT_THRESHOLD`. -/
  threshold : ℚ
  worldSize : ℕ
  pageSize : ℕ
  tensorSizes : List ℕ
  /-- The free bytes times `max_free_mem_usage`, as an integer. -/
  usable : ℕ → ℤ
  /-- The bytes of the tensors times the overlap factor. -/
  overlapShare : ℕ → ℚ
  worldSize_pos : 0 < worldSize
  pageSize_pos : 0 < pageSize

/-- What one rank finds out. -/
structure Observed where
  freeBytes : ℕ
  /-- `os.cpu_count()`. -/
  cpuCount : Option ℕ
  /-- `storage_is_rotational` of each file. -/
  rotational : List Bool
  /-- `page_cache_resident_ratio` of each file, if it is known. -/
  residentRatio : List (Option ℚ)
  /-- Whether `backend_status` says that a backend is available. -/
  available : Backend → Bool

inductive OpenError where
  | emptyBackend
  | mixedFilesystems
  | noBackend
  | chunkSizePositive
  | concurrencyPositive
  | ioDepthPositive
  | ioDepthMax
  | bufferSizePositive
  | bufferTooSmall (bufferSize ioDepth requiredBufferSize : ℕ)
  | bufferTooSmallForOne (bufferSize perIoDepth : ℕ)
  | budgetTooSmall (budget : ℤ) (perIoDepth : ℕ)
  | noRecommendedSize
  | noTensors
  | exceedsBudget (bufferSize : ℕ) (budget : ℤ)
  deriving DecidableEq

/-! ### The backend -/

/-- `parse_backend_candidates`. -/
def parseBackendCandidates : Option (List Candidate) → Except OpenError (Option (List Backend))
  | none => .ok none
  | some [] => .error .emptyBackend
  | some cs => .ok (some (cs.flatMap fun
    | .backend b => [b]
    | .buffered => defaultBufferedIoBackend))

/-- `select_backend`. -/
def selectBackend (o : Observed) (candidates : List Backend) (supported : Option (List Backend)) :
    Except OpenError Backend :=
  orElse .noBackend (candidates.find? fun b => (supported.elim true fun bs => b ∈ bs) && o.available b)

/-- `choose_disk_backend_candidates`. -/
def chooseDiskBackendCandidates (s : Shared) (o : Observed) : List Backend :=
  if 1 < s.threshold then defaultBackend
  else if o.residentRatio = [] ∨ none ∈ o.residentRatio then defaultBackend
  else if ∀ r ∈ o.residentRatio.reduceOption, s.threshold ≤ r then defaultBufferedIoBackend
  else defaultBackend

/-- Whether the files are in memory. -/
def inMemory (s : Shared) : Bool := s.files.headD false

/-- The backend a rank uses. -/
def pickBackend (s : Shared) (o : Observed) : Except OpenError Backend := do
  let candidates ← parseBackendCandidates s.config.backend
  if s.files.any (· ≠ inMemory s) then .error .mixedFilesystems
  else if inMemory s then
    selectBackend o (candidates.getD defaultInMemoryBackend) (some availableInMemoryBackends)
  else selectBackend o (candidates.getD (chooseDiskBackendCandidates s o)) none

/-! ### Chunk size, concurrency and depth -/

/-- The workers a rank's CPUs allow. -/
def cpuConcurrency (s : Shared) (o : Observed) : ℤ :=
  let cpus := match o.cpuCount with
    | none => 1
    | some 0 => 1
    | some n => n
  (max (min 32 cpus / s.worldSize) 1 : ℕ)

/-- `DEFAULT_ROTATIONAL_IO_DEPTH`. -/
def defaultRotationalIoDepth : ℤ := 16

structure IoParams where
  chunkSize : ℤ
  concurrency : ℤ
  ioDepth : ℤ

/-- The defaults for a backend, where the arguments leave them open. -/
def defaultParams (s : Shared) (o : Observed) (backend : Backend) : IoParams :=
  let c := s.config
  if inMemory s then
    let chunkSize := c.chunkSize.getD (2 * 1024 * 1024)
    if backend = .mmap then
      let concurrency := c.concurrency.getD (cpuConcurrency s o)
      ⟨chunkSize, concurrency, c.ioDepth.getD (3 * concurrency)⟩
    else ⟨chunkSize, c.concurrency.getD 1, c.ioDepth.getD (3 * cpuConcurrency s o)⟩
  else if backend = .cufile then
    let concurrency := c.concurrency.getD ((max (32 / s.worldSize) 1 : ℕ) : ℤ)
    ⟨c.chunkSize.getD (8 * 1024 * 1024), concurrency, c.ioDepth.getD (16 * concurrency)⟩
  else if backend = .mmap then
    let concurrency := c.concurrency.getD (cpuConcurrency s o)
    ⟨c.chunkSize.getD (2 * 1024 * 1024), concurrency, c.ioDepth.getD (3 * concurrency)⟩
  else
    let ioDepth : ℤ := (max (512 / s.worldSize) 3 : ℕ)
    ⟨c.chunkSize.getD (8 * 1024 * 1024), c.concurrency.getD 1,
      c.ioDepth.getD (if o.rotational.any id then min ioDepth defaultRotationalIoDepth else ioDepth)⟩

/-- What `_determine_io_params` checks of them. -/
def checkParams (p : IoParams) : Except OpenError Unit :=
  if p.chunkSize ≤ 0 then .error .chunkSizePositive
  else if p.concurrency ≤ 0 then .error .concurrencyPositive
  else if p.ioDepth ≤ 0 then .error .ioDepthPositive
  else if maxIoDepth < p.ioDepth then .error .ioDepthMax
  else .ok ()

/-- `required_buffer_size_for_io` with the sizes of the group. -/
def windowSize (s : Shared) (chunkSize ioDepth : ℕ) : ℕ :=
  requiredBufferSizeForIo s.pageSize chunkSize ioDepth s.worldSize

/-- The depth that fits a buffer size, if one was asked for. -/
def fitBuffer (s : Shared) (chunkSize ioDepth : ℕ) : Except OpenError ℕ :=
  match s.config.bufferSize with
  | none => .ok ioDepth
  | some bufferSize =>
    if bufferSize ≤ 0 then .error .bufferSizePositive
    else
      let perIoDepth := windowSize s chunkSize 1
      let maxIoDepthForBuffer := bufferSize.toNat / perIoDepth
      if s.config.ioDepth.isSome then
        if bufferSize.toNat < perIoDepth * ioDepth then
          .error (.bufferTooSmall bufferSize.toNat ioDepth (perIoDepth * ioDepth))
        else .ok ioDepth
      else if maxIoDepthForBuffer < 1 then .error (.bufferTooSmallForOne bufferSize.toNat perIoDepth)
      else .ok (if maxIoDepthForBuffer < ioDepth then maxIoDepthForBuffer else ioDepth)

/-- What a rank has decided when it enters the all-reduce. -/
structure Prepared where
  chunkSize : ℕ
  ioDepth : ℕ
  availBytes : ℤ

/-- `_determine_io_params`, up to the all-reduce. -/
def prepare (s : Shared) (o : Observed) : Except OpenError Prepared := do
  let backend ← pickBackend s o
  let p := defaultParams s o backend
  checkParams p
  let ioDepth ← fitBuffer s p.chunkSize.toNat p.ioDepth.toNat
  .ok ⟨p.chunkSize.toNat, ioDepth, s.usable o.freeBytes⟩

/-! ### The buffer size -/

/-- `overlapped_size_of_buffer_size[key] += size`, in the order of the keys. -/
def addOverlapped (key size : ℕ) : List (ℕ × ℕ) → List (ℕ × ℕ)
  | [] => [(key, size)]
  | (k, n) :: rest =>
    if key < k then (key, size) :: (k, n) :: rest
    else if key = k then (k, n + size) :: rest
    else (k, n) :: addOverlapped key size rest

/-- The loop over neighbours. -/
def overlapped : List ℕ → List (ℕ × ℕ) → List (ℕ × ℕ)
  | a :: b :: rest, m => overlapped (b :: rest) (addOverlapped (a + 2 * b) b m)
  | _, m => m

/-- The loop over the buffer sizes. -/
def firstCovering (target : ℚ) : ℕ → List (ℕ × ℕ) → Option ℕ
  | _, [] => none
  | total, (k, n) :: rest => if target ≤ (total + n : ℕ) then some k else firstCovering target (total + n) rest

/-- `recommended_buffer_size_for_tensors`. -/
def recommendedBufferSizeForTensors (s : Shared) : Except OpenError ℕ :=
  match s.tensorSizes with
  | [] => .ok 4096
  | a :: rest =>
    let m := overlapped (a :: rest) [(a, a)]
    orElse .noRecommendedSize
      ((firstCovering (s.overlapShare (m.map (·.2)).sum) 0 m).map fun k => max k (rest.foldl max a))

/-- `_finalize_buffer_size`, without the check of the budget. -/
def finalizeBufferSize (s : Shared) (chunkSize ioDepth : ℕ) : Except OpenError ℕ :=
  match s.config.bufferSize with
  | none => do
    let forTensors ← recommendedBufferSizeForTensors s
    .ok (max forTensors (windowSize s chunkSize ioDepth))
  | some bufferSize => do
    let minBufferSize ← orElse .noTensors s.tensorSizes.max?
    let bufferSize := if bufferSize.toNat < minBufferSize then minBufferSize else bufferSize.toNat
    let maxBufferSize := max s.tensorSizes.sum (windowSize s chunkSize ioDepth)
    .ok (if maxBufferSize < bufferSize then maxBufferSize else bufferSize)

/-- What a rank holds when `__init__` is done. -/
structure Opened where
  chunkSize : ℕ
  ioDepth : ℕ
  bufferSize : ℕ
  deriving DecidableEq

/-- `_determine_io_params` from the all-reduce on, and `_finalize_buffer_size`. -/
def complete (s : Shared) (budget : ℤ) (p : Prepared) : Except OpenError Opened := do
  let perIoDepth := windowSize s p.chunkSize 1
  let maxIoDepthForMemory := budget / perIoDepth
  if maxIoDepthForMemory < 1 then .error (.budgetTooSmall budget perIoDepth)
  else do
    let ioDepth := if maxIoDepthForMemory < p.ioDepth then maxIoDepthForMemory.toNat else p.ioDepth
    let bufferSize ← finalizeBufferSize s p.chunkSize ioDepth
    if budget < bufferSize then .error (.exceedsBudget bufferSize budget)
    else .ok ⟨p.chunkSize, ioDepth, bufferSize⟩

/-! ### The group -/

/-- The least of the budgets, which the all-reduce gives to every rank. -/
def leastBudget : List Prepared → ℤ
  | [] => 0
  | p :: ps => ps.foldl (fun b q => min b q.availBytes) p.availBytes

/-- Rank `i` of a group finishes with `r`: all ranks have come to the
all-reduce, and it did not fail behind it. -/
def Finishes (s : Shared) (ranks : List Observed) (i : ℕ) (r : Opened) : Prop :=
  ∃ ps p, ranks.mapM (prepare s) = .ok ps ∧ ps[i]? = some p ∧ complete s (leastBudget ps) p = .ok r

end Frontend
end Siphon
