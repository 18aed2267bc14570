/-
# The buffers of `read_files`

The loop of `read_files` hands jobs to the kernel while there are a free
buffer and room in the submission queue, waits, and reaps what has completed;
a buffer is free again when the completion of its read is reaped.

`io_uring` is outside the repository. Here it takes any number of the pushed
entries when the loop enters it, which may also fail, completes what it has in
any order and at any time, with any result, and each entry once. The job of an
entry, and what was submitted, reaped and failed, are records that the code
does not keep.

`expect` has the length of the job and the request carries it in 32 bits, so
that the two are the same just for jobs of less than 4 GiB.

Key definitions: `Setup`, `State`, `step`, `machine`, `Returns`, `Pooled`, `Expects`.
Key theorems: `reachable_inv`, `pool_protocol`, `returns_clean`.
-/
import Siphon.Lib.Machine
import Siphon.Lib.Slots
import Siphon.Stloader.Reader

namespace Siphon
namespace Stloader
namespace Pool

/-! ### The ring -/

/-- An entry of the submission queue: `user_data`, the file and what is read
of it. -/
structure Sqe where
  job : ℕ
  slot : ℕ
  file : ℕ
  offset : ℕ
  len : ℕ
  deriving DecidableEq, Repr

/-- An entry of the completion queue. -/
structure Cqe where
  job : ℕ
  slot : ℕ
  result : ℤ
  deriving DecidableEq, Repr

/-- `EINTR` -/
def eintr : ℕ := 4

/-! ### The loop -/

structure ReadStats where
  bytes : ℕ
  requests : ℕ
  shortReads : ℕ
  deriving DecidableEq, Repr

instance : Inhabited ReadStats := ⟨⟨0, 0, 0⟩⟩

/-- What the loop works on: at least one buffer, and a ring with room for an
entry. -/
structure Setup where
  jobs : List Job
  depth : ℕ
  entries : ℕ
  depth_pos : 0 < depth
  entries_pos : 0 < entries

/-- How `read_files` returns. -/
inductive Outcome where
  | ok (stats : ReadStats)
  | refused (e : PlanRefusal)
  | os (errno : ℕ)
  | panicked
  deriving DecidableEq, Repr

/-- Where the loop is. -/
inductive Pc where
  | fill
  /-- In front of `submit_and_wait`. -/
  | wait
  /-- In front of `completion`. -/
  | completion
  /-- With the completions that it found still to reap. -/
  | reap (found : ℕ)
  | done (o : Outcome)
  deriving DecidableEq, Repr

/-- The variables of the loop, the ring, and the records: what was submitted
and reaped, by the job, and the read whose error was returned. -/
structure State where
  pc : Pc
  free : List ℕ
  expect : List ℕ
  next : ℕ
  inflight : ℕ
  stats : ReadStats
  sq : List Sqe
  kernel : List Sqe
  cq : List Cqe
  submitted : List ℕ
  reaped : List ℕ
  failed : List (ℕ × ℕ)
  deriving DecidableEq, Repr

/-- The requests of the queues and the kernel, by job and buffer. -/
def flying (sq kernel : List Sqe) (cq : List Cqe) : List (ℕ × ℕ) :=
  (sq ++ kernel).map (fun q => (q.job, q.slot)) ++ cq.map fun q => (q.job, q.slot)

/-- The requests that are submitted and not reaped. -/
def State.inFlight (s : State) : List (ℕ × ℕ) := flying s.sq s.kernel s.cq

variable (c : Setup)

/-- Behind `Instant::now`; the last element of `free` is its head here. -/
def init : State where
  pc := .fill
  free := List.range c.depth
  expect := List.replicate c.depth 0
  next := 0
  inflight := 0
  stats := default
  sq := []
  kernel := []
  cq := []
  submitted := []
  reaped := []
  failed := []

/-- `SubmissionQueue::is_full` -/
def isFull (sq : List Sqe) : Bool := c.entries ≤ sq.length

/-- `SubmissionQueue::push` -/
def push (sq : List Sqe) (e : Sqe) : Option (List Sqe) := if isFull c sq then none else some (sq ++ [e])

/-- `opcode::Read` for a job -/
def entry (job slot : ℕ) (j : Job) : Sqe := ⟨job, slot, j.file, j.offset, asU32 j.len⟩

/-- Behind the loop that fills the queue. -/
def afterFill (s : State) : State := { s with pc := if s.inflight = 0 then .done (.ok s.stats) else .wait }

/-- One round of the loop that fills the queue. -/
def fill (s : State) : State :=
  match c.jobs[s.next]?, s.free with
  | some j, slot :: free =>
    if isFull c s.sq then afterFill s
    else if c.depth ≤ slot then { s with pc := .done .panicked }
    else
      match push c s.sq (entry s.next slot j) with
      | some sq =>
        { s with
          free, sq, expect := s.expect.set slot j.len, next := s.next + 1, inflight := s.inflight + 1,
          submitted := s.submitted ++ [s.next] }
      | none => afterFill { s with free := slot :: free }
  | _, _ => afterFill s

/-- `submit_and_wait` returns, with the first of the pushed entries taken. -/
def enter (s : State) (taken : ℕ) (ret : Except ℕ Unit) : State :=
  { s with
    pc := match ret with
      | .ok () => .completion
      | .error e => if e = eintr then .wait else .done (.os e)
    sq := s.sq.drop taken
    kernel := s.kernel ++ s.sq.take taken }

/-- One round of the loop over the completions. -/
def reap (s : State) : ℕ → State
  | 0 => { s with pc := .fill }
  | found + 1 =>
    match s.cq with
    | [] => { s with pc := .fill }
    | q :: cq =>
      if q.result < 0 then
        { s with pc := .done (.os q.result.natAbs), cq, failed := s.failed ++ [(q.job, q.slot)] }
      else
        match s.expect[q.slot]? with
        | none => { s with pc := .done .panicked }
        | some want =>
          if s.inflight = 0 then { s with pc := .done .panicked }
          else
            { s with
              pc := .reap found, cq, free := q.slot :: s.free, inflight := s.inflight - 1,
              stats :=
                { bytes := s.stats.bytes + q.result.toNat
                  requests := s.stats.requests + 1
                  shortReads := s.stats.shortReads + if q.result.toNat < want then 1 else 0 }
              reaped := s.reaped ++ [q.job] }

/-- What can happen next: a round of the loop, the return of
`submit_and_wait`, and a completion by the kernel. -/
inductive Action where
  | tick
  | enter (taken : ℕ) (ret : Except ℕ Unit)
  | complete (i : ℕ) (result : ℤ)

def step (s : State) : Action → Option State
  | .tick =>
    match s.pc with
    | .fill => some (fill c s)
    | .wait => none
    | .completion => some { s with pc := .reap s.cq.length }
    | .reap found => some (reap s found)
    | .done _ => none
  | .enter taken ret => if s.pc = .wait ∧ taken ≤ s.sq.length then some (enter s taken ret) else none
  | .complete i result =>
    match s.pc with
    | .done _ => none
    | _ => s.kernel[i]?.map fun q =>
      { s with kernel := s.kernel.eraseIdx i, cq := s.cq ++ [⟨q.job, q.slot, result⟩] }

def machine : Machine State Action where
  init := init c
  step := step c

/-- What `read_files` sets up for a plan; `IoUring::new` refuses a ring
without entries. -/
def setup (cfg : ReadConfig) (plan : List (ℕ × Range)) : Option Setup :=
  if h : 0 < asU32 (max (max cfg.depth 1).nextPowerOfTwo 2) then
    some ⟨jobs cfg plan, max cfg.depth 1, asU32 (max (max cfg.depth 1).nextPowerOfTwo 2), by omega, h⟩
  else none

/-- `read_files` on a number of files returns, or panics where its buffers have
no layout. Opening the files and setting up the ring may fail. -/
inductive Returns (files : ℕ) (cfg : ReadConfig) (plan : List (ℕ × Range)) : Outcome → Prop where
  | refused {e : PlanRefusal} : refusePlan files plan = some e → Returns files cfg plan (.refused e)
  | empty : refusePlan files plan = none → plan = [] → Returns files cfg plan (.ok default)
  | os (errno : ℕ) : refusePlan files plan = none → plan ≠ [] → Returns files cfg plan (.os errno)
  | layout : refusePlan files plan = none → plan ≠ [] → alignedBuf cfg.chunk cfg.block = false →
      Returns files cfg plan .panicked
  | ran {c : Setup} {s : State} {o : Outcome} : refusePlan files plan = none → plan ≠ [] →
      alignedBuf cfg.chunk cfg.block = true → setup cfg plan = some c → (machine c).Reachable s → s.pc = .done o → Returns files cfg plan o

/-! ### What is in flight -/

section Flying

variable {sq kernel : List Sqe} {cq : List Cqe}

theorem flying_push (e : Sqe) : (flying (sq ++ [e]) kernel cq).Perm ((e.job, e.slot) :: flying sq kernel cq) := by
  unfold flying
  rw [List.append_assoc, List.singleton_append, List.map_append, List.map_cons, List.map_append, List.append_assoc,
    List.append_assoc]
  exact List.perm_middle

theorem flying_enter (taken : ℕ) : (flying (sq.drop taken) (kernel ++ sq.take taken) cq).Perm (flying sq kernel cq) := by
  have hp : (sq.drop taken ++ (kernel ++ sq.take taken)).Perm (sq ++ kernel) :=
    calc List.Perm (sq.drop taken ++ (kernel ++ sq.take taken)) ((kernel ++ sq.take taken) ++ sq.drop taken) :=
          List.perm_append_comm
      List.Perm _ (kernel ++ sq) := by rw [List.append_assoc, List.take_append_drop]
      List.Perm _ (sq ++ kernel) := List.perm_append_comm
  exact (hp.map _).append_right _

theorem flying_complete {i : ℕ} {q : Sqe} (h : kernel[i]? = some q) (result : ℤ) :
    (flying sq (kernel.eraseIdx i) (cq ++ [⟨q.job, q.slot, result⟩])).Perm (flying sq kernel cq) := by
  obtain ⟨hi, rfl⟩ := List.getElem?_eq_some_iff.mp h
  have hp : (kernel[i] :: kernel.eraseIdx i).Perm kernel := List.getElem_cons_eraseIdx_perm hi
  unfold flying
  simp only [List.map_append, List.map_cons, List.map_nil, List.append_assoc]
  apply List.Perm.append_left
  calc List.Perm ((kernel.eraseIdx i).map (fun q => (q.job, q.slot)) ++
            (cq.map (fun q => (q.job, q.slot)) ++ [(kernel[i].job, kernel[i].slot)]))
          ((kernel.eraseIdx i).map (fun q => (q.job, q.slot)) ++
            ((kernel[i].job, kernel[i].slot) :: cq.map fun q => (q.job, q.slot))) :=
        (List.perm_append_singleton _ _).append_left _
    List.Perm _ ((kernel[i] :: kernel.eraseIdx i).map (fun q => (q.job, q.slot)) ++ cq.map fun q => (q.job, q.slot)) :=
        List.perm_middle
    List.Perm _ (kernel.map (fun q => (q.job, q.slot)) ++ cq.map fun q => (q.job, q.slot)) :=
        (hp.map _).append_right _

theorem flying_reap (q : Cqe) : (flying sq kernel (q :: cq)).Perm ((q.job, q.slot) :: flying sq kernel cq) := by
  unfold flying
  rw [List.map_cons]
  exact List.perm_middle

end Flying

/-! ### The invariant -/

variable {c} {s s' : State}

/-- What holds besides at a place of the loop. -/
def At (c : Setup) (s : State) : Pc → Prop
  | .wait => s.failed = [] ∧ 0 < s.inflight
  | .done (.ok stats) => s.failed = [] ∧ s.inflight = 0 ∧ s.next = c.jobs.length ∧ stats = s.stats
  | .done (.os _) => s.failed.length ≤ 1
  | .done _ => False
  | _ => s.failed = []

/-- The buffers are free or in flight, the jobs so far are reaped or in
flight, and the entries are those of their jobs. -/
structure Inv (c : Setup) (s : State) : Prop where
  slots : Slots.Sound c.depth s.free (s.inFlight ++ s.failed)
  ledger : Slots.Ledger s.next s.reaped (s.inFlight ++ s.failed)
  count : s.inflight = (s.inFlight ++ s.failed).length
  expect_length : s.expect.length = c.depth
  expects : ∀ p ∈ s.inFlight, ∃ j, c.jobs[p.1]? = some j ∧ s.expect[p.2]? = some j.len
  entries : ∀ q ∈ s.sq ++ s.kernel, ∃ j, c.jobs[q.job]? = some j ∧ q = entry q.job q.slot j
  submitted : s.submitted = List.range s.next
  requests : s.stats.requests = s.reaped.length
  next_le : s.next ≤ c.jobs.length
  place : At c s s.pc

theorem init_inv : Inv c (init c) where
  slots := Slots.Sound.init c.depth
  ledger := Slots.Ledger.init
  count := rfl
  expect_length := List.length_replicate
  expects _ hp := absurd hp List.not_mem_nil
  entries _ hq := absurd hq List.not_mem_nil
  submitted := rfl
  requests := rfl
  next_le := Nat.zero_le _
  place := rfl

theorem Inv.at_pc {pc : Pc} (h : Inv c s) (hpc : s.pc = pc) : At c s pc := hpc ▸ h.place

/-- The free buffers and the requests in flight are as many as the buffers. -/
theorem Inv.length (h : Inv c s) : s.free.length + s.inflight = c.depth := by
  rw [h.count]
  exact h.slots.length

/-- The loop that fills the queue ends. With nothing in flight the queue has
room and a buffer is free, so there is no job left. -/
theorem Inv.afterFill (h : Inv c s) (hf : s.failed = [])
    (hwhy : c.jobs.length ≤ s.next ∨ s.free = [] ∨ isFull c s.sq = true) : Inv c (afterFill s) := by
  refine { h with place := ?_ }
  show At c _ (if s.inflight = 0 then .done (.ok s.stats) else .wait)
  by_cases h0 : s.inflight = 0
  · rw [if_pos h0]
    refine ⟨hf, h0, ?_, rfl⟩
    have hdepth := c.depth_pos
    have hentries := c.entries_pos
    have hlen := h.length
    rcases hwhy with hjobs | hfree | hfull
    · exact Nat.le_antisymm h.next_le hjobs
    · rw [hfree, List.length_nil] at hlen
      omega
    · have hsq : s.sq.length ≤ s.inflight := by
        rw [h.count]
        simp only [State.inFlight, flying, List.length_append, List.length_map]
        omega
      have hle : c.entries ≤ s.sq.length := of_decide_eq_true hfull
      omega
  · rw [if_neg h0]
    exact ⟨hf, Nat.pos_of_ne_zero h0⟩

/-- A job is handed to the kernel with a free buffer. -/
theorem Inv.push (h : Inv c s) (hpc : s.pc = .fill) {j : Job} (hj : c.jobs[s.next]? = some j) {slot : ℕ}
    {free : List ℕ} (hfree : s.free = slot :: free) :
    Inv c { s with
      free, sq := s.sq ++ [entry s.next slot j], expect := s.expect.set slot j.len, next := s.next + 1,
      inflight := s.inflight + 1, submitted := s.submitted ++ [s.next] } := by
  have hf : s.failed = [] := h.at_pc hpc
  have hperm : (flying (s.sq ++ [entry s.next slot j]) s.kernel s.cq ++ s.failed).Perm
      ((s.next, slot) :: (s.inFlight ++ s.failed)) := (flying_push (entry s.next slot j)).append_right s.failed
  have hsound : Slots.Sound c.depth (slot :: free) (s.inFlight ++ s.failed) := hfree ▸ h.slots
  have hslot : slot < s.expect.length := h.expect_length.symm ▸ hsound.free_lt (List.mem_cons_self)
  have hnext : s.next < c.jobs.length := (List.getElem?_eq_some_iff.mp hj).1
  exact {
    slots := (hsound.take s.next).congr hperm
    ledger := (h.ledger.start slot).congr hperm
    count := by
      show s.inflight + 1 = (flying _ s.kernel s.cq ++ s.failed).length
      rw [hperm.length_eq, List.length_cons, h.count]
    expect_length := by
      rw [List.length_set]
      exact h.expect_length
    expects := by
      intro p hp
      rcases List.mem_cons.mp ((flying_push (entry s.next slot j)).subset hp) with rfl | hp
      · exact ⟨j, hj, List.getElem?_set_self hslot⟩
      · -- a buffer in flight is not the one that was free
        obtain ⟨j', hj', he⟩ := h.expects p hp
        have hne : p.2 ≠ slot := hsound.ne_of_free (List.mem_append_left _ hp)
        exact ⟨j', hj', (List.getElem?_set_ne hne.symm).trans he⟩
    entries := by
      intro q hq
      rw [List.append_assoc, List.mem_append, List.singleton_append, List.mem_cons] at hq
      rcases hq with hq | rfl | hq
      · exact h.entries q (List.mem_append_left _ hq)
      · exact ⟨j, hj, rfl⟩
      · exact h.entries q (List.mem_append_right _ hq)
    submitted := by
      rw [h.submitted, List.range_succ]
    requests := h.requests
    next_le := hnext
    place := by
      show At c _ s.pc
      rw [hpc]
      exact hf }

theorem Inv.fill (h : Inv c s) (hpc : s.pc = .fill) : Inv c (fill c s) := by
  have hf : s.failed = [] := h.at_pc hpc
  unfold Pool.fill
  split
  next j slot free hj hfree =>
    by_cases hfull : isFull c s.sq = true
    · rw [if_pos hfull]
      exact h.afterFill hf (.inr (.inr hfull))
    · rw [if_neg hfull]
      have hslot : slot < c.depth := by
        have hsound : Slots.Sound c.depth (slot :: free) (s.inFlight ++ s.failed) := hfree ▸ h.slots
        exact hsound.free_lt List.mem_cons_self
      have hpush : Pool.push c s.sq (entry s.next slot j) = some (s.sq ++ [entry s.next slot j]) := if_neg hfull
      rw [if_neg (not_le.mpr hslot), hpush]
      exact h.push hpc hj hfree
  next hno =>
    apply h.afterFill hf
    cases hj : c.jobs[s.next]? with
    | none => exact .inl (List.getElem?_eq_none_iff.mp hj)
    | some j =>
      cases hfree : s.free with
      | nil => exact .inr (.inl rfl)
      | cons slot free => exact absurd hfree (hno j slot free hj)

/-- What only moves requests between the queues and the kernel. -/
theorem Inv.move (h : Inv c s) {sq kernel : List Sqe} {cq : List Cqe} {pc : Pc}
    (hperm : (flying sq kernel cq).Perm s.inFlight) (hsub : ∀ q ∈ sq ++ kernel, q ∈ s.sq ++ s.kernel)
    (hplace : At c s pc) : Inv c { s with pc, sq, kernel, cq } where
  slots := h.slots.congr (hperm.append_right s.failed)
  ledger := h.ledger.congr (hperm.append_right s.failed)
  count := h.count.trans (hperm.append_right s.failed).length_eq.symm
  expect_length := h.expect_length
  expects p hp := h.expects p (hperm.subset hp)
  entries q hq := h.entries q (hsub q hq)
  submitted := h.submitted
  requests := h.requests
  next_le := h.next_le
  place := by
    show At c _ pc
    cases pc with
    | done o => cases o <;> exact hplace
    | _ => exact hplace

theorem Inv.enter (h : Inv c s) (hpc : s.pc = .wait) (taken : ℕ) (ret : Except ℕ Unit) :
    Inv c (enter s taken ret) := by
  obtain ⟨hf, hpos⟩ := h.at_pc hpc
  apply h.move (flying_enter taken)
  · intro q hq
    rcases List.mem_append.mp hq with hq | hq
    · exact List.mem_append_left _ (List.mem_of_mem_drop hq)
    · rcases List.mem_append.mp hq with hq | hq
      · exact List.mem_append_right _ hq
      · exact List.mem_append_left _ (List.mem_of_mem_take hq)
  · cases ret with
    | ok _ => exact hf
    | error e =>
      dsimp only
      split_ifs
      · exact ⟨hf, hpos⟩
      · show s.failed.length ≤ 1
        rw [hf]
        exact Nat.zero_le 1

theorem Inv.complete (h : Inv c s) {i : ℕ} {q : Sqe} (hq : s.kernel[i]? = some q) (result : ℤ) :
    Inv c { s with kernel := s.kernel.eraseIdx i, cq := s.cq ++ [⟨q.job, q.slot, result⟩] } := by
  apply h.move (flying_complete hq result)
  · intro q hq
    rcases List.mem_append.mp hq with hq | hq
    · exact List.mem_append_left _ hq
    · exact List.mem_append_right _ (List.mem_of_mem_eraseIdx hq)
  · exact h.place

/-- A place where nothing has failed. -/
theorem Inv.goto (h : Inv c s) (hf : s.failed = []) {pc : Pc} (hpc : pc = .fill ∨ ∃ found, pc = .reap found) :
    Inv c { s with pc } := by
  apply h.move (List.Perm.refl _) (fun _ hq => hq)
  rcases hpc with rfl | ⟨found, rfl⟩
  · exact hf
  · exact hf

section Reap

variable {q : Cqe} {cq : List Cqe}

/-- The first completion, of the requests in flight. -/
theorem inFlight_perm (hcq : s.cq = q :: cq) : s.inFlight.Perm ((q.job, q.slot) :: flying s.sq s.kernel cq) := by
  unfold State.inFlight
  rw [hcq]
  exact flying_reap q

theorem mem_inFlight (hcq : s.cq = q :: cq) {p : ℕ × ℕ} (hp : p ∈ flying s.sq s.kernel cq) : p ∈ s.inFlight :=
  (inFlight_perm hcq).symm.subset (List.mem_cons_of_mem _ hp)

/-- The error of a read is returned. -/
theorem Inv.readFailed (h : Inv c s) (hf : s.failed = []) (hcq : s.cq = q :: cq) :
    Inv c { s with pc := .done (.os q.result.natAbs), cq, failed := s.failed ++ [(q.job, q.slot)] } := by
  have hlast : (flying s.sq s.kernel cq ++ (s.failed ++ [(q.job, q.slot)])).Perm (s.inFlight ++ s.failed) := by
    rw [← List.append_assoc]
    exact (List.perm_append_singleton _ _).trans ((inFlight_perm hcq).append_right s.failed).symm
  exact {
    slots := h.slots.congr hlast
    ledger := h.ledger.congr hlast
    count := h.count.trans hlast.length_eq.symm
    expect_length := h.expect_length
    expects := fun p hp => h.expects p (mem_inFlight hcq hp)
    entries := h.entries
    submitted := h.submitted
    requests := h.requests
    next_le := h.next_le
    place := by
      show (s.failed ++ [(q.job, q.slot)]).length ≤ 1
      rw [hf]
      exact le_rfl }

/-- A completion is counted and its buffer is free again. -/
theorem Inv.counted (h : Inv c s) (hf : s.failed = []) (hcq : s.cq = q :: cq) (found : ℕ) (stats : ReadStats)
    (hstats : stats.requests = s.stats.requests + 1) :
    Inv c { s with
      pc := .reap found, cq, free := q.slot :: s.free, inflight := s.inflight - 1, stats,
      reaped := s.reaped ++ [q.job] } := by
  have hperm : (s.inFlight ++ s.failed).Perm ((q.job, q.slot) :: (flying s.sq s.kernel cq ++ s.failed)) :=
    (inFlight_perm hcq).append_right s.failed
  exact {
    slots := (h.slots.congr hperm.symm).put
    ledger := (h.ledger.congr hperm.symm).finish
    count := by
      show s.inflight - 1 = (flying s.sq s.kernel cq ++ s.failed).length
      rw [h.count, hperm.length_eq, List.length_cons, Nat.add_sub_cancel]
    expect_length := h.expect_length
    expects := fun p hp => h.expects p (mem_inFlight hcq hp)
    entries := h.entries
    submitted := h.submitted
    requests := by
      show stats.requests = (s.reaped ++ [q.job]).length
      rw [hstats, h.requests, List.length_append, List.length_singleton]
    next_le := h.next_le
    place := hf }

/-- What the loop over the completions does with the first one. -/
theorem Inv.reap_cons (h : Inv c s) (hf : s.failed = []) (hcq : s.cq = q :: cq) (found : ℕ) :
    (q.result < 0 ∧ reap s (found + 1) =
      { s with pc := .done (.os q.result.natAbs), cq, failed := s.failed ++ [(q.job, q.slot)] }) ∨
    (0 ≤ q.result ∧ ∃ stats : ReadStats, stats.requests = s.stats.requests + 1 ∧ reap s (found + 1) =
      { s with
        pc := .reap found, cq, free := q.slot :: s.free, inflight := s.inflight - 1, stats,
        reaped := s.reaped ++ [q.job] }) := by
  simp only [Pool.reap, hcq]
  by_cases hneg : q.result < 0
  · rw [if_pos hneg]
    exact .inl ⟨hneg, rfl⟩
  · have hmem : (q.job, q.slot) ∈ s.inFlight := (inFlight_perm hcq).symm.subset List.mem_cons_self
    obtain ⟨j, -, hwant⟩ := h.expects _ hmem
    have hwant : s.expect[q.slot]? = some j.len := hwant
    have hpos : s.inflight ≠ 0 := by
      rw [h.count, hf, List.append_nil, (inFlight_perm hcq).length_eq]
      exact Nat.succ_ne_zero _
    rw [if_neg hneg, hwant]
    dsimp only
    rw [if_neg hpos]
    exact .inr ⟨not_lt.mp hneg, _, rfl, rfl⟩

theorem Inv.reap (h : Inv c s) {found : ℕ} (hpc : s.pc = .reap found) : Inv c (reap s found) := by
  have hf : s.failed = [] := h.at_pc hpc
  cases found with
  | zero => exact h.goto hf (.inl rfl)
  | succ found =>
    cases hcq : s.cq with
    | nil =>
      have he : Pool.reap s (found + 1) = { s with pc := .fill } := by simp only [Pool.reap, hcq]
      exact he ▸ h.goto hf (.inl rfl)
    | cons q cq =>
      rcases h.reap_cons hf hcq found with ⟨-, he⟩ | ⟨-, stats, hstats, he⟩
      · exact he ▸ h.readFailed hf hcq
      · exact he ▸ h.counted hf hcq found stats hstats

end Reap

theorem Inv.step {a : Action} (h : Inv c s) (hs : step c s a = some s') : Inv c s' := by
  cases a with
  | tick =>
    unfold Pool.step at hs
    cases hpc : s.pc with
    | fill =>
      rw [hpc] at hs
      exact Option.some.inj hs ▸ h.fill hpc
    | wait =>
      rw [hpc] at hs
      cases hs
    | completion =>
      rw [hpc] at hs
      have hf : s.failed = [] := h.at_pc hpc
      exact Option.some.inj hs ▸ h.goto hf (.inr ⟨s.cq.length, rfl⟩)
    | reap found =>
      rw [hpc] at hs
      exact Option.some.inj hs ▸ h.reap hpc
    | done o =>
      rw [hpc] at hs
      cases hs
  | enter taken ret =>
    unfold Pool.step at hs
    dsimp only at hs
    split_ifs at hs with hwait
    exact Option.some.inj hs ▸ h.enter hwait.1 taken ret
  | complete i result =>
    have hmap : ∃ q, s.kernel[i]? = some q ∧
        { s with kernel := s.kernel.eraseIdx i, cq := s.cq ++ [⟨q.job, q.slot, result⟩] } = s' := by
      unfold Pool.step at hs
      dsimp only at hs
      split at hs
      · cases hs
      · exact Option.map_eq_some_iff.mp hs
    obtain ⟨q, hq, rfl⟩ := hmap
    exact h.complete hq result

theorem reachable_inv (h : (machine c).Reachable s) : Inv c s :=
  h.invariant init_inv fun _ _ _ hi hs => hi.step hs

/-! ### The protocol -/

/-- The loop has not returned an error. -/
def State.Running (s : State) : Prop := ∀ o, s.pc = .done o → ∃ stats, o = .ok stats

theorem Inv.failed_eq (h : Inv c s) (hr : s.Running) : s.failed = [] := by
  cases hpc : s.pc with
  | done o =>
    obtain ⟨stats, rfl⟩ := hr o hpc
    exact (h.at_pc hpc).1
  | wait => exact (h.at_pc hpc).1
  | _ => exact h.at_pc hpc

theorem Inv.inFlight_eq_nil (h : Inv c s) (h0 : s.inflight = 0) : s.inFlight = [] := by
  have hlen := h.count
  rw [h0] at hlen
  exact (List.append_eq_nil_iff.mp (List.length_eq_zero_iff.mp hlen.symm)).1

/-- At the return of `Ok` nothing is in flight and no job is left. -/
theorem Inv.returned (h : Inv c s) {stats : ReadStats} (hpc : s.pc = .done (.ok stats)) :
    s.inFlight = [] ∧ s.submitted = List.range c.jobs.length ∧ s.reaped.Perm (List.range c.jobs.length) ∧
      stats.requests = c.jobs.length := by
  obtain ⟨hf, h0, hnext, rfl⟩ := h.at_pc hpc
  have hnil := h.inFlight_eq_nil h0
  have hledger := h.ledger
  rw [hnil, hf, List.append_nil, hnext] at hledger
  have hperm := hledger.ended_perm
  refine ⟨hnil, hnext ▸ h.submitted, hperm, ?_⟩
  rw [h.requests, hperm.length_eq, List.length_range]

/-- `read_files` counts as many requests as it has jobs. -/
theorem readFiles_requests {files : ℕ} {cfg : ReadConfig} {plan : List (ℕ × Range)} {stats : ReadStats}
    (h : Returns files cfg plan (.ok stats)) : stats.requests = (jobs cfg plan).length := by
  cases h with
  | empty _ hnil =>
    rw [hnil]
    rfl
  | ran _ _ _ hc hr hpc =>
    have hrequests := ((reachable_inv hr).returned hpc).2.2.2
    unfold setup at hc
    split_ifs at hc
    rw [hrequests, ← Option.some.inj hc]

/-- What holds of the buffers in a state of the loop. -/
structure Pooled (c : Setup) (s : State) : Prop where
  nodup : s.free.Nodup
  /-- The free buffers and those of the requests in flight are all buffers. -/
  partition : s.Running → (s.free ++ s.inFlight.map Prod.snd).Perm (List.range c.depth)
  inflight : s.inflight = c.depth - s.free.length
  /-- `expect` has the length of the job. -/
  expects : ∀ p ∈ s.inFlight, ∃ j, c.jobs[p.1]? = some j ∧ s.expect[p.2]? = some j.len
  entries : ∀ q ∈ s.sq ++ s.kernel, ∃ j, c.jobs[q.job]? = some j ∧ q = entry q.job q.slot j
  /-- `Ok` is returned when every job was submitted once, in order, and reaped once. -/
  returned : ∀ stats, s.pc = .done (.ok stats) →
    s.submitted = List.range c.jobs.length ∧ s.reaped.Perm (List.range c.jobs.length) ∧
      stats.requests = c.jobs.length

/-- `expect` has the length of the request that occupies the buffer. -/
def Expects (c : Setup) (s : State) : Prop :=
  ∀ p ∈ s.inFlight, s.expect[p.2]? = c.jobs[p.1]?.map fun j => (entry p.1 p.2 j).len

theorem Inv.pooled (hi : Inv c s) : Pooled c s where
  nodup := hi.slots.nodup_free
  partition hr := by
    have hsound := hi.slots
    rw [hi.failed_eq hr, List.append_nil] at hsound
    exact hsound
  inflight := by rw [← hi.length, Nat.add_sub_cancel_left]
  expects := hi.expects
  entries := hi.entries
  returned stats hpc := (hi.returned hpc).2

theorem asU32_eq_iff {n : ℕ} : n = asU32 n ↔ n < 2 ^ 32 := by
  unfold asU32
  omega

/-- The request of a job has its length just if 32 bits hold it. -/
theorem Inv.expects_iff (hi : Inv c s) :
    Expects c s ↔ ∀ p ∈ s.inFlight, ∀ j, c.jobs[p.1]? = some j → j.len < 2 ^ 32 := by
  have hone : ∀ p ∈ s.inFlight, (s.expect[p.2]? = c.jobs[p.1]?.map fun j => (entry p.1 p.2 j).len) ↔
      ∀ j, c.jobs[p.1]? = some j → j.len < 2 ^ 32 := by
    intro p hp
    obtain ⟨j, hj, he⟩ := hi.expects p hp
    rw [hj, he, Option.map_some, Option.some.injEq, entry, asU32_eq_iff]
    simp
  exact forall₂_congr hone

/-- **The buffers of `read_files`.** In every state that the loop reaches, the
free buffers and those of the requests in flight are all buffers, each once,
`inflight` says how many are not free, and what `Ok` says has happened. When
every job has less than 4 GiB, `expect` has the lengths of the requests in
every state, and in any state just if the jobs in flight have less. -/
theorem pool_protocol (c : Setup) {s : State} (h : (machine c).Reachable s) :
    Pooled c s ∧ ((∀ j ∈ c.jobs, j.len < 2 ^ 32) → Expects c s) ∧
    (Expects c s ↔ ∀ p ∈ s.inFlight, ∀ j, c.jobs[p.1]? = some j → j.len < 2 ^ 32) := by
  have hi := reachable_inv h
  refine ⟨hi.pooled, fun hjobs => hi.expects_iff.mpr fun p _ j hj => ?_, hi.expects_iff⟩
  exact hjobs j (List.mem_of_getElem? hj)

/-- Two blocks with two buffers. -/
def twoBlocks : Setup where
  jobs := [⟨0, 0, 4096⟩, ⟨0, 4096, 4096⟩]
  depth := 2
  entries := 2
  depth_pos := Nat.two_pos
  entries_pos := Nat.two_pos

/-- The kernel is entered twice, after a signal, and completes the second read
first; the first one is short. -/
def lateRun : List Action :=
  [.tick, .tick, .tick, .enter 1 (.error eintr), .enter 1 (.ok ()), .complete 1 4096, .tick, .tick, .tick, .tick,
    .enter 0 (.ok ()), .complete 0 100, .tick, .tick, .tick, .tick]

theorem pool_protocol_twoBlocks : ∃ s, (machine twoBlocks).Reachable s ∧
    s.pc = .done (.ok { bytes := 4196, requests := 2, shortReads := 1 }) ∧ s.submitted = [0, 1] ∧ s.reaped = [1, 0] ∧
      s.free.Nodup ∧ s.inflight = 2 - s.free.length ∧ Expects twoBlocks s := by
  obtain ⟨s, hr, hp⟩ := (machine twoBlocks).exists_reachable lateRun
    (fun s => s.pc = .done (.ok { bytes := 4196, requests := 2, shortReads := 1 }) ∧ s.reaped = [1, 0])
    (by decide +kernel)
  obtain ⟨hpc, hreaped⟩ := of_decide_eq_true hp
  obtain ⟨hpooled, hexpects, -⟩ := pool_protocol twoBlocks hr
  exact ⟨s, hr, hpc, (hpooled.returned _ hpc).1, hreaped, hpooled.nodup, hpooled.inflight, hexpects (by decide)⟩

/-- One read of 4 GiB. -/
def fourGiB : Setup where
  jobs := [⟨0, 0, 2 ^ 32⟩]
  depth := 1
  entries := 2
  depth_pos := Nat.one_pos
  entries_pos := Nat.two_pos

/-- The request is for no byte, and `2 ^ 32` are expected. -/
theorem expect_not_request : ¬ ∀ (c : Setup) (s : State), (machine c).Reachable s → Expects c s := by
  intro h
  obtain ⟨s, hr, hp⟩ := (machine fourGiB).exists_reachable [.tick]
    (fun s => s.inFlight = [(0, 0)] ∧ s.expect = [2 ^ 32]) (by decide +kernel)
  obtain ⟨hflight, hexpect⟩ := of_decide_eq_true hp
  have hlen := h fourGiB s hr (0, 0) (by simp [hflight])
  rw [hexpect] at hlen
  revert hlen
  decide

/-! ### Returns with reads in flight -/

/-- The step does not return with another request in flight: the ring does not
fail, and a read that fails is the only one in flight. -/
def clean (s : State) : Action → Bool
  | .enter _ (.error e) => e = eintr
  | .tick =>
    match s.pc, s.cq with
    | .reap (_ + 1), q :: _ => 0 ≤ q.result ∨ s.inflight = 1
    | _, _ => true
  | _ => true

/-- The loop that fills the queue returns nothing but `Ok`. -/
theorem fill_pc_ne (hpc : s.pc = .fill) (e : ℕ) : (fill c s).pc ≠ .done (.os e) := by
  have hafter : ∀ s : State, (afterFill s).pc ≠ .done (.os e) := by
    intro s
    show (if s.inflight = 0 then Pc.done (.ok s.stats) else .wait) ≠ _
    split_ifs
    · exact fun h => Outcome.noConfusion (Pc.done.inj h)
    · exact Pc.noConfusion
  unfold fill
  split
  · split_ifs
    · exact hafter s
    · exact fun h => Outcome.noConfusion (Pc.done.inj h)
    · split
      · show s.pc ≠ _
        rw [hpc]
        exact Pc.noConfusion
      · exact hafter _
  · exact hafter s

/-- The loop that fills the queue returns with nothing in flight. -/
theorem Inv.fill_returns {o : Outcome} (h : Inv c (Pool.fill c s)) (hpc : s.pc = .fill)
    (hdone : (Pool.fill c s).pc = .done o) : (Pool.fill c s).inFlight = [] := by
  have hplace := h.at_pc hdone
  cases o with
  | ok stats => exact (h.returned hdone).1
  | os e => exact absurd hdone (fill_pc_ne hpc e)
  | refused e => exact hplace.elim
  | panicked => exact hplace.elim

/-- The loop over the completions returns when a read failed, and leaves what
else was in flight. -/
theorem Inv.reap_returns {o : Outcome} {found : ℕ} (h : Inv c s) (hpc : s.pc = .reap found)
    (hdone : (Pool.reap s found).pc = .done o) :
    ((Pool.reap s found).inFlight = [] ↔ clean s .tick = true) := by
  have hf : s.failed = [] := h.at_pc hpc
  cases found with
  | zero => cases hdone
  | succ found =>
    cases hcq : s.cq with
    | nil =>
      simp only [Pool.reap, hcq] at hdone
      cases hdone
    | cons q cq =>
      have hlen : s.inflight = (flying s.sq s.kernel cq).length + 1 := by
        rw [h.count, hf, List.append_nil, (inFlight_perm hcq).length_eq, List.length_cons]
      have hclean : clean s .tick = true ↔ 0 ≤ q.result ∨ s.inflight = 1 := by simp [clean, hpc, hcq]
      rcases h.reap_cons hf hcq found with ⟨hneg, he⟩ | ⟨-, stats, -, he⟩
      · rw [he, hclean]
        show flying s.sq s.kernel cq = [] ↔ _
        rw [← List.length_eq_zero_iff]
        omega
      · rw [he] at hdone
        cases hdone

/-- The ring is entered for the requests in flight, and a ring that fails
leaves them there. -/
theorem Inv.enter_returns {o : Outcome} {taken : ℕ} {ret : Except ℕ Unit} (h : Inv c s) (hpc : s.pc = .wait)
    (hdone : (Pool.enter s taken ret).pc = .done o) :
    ((Pool.enter s taken ret).inFlight = [] ↔ clean s (.enter taken ret) = true) := by
  obtain ⟨hf, hpos⟩ := h.at_pc hpc
  have hne : (Pool.enter s taken ret).inFlight ≠ [] := by
    have hlen := h.count
    rw [hf, List.append_nil] at hlen
    have hperm : (Pool.enter s taken ret).inFlight.Perm s.inFlight := flying_enter taken
    apply List.ne_nil_of_length_pos
    rw [hperm.length_eq]
    omega
  cases ret with
  | ok _ => cases hdone
  | error e =>
    have hdone : (if e = eintr then Pc.wait else .done (.os e)) = .done o := hdone
    split_ifs at hdone with he
    exact iff_of_false hne (by simpa [clean] using he)

/-- A step that returns leaves nothing in flight exactly if it is clean. -/
theorem Inv.inFlight_eq_nil_iff {a : Action} {o : Outcome} (h : Inv c s) (hs : Pool.step c s a = some s')
    (hpc' : s'.pc = .done o) : s'.inFlight = [] ↔ clean s a = true := by
  have h' := h.step hs
  unfold Pool.step at hs
  cases a with
  | tick =>
    cases hpc : s.pc with
    | fill =>
      rw [hpc] at hs
      obtain rfl := Option.some.inj hs
      exact iff_of_true (h'.fill_returns hpc hpc') (by simp [clean, hpc])
    | wait =>
      rw [hpc] at hs
      cases hs
    | completion =>
      rw [hpc] at hs
      rw [← Option.some.inj hs] at hpc'
      cases hpc'
    | reap found =>
      rw [hpc] at hs
      obtain rfl := Option.some.inj hs
      exact h.reap_returns hpc hpc'
    | done o =>
      rw [hpc] at hs
      cases hs
  | enter taken ret =>
    dsimp only at hs
    split_ifs at hs with hwait
    obtain rfl := Option.some.inj hs
    exact h.enter_returns hwait.1 hpc'
  | complete i result =>
    dsimp only at hs
    split at hs
    · cases hs
    next hno =>
      obtain ⟨q, -, rfl⟩ := Option.map_eq_some_iff.mp hs
      exact absurd hpc' (hno o)

/-- **What `read_files` leaves in flight.** In a run of clean steps nothing is
in flight at a return, and each step that returns and is not clean leaves
requests in flight. -/
theorem returns_clean (c : Setup) :
    (∀ s, ((machine c).restrict clean).Reachable s → ∀ o, s.pc = .done o → s.inFlight = []) ∧
    ∀ s a s', (machine c).Reachable s → (machine c).step s a = some s' → ∀ o, s'.pc = .done o →
      (s'.inFlight = [] ↔ clean s a = true) := by
  constructor
  · intro s h
    have hall : (machine c).Reachable s ∧ ∀ o, s.pc = .done o → s.inFlight = [] := by
      apply h.invariant
      · exact ⟨.init, fun o hpc => absurd hpc Pc.noConfusion⟩
      · intro s a s' hi hs
        obtain ⟨hclean, hs⟩ := Machine.restrict_step.mp hs
        exact ⟨hi.1.step hs, fun o hpc => ((reachable_inv hi.1).inFlight_eq_nil_iff hs hpc).mpr hclean⟩
    exact hall.2
  · intro s a s' h hs o hpc
    exact (reachable_inv h).inFlight_eq_nil_iff hs hpc

/-- The run with a late completion is clean. -/
theorem returns_clean_twoBlocks : ∃ s, ((machine twoBlocks).restrict clean).Reachable s ∧
    s.pc = .done (.ok { bytes := 4196, requests := 2, shortReads := 1 }) ∧ s.inFlight = [] := by
  obtain ⟨s, hr, hp⟩ := ((machine twoBlocks).restrict clean).exists_reachable lateRun
    (fun s => s.pc = .done (.ok { bytes := 4196, requests := 2, shortReads := 1 })) (by decide +kernel)
  have hpc := of_decide_eq_true hp
  exact ⟨s, hr, hpc, (returns_clean twoBlocks).1 s hr _ hpc⟩

/-- The first read fails while the kernel has the second. -/
theorem returns_in_flight : ¬ ∀ (c : Setup) (s : State), (machine c).Reachable s → ∀ o, s.pc = .done o →
    s.inFlight = [] := by
  intro h
  obtain ⟨s, hr, hp⟩ := (machine twoBlocks).exists_reachable
    [.tick, .tick, .tick, .enter 2 (.ok ()), .complete 0 (-5), .tick, .tick]
    (fun s => s.pc = .done (.os 5) ∧ s.inFlight ≠ []) (by decide +kernel)
  obtain ⟨hpc, hne⟩ := of_decide_eq_true hp
  exact hne (h twoBlocks s hr _ hpc)

end Pool
end Stloader
end Siphon
