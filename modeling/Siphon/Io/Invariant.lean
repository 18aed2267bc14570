/-
# Every completion is counted once, by its own chunk

The read of a chunk is prepared, waits to be submitted (with the loader
thread or the last-page thread), is in the kernel, in the completion queue,
in the hands of the cuda thread, and at last counted (`Inv.census`). The
count of a chunk is set before its read is submitted, so that it and the
counted completions of the chunk add up to `submit_cnt` (`Inv.counter`). A
`cuda_func` that waits therefore waits for a read that is still on its way,
and one that copies has seen its own read.

The AIO threads submit what is in the slot of the window, so the slot must
not be prepared again before. The loader thread waits for the chunk
`io_depth` before; this and all before it were copied, since the cuda thread
is FIFO (`Inv.clear`), hence counted, hence submitted.
-/
import Mathlib.Data.List.Range
import Siphon.Io.Model
import Siphon.Lib.Census

namespace Siphon
namespace Io

open Census

/-! ### Places of a read -/

/-- The chunks whose read is prepared. -/
def State.prepared (s : State) : ℕ :=
  match s.post with
  | .window | .prepare => s.current
  | _ => s.posted

/-- The chunks whose `unfinished_cnt` is set. -/
def State.counted (s : State) : ℕ :=
  match s.post with
  | .window | .prepare | .count => s.current
  | _ => s.posted

/-- The chunks whose window was waited for. -/
def State.windowed (s : State) : ℕ :=
  match s.post with
  | .window => s.current
  | _ => s.posted

/-- The chunks whose `cuda_func` was submitted. -/
def State.tasks (s : State) : ℕ :=
  match s.post with
  | .idle | .submitWait => s.posted
  | _ => s.current

/-- The read that the loader thread has prepared and not submitted. -/
def posting (cfg : Config) (s : State) : Option ℕ :=
  match s.post with
  | .count | .submit 0 => if 0 < cfg.submitCnt s.current then some s.current else none
  | _ => none

/-- The read that the last-page thread is about to submit. -/
def State.lastPosting (s : State) : Option ℕ :=
  match s.lastPage with
  | some (chunkId, 0) => some chunkId
  | _ => none

/-- The completions that the cuda thread has taken and not counted. -/
def State.hand (s : State) : List Completion :=
  match s.cuda with
  | .events _ es => es
  | _ => []

/-- The `cuda_func` that runs. -/
def CudaPc.func? : CudaPc → Option CudaFunc
  | .idle => none
  | .reapAio f | .loop f | .wait f | .events f _ | .copy f => some f

/-- The `cuda_func` that runs and has seen its read submitted. -/
def CudaPc.reading? : CudaPc → Option CudaFunc
  | .idle | .reapAio _ => none
  | .loop f | .wait f | .events f _ | .copy f => some f

/-- How often the read of chunk `k` waits to be submitted. -/
def unsubmitted (cfg : Config) (s : State) (k : ℕ) : ℕ :=
  (posting cfg s).toList.count k + s.lastPageQueue.count k + s.lastPosting.toList.count k

/-- How often chunk `k` was counted. -/
def State.counts (s : State) (k : ℕ) : ℕ := (s.processed.map (·.chunkId)).count k

/-- How often the read of chunk `k` was submitted and not counted. -/
def State.inFlight (s : State) (k : ℕ) : ℕ :=
  s.kernel.count k + (s.completions.map (·.chunkId)).count k + (s.hand.map (·.chunkId)).count k

/-- How often the read of chunk `k` was submitted. -/
def State.submitted (s : State) (k : ℕ) : ℕ := s.inFlight k + s.counts k

/-- The slot of the chunk's window is the chunk's. -/
def Slot (cfg : Config) (s : State) (k : ℕ) : Prop := s.iocbs[(cfg.params k).windowIdx]? = some k

/-- The read of chunk `k`, if it has one, must have been submitted. -/
inductive Due (cfg : Config) (s : State) : ℕ → Prop where
  | post (n : ℕ) (h : s.post = .submit (n + 1)) : Due cfg s s.current
  | submitCuda (h : s.post = .submitCuda) (ha : cfg.aioReq s.current = false) : Due cfg s s.current
  | lastPage (k n : ℕ) (h : s.lastPage = some (k, n + 1)) : Due cfg s k
  | result (k : ℕ) (h : k ∈ s.lastPageResults) : Due cfg s k
  | queued (f : CudaFunc) (h : f ∈ s.cudaQueue) (ha : f.aioReq = false) : Due cfg s f.chunkId
  | reading (f : CudaFunc) (h : s.cuda.reading? = some f) : Due cfg s f.chunkId

/-- The invariant of the reads. -/
structure Reads (cfg : Config) (s : State) : Prop where
  slots : s.iocbs.length = cfg.geometry.ioDepth
  census : ∀ k, unsubmitted cfg s k + s.submitted k = if k < s.prepared then cfg.submitCnt k else 0
  due : ∀ k, Due cfg s k → s.submitted k = cfg.submitCnt k
  sq : cfg.backend = .uring → s.sq = (posting cfg s).toList
  slot : cfg.backend = .aio → ∀ k, posting cfg s = some k → Slot cfg s k
  lastSlot : ∀ k, k ∈ s.lastPageQueue ∨ s.lastPosting = some k → Slot cfg s k

/-- The invariant of the counters. -/
structure Counts (cfg : Config) (s : State) : Prop where
  counters : s.unfinishedCnt.length = cfg.chunks.length
  counter : ∀ k < s.counted, (s.unfinished k).toNat + s.counts k = cfg.submitCnt k
  enough : ∀ c ∈ s.processed, ((cfg.params c.chunkId).rankSize : ℤ) ≤ cfg.readRes c
  copied : ∀ k ∈ s.copied, s.counts k = cfg.submitCnt k
  waiting : ∀ f, s.cuda = .wait f → 0 < s.unfinished f.chunkId
  copying : ∀ f, s.cuda = .copy f → s.counts f.chunkId = cfg.submitCnt f.chunkId

/-- The invariant of the order of the chunks. -/
structure Order (cfg : Config) (s : State) : Prop where
  busy : s.post ≠ .idle → 0 < s.posted
  posted_le : s.posted ≤ cfg.chunks.length
  fifo : s.copied ++ (s.cuda.func?.toList ++ s.cudaQueue).map (·.chunkId) = List.range s.tasks
  waited : ∀ k ∈ s.waited, k ∈ s.copied
  clear : ∀ j k, k < s.windowed → j + cfg.geometry.ioDepth ≤ k → j ∈ s.copied

/-- The invariant of the protocol. -/
structure Inv (cfg : Config) (s : State) : Prop where
  reads : Reads cfg s
  counts : Counts cfg s
  order : Order cfg s

section Basic

variable {cfg : Config} {s s' : State} {k : ℕ}

theorem submitCnt_le (cfg : Config) (k : ℕ) : cfg.submitCnt k ≤ 1 := by
  unfold Config.submitCnt
  split_ifs <;> omega

theorem logicalSize_eq (cfg : Config) (k : ℕ) : cfg.logicalSize k = (cfg.params k).rankSize := rfl

theorem Reads.submitted_le (h : Reads cfg s) (k : ℕ) : s.submitted k ≤ cfg.submitCnt k := by
  have := h.census k
  split_ifs at this <;> omega

/-- A read that waits to be submitted is prepared, and was not submitted. -/
theorem Reads.of_unsubmitted (h : Reads cfg s) (hk : 0 < unsubmitted cfg s k) :
    k < s.prepared ∧ s.submitted k = 0 ∧ cfg.submitCnt k = 1 := by
  have hc := h.census k
  have hone := submitCnt_le cfg k
  by_cases hlt : k < s.prepared
  · rw [if_pos hlt] at hc
    exact ⟨hlt, by omega, by omega⟩
  · rw [if_neg hlt] at hc
    omega

theorem unsubmitted_pos_of_posting (hk : posting cfg s = some k) : 0 < unsubmitted cfg s k := by
  rw [unsubmitted, hk, count_toList_some, if_pos rfl]
  omega

theorem unsubmitted_pos_of_last (hk : k ∈ s.lastPageQueue ∨ s.lastPosting = some k) :
    0 < unsubmitted cfg s k := by
  unfold unsubmitted
  rcases hk with hk | hk
  · have := List.count_pos_iff.mpr hk
    omega
  · rw [hk, count_toList_some, if_pos rfl]
    omega

/-- A read goes to the kernel. -/
theorem submitted_of_kernel {k : ℕ} (hk : s'.kernel = s.kernel ++ [k])
    (hcomp : s'.completions = s.completions) (hcuda : s'.cuda = s.cuda) (hproc : s'.processed = s.processed)
    (j : ℕ) : s'.submitted j = s.submitted j + if k = j then 1 else 0 := by
  simp only [State.submitted, State.inFlight, State.counts, State.hand, hk, hcomp, hcuda, hproc,
    List.count_append, List.count_singleton, beq_iff_eq]
  omega

theorem tasks_le_counted (s : State) : s.tasks ≤ s.counted := by
  cases hp : s.post <;> simp [State.tasks, State.counted, State.current, hp]

theorem Order.running_lt (h : Order cfg s) {f : CudaFunc} (hf : s.cuda.func? = some f) :
    f.chunkId < s.tasks := by
  have hmem : f.chunkId ∈ List.range s.tasks := by
    rw [← h.fifo, hf]
    simp
  exact List.mem_range.mp hmem

/-- The chunks are copied in order. -/
theorem Order.mem_copied_of_le (h : Order cfg s) {j : ℕ} (hk : k ∈ s.copied) (hj : j ≤ k) :
    j ∈ s.copied := by
  have hcopied : s.copied = List.range (min s.copied.length s.tasks) := by
    rw [← List.take_range, ← h.fifo, List.take_left']
    rfl
  rw [hcopied, List.mem_range] at hk ⊢
  omega

theorem Order.current_succ (h : Order cfg s) (hp : s.post ≠ .idle) : s.current + 1 = s.posted := by
  have := h.busy hp
  unfold State.current
  omega

/-- A read moves on: nothing is prepared, and what was submitted stays so. -/
theorem Reads.move (h : Reads cfg s) (hprep : s'.prepared = s.prepared)
    (htotal : ∀ k, unsubmitted cfg s' k + s'.submitted k = unsubmitted cfg s k + s.submitted k)
    (hmono : ∀ k, s.submitted k ≤ s'.submitted k)
    (hdue : ∀ k, Due cfg s' k → Due cfg s k ∨ s'.submitted k = cfg.submitCnt k)
    (hiocbs : s'.iocbs = s.iocbs)
    (hsq : cfg.backend = .uring → s'.sq = (posting cfg s').toList)
    (hslot : ∀ k, posting cfg s' = some k → posting cfg s = some k)
    (hlast : ∀ k, k ∈ s'.lastPageQueue ∨ s'.lastPosting = some k → Slot cfg s k) : Reads cfg s' where
  slots := by rw [hiocbs, h.slots]
  census k := by rw [htotal, hprep, h.census]
  due k hd := by
    rcases hdue k hd with hd | hd
    · have hle : s'.submitted k ≤ cfg.submitCnt k := by
        have := htotal k
        have := h.census k
        split_ifs at this <;> omega
      have := h.due k hd
      have := hmono k
      omega
    · exact hd
  sq := hsq
  slot hb k hk := by
    rw [Slot, hiocbs]
    exact h.slot hb k (hslot k hk)
  lastSlot k hk := by
    rw [Slot, hiocbs]
    exact hlast k hk

/-- A step that moves no read. -/
theorem Reads.congr (h : Reads cfg s) (hprep : s'.prepared = s.prepared)
    (hpost : posting cfg s' = posting cfg s) (hlq : s'.lastPageQueue = s.lastPageQueue)
    (hlp : s'.lastPosting = s.lastPosting) (hsub : s'.submitted = s.submitted)
    (hdue : ∀ k, Due cfg s' k → Due cfg s k ∨ s'.submitted k = cfg.submitCnt k)
    (hiocbs : s'.iocbs = s.iocbs) (hsq : s'.sq = s.sq) : Reads cfg s' := by
  refine h.move hprep (fun k => ?_) (fun k => by rw [hsub]) hdue hiocbs (fun hb => ?_) (fun k hk => ?_)
    (fun k hk => ?_)
  · rw [unsubmitted, unsubmitted, hpost, hlq, hlp, hsub]
  · rw [hsq, hpost, h.sq hb]
  · rw [← hpost, hk]
  · rw [hlq, hlp] at hk
    exact h.lastSlot k hk

theorem Counts.congr (h : Counts cfg s) (hcounted : s'.counted = s.counted)
    (hcnt : s'.unfinishedCnt = s.unfinishedCnt) (hproc : s'.processed = s.processed)
    (hcopied : s'.copied = s.copied)
    (hwait : ∀ f, s'.cuda = .wait f → s.cuda = .wait f ∨ 0 < s.unfinished f.chunkId)
    (hcopy : ∀ f, s'.cuda = .copy f → s.cuda = .copy f ∨ s.counts f.chunkId = cfg.submitCnt f.chunkId) :
    Counts cfg s' := by
  have hun : s'.unfinished = s.unfinished := by
    funext k
    rw [State.unfinished, hcnt, State.unfinished]
  have hcounts : s'.counts = s.counts := by
    funext k
    rw [State.counts, hproc, State.counts]
  refine ⟨?_, ?_, ?_, ?_, fun f hf => ?_, fun f hf => ?_⟩
  · rw [hcnt, h.counters]
  · rw [hcounted, hun, hcounts]
    exact h.counter
  · rw [hproc]
    exact h.enough
  · rw [hcopied, hcounts]
    exact h.copied
  · rw [hun]
    exact (hwait f hf).elim (h.waiting f) id
  · rw [hcounts]
    exact (hcopy f hf).elim (h.copying f) id

theorem Order.congr (h : Order cfg s) (hposted : s'.posted = s.posted) (hpost : s.post = .idle → s'.post = .idle)
    (htasks : s'.tasks = s.tasks) (hwindowed : s'.windowed = s.windowed) (hcopied : s'.copied = s.copied)
    (hfunc : s'.cuda.func?.toList ++ s'.cudaQueue = s.cuda.func?.toList ++ s.cudaQueue)
    (hwaited : s'.waited = s.waited) : Order cfg s' := by
  refine ⟨fun hp => ?_, ?_, ?_, ?_, ?_⟩
  · rw [hposted]
    exact h.busy fun hi => hp (hpost hi)
  · rw [hposted]
    exact h.posted_le
  · rw [hcopied, hfunc, htasks]
    exact h.fifo
  · rw [hwaited, hcopied]
    exact h.waited
  · rw [hwindowed, hcopied]
    exact h.clear

/-- An error changes nothing that the invariant is about. -/
theorem Inv.throw (h : Inv cfg s) (e1 e2 e3 : Option IoError) :
    Inv cfg { s with postError := e1, lastPageError := e2, cudaError := e3 } := by
  refine ⟨h.reads.congr rfl rfl rfl rfl rfl (fun k hd => Or.inl ?_) rfl rfl,
    h.counts.congr rfl rfl rfl rfl (fun _ => Or.inl) (fun _ => Or.inl),
    h.order.congr rfl id rfl rfl rfl rfl rfl⟩
  cases hd with
  | post n hp => exact .post n hp
  | submitCuda hp ha => exact .submitCuda hp ha
  | lastPage k n hl => exact .lastPage k n hl
  | result k hr => exact .result k hr
  | queued f hf ha => exact .queued f hf ha
  | reading f hf => exact .reading f hf

/-- What a step of the loader thread makes due. -/
theorem Due.of_post (s : State) (hd : Due cfg s' k) (hl : s'.lastPage = s.lastPage)
    (hr : s'.lastPageResults = s.lastPageResults) (hq : s'.cudaQueue = s.cudaQueue) (hc : s'.cuda = s.cuda) :
    Due cfg s k ∨ k = s'.current ∧
      ((∃ n, s'.post = .submit (n + 1)) ∨ s'.post = .submitCuda ∧ cfg.aioReq s'.current = false) := by
  cases hd with
  | post n h => exact Or.inr ⟨rfl, Or.inl ⟨n, h⟩⟩
  | submitCuda h ha => exact Or.inr ⟨rfl, Or.inr ⟨h, ha⟩⟩
  | lastPage k n h => exact Or.inl (.lastPage k n (hl ▸ h))
  | result k h => exact Or.inl (.result k (hr ▸ h))
  | queued f h ha => exact Or.inl (.queued f (hq ▸ h) ha)
  | reading f h => exact Or.inl (.reading f (hc ▸ h))

/-- A step of the loader thread to a place in front of the submission, or behind
that of the `cuda_func`, makes nothing due. -/
theorem Due.of_quiet (s : State) (hd : Due cfg s' k) (hl : s'.lastPage = s.lastPage)
    (hr : s'.lastPageResults = s.lastPageResults) (hq : s'.cudaQueue = s.cudaQueue) (hc : s'.cuda = s.cuda)
    (hsub : ∀ n, s'.post ≠ .submit (n + 1)) (hcuda : s'.post ≠ .submitCuda) : Due cfg s k := by
  rcases hd.of_post s hl hr hq hc with hd | ⟨-, ⟨n, hn⟩ | ⟨hn, -⟩⟩
  · exact hd
  · exact absurd hn (hsub n)
  · exact absurd hn hcuda

/-- What a step of the last-page thread makes due. -/
theorem Due.of_lastPage (s : State) (hd : Due cfg s' k) (hp : s'.post = s.post) (hn : s'.posted = s.posted)
    (hq : s'.cudaQueue = s.cudaQueue) (hc : s'.cuda = s.cuda) :
    Due cfg s k ∨ (∃ n, s'.lastPage = some (k, n + 1)) ∨ k ∈ s'.lastPageResults := by
  have hcur : s'.current = s.current := by rw [State.current, hn, State.current]
  cases hd with
  | post n h => exact Or.inl (hcur ▸ .post n (hp ▸ h))
  | submitCuda h ha => exact Or.inl (hcur ▸ .submitCuda (hp ▸ h) (hcur ▸ ha))
  | lastPage k n h => exact Or.inr (Or.inl ⟨n, h⟩)
  | result k h => exact Or.inr (Or.inr h)
  | queued f h ha => exact Or.inl (.queued f (hq ▸ h) ha)
  | reading f h => exact Or.inl (.reading f (hc ▸ h))

/-- What a step of the cuda thread makes due. -/
theorem Due.of_cuda (s : State) (hd : Due cfg s' k) (hp : s'.post = s.post) (hn : s'.posted = s.posted)
    (hl : s'.lastPage = s.lastPage) (hr : s'.lastPageResults ⊆ s.lastPageResults)
    (hq : s'.cudaQueue ⊆ s.cudaQueue) :
    Due cfg s k ∨ ∃ f, s'.cuda.reading? = some f ∧ f.chunkId = k := by
  have hcur : s'.current = s.current := by rw [State.current, hn, State.current]
  cases hd with
  | post n h => exact Or.inl (hcur ▸ .post n (hp ▸ h))
  | submitCuda h ha => exact Or.inl (hcur ▸ .submitCuda (hp ▸ h) (hcur ▸ ha))
  | lastPage k n h => exact Or.inl (.lastPage k n (hl ▸ h))
  | result k h => exact Or.inl (.result k (hr h))
  | queued f h ha => exact Or.inl (.queued f (hq h) ha)
  | reading f h => exact Or.inr ⟨f, h, rfl⟩

end Basic

/-! ### The loader thread -/

section Post

variable {cfg : Config} {s s' : State}

/-- The next chunk. -/
theorem Inv.start (h : Inv cfg s) (hp : s.post = .idle) (hlt : s.posted < cfg.chunks.length) :
    Inv cfg { s with posted := s.posted + 1, post := .window } := by
  refine ⟨h.reads.congr ?_ ?_ rfl rfl rfl (fun k hd => ?_) rfl rfl, h.counts.congr ?_ rfl rfl rfl
    (fun _ => Or.inl) (fun _ => Or.inl), ?_⟩
  · simp [State.prepared, State.current, hp]
  · simp [posting, hp]
  · exact Or.inl (hd.of_quiet s rfl rfl rfl rfl (by simp) (by simp))
  · simp [State.counted, State.current, hp]
  · refine ⟨fun _ => Nat.succ_pos _, hlt, h.order.fifo.trans ?_, h.order.waited,
      fun j k hk => h.order.clear j k ?_⟩
    · simp [State.tasks, State.current, hp]
    · simpa [State.windowed, State.current, hp] using hk

/-- The window is free: the chunk `io_depth` before has been copied, and so
have all before it. -/
theorem Inv.window (h : Inv cfg s) (hp : s.post = .window)
    (hw : cfg.waitChunkId s.current < 0 ∨ (cfg.waitChunkId s.current).toNat ∈ s.waited) :
    Inv cfg { s with post := .prepare } := by
  refine ⟨h.reads.congr ?_ ?_ rfl rfl rfl (fun k hd => ?_) rfl rfl, h.counts.congr ?_ rfl rfl rfl
    (fun _ => Or.inl) (fun _ => Or.inl), ?_⟩
  · simp [State.prepared, State.current, hp]
  · simp [posting, hp]
  · exact Or.inl (hd.of_quiet s rfl rfl rfl rfl (by simp) (by simp))
  · simp [State.counted, State.current, hp]
  · have hcur := h.order.current_succ (by simp [hp])
    refine ⟨fun _ => h.order.busy (by simp [hp]), h.order.posted_le, h.order.fifo.trans ?_, h.order.waited,
      fun j k hk hj => ?_⟩
    · simp [State.tasks, State.current, hp]
    · change k < s.posted at hk
      by_cases hlast : k < s.current
      · exact h.order.clear j k (by simpa [State.windowed, hp] using hlast) hj
      · have hmax : (cfg.waitChunkId s.current : ℤ) ≥ (s.current : ℤ) - cfg.geometry.ioDepth := le_max_right _ _
        have hmem := h.order.waited _ (hw.resolve_left (by omega))
        exact h.order.mem_copied_of_le hmem (by omega)

/-- A read that waits to be submitted is not in the window of the chunk that
is prepared: there, all older chunks have been copied. -/
theorem Inv.windowIdx_ne (h : Inv cfg s) (hp : s.post = .prepare) {k : ℕ} (hk : 0 < unsubmitted cfg s k) :
    (cfg.params s.current).windowIdx ≠ (cfg.params k).windowIdx := by
  intro he
  have hcur := h.order.current_succ (by simp [hp])
  obtain ⟨hlt, hsub, hone⟩ := h.reads.of_unsubmitted hk
  simp only [State.prepared, hp] at hlt
  have hgap : k + cfg.geometry.ioDepth ≤ s.current := Rounding.add_le_of_mod_eq hlt he.symm
  have hcopied : k ∈ s.copied := by
    refine h.order.clear k s.current ?_ hgap
    simp only [State.windowed, hp]
    omega
  have := h.counts.copied k hcopied
  unfold State.submitted at hsub
  omega

/-- The read of the current chunk is prepared, if it has one. -/
theorem Inv.prepare (h : Inv cfg s) (hp : s.post = .prepare) {sq iocbs : List ℕ}
    (hsq : cfg.backend = .uring → sq = s.sq ++ if 0 < cfg.submitCnt s.current then [s.current] else [])
    (hlen : iocbs.length = cfg.geometry.ioDepth)
    (hslot : cfg.backend = .aio → 0 < cfg.submitCnt s.current →
      iocbs[(cfg.params s.current).windowIdx]? = some s.current)
    (hlast : ∀ k, k ∈ s.lastPageQueue ∨ s.lastPosting = some k → iocbs[(cfg.params k).windowIdx]? = some k) :
    Inv cfg { s with sq := sq, iocbs := iocbs, post := .count } := by
  have hcur := h.order.current_succ (by simp [hp])
  have hnone : posting cfg s = none := by simp [posting, hp]
  set s' : State := { s with sq := sq, iocbs := iocbs, post := .count }
  have hposting : posting cfg s' = if 0 < cfg.submitCnt s.current then some s.current else none := rfl
  refine ⟨⟨hlen, fun k => ?_, fun k hd => ?_, fun hb => ?_, fun hb k hk => ?_, hlast⟩,
    h.counts.congr ?_ rfl rfl rfl (fun _ => Or.inl) (fun _ => Or.inl),
    h.order.congr rfl (fun hi => by simp [hp] at hi) ?_ ?_ rfl rfl rfl⟩
  · have hc := h.reads.census k
    have hprep : s.prepared = s.current := by simp [State.prepared, hp]
    have hprep' : s'.prepared = s.current + 1 := hcur.symm
    have hone := submitCnt_le cfg s.current
    have hnew : (posting cfg s').toList.count k = if k = s.current then cfg.submitCnt k else 0 := by
      rw [hposting]
      by_cases hk : k = s.current
      · subst hk
        by_cases hpos : 0 < cfg.submitCnt s.current <;> simp [hpos] <;> omega
      · by_cases hpos : 0 < cfg.submitCnt s.current <;> simp [hpos, hk, Ne.symm hk]
    rw [hprep, unsubmitted, hnone, count_toList_none] at hc
    rw [hprep', unsubmitted, hnew]
    show _ + s.lastPageQueue.count k + s.lastPosting.toList.count k + s.submitted k = _
    split_ifs at hc ⊢ <;> omega
  · exact h.reads.due k (hd.of_quiet s rfl rfl rfl rfl (by simp [s']) (by simp [s']))
  · rw [hposting]
    show sq = _
    rw [hsq hb, h.reads.sq hb, hnone]
    split_ifs <;> rfl
  · rw [hposting] at hk
    split_ifs at hk with hpos
    cases hk
    exact hslot hb hpos
  · simp [State.counted, State.current, hp, s']
  · simp [State.tasks, State.current, hp, s']
  · simp [State.windowed, hp, s']

theorem toNat_submitCnt (cfg : Config) (k : ℕ) : (cfg.submitCnt k).toUInt64.toNat = cfg.submitCnt k := by
  unfold Config.submitCnt
  split_ifs <;> rfl

theorem unfinished_set {i : ℕ} (hi : i < s.unfinishedCnt.length) (v : UInt64) (k : ℕ) :
    (s.unfinishedCnt.set i v).getD k 0 = if k = i then v else s.unfinished k := by
  unfold State.unfinished
  rw [List.getD_eq_getElem?_getD, List.getD_eq_getElem?_getD, List.getElem?_set]
  by_cases hk : k = i
  · subst hk
    simp [hi]
  · simp [hk, Ne.symm hk]

/-- The count is set while the read is not submitted. -/
theorem Inv.setCount (h : Inv cfg s) (hp : s.post = .count) :
    Inv cfg { s with
      unfinishedCnt := s.unfinishedCnt.set s.current (cfg.submitCnt s.current).toUInt64
      post := .submit 0 } := by
  have hcur := h.order.current_succ (by simp [hp])
  have hlt : s.current < s.unfinishedCnt.length := by
    have := h.order.posted_le
    have := h.counts.counters
    omega
  have hfresh : s.counts s.current = 0 := by
    have hle := h.reads.submitted_le s.current
    unfold State.submitted at hle
    by_cases hpos : 0 < cfg.submitCnt s.current
    · have hposting : posting cfg s = some s.current := by simp [posting, hp, hpos]
      have hnew := (h.reads.of_unsubmitted (unsubmitted_pos_of_posting hposting)).2.1
      unfold State.submitted at hnew
      omega
    · omega
  refine ⟨h.reads.congr ?_ ?_ rfl rfl rfl (fun k hd => ?_) rfl rfl, ?_,
    h.order.congr rfl (fun hi => by simp [hp] at hi) ?_ ?_ rfl rfl rfl⟩
  · simp [State.prepared, hp]
  · simp only [posting, hp]
    rfl
  · exact Or.inl (hd.of_quiet s rfl rfl rfl rfl (by simp) (by simp))
  · refine ⟨by simp [h.counts.counters], fun k hk => ?_, h.counts.enough, h.counts.copied, fun f hf => ?_,
      h.counts.copying⟩
    · change k < s.posted at hk
      show ((s.unfinishedCnt.set _ _).getD k 0).toNat + s.counts k = _
      rw [unfinished_set hlt]
      by_cases hk' : k = s.current
      · rw [if_pos hk', hk', toNat_submitCnt, hfresh, Nat.add_zero]
      · rw [if_neg hk']
        exact h.counts.counter k (by simp only [State.counted, hp]; omega)
    · show 0 < (s.unfinishedCnt.set _ _).getD f.chunkId 0
      have hrun := h.order.running_lt (show s.cuda.func? = some f by rw [hf]; rfl)
      simp only [State.tasks, hp] at hrun
      rw [unfinished_set hlt, if_neg (by omega)]
      exact h.counts.waiting f hf
  · simp [State.tasks, State.current, hp]
  · simp [State.windowed, hp]

theorem posting_submit {n : ℕ} (hp : s.post = .submit n) (hn : n < cfg.submitCnt s.current) :
    n = 0 ∧ posting cfg s = some s.current := by
  have hone := submitCnt_le cfg s.current
  have hn0 : n = 0 := by omega
  subst hn0
  exact ⟨rfl, by simp [posting, hp, hn]⟩

/-- The loop of `uring_func` or `aio_func` ends. -/
theorem Inv.submitted (h : Inv cfg s) {n : ℕ} (hp : s.post = .submit n) (hn : ¬ n < cfg.submitCnt s.current) :
    Inv cfg { s with post := .submitCuda } := by
  refine ⟨h.reads.congr ?_ ?_ rfl rfl rfl (fun k hd => ?_) rfl rfl, h.counts.congr ?_ rfl rfl rfl
    (fun _ => Or.inl) (fun _ => Or.inl), h.order.congr rfl (fun hi => by simp [hp] at hi) ?_ ?_ rfl rfl rfl⟩
  · simp [State.prepared, hp]
  · cases n with
    | zero => simp [posting, hp, hn]
    | succ n => simp [posting, hp]
  · rcases hd.of_post s rfl rfl rfl rfl with hd | ⟨rfl, ⟨m, hm⟩ | -⟩
    · exact Or.inl hd
    · cases hm
    · cases n with
      | zero =>
        have := h.reads.submitted_le s.current
        right
        show s.submitted s.current = cfg.submitCnt s.current
        omega
      | succ n => exact Or.inl (.post n hp)
  · simp [State.counted, hp]
  · simp [State.tasks, State.current, hp]
  · simp [State.windowed, hp]

/-- `aio_func` goes to the last-page thread. -/
theorem Inv.submitLastPage (h : Inv cfg s) {n : ℕ} (hp : s.post = .submit n) (hn : n < cfg.submitCnt s.current)
    (ha : cfg.aioReq s.current = true) :
    Inv cfg { s with lastPageQueue := s.lastPageQueue ++ [s.current], post := .submitCuda } := by
  obtain ⟨rfl, hposting⟩ := posting_submit hp hn
  have haio : cfg.backend = .aio := by
    simp only [Config.aioReq, decide_eq_true_eq] at ha
    exact ha.1
  set s' : State := { s with lastPageQueue := s.lastPageQueue ++ [s.current], post := .submitCuda }
  have hnone : posting cfg s' = none := rfl
  refine ⟨h.reads.move ?_ (fun k => ?_) (fun k => le_rfl) (fun k hd => ?_) rfl (fun hb => ?_) (fun k hk => ?_)
    (fun k hk => ?_), h.counts.congr ?_ rfl rfl rfl (fun _ => Or.inl) (fun _ => Or.inl),
    h.order.congr rfl (fun hi => by simp [hp] at hi) ?_ ?_ rfl rfl rfl⟩
  · simp [State.prepared, hp, s']
  · rw [unsubmitted, unsubmitted, hnone, hposting, count_toList_none, count_toList_some]
    show 0 + (s.lastPageQueue ++ [s.current]).count k + s.lastPosting.toList.count k + s.submitted k = _
    rw [List.count_append, List.count_singleton]
    simp only [beq_iff_eq]
    omega
  · rcases hd.of_post s rfl rfl rfl rfl with hd | ⟨-, ⟨m, hm⟩ | ⟨-, hno⟩⟩
    · exact Or.inl hd
    · cases hm
    · exact absurd (ha.symm.trans hno) (by simp)
  · rw [haio] at hb
    cases hb
  · rw [hnone] at hk
    cases hk
  · rcases hk with hk | hk
    · rcases List.mem_append.mp hk with hk | hk
      · exact h.reads.lastSlot k (Or.inl hk)
      · rw [List.mem_singleton.mp hk]
        exact h.reads.slot haio _ hposting
    · exact h.reads.lastSlot k (Or.inr hk)
  · simp [State.counted, hp, s']
  · simp [State.tasks, State.current, hp, s']
  · simp [State.windowed, hp, s']

/-- The loader thread hands the read to the kernel. -/
theorem Inv.toKernel (h : Inv cfg s) (hp : s.post = .submit 0) (hn : 0 < cfg.submitCnt s.current)
    {sq : List ℕ} (hsq : cfg.backend = .uring → sq = []) :
    Inv cfg { s with sq := sq, kernel := s.kernel ++ [s.current], post := .submit 1 } := by
  obtain ⟨-, hposting⟩ := posting_submit hp hn
  set s' : State := { s with sq := sq, kernel := s.kernel ++ [s.current], post := .submit 1 }
  have hnone : posting cfg s' = none := rfl
  have hsub : ∀ k, s'.submitted k = s.submitted k + if s.current = k then 1 else 0 :=
    submitted_of_kernel rfl rfl rfl rfl
  have htotal : ∀ k, unsubmitted cfg s' k + s'.submitted k = unsubmitted cfg s k + s.submitted k := by
    intro k
    rw [unsubmitted, unsubmitted, hnone, hposting, count_toList_none, count_toList_some, hsub]
    show 0 + s.lastPageQueue.count k + s.lastPosting.toList.count k + _ = _
    omega
  refine ⟨h.reads.move ?_ htotal (fun k => ?_) (fun k hd => ?_) rfl (fun hb => ?_) (fun k hk => ?_)
    h.reads.lastSlot, h.counts.congr ?_ rfl rfl rfl (fun _ => Or.inl) (fun _ => Or.inl),
    h.order.congr rfl (fun hi => by simp [hp] at hi) ?_ ?_ rfl rfl rfl⟩
  · simp [State.prepared, hp, s']
  · rw [hsub]
    exact Nat.le_add_right _ _
  · rcases hd.of_post s rfl rfl rfl rfl with hd | ⟨rfl, -⟩
    · exact Or.inl hd
    · right
      obtain ⟨-, hnew, hone⟩ := h.reads.of_unsubmitted (unsubmitted_pos_of_posting hposting)
      have hcur : s'.current = s.current := rfl
      rw [hcur, hsub, if_pos rfl, hnew, hone]
  · rw [hnone]
    exact hsq hb
  · rw [hnone] at hk
    cases hk
  · simp [State.counted, hp, s']
  · simp [State.tasks, State.current, hp, s']
  · simp [State.windowed, hp, s']

theorem Inv.submitCuda (h : Inv cfg s) (hp : s.post = .submitCuda) :
    Inv cfg { s with
      cudaQueue := s.cudaQueue ++ [⟨s.current, cfg.aioReq s.current⟩], post := .submitWait } := by
  have hcur := h.order.current_succ (by simp [hp])
  refine ⟨h.reads.congr ?_ ?_ rfl rfl rfl (fun k hd => ?_) rfl rfl, h.counts.congr ?_ rfl rfl rfl
    (fun _ => Or.inl) (fun _ => Or.inl), ?_⟩
  · simp [State.prepared, hp]
  · simp [posting, hp]
  · cases hd with
    | post n hn => cases hn
    | submitCuda hn ha => cases hn
    | lastPage k n hl => exact Or.inl (.lastPage k n hl)
    | result k hr => exact Or.inl (.result k hr)
    | reading f hf => exact Or.inl (.reading f hf)
    | queued f hf ha =>
      rcases List.mem_append.mp hf with hf | hf
      · exact Or.inl (.queued f hf ha)
      · cases List.mem_singleton.mp hf
        exact Or.inl (.submitCuda hp ha)
  · simp [State.counted, hp]
  · refine ⟨fun _ => h.order.busy (by simp [hp]), h.order.posted_le, ?_, h.order.waited, fun j k hk => ?_⟩
    · have hfifo := h.order.fifo
      simp only [State.tasks, hp] at hfifo
      show _ = List.range s.posted
      rw [← hcur, List.range_succ, ← hfifo]
      simp
    · exact h.order.clear j k (by simpa [State.windowed, hp] using hk)

theorem Inv.submitWait (h : Inv cfg s) (hp : s.post = .submitWait) :
    Inv cfg { s with waitQueue := s.waitQueue ++ [s.current], post := .idle } := by
  refine ⟨h.reads.congr ?_ ?_ rfl rfl rfl (fun k hd => ?_) rfl rfl, h.counts.congr ?_ rfl rfl rfl
    (fun _ => Or.inl) (fun _ => Or.inl), h.order.congr rfl (fun _ => rfl) ?_ ?_ rfl rfl rfl⟩
  · simp [State.prepared, hp]
  · simp [posting, hp]
  · exact Or.inl (hd.of_quiet s rfl rfl rfl rfl (by simp) (by simp))
  · simp [State.counted, hp]
  · simp [State.tasks, hp]
  · simp [State.windowed, hp]

theorem Inv.waitWindow (h : Inv cfg s) (hp : s.post = .window) (hs : waitWindow cfg s = some s') :
    Inv cfg s' := by
  simp only [Io.waitWindow] at hs
  split_ifs at hs with hw
  cases hs
  exact h.window hp hw

theorem Inv.prepareRead (h : Inv cfg s) (hp : s.post = .prepare) : Inv cfg (prepareRead cfg s) := by
  have hold := h.reads.lastSlot
  unfold Io.prepareRead
  by_cases hzero : (cfg.params s.current).rankSize = 0
  · have hcnt : cfg.submitCnt s.current = 0 := by simp [Config.submitCnt, hzero]
    rw [if_pos hzero]
    exact h.prepare hp (by simp [hcnt]) h.reads.slots (by simp [hcnt]) hold
  · have hcnt : 0 < cfg.submitCnt s.current := by simp [Config.submitCnt, Nat.pos_of_ne_zero hzero]
    rw [if_neg hzero]
    split
    · rename_i hb
      split_ifs
      · exact h.prepare hp (by simp [hcnt]) h.reads.slots (fun ha => by rw [hb] at ha; cases ha) hold
      · exact h.throw _ _ _
    · rename_i hb
      have hidx : (cfg.params s.current).windowIdx < s.iocbs.length := by
        rw [h.reads.slots]
        exact Nat.mod_lt _ cfg.geometry.ioDepth_pos
      refine h.prepare hp (fun hu => by rw [hb] at hu; cases hu) (by simp [h.reads.slots]) (fun _ _ => ?_)
        (fun k hk => ?_)
      · simp [hidx]
      · -- the slots of the reads that wait are not the one that is written
        rw [List.getElem?_set_ne (h.windowIdx_ne hp (unsubmitted_pos_of_last hk))]
        exact hold k hk

/-- `io_submit` of the slot of a window submits its chunk. -/
theorem ioSubmit_one {iocbs : List ℕ} {w k : ℕ} (h : iocbs[w]? = some k) : ioSubmit iocbs w 0 1 = [k] := by
  rw [ioSubmit, Nat.add_zero, List.take_one, List.head?_drop, h]
  rfl

theorem Inv.submitRead {n : ℕ} {ret : ℤ} (h : Inv cfg s) (hp : s.post = .submit n)
    (hn : n < cfg.submitCnt s.current) (hs : submitRead cfg n ret s = some s') : Inv cfg s' := by
  obtain ⟨rfl, hposting⟩ := posting_submit hp hn
  have hone := submitCnt_le cfg s.current
  unfold Io.submitRead at hs
  by_cases hneg : ret < 0
  · rw [if_pos hneg] at hs
    cases hs
    exact h.throw _ _ _
  rw [if_neg hneg] at hs
  split at hs
  · rename_i hb
    have hsq : s.sq = [s.current] := by rw [h.reads.sq hb, hposting]; rfl
    split_ifs at hs with hle
    cases hs
    rw [hsq, List.length_singleton] at hle
    obtain hz | ho : ret.toNat = 0 ∨ ret.toNat = 1 := by omega
    · simp only [hz, List.drop_zero, List.take_zero, List.append_nil, ← hp]
      exact h
    · simp only [ho, hsq]
      exact h.toKernel hp hn fun _ => rfl
  · rename_i hb
    split_ifs at hs with hle
    cases hs
    obtain hz | ho : ret.toNat = 0 ∨ ret.toNat = 1 := by omega
    · simp only [hz, ioSubmit, List.take_zero, List.append_nil, ← hp]
      exact h
    · simp only [ho, ioSubmit_one (h.reads.slot hb _ hposting)]
      exact h.toKernel hp hn fun hu => by rw [hb] at hu; cases hu

/-- The step of the loader thread. -/
theorem Inv.postStep {ret : ℤ} (h : Inv cfg s) (hs : postStep cfg ret s = some s') : Inv cfg s' := by
  unfold Io.postStep at hs
  by_cases herr : s.postError.isSome = true
  · rw [if_pos herr] at hs
    cases hs
  rw [if_neg herr] at hs
  cases hp : s.post with
  | idle =>
    simp only [hp] at hs
    split_ifs at hs with hlt
    cases hs
    exact h.start hp hlt
  | window =>
    simp only [hp] at hs
    exact h.waitWindow hp hs
  | prepare =>
    simp only [hp] at hs
    cases hs
    exact h.prepareRead hp
  | count =>
    simp only [hp] at hs
    cases hs
    exact h.setCount hp
  | submit n =>
    simp only [hp] at hs
    by_cases hn : cfg.submitCnt s.current ≤ n
    · rw [if_pos hn] at hs
      cases hs
      exact h.submitted hp (not_lt.mpr hn)
    · rw [if_neg hn] at hs
      by_cases ha : cfg.aioReq s.current = true
      · rw [if_pos ha] at hs
        cases hs
        exact h.submitLastPage hp (not_le.mp hn) ha
      · rw [if_neg ha] at hs
        exact h.submitRead hp (not_le.mp hn) hs
  | submitCuda =>
    simp only [hp] at hs
    cases hs
    exact h.submitCuda hp
  | submitWait =>
    simp only [hp] at hs
    cases hs
    exact h.submitWait hp

end Post

/-! ### The last-page thread and the kernel -/

section LastPage

variable {cfg : Config} {s s' : State}

theorem Inv.takeLastPage (h : Inv cfg s) {k : ℕ} {rest : List ℕ} (hl : s.lastPage = none)
    (hq : s.lastPageQueue = k :: rest) :
    Inv cfg { s with lastPageQueue := rest, lastPage := some (k, 0) } := by
  refine ⟨h.reads.move rfl (fun j => ?_) (fun _ => le_rfl) (fun j hd => ?_) rfl h.reads.sq (fun _ => id)
    (fun j hj => h.reads.lastSlot j ?_), h.counts.congr rfl rfl rfl rfl (fun _ => Or.inl) (fun _ => Or.inl),
    h.order.congr rfl id rfl rfl rfl rfl rfl⟩
  · have hnone : s.lastPosting = none := by simp [State.lastPosting, hl]
    rw [unsubmitted, unsubmitted, hq, hnone, count_toList_none, List.count_cons]
    show _ + rest.count j + (some k).toList.count j + s.submitted j = _
    have hposting : posting cfg { s with lastPageQueue := rest, lastPage := some (k, 0) } = posting cfg s := rfl
    rw [hposting, count_toList_some]
    simp only [beq_iff_eq]
    omega
  · rcases hd.of_lastPage s rfl rfl rfl rfl with hd | ⟨n, hn⟩ | hr
    · exact Or.inl hd
    · cases hn
    · exact Or.inl (.result j hr)
  · rw [hq]
    rcases hj with hj | hj
    · exact Or.inl (List.mem_cons_of_mem _ hj)
    · cases hj
      exact Or.inl List.mem_cons_self

theorem Inv.finishLastPage (h : Inv cfg s) {k n : ℕ} (hl : s.lastPage = some (k, n))
    (hn : cfg.submitCnt k ≤ n) :
    Inv cfg { s with lastPage := none, lastPageResults := s.lastPageResults ++ [k] } := by
  obtain ⟨m, rfl⟩ : ∃ m, n = m + 1 := by
    cases n with
    | succ m => exact ⟨m, rfl⟩
    | zero =>
      have hposting : s.lastPosting = some k := by simp [State.lastPosting, hl]
      have hone := (h.reads.of_unsubmitted (unsubmitted_pos_of_last (Or.inr hposting))).2.2
      omega
  refine ⟨h.reads.congr rfl rfl rfl ?_ rfl (fun j hd => ?_) rfl rfl,
    h.counts.congr rfl rfl rfl rfl (fun _ => Or.inl) (fun _ => Or.inl),
    h.order.congr rfl id rfl rfl rfl rfl rfl⟩
  · simp [State.lastPosting, hl]
  · rcases hd.of_lastPage s rfl rfl rfl rfl with hd | ⟨n, hn⟩ | hr
    · exact Or.inl hd
    · cases hn
    · rcases List.mem_append.mp hr with hr | hr
      · exact Or.inl (.result j hr)
      · rw [List.mem_singleton.mp hr]
        exact Or.inl (.lastPage k m hl)

theorem Inv.submitLast (h : Inv cfg s) {k : ℕ} (hl : s.lastPage = some (k, 0)) :
    Inv cfg { s with kernel := s.kernel ++ [k], lastPage := some (k, 1) } := by
  have hposting : s.lastPosting = some k := by simp [State.lastPosting, hl]
  set s' : State := { s with kernel := s.kernel ++ [k], lastPage := some (k, 1) }
  have hsub : ∀ j, s'.submitted j = s.submitted j + if k = j then 1 else 0 :=
    submitted_of_kernel rfl rfl rfl rfl
  refine ⟨h.reads.move rfl (fun j => ?_) (fun j => ?_) (fun j hd => ?_) rfl h.reads.sq (fun _ => id)
    (fun j hj => h.reads.lastSlot j ?_), h.counts.congr rfl rfl rfl rfl (fun _ => Or.inl) (fun _ => Or.inl),
    h.order.congr rfl id rfl rfl rfl rfl rfl⟩
  · rw [unsubmitted, unsubmitted, hposting, count_toList_some, hsub]
    show (posting cfg s).toList.count j + s.lastPageQueue.count j + 0 + _ = _
    omega
  · rw [hsub]
    exact Nat.le_add_right _ _
  · rcases hd.of_lastPage s rfl rfl rfl rfl with hd | ⟨n, hn⟩ | hr
    · exact Or.inl hd
    · right
      cases hn
      obtain ⟨-, hnew, hone⟩ := h.reads.of_unsubmitted (unsubmitted_pos_of_last (Or.inr hposting))
      rw [hsub, if_pos rfl, hnew, hone]
    · exact Or.inl (.result j hr)
  · rcases hj with hj | hj
    · exact Or.inl hj
    · cases hj

/-- The step of the last-page thread. -/
theorem Inv.lastPageStep {ret : ℤ} (h : Inv cfg s) (hs : lastPageStep cfg ret s = some s') : Inv cfg s' := by
  unfold Io.lastPageStep at hs
  by_cases herr : s.lastPageError.isSome = true
  · rw [if_pos herr] at hs
    cases hs
  rw [if_neg herr] at hs
  split at hs
  · cases hs
  · rename_i k rest hl hq
    cases hs
    exact h.takeLastPage hl hq
  · rename_i _ k n hl
    by_cases hn : cfg.submitCnt k ≤ n
    · rw [if_pos hn] at hs
      cases hs
      exact h.finishLastPage hl hn
    rw [if_neg hn] at hs
    have hone := submitCnt_le cfg k
    have hn0 : n = 0 := by omega
    subst hn0
    by_cases hneg : ret < 0
    · rw [if_pos hneg] at hs
      cases hs
      exact h.throw _ _ _
    rw [if_neg hneg] at hs
    split_ifs at hs with hle
    cases hs
    obtain hz | ho : ret.toNat = 0 ∨ ret.toNat = 1 := by omega
    · simp only [hz, ioSubmit, List.take_zero, List.append_nil, ← hl]
      exact h
    · have hslot := h.reads.lastSlot k (Or.inr (by simp [State.lastPosting, hl]))
      simp only [ho, ioSubmit_one hslot]
      exact h.submitLast hl

theorem Inv.complete {c : Completion} (h : Inv cfg s) (hs : complete c s = some s') : Inv cfg s' := by
  unfold Io.complete at hs
  split_ifs at hs with hk
  cases hs
  refine ⟨h.reads.congr rfl rfl rfl rfl ?_ (fun j hd => ?_) rfl rfl,
    h.counts.congr rfl rfl rfl rfl (fun _ => Or.inl) (fun _ => Or.inl),
    h.order.congr rfl id rfl rfl rfl rfl rfl⟩
  · funext j
    have hpos := List.count_pos_iff.mpr hk
    simp only [State.submitted, State.inFlight, State.counts, State.hand, count_map_snoc, List.count_erase,
      beq_iff_eq]
    by_cases hj : c.chunkId = j
    · subst hj
      simp only [if_true]
      omega
    · rw [if_neg hj]
      omega
  · rcases hd.of_cuda s rfl rfl rfl (fun _ => id) (fun _ => id) with hd | ⟨f, hf, rfl⟩
    · exact Or.inl hd
    · exact Or.inl (.reading f hf)

end LastPage

/-! ### The cuda thread -/

section Cuda

variable {cfg : Config} {s s' : State}

/-- A read is submitted after its count is set. -/
theorem Inv.lt_counted (h : Inv cfg s) {k : ℕ} (hk : 0 < s.submitted k) : k < s.counted := by
  have hc := h.reads.census k
  have hone := submitCnt_le cfg k
  have hprep : k < s.prepared := by
    by_contra hge
    rw [if_neg hge] at hc
    omega
  by_cases hp : s.post = .count
  · -- the read of the current chunk is still to be submitted
    have hcur := h.order.current_succ (by simp [hp])
    simp only [State.prepared, hp] at hprep
    simp only [State.counted, hp]
    by_contra hge
    have hk' : k = s.current := by omega
    subst hk'
    have hpos := h.reads.submitted_le s.current
    have hposting : posting cfg s = some s.current := by
      simp [posting, hp]
      omega
    have hnew := (h.reads.of_unsubmitted (unsubmitted_pos_of_posting hposting)).2.1
    omega
  · have heq : s.counted = s.prepared := by
      cases hq : s.post <;> simp_all [State.counted, State.prepared]
    omega

/-- A completion that is on its way finds the count of its chunk at 1. -/
theorem Inv.unfinished_eq_one (h : Inv cfg s) {k : ℕ} (hk : 0 < s.inFlight k) :
    s.unfinished k = 1 ∧ s.counts k = 0 ∧ cfg.submitCnt k = 1 := by
  have hsub : s.submitted k = s.inFlight k + s.counts k := rfl
  have hcount := h.counts.counter k (h.lt_counted (by omega))
  have hle := h.reads.submitted_le k
  have hone := submitCnt_le cfg k
  refine ⟨?_, by omega, by omega⟩
  apply UInt64.toNat_inj.mp
  show _ = 1
  omega

theorem Inv.takeTask (h : Inv cfg s) {f : CudaFunc} {rest : List CudaFunc} (hc : s.cuda = .idle)
    (hq : s.cudaQueue = f :: rest) :
    Inv cfg { s with cudaQueue := rest, cuda := if f.aioReq then .reapAio f else .loop f } := by
  cases ha : f.aioReq with
  | true =>
    refine ⟨h.reads.congr rfl rfl rfl rfl ?_ (fun k hd => ?_) rfl rfl,
      h.counts.congr rfl rfl rfl rfl (fun _ he => by cases he) (fun _ he => by cases he),
      h.order.congr rfl id rfl rfl rfl ?_ rfl⟩
    · funext k
      simp [State.submitted, State.inFlight, State.counts, State.hand, hc]
    · rcases hd.of_cuda s rfl rfl rfl (fun _ => id) (by simp [hq]) with hd | ⟨g, hg, -⟩
      · exact Or.inl hd
      · cases hg
    · simp [CudaPc.func?, hc, hq]
  | false =>
    refine ⟨h.reads.congr rfl rfl rfl rfl ?_ (fun k hd => ?_) rfl rfl,
      h.counts.congr rfl rfl rfl rfl (fun _ he => by cases he) (fun _ he => by cases he),
      h.order.congr rfl id rfl rfl rfl ?_ rfl⟩
    · funext k
      simp [State.submitted, State.inFlight, State.counts, State.hand, hc]
    · rcases hd.of_cuda s rfl rfl rfl (fun _ => id) (by simp [hq]) with hd | ⟨g, hg, rfl⟩
      · exact Or.inl hd
      · cases hg
        exact Or.inl (.queued f (by simp [hq]) ha)
    · simp [CudaPc.func?, hc, hq]

theorem Inv.reapLastPage (h : Inv cfg s) {f : CudaFunc} (hc : s.cuda = .reapAio f)
    (hf : f.chunkId ∈ s.lastPageResults) :
    Inv cfg { s with lastPageResults := s.lastPageResults.erase f.chunkId, cuda := .loop f } := by
  refine ⟨h.reads.congr rfl rfl rfl rfl ?_ (fun k hd => ?_) rfl rfl,
    h.counts.congr rfl rfl rfl rfl (fun _ he => by cases he) (fun _ he => by cases he),
    h.order.congr rfl id rfl rfl rfl ?_ rfl⟩
  · funext k
    simp [State.submitted, State.inFlight, State.counts, State.hand, hc]
  · rcases hd.of_cuda s rfl rfl rfl (List.erase_subset) (fun _ => id) with hd | ⟨g, hg, rfl⟩
    · exact Or.inl hd
    · cases hg
      exact Or.inl (.result _ hf)
  · simp [CudaPc.func?, hc]

/-- The cuda thread stays in its `cuda_func` and counts nothing. -/
theorem Inv.cudaTo (h : Inv cfg s) {f : CudaFunc} {pc : CudaPc} {cs : List Completion}
    (hc : s.cuda.reading? = some f) (hpc : pc.reading? = some f)
    (hsub : ({ s with completions := cs, cuda := pc } : State).inFlight = s.inFlight)
    (hwait : pc = .wait f → 0 < s.unfinished f.chunkId)
    (hcopy : pc = .copy f → s.counts f.chunkId = cfg.submitCnt f.chunkId) :
    Inv cfg { s with completions := cs, cuda := pc } := by
  have hfunc : ∀ q : CudaPc, q.reading? = some f → q.func? = some f := by
    rintro (_ | _ | _ | _ | _ | _) hq
    all_goals first | exact hq | cases hq
  refine ⟨h.reads.congr rfl rfl rfl rfl ?_ (fun k hd => ?_) rfl rfl,
    h.counts.congr rfl rfl rfl rfl (fun g hg => Or.inr ?_) (fun g hg => Or.inr ?_),
    h.order.congr rfl id rfl rfl rfl ?_ rfl⟩
  · funext k
    rw [State.submitted, State.submitted, hsub]
    rfl
  · rcases hd.of_cuda s rfl rfl rfl (fun _ => id) (fun _ => id) with hd | ⟨g, hg, rfl⟩
    · exact Or.inl hd
    · have : g = f := Option.some.inj (hg.symm.trans hpc)
      subst this
      exact Or.inl (.reading g hc)
  · change pc = .wait g at hg
    have : g = f := by rw [hg] at hpc; exact Option.some.inj hpc
    subst this
    exact hwait hg
  · change pc = .copy g at hg
    have : g = f := by rw [hg] at hpc; exact Option.some.inj hpc
    subst this
    exact hcopy hg
  · show pc.func?.toList ++ _ = _
    rw [hfunc _ hc, hfunc _ hpc]

/-- The loop test of `cuda_func`. -/
theorem Inv.loopTest (h : Inv cfg s) {f : CudaFunc} (hc : s.cuda = .loop f) :
    Inv cfg { s with cuda := if 0 < s.unfinished f.chunkId then .wait f else .copy f } := by
  have hread : s.cuda.reading? = some f := by rw [hc]; rfl
  by_cases hpos : 0 < s.unfinished f.chunkId
  · rw [if_pos hpos]
    refine h.cudaTo hread rfl ?_ (fun _ => hpos) (fun he => by cases he)
    funext k
    simp [State.inFlight, State.hand, hc]
  · rw [if_neg hpos]
    refine h.cudaTo hread rfl ?_ (fun he => by cases he) (fun _ => ?_)
    · funext k
      simp [State.inFlight, State.hand, hc]
    · have hrun := h.order.running_lt (show s.cuda.func? = some f by rw [hc]; rfl)
      have hcount := h.counts.counter f.chunkId (hrun.trans_le (tasks_le_counted s))
      have hzero : (s.unfinished f.chunkId).toNat = 0 := Nat.eq_zero_of_not_pos hpos
      omega

/-- Some completions go from the queue to the cuda thread. -/
theorem Inv.take (h : Inv cfg s) {f : CudaFunc} (hc : s.cuda = .wait f) {es cs : List Completion}
    (hcs : s.completions = es ++ cs) : Inv cfg { s with completions := cs, cuda := .events f es } := by
  refine h.cudaTo (by rw [hc]; rfl) rfl ?_ (fun he => by cases he) (fun he => by cases he)
  funext k
  simp only [State.inFlight, State.hand, hc, hcs, List.map_append, List.count_append, List.map_nil,
    List.count_nil]
  omega

theorem Inv.takeCompletions {f : CudaFunc} {ret : ℤ} (h : Inv cfg s) (hc : s.cuda = .wait f)
    (hs : takeCompletions cfg f ret s = some s') : Inv cfg s' := by
  unfold Io.takeCompletions at hs
  split at hs
  · split_ifs at hs
    · cases hs
      exact h.throw _ _ _
    · split at hs
      · cases hs
      · rename_i c rest hq
        cases hs
        exact h.take hc hq
  · split_ifs at hs
    · cases hs
      exact h.throw _ _ _
    · cases hs
      exact h.take hc (List.take_append_drop _ _).symm

/-- A completion decrements the count of its own chunk, from 1 to 0. -/
theorem Inv.count (h : Inv cfg s) {f : CudaFunc} {c : Completion} {es : List Completion}
    (hc : s.cuda = .events f (c :: es))
    (henough : ((cfg.params c.chunkId).rankSize : ℤ) ≤ cfg.readRes c) :
    Inv cfg { s with
      unfinishedCnt := s.unfinishedCnt.set c.chunkId (s.unfinished c.chunkId - 1)
      processed := s.processed ++ [c]
      cuda := .events f es } := by
  have hhand : s.hand = c :: es := by simp [State.hand, hc]
  have hflight : 0 < s.inFlight c.chunkId := by
    simp only [State.inFlight, hhand, count_map_cons, if_true]
    omega
  obtain ⟨hun, hcnt, hone⟩ := h.unfinished_eq_one hflight
  have hlt : c.chunkId < s.unfinishedCnt.length := by
    have h1 := h.lt_counted (k := c.chunkId) (by unfold State.submitted; omega)
    have h2 : s.counted ≤ s.posted := by
      cases hp : s.post <;> simp [State.counted, State.current, hp]
    have h3 := h.order.posted_le
    have h4 := h.counts.counters
    omega
  set s' : State := { s with
    unfinishedCnt := s.unfinishedCnt.set c.chunkId (s.unfinished c.chunkId - 1)
    processed := s.processed ++ [c]
    cuda := .events f es }
  have hcounts : ∀ k, s'.counts k = s.counts k + if c.chunkId = k then 1 else 0 := by
    intro k
    exact count_map_snoc _ _ _ _
  refine ⟨h.reads.congr rfl rfl rfl rfl ?_ (fun k hd => ?_) rfl rfl, ⟨?_, fun k hk => ?_, fun d hd => ?_,
    fun k hk => ?_, fun _ he => (by cases he), fun _ he => (by cases he)⟩,
    h.order.congr rfl id rfl rfl rfl ?_ rfl⟩
  · funext k
    have hhand' : s'.hand = es := rfl
    rw [State.submitted, State.submitted, hcounts]
    simp only [State.inFlight, hhand, hhand', count_map_cons, s']
    omega
  · rcases hd.of_cuda s rfl rfl rfl (fun _ => id) (fun _ => id) with hd | ⟨g, hg, rfl⟩
    · exact Or.inl hd
    · exact Or.inl (.reading g (by rw [hc]; exact hg))
  · simp [h.counts.counters, s']
  · show ((s.unfinishedCnt.set _ _).getD k 0).toNat + s'.counts k = _
    rw [unfinished_set hlt, hcounts]
    by_cases hk' : k = c.chunkId
    · subst hk'
      rw [if_pos rfl, if_pos rfl, hun, hcnt, hone]
      rfl
    · rw [if_neg hk', if_neg (Ne.symm hk')]
      exact h.counts.counter k hk
  · rcases List.mem_append.mp hd with hd | hd
    · exact h.counts.enough d hd
    · rw [List.mem_singleton.mp hd]
      exact henough
  · have hold := h.counts.copied k hk
    have hne : c.chunkId ≠ k := by
      rintro rfl
      omega
    rw [hcounts, if_neg hne]
    exact hold
  · simp [CudaPc.func?, hc, s']

theorem Inv.countCompletion (h : Inv cfg s) {f : CudaFunc} {c : Completion} {es : List Completion}
    (hc : s.cuda = .events f (c :: es)) : Inv cfg (countCompletion cfg f c es s) := by
  unfold Io.countCompletion
  split_ifs with hneg hshort
  · exact h.throw _ _ _
  · exact h.throw _ _ _
  · refine h.count hc ?_
    rw [logicalSize_eq] at hshort
    omega

theorem Inv.copy (h : Inv cfg s) {f : CudaFunc} (hc : s.cuda = .copy f) :
    Inv cfg { s with copied := s.copied ++ [f.chunkId], cuda := .idle } := by
  refine ⟨h.reads.congr rfl rfl rfl rfl ?_ (fun k hd => ?_) rfl rfl,
    ⟨h.counts.counters, h.counts.counter, h.counts.enough, fun k hk => ?_, fun _ he => (by cases he),
      fun _ he => (by cases he)⟩,
    ⟨h.order.busy, h.order.posted_le, ?_, fun k hk => ?_, fun j k hk hj => ?_⟩⟩
  · funext k
    simp [State.submitted, State.inFlight, State.counts, State.hand, hc]
  · rcases hd.of_cuda s rfl rfl rfl (fun _ => id) (fun _ => id) with hd | ⟨g, hg, -⟩
    · exact Or.inl hd
    · cases hg
  · rcases List.mem_append.mp hk with hk | hk
    · exact h.counts.copied k hk
    · rw [List.mem_singleton.mp hk]
      exact h.counts.copying f hc
  · have hfifo := h.order.fifo
    rw [hc] at hfifo
    show _ = List.range s.tasks
    simpa [CudaPc.func?] using hfifo
  · exact List.mem_append_left _ (h.order.waited k hk)
  · exact List.mem_append_left _ (h.order.clear j k hk hj)

/-- The step of the cuda thread. -/
theorem Inv.cudaStep {ret : ℤ} (h : Inv cfg s) (hs : cudaStep cfg ret s = some s') : Inv cfg s' := by
  unfold Io.cudaStep at hs
  by_cases herr : s.cudaError.isSome = true
  · rw [if_pos herr] at hs
    cases hs
  rw [if_neg herr] at hs
  split at hs
  · rename_i hc
    split at hs
    · cases hs
    · rename_i f rest hq
      cases hs
      exact h.takeTask hc hq
  · rename_i f hc
    split_ifs at hs with hf
    cases hs
    exact h.reapLastPage hc hf
  · rename_i f hc
    cases hs
    exact h.loopTest hc
  · rename_i f hc
    exact h.takeCompletions hc hs
  · rename_i f hc
    cases hs
    refine h.cudaTo (by rw [hc]; rfl) rfl ?_ (fun he => by cases he) (fun he => by cases he)
    funext k
    simp [State.inFlight, State.hand, hc]
  · rename_i f c es hc
    cases hs
    exact h.countCompletion hc
  · rename_i f hc
    cases hs
    exact h.copy hc

theorem Inv.waitStep (h : Inv cfg s) (hs : waitStep s = some s') : Inv cfg s' := by
  unfold Io.waitStep at hs
  split at hs
  · cases hs
  · rename_i k rest hq
    split_ifs at hs with hk
    cases hs
    refine ⟨h.reads.congr rfl rfl rfl rfl rfl (fun j hd => ?_) rfl rfl,
      h.counts.congr rfl rfl rfl rfl (fun _ => Or.inl) (fun _ => Or.inl),
      ⟨h.order.busy, h.order.posted_le, h.order.fifo, fun j hj => ?_, h.order.clear⟩⟩
    · rcases hd.of_cuda s rfl rfl rfl (fun _ => id) (fun _ => id) with hd | ⟨f, hf, rfl⟩
      · exact Or.inl hd
      · exact Or.inl (.reading f hf)
    · rcases List.mem_append.mp hj with hj | hj
      · exact h.order.waited j hj
      · rw [List.mem_singleton.mp hj]
        exact hk

end Cuda

end Io
end Siphon
