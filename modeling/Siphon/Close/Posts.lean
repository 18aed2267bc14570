/-
# What the posts of a loader have submitted

`post_read_chunk` submits up to three tasks for a chunk: to the reader, to
`cuda_thread` and to `wait_thread`. `Posts` says which tasks the executors have
been given at every point of a post, and which ids the functions hold of each
other: the `wait_func` of a chunk holds the id of its `cuda_func`, which holds
the id of its read. The ids of the chunks that are not reaped are among the last
that were given out, so that no two of them are the same (`Issued.ne`).

Key definitions: `staged`, `Issued`, `Posts`, `Turn`.
-/
import Mathlib.Data.Nat.Count
import Siphon.Close.Model

namespace Siphon
namespace Close

open Executor

/-! ### The reads before a chunk -/

section Reads

variable (cfg : Config)

/-- The chunks below `k` that are read by a task. -/
def Config.readsBefore (k : ℕ) : ℕ := Nat.count (fun j => cfg.readTask j = true) k

variable {cfg} {j k : ℕ}

theorem readsBefore_succ (k : ℕ) : cfg.readsBefore (k + 1) = cfg.readsBefore k + if cfg.readTask k then 1 else 0 :=
  Nat.count_succ _ k

theorem readsBefore_mono (h : j ≤ k) : cfg.readsBefore j ≤ cfg.readsBefore k := Nat.count_monotone _ h

theorem readsBefore_lt (hj : cfg.readTask j = true) (h : j < k) : cfg.readsBefore j < cfg.readsBefore k :=
  Nat.count_strict_mono (p := fun j => cfg.readTask j = true) hj h

theorem readsBefore_sub_le (h : j ≤ k) : cfg.readsBefore k ≤ cfg.readsBefore j + (k - j) := by
  obtain ⟨n, rfl⟩ := Nat.exists_eq_add_of_le h
  rw [Config.readsBefore, Nat.count_add]
  have := Nat.count_le (p := fun i => cfg.readTask (j + i) = true) (n := n)
  unfold Config.readsBefore
  omega

/-- A registered mapping is read by the device. -/
theorem readTask_of_registered (h : cfg.registered = true) (k : ℕ) : cfg.readTask k = false := by
  simp only [Config.registered, Bool.decide_and, Bool.and_eq_true, decide_eq_true_eq] at h
  obtain ⟨hb, hu⟩ := h
  simp [Config.readTask, Config.needWorkerThreads, Config.isAio, hb, hu]

theorem registered_of_readTask (h : cfg.readTask k = true) : cfg.registered = false := by
  by_contra hreg
  rw [readTask_of_registered (by simpa using hreg)] at h
  cases h

theorem readsBefore_of_registered (h : cfg.registered = true) (k : ℕ) : cfg.readsBefore k = 0 := by
  rw [Config.readsBefore, Nat.count_iff_forall_not]
  intro j _
  simp [readTask_of_registered h]

end Reads

/-! ### The stages of a post -/

/-- How many of the read, the `cuda_func` and the `wait_func` the post has in front of it. -/
def LoaderPc.ahead : LoaderPc → ℕ
  | .window | .read => 3
  | .submitCuda _ => 2
  | .submitWait _ => 1
  | .idle | .poll | .waitRead _ | .join _ | .joinSample | .destroyBuffer => 0

/-- The chunks whose read (3), `cuda_func` (2) or `wait_func` (1) is posted. -/
def staged (stage : ℕ) (pc : LoaderPc) (posted : ℕ) : ℕ := if stage ≤ pc.ahead then posted - 1 else posted

/-- `next_executor_request_id` returned the id since the post of the chunk. -/
def Issued (requests ahead posted chunkId : ℕ) (id : ℤ) : Prop :=
  ∃ n < requests, id = (executorRequestId n).toNat ∧ requests + ahead ≤ n + 3 * (posted - chunkId)

section Issued

variable {requests ahead posted chunkId : ℕ} {id : ℤ}

theorem Issued.mono (h : Issued requests ahead posted chunkId id) {requests' ahead' posted' : ℕ}
    (hr : requests ≤ requests')
    (hle : requests' + ahead' + 3 * posted ≤ requests + ahead + 3 * posted') :
    Issued requests' ahead' posted' chunkId id := by
  obtain ⟨n, hn, hid, hlast⟩ := h
  exact ⟨n, by omega, hid, by omega⟩

theorem Issued.lt (h : Issued requests ahead posted chunkId id) : chunkId < posted := by
  obtain ⟨n, hn, -, hlast⟩ := h
  omega

theorem Issued.ne_stop (h : Issued requests ahead posted chunkId id) : id ≠ stopRequestId := by
  obtain ⟨n, -, rfl, -⟩ := h
  unfold stopRequestId
  omega

/-- The next id is not one of the chunks of the window. -/
theorem Issued.ne (h : Issued requests ahead posted chunkId id) (hk : posted ≤ chunkId + 2 * maxIoDepth) :
    id ≠ (executorRequestId requests).toNat := by
  obtain ⟨n, hn, rfl, hlast⟩ := h
  have hne := executorRequestId_ne hn (by unfold maxIoDepth at hk; omega)
  rw [Ne, Nat.cast_inj]
  exact fun he => hne (UInt32.toNat_inj.mp he)

theorem issued_next (hpos : 0 < posted) (ha : ahead ≤ 2) :
    Issued (requests + 1) ahead posted (posted - 1) (executorRequestId requests).toNat :=
  ⟨requests, Nat.lt_succ_self _, rfl, by omega⟩

end Issued

/-! ### What the posts have submitted -/

/-- The id that the `cuda_func` of a chunk holds of its read. -/
def ReadId (cfg : Config) (reads : List (Executor.Task ℕ)) (chunkId : ℕ) (id : ℤ) : Prop :=
  if cfg.readTask chunkId then ∃ t, reads[cfg.readsBefore chunkId]? = some t ∧ t.requestId = id
  else id = stopRequestId

/-- The id that the `wait_func` of a chunk holds of its `cuda_func`. -/
def CudaId (cfg : Config) (cudas : List (Executor.Task CudaFunc)) (chunkId : ℕ) (id : ℤ) : Prop :=
  if cfg.registered then id = stopRequestId else ∃ u, cudas[chunkId]? = some u ∧ u.requestId = id

section Ids

variable {cfg : Config} {chunkId : ℕ} {id : ℤ}

theorem ReadId.append {reads : List (Executor.Task ℕ)} (h : ReadId cfg reads chunkId id)
    (l : List (Executor.Task ℕ)) : ReadId cfg (reads ++ l) chunkId id := by
  unfold ReadId at h ⊢
  split_ifs at h ⊢
  · obtain ⟨t, ht, hid⟩ := h
    exact ⟨t, by rw [List.getElem?_append_left (List.getElem?_eq_some_iff.mp ht).1, ht], hid⟩
  · exact h

theorem CudaId.append {cudas : List (Executor.Task CudaFunc)} (h : CudaId cfg cudas chunkId id)
    (l : List (Executor.Task CudaFunc)) : CudaId cfg (cudas ++ l) chunkId id := by
  unfold CudaId at h ⊢
  split_ifs at h ⊢
  · exact h
  · obtain ⟨u, hu, hid⟩ := h
    exact ⟨u, by rw [List.getElem?_append_left (List.getElem?_eq_some_iff.mp hu).1, hu], hid⟩

end Ids

/-- The tasks that the executors have been given. -/
structure Posts (cfg : Config) (requests posted : ℕ) (pc : LoaderPc) (handles : List ℤ)
    (reads : List (Executor.Task ℕ)) (cudas : List (Executor.Task CudaFunc)) (waits : List (Executor.Task WaitFunc)) :
    Prop where
  some_posted : 0 < pc.ahead → 0 < posted
  reads_length : reads.length = cfg.readsBefore (staged 3 pc posted)
  read : ∀ i t, reads[i]? = some t → t.needsResult = true ∧ cfg.readTask t.payload = true ∧
    i = cfg.readsBefore t.payload ∧ Issued requests pc.ahead posted t.payload t.requestId
  cudas_length : cudas.length = if cfg.registered then 0 else staged 2 pc posted
  cuda : ∀ k u, cudas[k]? = some u → u.needsResult = true ∧ u.payload.chunkId = k ∧
    Issued requests pc.ahead posted k u.requestId ∧ ReadId cfg reads k u.payload.readReqId
  waits_length : waits.length = staged 1 pc posted
  wait : ∀ k v, waits[k]? = some v → v.needsResult = true ∧ v.payload.chunkId = k ∧
    Issued requests pc.ahead posted k v.requestId ∧ CudaId cfg cudas k v.payload.cudaReqId
  waits_handles : handles = waits.map (·.requestId)
  submitCuda : ∀ id, pc = .submitCuda id → cfg.registered = false ∧ ReadId cfg reads (posted - 1) id
  submitWait : ∀ id, pc = .submitWait id → CudaId cfg cudas (posted - 1) id

section Posts

variable {cfg : Config} {requests posted : ℕ} {pc pc' : LoaderPc} {handles : List ℤ} {reads : List (Executor.Task ℕ)}
  {cudas : List (Executor.Task CudaFunc)} {waits : List (Executor.Task WaitFunc)}

theorem eq_or_of_getElem?_snoc {α : Type} {l : List α} {a b : α} {i : ℕ} (h : (l ++ [a])[i]? = some b) :
    l[i]? = some b ∨ i = l.length ∧ b = a := by
  rcases Nat.lt_or_ge i l.length with hi | hi
  · rw [List.getElem?_append_left hi] at h
    exact .inl h
  · rw [List.getElem?_append_right hi] at h
    obtain ⟨hlt, rfl⟩ := List.getElem?_eq_some_iff.mp h
    simp only [List.length_singleton] at hlt
    exact .inr ⟨by omega, by simp⟩

theorem posts_init : Posts cfg 0 0 .idle [] [] [] [] :=
  { some_posted := fun h => absurd h (Nat.lt_irrefl 0)
    reads_length := rfl
    read := fun i t h => by simp at h
    cudas_length := by simp [staged, LoaderPc.ahead]
    cuda := fun k u h => by simp at h
    waits_length := rfl
    wait := fun k v h => by simp at h
    waits_handles := rfl
    submitCuda := fun id h => by simp at h
    submitWait := fun id h => by simp at h }

/-- The loader thread goes on without a submission. -/
theorem Posts.goto (h : Posts cfg requests posted pc handles reads cudas waits) (ha : pc'.ahead = pc.ahead)
    (hcuda : ∀ id, pc' ≠ .submitCuda id) (hwait : ∀ id, pc' ≠ .submitWait id) :
    Posts cfg requests posted pc' handles reads cudas waits := by
  have hstaged : ∀ stage, staged stage pc' posted = staged stage pc posted := fun stage => by rw [staged, ha, staged]
  exact
    { h with
      some_posted := by rw [ha]; exact h.some_posted
      reads_length := by rw [hstaged]; exact h.reads_length
      read := by rw [ha]; exact h.read
      cudas_length := by rw [hstaged]; exact h.cudas_length
      cuda := by rw [ha]; exact h.cuda
      waits_length := by rw [hstaged]; exact h.waits_length
      wait := by rw [ha]; exact h.wait
      submitCuda := fun id he => absurd he (hcuda id)
      submitWait := fun id he => absurd he (hwait id) }

/-- Ids stay issued while the post goes on. -/
theorem Posts.mono (h : Posts cfg requests posted pc handles reads cudas waits) {requests' posted' : ℕ}
    (ahead' : ℕ) (hr : requests ≤ requests')
    (hle : requests' + ahead' + 3 * posted ≤ requests + pc.ahead + 3 * posted') :
    (∀ i t, reads[i]? = some t → t.needsResult = true ∧ cfg.readTask t.payload = true ∧
      i = cfg.readsBefore t.payload ∧ Issued requests' ahead' posted' t.payload t.requestId) ∧
    (∀ k u, cudas[k]? = some u → u.needsResult = true ∧ u.payload.chunkId = k ∧
      Issued requests' ahead' posted' k u.requestId ∧ ReadId cfg reads k u.payload.readReqId) ∧
    ∀ k v, waits[k]? = some v → v.needsResult = true ∧ v.payload.chunkId = k ∧
      Issued requests' ahead' posted' k v.requestId ∧ CudaId cfg cudas k v.payload.cudaReqId := by
  refine ⟨fun i t ht => ?_, fun k u hu => ?_, fun k v hv => ?_⟩
  · obtain ⟨hneeds, hread, hi, hid⟩ := h.read i t ht
    exact ⟨hneeds, hread, hi, hid.mono hr hle⟩
  · obtain ⟨hneeds, hk, hid, hheld⟩ := h.cuda k u hu
    exact ⟨hneeds, hk, hid.mono hr hle, hheld⟩
  · obtain ⟨hneeds, hk, hid, hheld⟩ := h.wait k v hv
    exact ⟨hneeds, hk, hid.mono hr hle, hheld⟩

/-- The next chunk. -/
theorem Posts.next (h : Posts cfg requests posted pc handles reads cudas waits) (ha : pc.ahead = 0) :
    Posts cfg requests (posted + 1) .window handles reads cudas waits := by
  have hstaged : ∀ stage, stage ≤ 3 → 0 < stage → staged stage .window (posted + 1) = staged stage pc posted := by
    intro stage hle hpos
    rw [staged, staged, if_pos (show stage ≤ LoaderPc.window.ahead from hle), if_neg (by omega), Nat.add_sub_cancel]
  obtain ⟨hread, hcuda, hwait⟩ :=
    h.mono 3 (le_refl requests) (show requests + 3 + 3 * posted ≤ requests + pc.ahead + 3 * (posted + 1) by omega)
  exact
    { some_posted := fun _ => Nat.succ_pos posted
      reads_length := by rw [hstaged 3 (by omega) (by omega)]; exact h.reads_length
      read := hread
      cudas_length := by rw [hstaged 2 (by omega) (by omega)]; exact h.cudas_length
      cuda := hcuda
      waits_length := by rw [hstaged 1 (by omega) (by omega)]; exact h.waits_length
      wait := hwait
      waits_handles := h.waits_handles
      submitCuda := fun id he => by simp at he
      submitWait := fun id he => by simp at he }

/-- The read is submitted. -/
theorem Posts.readTask (h : Posts cfg requests posted .read handles reads cudas waits)
    (hread : cfg.readTask (posted - 1) = true) : Posts cfg (requests + 1) posted
    (.submitCuda (executorRequestId requests).toNat) handles
    (reads ++ [⟨(executorRequestId requests).toNat, true, posted - 1, reads.length⟩]) cudas waits := by
  have hpos := h.some_posted (Nat.succ_pos 2)
  have hlen : reads.length = cfg.readsBefore (posted - 1) := h.reads_length
  have hreg := registered_of_readTask hread
  obtain ⟨hreads, hcudas, hwaits⟩ :=
    h.mono 2 (Nat.le_succ requests) (show requests + 1 + 2 + 3 * posted ≤ requests + 3 + 3 * posted by omega)
  have hsucc : cfg.readsBefore posted = cfg.readsBefore (posted - 1) + 1 := by
    rw [← Nat.succ_pred_eq_of_pos hpos, readsBefore_succ]
    simp [hread]
  refine
    { some_posted := fun _ => hpos
      reads_length := ?_
      read := fun i t ht => ?_
      cudas_length := h.cudas_length
      cuda := fun k u hu => ?_
      waits_length := h.waits_length
      wait := hwaits
      waits_handles := h.waits_handles
      submitCuda := fun id he => ⟨hreg, ?_⟩
      submitWait := fun id he => by simp at he }
  · rw [List.length_append, List.length_singleton, hlen]
    exact hsucc.symm
  · rcases eq_or_of_getElem?_snoc ht with ht | ⟨rfl, rfl⟩
    · exact hreads i t ht
    · exact ⟨rfl, hread, hlen, issued_next hpos (le_refl 2)⟩
  · obtain ⟨hneeds, hk, hid, hheld⟩ := hcudas k u hu
    exact ⟨hneeds, hk, hid, hheld.append _⟩
  · obtain rfl := LoaderPc.submitCuda.inj he
    rw [ReadId, if_pos hread, ← hlen]
    exact ⟨_, List.getElem?_concat_length, rfl⟩

/-- There is no task for the read. -/
theorem Posts.skipTask (h : Posts cfg requests posted .read handles reads cudas waits)
    (hread : cfg.readTask (posted - 1) = false) (hreg : cfg.registered = false) :
    Posts cfg requests posted (.submitCuda stopRequestId) handles reads cudas waits := by
  have hpos := h.some_posted (Nat.succ_pos 2)
  obtain ⟨hreads, hcudas, hwaits⟩ :=
    h.mono 2 (le_refl requests) (show requests + 2 + 3 * posted ≤ requests + 3 + 3 * posted by omega)
  have hsucc : cfg.readsBefore posted = cfg.readsBefore (posted - 1) := by
    rw [← Nat.succ_pred_eq_of_pos hpos, readsBefore_succ]
    simp [hread]
  exact
    { some_posted := fun _ => hpos
      reads_length := h.reads_length.trans hsucc.symm
      read := hreads
      cudas_length := h.cudas_length
      cuda := hcudas
      waits_length := h.waits_length
      wait := hwaits
      waits_handles := h.waits_handles
      submitCuda := fun id he => ⟨hreg, by
        obtain rfl := LoaderPc.submitCuda.inj he
        rw [ReadId, if_neg (by simp [hread])]⟩
      submitWait := fun id he => by simp at he }

/-- The loader thread has given the chunk to the device. -/
theorem Posts.skipCuda (h : Posts cfg requests posted .read handles reads cudas waits)
    (hreg : cfg.registered = true) :
    Posts cfg requests posted (.submitWait stopRequestId) handles reads cudas waits := by
  have hpos := h.some_posted (Nat.succ_pos 2)
  obtain ⟨hreads, hcudas, hwaits⟩ :=
    h.mono 1 (le_refl requests) (show requests + 1 + 3 * posted ≤ requests + 3 + 3 * posted by omega)
  have hnone := h.cudas_length
  rw [if_pos hreg] at hnone
  exact
    { some_posted := fun _ => hpos
      reads_length := by rw [h.reads_length, readsBefore_of_registered hreg, readsBefore_of_registered hreg]
      read := hreads
      cudas_length := by rw [hnone, if_pos hreg]
      cuda := hcudas
      waits_length := h.waits_length
      wait := hwaits
      waits_handles := h.waits_handles
      submitCuda := fun id he => by simp at he
      submitWait := fun id he => by
        obtain rfl := LoaderPc.submitWait.inj he
        rw [CudaId, if_pos hreg] }

/-- The `cuda_func` is submitted. -/
theorem Posts.cudaFunc {readReqId : ℤ}
    (h : Posts cfg requests posted (.submitCuda readReqId) handles reads cudas waits) :
    Posts cfg (requests + 1) posted (.submitWait (executorRequestId requests).toNat) handles reads
      (cudas ++ [⟨(executorRequestId requests).toNat, true, ⟨posted - 1, readReqId⟩, cudas.length⟩]) waits := by
  have hpos := h.some_posted (Nat.succ_pos 1)
  obtain ⟨hreg, hheld⟩ := h.submitCuda readReqId rfl
  have hlen := h.cudas_length
  rw [if_neg (by simp [hreg])] at hlen
  obtain ⟨hreads, hcudas, hwaits⟩ :=
    h.mono 1 (Nat.le_succ requests) (show requests + 1 + 1 + 3 * posted ≤ requests + 2 + 3 * posted by omega)
  have hlen : cudas.length = posted - 1 := hlen
  refine
    { some_posted := fun _ => hpos
      reads_length := h.reads_length
      read := hreads
      cudas_length := ?_
      cuda := fun k u hu => ?_
      waits_length := h.waits_length
      wait := fun k v hv => ?_
      waits_handles := h.waits_handles
      submitCuda := fun id he => by simp at he
      submitWait := fun id he => ?_ }
  · rw [List.length_append, List.length_singleton, if_neg (by simp [hreg]), hlen]
    exact Nat.sub_add_cancel hpos
  · rcases eq_or_of_getElem?_snoc hu with hu | ⟨rfl, rfl⟩
    · exact hcudas k u hu
    · rw [hlen]
      exact ⟨rfl, rfl, issued_next hpos (Nat.le_succ 1), hheld⟩
  · obtain ⟨hneeds, hk, hid, hheld⟩ := hwaits k v hv
    exact ⟨hneeds, hk, hid, hheld.append _⟩
  · obtain rfl := LoaderPc.submitWait.inj he
    rw [CudaId, if_neg (by simp [hreg]), ← hlen]
    exact ⟨_, List.getElem?_concat_length, rfl⟩

/-- The `wait_func` is submitted. -/
theorem Posts.waitFunc {cudaReqId : ℤ}
    (h : Posts cfg requests posted (.submitWait cudaReqId) handles reads cudas waits) :
    Posts cfg (requests + 1) posted .poll (handles ++ [((executorRequestId requests).toNat : ℤ)]) reads cudas
      (waits ++ [⟨(executorRequestId requests).toNat, true, ⟨posted - 1, cudaReqId⟩, waits.length⟩]) := by
  have hpos := h.some_posted (Nat.succ_pos 0)
  have hheld := h.submitWait cudaReqId rfl
  have hlen : waits.length = posted - 1 := h.waits_length
  obtain ⟨hreads, hcudas, hwaits⟩ :=
    h.mono 0 (Nat.le_succ requests) (show requests + 1 + 0 + 3 * posted ≤ requests + 1 + 3 * posted by omega)
  refine
    { some_posted := fun _ => hpos
      reads_length := h.reads_length
      read := hreads
      cudas_length := h.cudas_length
      cuda := hcudas
      waits_length := ?_
      wait := fun k v hv => ?_
      waits_handles := by rw [h.waits_handles, List.map_append, List.map_singleton]
      submitCuda := fun id he => by simp at he
      submitWait := fun id he => by simp at he }
  · rw [List.length_append, List.length_singleton, hlen]
    exact Nat.sub_add_cancel hpos
  · rcases eq_or_of_getElem?_snoc hv with hv | ⟨rfl, rfl⟩
    · exact hwaits k v hv
    · rw [hlen]
      exact ⟨rfl, rfl, issued_next hpos (Nat.zero_le 2), hheld⟩

end Posts

end Close
end Siphon
