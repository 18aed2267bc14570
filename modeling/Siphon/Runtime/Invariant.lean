/-
# What holds while the loader runs

For a layout whose watermarks reach the last chunks (`Sound`) and a window of
1 to 1024 chunks, every reachable state of the loader satisfies `Inv`: the
chunks posted are `0, 1, 2, ...` without a gap, those in front of the next
chunk to reap are completed, and a chunk is posted only when the chunk that
used its window before is completed. `post_read_chunk` advances
`chunk_reading` before it waits, so between the two the number of posted
chunks is `chunk_reading` and not one more; `Inv` says at which places.
-/
import Mathlib.Data.Finset.Card
import Mathlib.Order.Interval.Finset.Nat
import Siphon.Layout.Progress
import Siphon.Runtime.Model

namespace Siphon
namespace Runtime

/-- The layouts and windows the loader is correct for. -/
structure Sound (cfg : Config) : Prop where
  last_nonneg : ∀ t ∈ cfg.tensors, 0 ≤ t.lastChunkId
  last_le : ∀ t ∈ cfg.tensors, t.lastChunkId ≤ t.prefetchChunkId
  prefetch_lt : ∀ t ∈ cfg.tensors, t.prefetchChunkId < cfg.chunks.length
  prefetch_mono : cfg.tensors.Pairwise fun t u => t.prefetchChunkId ≤ u.prefetchChunkId
  last_mono : cfg.tensors.Pairwise fun t u => t.lastChunkId ≤ u.lastChunkId
  ioDepth_pos : 1 ≤ cfg.ioDepth
  ioDepth_le : cfg.ioDepth ≤ maxIoDepth

theorem Sound.prefetch_le {cfg : Config} (h : Sound cfg) {i j : ℕ} {t u : TensorMetadate} (hij : i ≤ j)
    (ht : cfg.tensors[i]? = some t) (hu : cfg.tensors[j]? = some u) :
    t.prefetchChunkId ≤ u.prefetchChunkId := by
  obtain ⟨hi, rfl⟩ := List.getElem?_eq_some_iff.mp ht
  obtain ⟨hj, rfl⟩ := List.getElem?_eq_some_iff.mp hu
  rcases hij.lt_or_eq with hlt | rfl
  · exact List.pairwise_iff_getElem.mp h.prefetch_mono i j hi hj hlt
  · exact le_rfl

/-- The variables, with `posts` chunks posted and `next` the next chunk to reap. -/
structure Core (cfg : Config) (posts next : ℤ) (v : Loader) : Prop where
  index : cfg.tensors ≠ [] → v.currentTensorIndex < cfg.tensors.length
  prefetch : ∀ t, cfg.tensors[v.currentTensorIndex]? = some t → v.chunkReading ≤ t.prefetchChunkId
  read_ge : -1 ≤ v.chunkRead
  read_lt : v.chunkRead < next
  next_le : next ≤ posts
  posted_eq : v.posted = List.range v.posted.length
  posted_length : v.posted.length = posts
  completed_lt : ∀ c ∈ v.completed, c < v.posted.length
  done : ∀ c : ℕ, c < next → c ∈ v.completed
  reaped_iff : ∀ c : ℕ, c ∈ v.reaped ↔ c < next
  window : ∀ k < v.posted.length, ∀ j, j + cfg.ioDepth ≤ k → j ∈ v.completed

/-- The variables between two posts: every chunk up to `chunk_reading` is posted. -/
structure Rest (cfg : Config) (next : ℤ) (v : Loader) : Prop
    extends Core cfg (v.chunkReading + 1) next v where
  inFlight : v.chunkReading - v.chunkRead ≤ cfg.ioDepth

/-- The caller of `step` waits for the current tensor. -/
def Caller.Ok (cfg : Config) (v : Loader) : Caller → Prop
  | .tryStep => True
  | .waitStep index => index = v.currentTensorIndex ∧ index < cfg.tensors.length

theorem Caller.Ok.congr {cfg : Config} {v v' : Loader} {caller : Caller} (h : caller.Ok cfg v)
    (he : v'.currentTensorIndex = v.currentTensorIndex) : caller.Ok cfg v' := by
  cases caller with
  | tryStep => trivial
  | waitStep index =>
    obtain ⟨h1, h2⟩ := h
    exact ⟨h1.trans he.symm, h2⟩

/-- The invariant, for every place in the code. -/
def Inv (cfg : Config) (v : Loader) : Pc → Prop
  | .idle => Rest cfg (v.chunkRead + 1) v
  | .tryStep => Rest cfg (v.chunkRead + 1) v
  | .waitStep index => Rest cfg (v.chunkRead + 1) v ∧ (Caller.waitStep index).Ok cfg v
  | .postReadChunk caller => Rest cfg (v.chunkRead + 1) v ∧ caller.Ok cfg v ∧
      ∃ t, cfg.tensors[v.currentTensorIndex]? = some t ∧ v.chunkReading < t.prefetchChunkId
  | .waitWindow caller => Core cfg v.chunkReading (v.chunkRead + 1) v ∧ caller.Ok cfg v ∧
      v.chunkReading - 1 - v.chunkRead ≤ cfg.ioDepth
  | .submit caller => Core cfg v.chunkReading (v.chunkRead + 1) v ∧ caller.Ok cfg v ∧
      v.chunkReading - v.chunkRead ≤ cfg.ioDepth
  | .reap chunkId next (.postReadChunk caller) => Core cfg v.chunkReading next v ∧ caller.Ok cfg v ∧
      chunkId = v.chunkReading - cfg.ioDepth
  | .reap chunkId next (.waitStep index) => Rest cfg next v ∧ (Caller.waitStep index).Ok cfg v ∧
      chunkId ≤ v.chunkReading
  | .poll next caller => Rest cfg next v ∧ caller.Ok cfg v
  | .returned index => Rest cfg (v.chunkRead + 1) v ∧ (Caller.waitStep index).Ok cfg v ∧
      cfg.lastChunkId index ≤ v.chunkRead
  | .failed e => Rest cfg (v.chunkRead + 1) v ∧ e.isInternal = false

/-! ### The variables through a step -/

section Core

variable {cfg : Config} {posts next : ℤ} {v : Loader}

/-- A completion is consumed. -/
theorem Core.reap (h : Core cfg posts next v) (hc : v.canReap next = true) :
    Core cfg posts (next + 1) (v.reap next) := by
  have hn : 0 ≤ next := by
    have h1 := h.read_ge
    have h2 := h.read_lt
    omega
  obtain ⟨hmem, -⟩ := of_decide_eq_true hc
  have hlt := h.completed_lt _ hmem
  have hlen := h.posted_length
  exact
    { index := h.index, prefetch := h.prefetch, read_ge := h.read_ge
      read_lt := by
        have := h.read_lt
        simp only [Loader.reap]
        omega
      next_le := by omega
      posted_eq := h.posted_eq, posted_length := h.posted_length, completed_lt := h.completed_lt
      done := by
        intro c hc'
        by_cases he : (c : ℤ) = next
        · rw [show c = next.toNat by omega]
          exact hmem
        · exact h.done c (by omega)
      reaped_iff := by
        intro c
        simp only [Loader.reap, Finset.mem_insert, h.reaped_iff]
        omega
      window := h.window }

/-- A reap loop ends: `chunk_read` catches up. -/
theorem Core.store (h : Core cfg posts next v) :
    Core cfg posts (next - 1 + 1) { v with chunkRead := next - 1 } := by
  rw [Int.sub_add_cancel]
  exact
    { index := h.index, prefetch := h.prefetch
      read_ge := by
        have h1 := h.read_ge
        have h2 := h.read_lt
        simp only
        omega
      read_lt := by
        simp only
        omega
      next_le := h.next_le, posted_eq := h.posted_eq, posted_length := h.posted_length
      completed_lt := h.completed_lt, done := h.done, reaped_iff := h.reaped_iff, window := h.window }

theorem Rest.store (h : Rest cfg next v) : Rest cfg (next - 1 + 1) { v with chunkRead := next - 1 } where
  toCore := h.toCore.store
  inFlight := by
    have h1 := h.inFlight
    have h2 := h.read_lt
    simp only
    omega

theorem Rest.reap (h : Rest cfg next v) (hc : v.canReap next = true) :
    Rest cfg (next + 1) (v.reap next) where
  toCore := h.toCore.reap hc
  inFlight := h.inFlight

/-- The executor completes a chunk. -/
theorem Core.complete {c : ℕ} (h : Core cfg posts next v) (hc : c ∈ v.posted) :
    Core cfg posts next { v with completed := insert c v.completed } where
  index := h.index
  prefetch := h.prefetch
  read_ge := h.read_ge
  read_lt := h.read_lt
  next_le := h.next_le
  posted_eq := h.posted_eq
  posted_length := h.posted_length
  completed_lt := by
    intro d hd
    rcases Finset.mem_insert.mp hd with rfl | hd
    · rw [h.posted_eq] at hc
      exact List.mem_range.mp hc
    · exact h.completed_lt d hd
  done := fun d hd => Finset.mem_insert_of_mem (h.done d hd)
  reaped_iff := h.reaped_iff
  window := fun k hk j hj => Finset.mem_insert_of_mem (h.window k hk j hj)

theorem Rest.complete {c : ℕ} (h : Rest cfg next v) (hc : c ∈ v.posted) :
    Rest cfg next { v with completed := insert c v.completed } :=
  ⟨h.toCore.complete hc, h.inFlight⟩

/-- `post_read_chunk` advances `chunk_reading`. -/
theorem Rest.advance (h : Rest cfg next v) {t : TensorMetadate}
    (ht : cfg.tensors[v.currentTensorIndex]? = some t) (hlt : v.chunkReading < t.prefetchChunkId) :
    Core cfg (v.chunkReading + 1) next { v with chunkReading := v.chunkReading + 1 } where
  index := h.index
  prefetch := by
    intro u hu
    simp only at hu
    rw [ht, Option.some.injEq] at hu
    subst hu
    simp only
    omega
  read_ge := h.read_ge
  read_lt := h.read_lt
  next_le := h.next_le
  posted_eq := h.posted_eq
  posted_length := h.posted_length
  completed_lt := h.completed_lt
  done := h.done
  reaped_iff := h.reaped_iff
  window := h.window

/-- The chunk is handed to the backend. -/
theorem Core.submit (h : Core cfg v.chunkReading next v) (hw : v.chunkReading - v.chunkRead ≤ cfg.ioDepth) :
    Rest cfg next { v with posted := v.posted ++ [v.chunkReading.toNat] } := by
  have hlen := h.posted_length
  have hid : v.chunkReading.toNat = v.posted.length := by omega
  rw [hid]
  refine ⟨?_, hw⟩
  have hl : (v.posted ++ [v.posted.length]).length = v.posted.length + 1 := by simp
  exact
    { index := h.index, prefetch := h.prefetch, read_ge := h.read_ge, read_lt := h.read_lt
      next_le := h.next_le.trans (by simp)
      posted_eq := by
        simp only [hl, List.range_succ]
        rw [← h.posted_eq]
      posted_length := by
        simp only [hl]
        push_cast
        rw [hlen]
      completed_lt := fun c hc => by
        simp only [hl]
        exact (h.completed_lt c hc).trans (Nat.lt_succ_self _)
      done := h.done, reaped_iff := h.reaped_iff
      window := by
        intro k hk j hj
        simp only [hl] at hk
        by_cases he : k = v.posted.length
        · -- the new chunk's window was used by a chunk that is reaped
          refine h.done j ?_
          have := h.read_lt
          omega
        · exact h.window k (by omega) j hj }

/-- `get_tensor_ptr` moves on to a later tensor. -/
theorem Rest.moveTo (h : Rest cfg next v) (hs : Sound cfg) {index : ℕ} (hi : index < cfg.tensors.length)
    (hle : v.currentTensorIndex ≤ index) : Rest cfg next { v with currentTensorIndex := index } where
  index := fun _ => hi
  prefetch := by
    intro u hu
    have hcur := hle.trans_lt hi
    have ht := List.getElem?_eq_getElem hcur
    exact (h.prefetch _ ht).trans (hs.prefetch_le hle ht hu)
  read_ge := h.read_ge
  read_lt := h.read_lt
  next_le := h.next_le
  posted_eq := h.posted_eq
  posted_length := h.posted_length
  completed_lt := h.completed_lt
  done := h.done
  reaped_iff := h.reaped_iff
  window := h.window
  inFlight := h.inFlight

/-- `can_step` raises nothing: either the watermark is ahead, or the loader is
not opened or has reached the watermark. -/
theorem Core.canStep_cases (h : Core cfg posts next v) :
    (canStep cfg v = .ok true ∧
      ∃ t, cfg.tensors[v.currentTensorIndex]? = some t ∧ v.chunkReading < t.prefetchChunkId) ∨
    (canStep cfg v = .ok false ∧
      ∀ t, cfg.tensors[v.currentTensorIndex]? = some t → v.chunkReading = t.prefetchChunkId) := by
  unfold canStep
  split_ifs with h0
  · refine Or.inr ⟨rfl, fun t ht => ?_⟩
    rw [List.length_eq_zero_iff.mp h0] at ht
    simp at ht
  · have hi := h.index fun he => h0 (by rw [he]; rfl)
    have ht := List.getElem?_eq_getElem hi
    have hle := h.prefetch _ ht
    rw [ht]
    simp only [not_lt.mpr hle, if_false]
    rcases hle.lt_or_eq with hlt | heq
    · exact Or.inl ⟨by simp [hlt], _, rfl, hlt⟩
    · refine Or.inr ⟨by simp [heq], fun t he => ?_⟩
      rw [Option.some.injEq] at he
      rw [← he]
      exact heq

end Core

/-! ### The invariant along a run -/

section Inv

variable {cfg : Config} {v v' : Loader} {pc pc' : Pc}

theorem resume_caller {caller : Caller} (h : Rest cfg (v.chunkRead + 1) v) (ho : caller.Ok cfg v) :
    Inv cfg v caller.resume := by
  cases caller with
  | tryStep => exact h
  | waitStep index => exact ⟨h, ho⟩

theorem lastChunkId_eq {i : ℕ} {t : TensorMetadate} (h : cfg.tensors[i]? = some t) :
    cfg.lastChunkId i = t.lastChunkId := by
  simp [Config.lastChunkId, List.getD_eq_getElem?_getD, h]

/-- One step of the thread. -/
theorem Inv.tick (hs : Sound cfg) (h : Inv cfg v pc) (ht : tick cfg v pc = some (v', pc')) :
    Inv cfg v' pc' := by
  cases pc with
  | idle => simp [Runtime.tick] at ht
  | failed e => simp [Runtime.tick] at ht
  | returned index =>
    simp only [Runtime.tick, Option.some.injEq, Prod.mk.injEq] at ht
    obtain ⟨rfl, rfl⟩ := ht
    exact h.1
  | tryStep =>
    rcases h.toCore.canStep_cases with ⟨hc, t, hget, hlt⟩ | ⟨hc, -⟩
    · simp only [Runtime.tick, hc, Option.some.injEq, Prod.mk.injEq] at ht
      obtain ⟨rfl, rfl⟩ := ht
      exact ⟨h, trivial, t, hget, hlt⟩
    · simp only [Runtime.tick, hc, Option.some.injEq, Prod.mk.injEq] at ht
      obtain ⟨rfl, rfl⟩ := ht
      exact ⟨h, trivial⟩
  | waitStep index =>
    obtain ⟨hr, rfl, hi⟩ := h
    simp only [Runtime.tick] at ht
    split_ifs at ht with hlt
    · rcases hr.toCore.canStep_cases with ⟨hc, t, hget, hpf⟩ | ⟨hc, hpf⟩
      · simp only [hc, Option.some.injEq, Prod.mk.injEq] at ht
        obtain ⟨rfl, rfl⟩ := ht
        exact ⟨hr, ⟨rfl, hi⟩, t, hget, hpf⟩
      · -- everything up to the watermark is posted, and so is the tensor's last chunk
        have hget := List.getElem?_eq_getElem hi
        have hle : cfg.lastChunkId v.currentTensorIndex ≤ v.chunkReading := by
          rw [lastChunkId_eq hget, hpf _ hget]
          exact hs.last_le _ (List.getElem_mem hi)
        simp only [hc, waitReadChunk, not_lt.mpr hle, if_false, Option.some.injEq, Prod.mk.injEq] at ht
        obtain ⟨rfl, rfl⟩ := ht
        exact ⟨hr, ⟨rfl, hi⟩, hle⟩
    · simp only [Option.some.injEq, Prod.mk.injEq] at ht
      obtain ⟨rfl, rfl⟩ := ht
      exact ⟨hr, ⟨rfl, hi⟩, not_lt.mp hlt⟩
  | postReadChunk caller =>
    obtain ⟨hr, ho, t, hget, hlt⟩ := h
    simp only [Runtime.tick, Option.some.injEq, Prod.mk.injEq] at ht
    obtain ⟨rfl, rfl⟩ := ht
    have := hr.inFlight
    exact ⟨hr.advance hget hlt, ho.congr rfl, by simp only; omega⟩
  | waitWindow caller =>
    obtain ⟨hr, ho, hw⟩ := h
    have h1 := hs.ioDepth_le
    have hmax : waitChunkId cfg v = v.chunkReading - cfg.ioDepth := by
      unfold waitChunkId
      omega
    simp only [Runtime.tick, hmax] at ht
    split_ifs at ht with hge
    · have hle : ¬ v.chunkReading - cfg.ioDepth > v.chunkReading := by omega
      simp only [waitReadChunk, hle, if_false, Option.some.injEq, Prod.mk.injEq] at ht
      obtain ⟨rfl, rfl⟩ := ht
      exact ⟨hr, ho, rfl⟩
    · simp only [Option.some.injEq, Prod.mk.injEq] at ht
      obtain ⟨rfl, rfl⟩ := ht
      have := hr.read_ge
      exact ⟨hr, ho, by omega⟩
  | submit caller =>
    obtain ⟨hr, ho, hw⟩ := h
    simp only [Runtime.tick, Option.some.injEq, Prod.mk.injEq] at ht
    obtain ⟨rfl, rfl⟩ := ht
    exact ⟨hr.submit hw, ho.congr rfl⟩
  | reap chunkId next waiter =>
    simp only [Runtime.tick] at ht
    split_ifs at ht with hle hc
    · simp only [Option.some.injEq, Prod.mk.injEq] at ht
      obtain ⟨rfl, rfl⟩ := ht
      cases waiter with
      | postReadChunk caller =>
        obtain ⟨hr, ho, he⟩ := h
        exact ⟨hr.reap hc, ho.congr rfl, he⟩
      | waitStep index =>
        obtain ⟨hr, ho, he⟩ := h
        exact ⟨hr.reap hc, ho, he⟩
    · simp only [Option.some.injEq, Prod.mk.injEq] at ht
      obtain ⟨rfl, rfl⟩ := ht
      cases waiter with
      | postReadChunk caller =>
        obtain ⟨hr, ho, he⟩ := h
        exact ⟨hr.store, ho.congr rfl, by simp only; omega⟩
      | waitStep index =>
        obtain ⟨hr, ho, -⟩ := h
        exact ⟨hr.store, ho⟩
  | poll next caller =>
    obtain ⟨hr, ho⟩ := h
    simp only [Runtime.tick] at ht
    split_ifs at ht with hc
    · simp only [Option.some.injEq, Prod.mk.injEq] at ht
      obtain ⟨rfl, rfl⟩ := ht
      exact ⟨hr.reap hc.2, ho.congr rfl⟩
    · simp only [Option.some.injEq, Prod.mk.injEq] at ht
      obtain ⟨rfl, rfl⟩ := ht
      exact resume_caller hr.store (ho.congr rfl)

/-- A completion. -/
theorem Inv.complete {c : ℕ} (h : Inv cfg v pc) (hc : c ∈ v.posted) :
    Inv cfg { v with completed := insert c v.completed } pc := by
  cases pc with
  | idle => exact Rest.complete h hc
  | tryStep => exact Rest.complete h hc
  | waitStep index => exact ⟨h.1.complete hc, h.2⟩
  | postReadChunk caller => exact ⟨h.1.complete hc, h.2.1.congr rfl, h.2.2⟩
  | waitWindow caller => exact ⟨h.1.complete hc, h.2.1.congr rfl, h.2.2⟩
  | submit caller => exact ⟨h.1.complete hc, h.2.1.congr rfl, h.2.2⟩
  | reap chunkId next waiter =>
    cases waiter with
    | postReadChunk caller => exact ⟨h.1.complete hc, h.2.1.congr rfl, h.2.2⟩
    | waitStep index => exact ⟨h.1.complete hc, h.2⟩
  | poll next caller => exact ⟨h.1.complete hc, h.2.congr rfl⟩
  | returned index => exact ⟨h.1.complete hc, h.2⟩
  | failed e => exact ⟨h.1.complete hc, h.2⟩

theorem Inv.getTensorPtr (hs : Sound cfg) (h : Rest cfg (v.chunkRead + 1) v) (index : ℕ) :
    Inv cfg (getTensorPtr cfg v index).1 (getTensorPtr cfg v index).2 := by
  unfold Runtime.getTensorPtr
  split_ifs with h1 h2
  · exact ⟨h, rfl⟩
  · exact ⟨h, rfl⟩
  · exact ⟨h.moveTo hs (not_le.mp h1) (not_lt.mp h2), rfl, not_le.mp h1⟩

theorem Inv.step (hs : Sound cfg) {s s' : Loader × Pc} {a : Action} (h : Inv cfg s.1 s.2)
    (hstep : step cfg s a = some s') : Inv cfg s'.1 s'.2 := by
  obtain ⟨v, pc⟩ := s
  cases a with
  | tick => exact Inv.tick hs h hstep
  | complete c =>
    simp only [Runtime.step] at hstep
    split_ifs at hstep with hc
    cases hstep
    exact h.complete hc.1
  | tryStep =>
    simp only [Runtime.step] at hstep
    split_ifs at hstep with hpc
    subst hpc
    cases hstep
    exact h
  | pollReadChunk =>
    simp only [Runtime.step] at hstep
    split_ifs at hstep with hpc
    subst hpc
    cases hstep
    exact ⟨h, trivial⟩
  | getTensorPtr index =>
    simp only [Runtime.step] at hstep
    split_ifs at hstep with hpc
    subst hpc
    cases hstep
    exact Inv.getTensorPtr hs h index

theorem init_inv (hs : Sound cfg) : Inv cfg {} .idle where
  index := fun h => List.length_pos_iff.mpr h
  prefetch := by
    intro t ht
    have hm := List.mem_of_getElem? ht
    have h1 := hs.last_nonneg t hm
    have h2 := hs.last_le t hm
    simp only
    omega
  read_ge := le_rfl
  read_lt := by simp
  next_le := le_rfl
  posted_eq := rfl
  posted_length := rfl
  completed_lt := fun c hc => absurd hc (Finset.notMem_empty c)
  done := fun c hc => by simp only at hc; omega
  reaped_iff := fun c => by simp
  window := fun k hk => absurd hk (Nat.not_lt_zero k)
  inFlight := by simp

theorem reachable_inv (hs : Sound cfg) {s : Loader × Pc} (h : (loader cfg).Reachable s) :
    Inv cfg s.1 s.2 :=
  h.invariant (I := fun s => Inv cfg s.1 s.2) (init_inv hs) fun _ _ _ hi hstep => hi.step hs hstep

theorem Inv.core (h : Inv cfg v pc) : ∃ posts next, Core cfg posts next v ∧ posts ≤ v.chunkReading + 1 := by
  cases pc with
  | idle => exact ⟨_, _, h.toCore, le_rfl⟩
  | tryStep => exact ⟨_, _, h.toCore, le_rfl⟩
  | waitStep index => exact ⟨_, _, h.1.toCore, le_rfl⟩
  | postReadChunk caller => exact ⟨_, _, h.1.toCore, le_rfl⟩
  | waitWindow caller => exact ⟨_, _, h.1, by omega⟩
  | submit caller => exact ⟨_, _, h.1, by omega⟩
  | reap chunkId next waiter =>
    cases waiter with
    | postReadChunk caller => exact ⟨_, _, h.1, by omega⟩
    | waitStep index => exact ⟨_, _, h.1.toCore, le_rfl⟩
  | poll next caller => exact ⟨_, _, h.1.toCore, le_rfl⟩
  | returned index => exact ⟨_, _, h.1.toCore, le_rfl⟩
  | failed e => exact ⟨_, _, h.1.toCore, le_rfl⟩

end Inv

/-! ### The result -/

/-- Between the increment of `chunk_reading` and the call of the backend. -/
def Pc.posting : Pc → Bool
  | .waitWindow _ | .submit _ | .reap _ _ (.postReadChunk _) => true
  | _ => false

theorem Inv.unreaped_le {cfg : Config} {v : Loader} {pc : Pc} (h : Inv cfg v pc)
    (hp : pc.posting = false) : v.chunkReading - v.chunkRead ≤ cfg.ioDepth := by
  cases pc with
  | idle => exact h.inFlight
  | tryStep => exact h.inFlight
  | waitStep index => exact h.1.inFlight
  | postReadChunk caller => exact h.1.inFlight
  | waitWindow caller => simp [Pc.posting] at hp
  | submit caller => simp [Pc.posting] at hp
  | reap chunkId next waiter =>
    cases waiter with
    | postReadChunk caller => simp [Pc.posting] at hp
    | waitStep index => exact h.1.inFlight
  | poll next caller => exact h.1.inFlight
  | returned index => exact h.1.inFlight
  | failed e => exact h.1.inFlight

/-- Chunks posted and not completed. -/
def Loader.inFlight (v : Loader) : List ℕ := v.posted.filter fun c => c ∉ v.completed

theorem Core.inFlight_le {cfg : Config} {posts next : ℤ} {v : Loader} (h : Core cfg posts next v) :
    v.inFlight.length ≤ cfg.ioDepth := by
  have hnd : v.inFlight.Nodup := by
    refine List.Nodup.filter _ ?_
    rw [h.posted_eq]
    exact List.nodup_range
  -- a chunk that is not completed is one of the last `io_depth`
  have hsub : v.inFlight.toFinset ⊆ Finset.Ico (v.posted.length - cfg.ioDepth) v.posted.length := by
    intro c hc
    rw [List.mem_toFinset, Loader.inFlight, List.mem_filter, h.posted_eq, List.mem_range,
      decide_eq_true_eq] at hc
    obtain ⟨hlt, hno⟩ := hc
    rw [Finset.mem_Ico]
    refine ⟨?_, hlt⟩
    by_contra hge
    exact hno (h.window (v.posted.length - 1) (by omega) c (by omega))
  calc v.inFlight.length = v.inFlight.toFinset.card := (List.toFinset_card_of_nodup hnd).symm
    _ ≤ (Finset.Ico (v.posted.length - cfg.ioDepth) v.posted.length).card := Finset.card_le_card hsub
    _ ≤ cfg.ioDepth := by rw [Nat.card_Ico]; omega

/-- What the loader guarantees in a state. -/
structure Safe (cfg : Config) (v : Loader) (pc : Pc) : Prop where
  read_ge : -1 ≤ v.chunkRead
  read_le : v.chunkRead ≤ v.chunkReading
  prefetch : ∀ t, cfg.tensors[v.currentTensorIndex]? = some t → v.chunkReading ≤ t.prefetchChunkId
  /-- Chunks are posted in order and exactly once. -/
  posted : v.posted = List.range v.posted.length
  /-- At most a window of chunks is posted and not completed. -/
  inFlight : v.inFlight.length ≤ cfg.ioDepth
  /-- After a post at most a window of chunks is posted and not reaped. -/
  unreaped : pc.posting = false → v.chunkReading - v.chunkRead ≤ cfg.ioDepth
  /-- A chunk gets its window only when the chunks that had it are completed. -/
  window : ∀ caller, pc = .submit caller → ∀ j : ℕ, j < v.chunkReading.toNat →
    cfg.windowIdx j = cfg.windowIdx v.chunkReading.toNat → j ∈ v.completed
  windows : ∀ k ∈ v.posted, ∀ j < k, cfg.windowIdx j = cfg.windowIdx k → j ∈ v.completed
  /-- A tensor is returned only when its chunks are completed. -/
  returned : ∀ index, pc = .returned index → ∀ c : ℕ, c ≤ cfg.lastChunkId index → c ∈ v.completed
  /-- The internal exceptions are not raised. -/
  noInternal : ∀ e, pc = .failed e → e.isInternal = false

/-- **The loader's runtime invariants.** For every layout whose watermarks
reach the last chunks and every window, the loader is safe in every state
that calls, steps of its thread and completions can reach. -/
theorem loader_safe (cfg : Config) (hs : Sound cfg) (s : Loader × Pc) (h : (loader cfg).Reachable s) :
    Safe cfg s.1 s.2 := by
  have hi := reachable_inv hs h
  obtain ⟨v, pc⟩ := s
  obtain ⟨posts, next, hc, hle⟩ := hi.core
  refine
    { read_ge := hc.read_ge
      read_le := ?_
      prefetch := hc.prefetch
      posted := hc.posted_eq
      inFlight := hc.inFlight_le
      unreaped := hi.unreaped_le
      window := ?_
      windows := ?_
      returned := ?_
      noInternal := ?_ }
  · have h1 := hc.read_lt
    have h2 := hc.next_le
    omega
  · rintro caller rfl j hj he
    obtain ⟨hr, -, hw⟩ := hi
    have := Rounding.add_le_of_mod_eq hj he
    exact hr.done j (by omega)
  · intro k hk j hj he
    rw [hc.posted_eq, List.mem_range] at hk
    exact hc.window k hk j (Rounding.add_le_of_mod_eq hj he)
  · rintro index rfl c hle'
    obtain ⟨hr, -, hl⟩ := hi
    exact hr.done c (by omega)
  · rintro e rfl
    exact hi.2

/-- Two tensors of a chunk each that share a window of one chunk. -/
def twoTensors : Config where
  tensors := [⟨4096, 0, 4096, 16, 0, 1⟩, ⟨4096, 0, 8192, 4112, 1, 1⟩]
  chunks := [⟨4096, 0, 4096, 16⟩, ⟨4096, 0, 8192, 4112⟩]
  ioDepth := 1

theorem twoTensors_sound : Sound twoTensors :=
  ⟨by decide, by decide, by decide, by decide, by decide, by decide, by decide⟩

/-- The first tensor is returned after its chunk is completed and the second
chunk, which needs the same window, is posted. -/
theorem loader_safe_twoTensors : ∃ s, (loader twoTensors).Reachable s ∧ s.2 = .returned 0 ∧
    s.1.posted = [0, 1] ∧ Safe twoTensors s.1 s.2 := by
  obtain ⟨s, hs, hp⟩ := (loader twoTensors).exists_reachable
    ([.getTensorPtr 0] ++ List.replicate 8 .tick ++ [.complete 0] ++ List.replicate 5 .tick)
    (fun s => decide (s.2 = .returned 0 ∧ s.1.posted = [0, 1])) (by decide)
  obtain ⟨h1, h2⟩ := of_decide_eq_true hp
  exact ⟨s, hs, h1, h2, loader_safe twoTensors twoTensors_sound s hs⟩

/-! ### Layouts of `compute_layout` -/

/-- The loader is safe on every layout that makes progress. -/
theorem sound_of_plan {g : Geometry} {offs : List (ℕ × ℕ)} (hv : Layout.ValidOffsets g offs)
    (hne : Layout.FilesNonempty offs) (hc : (Layout.planOf g offs).IsChain (Layout.Clears g))
    (hio : g.ioDepth ≤ maxIoDepth) :
    ∃ l, Layout.computeLayout g offs = .ok l ∧ Sound ⟨l.tensors, l.chunks, g.ioDepth⟩ := by
  obtain ⟨l, hl, h0, hiff⟩ := Layout.exists_layout_progress hv hne
  have hp := hiff.mpr hc
  have htensor : ∀ (i : ℕ) (hi : i < l.tensors.length), l.tensors[i] = l.tensor i := by
    intro i hi
    exact (Layout.tensor_of_getElem? (List.getElem?_eq_getElem hi)).2.symm
  refine ⟨l, hl, ?_⟩
  exact
    { last_nonneg := h0
      last_le := hp.last_le
      prefetch_lt := hp.prefetch_lt
      prefetch_mono := by
        rw [List.pairwise_iff_getElem]
        intro i j hi hj hij
        rw [htensor i hi, htensor j hj]
        exact hp.prefetch_mono i j hij.le hj
      last_mono := by
        rw [List.pairwise_iff_getElem]
        intro i j hi hj hij
        rw [htensor i hi, htensor j hj]
        exact hp.last_mono i j hij.le hj
      ioDepth_pos := g.ioDepth_pos
      ioDepth_le := hio }

end Runtime
end Siphon
