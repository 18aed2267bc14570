/-
# Steps of the loader thread

What a step leaves alone, and why a call comes to its end. A tick posts a
chunk, consumes a completion, or goes on to a later place of the code; `work`
counts what is left of each, so that every step of the thread and every
completion lowers it (`tick_work`, `complete_work`). The thread waits only for
a completion, and then of a chunk that is posted and not completed
(`exists_step`).
-/
import Siphon.Runtime.Invariant

namespace Siphon
namespace Runtime

/-! ### What a step leaves alone -/

theorem tick_posted {cfg : Config} {v v' : Loader} {pc pc' : Pc} (h : tick cfg v pc = some (v', pc')) :
    (v'.posted = v.posted ∨ v'.posted = v.posted ++ [v.chunkReading.toNat]) ∧ v'.completed = v.completed := by
  cases pc <;> simp only [tick, reduceCtorEq] at h
  case tryStep => split at h <;> cases h <;> exact ⟨Or.inl rfl, rfl⟩
  case waitStep index => split_ifs at h <;> (try split at h) <;> cases h <;> exact ⟨Or.inl rfl, rfl⟩
  case postReadChunk caller => cases h; exact ⟨Or.inl rfl, rfl⟩
  case waitWindow caller => split_ifs at h <;> cases h <;> exact ⟨Or.inl rfl, rfl⟩
  case submit caller => cases h; exact ⟨Or.inr rfl, rfl⟩
  case reap chunkId next waiter => split_ifs at h <;> cases h <;> exact ⟨Or.inl rfl, rfl⟩
  case poll next caller => split_ifs at h <;> cases h <;> exact ⟨Or.inl rfl, rfl⟩
  case returned index => cases h; exact ⟨Or.inl rfl, rfl⟩

theorem getTensorPtr_posted (cfg : Config) (v : Loader) (index : ℕ) :
    (getTensorPtr cfg v index).1.posted = v.posted ∧ (getTensorPtr cfg v index).1.completed = v.completed := by
  unfold Runtime.getTensorPtr
  split_ifs <;> exact ⟨rfl, rfl⟩

/-- What a step of a thread does to the chunks that the backend sees. -/
theorem step_posted {cfg : Config} {s s' : Loader × Pc} {a : Action}
    (h : step cfg s a = some s') :
    (s'.1.posted = s.1.posted ∨ s'.1.posted = s.1.posted ++ [s.1.chunkReading.toNat]) ∧
      ∀ k ∈ s'.1.completed, k ∈ s.1.completed ∨ a = .complete k := by
  have same : ∀ {v : Loader}, v.posted = s.1.posted → v.completed = s.1.completed →
      (v.posted = s.1.posted ∨ v.posted = s.1.posted ++ [s.1.chunkReading.toNat]) ∧
        ∀ k ∈ v.completed, k ∈ s.1.completed ∨ a = .complete k :=
    fun h1 h2 => ⟨Or.inl h1, fun k hk => Or.inl (h2 ▸ hk)⟩
  cases a with
  | tryStep =>
    simp only [step] at h
    split_ifs at h
    cases h
    exact same rfl rfl
  | pollReadChunk =>
    simp only [step] at h
    split_ifs at h
    cases h
    exact same rfl rfl
  | getTensorPtr index =>
    simp only [step] at h
    split_ifs at h
    cases h
    obtain ⟨h1, h2⟩ := getTensorPtr_posted cfg s.1 index
    exact same h1 h2
  | tick =>
    have ht : tick cfg s.1 s.2 = some (s'.1, s'.2) := h
    obtain ⟨h1, h2⟩ := tick_posted ht
    exact ⟨h1, fun k hk => Or.inl (h2 ▸ hk)⟩
  | complete c =>
    simp only [step] at h
    split_ifs at h
    cases h
    refine ⟨Or.inl rfl, fun k hk => ?_⟩
    rcases Finset.mem_insert.mp hk with rfl | hk
    · exact Or.inr rfl
    · exact Or.inl hk

theorem tick_currentTensorIndex {cfg : Config} {v v' : Loader} {pc pc' : Pc}
    (h : tick cfg v pc = some (v', pc')) : v'.currentTensorIndex = v.currentTensorIndex := by
  cases pc <;> simp only [tick, reduceCtorEq] at h
  case tryStep => split at h <;> cases h <;> rfl
  case waitStep index => split_ifs at h <;> (try split at h) <;> cases h <;> rfl
  case postReadChunk caller => cases h; rfl
  case waitWindow caller => split_ifs at h <;> cases h <;> rfl
  case submit caller => cases h; rfl
  case reap chunkId next waiter => split_ifs at h <;> cases h <;> rfl
  case poll next caller => split_ifs at h <;> cases h <;> rfl
  case returned index => cases h; rfl

/-- `chunk_read` does not go back. -/
theorem tick_chunkRead_le {cfg : Config} {v v' : Loader} {pc pc' : Pc} (h : Inv cfg v pc) (ht : tick cfg v pc = some (v', pc')) :
    v.chunkRead ≤ v'.chunkRead := by
  obtain ⟨posts, next, hc, -⟩ := h.core
  cases pc <;> simp only [tick, reduceCtorEq] at ht
  case tryStep => split at ht <;> cases ht <;> rfl
  case waitStep index => split_ifs at ht <;> (try split at ht) <;> cases ht <;> rfl
  case postReadChunk caller => cases ht; rfl
  case waitWindow caller => split_ifs at ht <;> cases ht <;> rfl
  case submit caller => cases ht; rfl
  case reap chunkId next waiter =>
    split_ifs at ht <;> cases ht
    · rfl
    · cases waiter with
      | postReadChunk caller =>
        obtain ⟨hc, -⟩ := h
        exact Int.le_sub_one_of_lt hc.read_lt
      | waitStep index =>
        obtain ⟨hr, -⟩ := h
        exact Int.le_sub_one_of_lt hr.toCore.read_lt
  case poll next caller =>
    split_ifs at ht <;> cases ht
    · rfl
    · obtain ⟨hr, -⟩ := h
      exact Int.le_sub_one_of_lt hr.toCore.read_lt
  case returned index => cases ht; rfl

/-- `get_tensor_ptr` waits for a tensor that the loader has, from the current
one on, and raises for any other. -/
theorem getTensorPtr_cases (cfg : Config) (v : Loader) (index : ℕ) :
    (index < cfg.tensors.length ∧ v.currentTensorIndex ≤ index ∧
      getTensorPtr cfg v index = ({ v with currentTensorIndex := index }, .waitStep index)) ∨
    ((cfg.tensors.length ≤ index ∨ index < v.currentTensorIndex) ∧
      ∃ e, getTensorPtr cfg v index = (v, .failed e)) := by
  unfold Runtime.getTensorPtr
  split_ifs with h1 h2
  · exact Or.inr ⟨Or.inl h1, _, rfl⟩
  · exact Or.inr ⟨Or.inr h2, _, rfl⟩
  · exact Or.inl ⟨not_le.mp h1, not_lt.mp h2, rfl⟩

/-- The tensor that the caller of `step` waits for. -/
def Caller.target : Caller → Option ℕ
  | .tryStep => none
  | .waitStep index => some index

/-- The tensor that `wait_read_chunk` is called for. -/
def Waiter.target : Waiter → Option ℕ
  | .postReadChunk caller => caller.target
  | .waitStep index => some index

/-- The tensor that the thread waits for. -/
def Pc.target : Pc → Option ℕ
  | .idle | .tryStep | .failed _ => none
  | .waitStep index | .returned index => some index
  | .postReadChunk caller | .waitWindow caller | .submit caller | .poll _ caller => caller.target
  | .reap _ _ waiter => waiter.target

theorem Caller.target_resume (caller : Caller) : caller.resume.target = caller.target := by
  cases caller <;> rfl

theorem Waiter.target_resume (waiter : Waiter) : waiter.resume.target = waiter.target := by
  cases waiter <;> rfl

/-- Until it returns, a call keeps to its tensor. -/
theorem tick_target {cfg : Config} {v v' : Loader} {pc pc' : Pc} (h : tick cfg v pc = some (v', pc'))
    (hpc : ∀ index, pc ≠ .returned index) : pc'.target = pc.target ∨ ∃ e, pc' = .failed e := by
  have wait : ∀ (v : Loader) (chunkId : ℤ) (waiter : Waiter), (waitReadChunk v chunkId waiter).target =
      waiter.target ∨ ∃ e, waitReadChunk v chunkId waiter = .failed e := by
    intro v chunkId waiter
    unfold waitReadChunk
    split_ifs
    · exact Or.inr ⟨_, rfl⟩
    · exact Or.inl rfl
  cases pc <;> simp only [tick, reduceCtorEq] at h
  case tryStep =>
    split at h <;> cases h
    · exact Or.inr ⟨_, rfl⟩
    · exact Or.inl rfl
    · exact Or.inl rfl
  case waitStep index =>
    split_ifs at h
    · split at h <;> cases h
      · exact Or.inr ⟨_, rfl⟩
      · exact Or.inl rfl
      · exact wait _ _ _
    · cases h
      exact Or.inl rfl
  case postReadChunk caller => cases h; exact Or.inl rfl
  case waitWindow caller =>
    split_ifs at h <;> cases h
    · exact wait _ _ _
    · exact Or.inl rfl
  case submit caller => cases h; exact Or.inl rfl
  case reap chunkId next waiter =>
    split_ifs at h <;> cases h
    · exact Or.inl rfl
    · exact Or.inl waiter.target_resume
  case poll next caller =>
    split_ifs at h <;> cases h
    · exact Or.inl rfl
    · exact Or.inl caller.target_resume
  case returned index => exact absurd rfl (hpc index)

/-- What a step raises is an error of the loader. -/
theorem isInternal_of_tick {cfg : Config} {v v' : Loader} {pc : Pc} {e : RuntimeError}
    (h : tick cfg v pc = some (v', .failed e)) : e.isInternal = true := by
  have can : ∀ {e}, canStep cfg v = .error e → e.isInternal = true := by
    intro e he
    unfold canStep at he
    split_ifs at he
    split at he
    · cases he
      rfl
    · split_ifs at he
      cases he
      rfl
  have wait : ∀ {v : Loader} {chunkId : ℤ} {waiter : Waiter}, waitReadChunk v chunkId waiter = .failed e →
      e.isInternal = true := by
    intro v chunkId waiter he
    unfold waitReadChunk at he
    split_ifs at he
    cases he
    rfl
  cases pc <;> simp only [tick, reduceCtorEq] at h
  case tryStep =>
    split at h <;> simp only [pollReadChunk, Option.some.injEq, Prod.mk.injEq, reduceCtorEq, and_false] at h
    rename_i he
    obtain ⟨-, h⟩ := h
    cases h
    exact can he
  case waitStep index =>
    split_ifs at h
    · split at h <;> simp only [Option.some.injEq, Prod.mk.injEq, reduceCtorEq, and_false] at h
      · rename_i he
        obtain ⟨-, h⟩ := h
        cases h
        exact can he
      · exact wait h.2
    · simp at h
  case postReadChunk caller => simp at h
  case waitWindow caller =>
    split_ifs at h <;> simp only [Option.some.injEq, Prod.mk.injEq, reduceCtorEq, and_false] at h
    exact wait h.2
  case submit caller => simp [pollReadChunk] at h
  case reap chunkId next waiter =>
    split_ifs at h <;> simp only [Option.some.injEq, Prod.mk.injEq, reduceCtorEq, and_false] at h
    obtain ⟨-, h⟩ := h
    cases waiter with
    | postReadChunk caller => cases h
    | waitStep index => cases h
  case poll next caller =>
    split_ifs at h <;> simp only [Option.some.injEq, Prod.mk.injEq, reduceCtorEq, and_false] at h
    obtain ⟨-, h⟩ := h
    cases caller <;> cases h
  case returned index => simp at h

/-- So a sound loader's steps raise nothing. -/
theorem tick_ne_failed {cfg : Config} (hs : Sound cfg) {v v' : Loader} {pc : Pc} {e : RuntimeError}
    (h : Inv cfg v pc) : tick cfg v pc ≠ some (v', .failed e) := by
  intro ht
  have hext := (h.tick hs ht).2
  rw [isInternal_of_tick ht] at hext
  cases hext

/-! ### What is left to do -/

/-- The steps to the next post, reap or return. -/
def Pc.rank : Pc → ℕ
  | .idle | .failed _ => 0
  | .returned _ => 1
  | .postReadChunk _ => 3
  | .waitStep _ => 4
  | .poll _ _ => 6
  | .tryStep | .submit _ => 7
  | .reap chunkId next waiter =>
    match waiter with
    | .postReadChunk _ => 8
    | .waitStep _ => if next ≤ chunkId then 3 else 9
  | .waitWindow _ => 12

/-- The chunks left to post and to reap, and the completions left. -/
def Loader.left (cfg : Config) (v : Loader) : ℕ :=
  10 * (cfg.chunks.length - (v.chunkReading + 1)).toNat + 10 * (cfg.chunks.length - v.reaped.card) +
    (cfg.chunks.length - v.completed.card)

/-- What is left of all calls and of the one the thread is in. -/
def work (cfg : Config) (v : Loader) (pc : Pc) : ℕ := v.left cfg + pc.rank

section Work

variable {cfg : Config} {v v' : Loader} {pc pc' : Pc}

theorem Core.chunkReading_lt {posts next : ℤ} (h : Core cfg posts next v) (hs : Sound cfg)
    (hne : cfg.tensors ≠ []) : v.chunkReading < cfg.chunks.length := by
  have ht := List.getElem?_eq_getElem (h.index hne)
  exact (h.prefetch _ ht).trans_lt (hs.prefetch_lt _ (List.mem_of_getElem? ht))

theorem Inv.chunkReading_lt (h : Inv cfg v pc) (hs : Sound cfg) (hne : cfg.tensors ≠ []) :
    v.chunkReading < cfg.chunks.length := by
  obtain ⟨posts, next, hc, -⟩ := h.core
  exact hc.chunkReading_lt hs hne

theorem card_le_of_lt {s : Finset ℕ} {n : ℕ} (h : ∀ c ∈ s, c < n) : s.card ≤ n := by
  have := Finset.card_le_card (s := s) (t := Finset.range n) fun c hc => Finset.mem_range.mpr (h c hc)
  rwa [Finset.card_range] at this

/-- No chunk is completed or reaped that the layout does not have. -/
theorem Inv.card_le (h : Inv cfg v pc) (hs : Sound cfg) (hne : cfg.tensors ≠ []) :
    v.completed.card ≤ cfg.chunks.length ∧ v.reaped.card ≤ cfg.chunks.length := by
  obtain ⟨posts, next, hc, hle⟩ := h.core
  have hlt := hc.chunkReading_lt hs hne
  have hlen := hc.posted_length
  refine ⟨card_le_of_lt fun c hmem => ?_, card_le_of_lt fun c hmem => ?_⟩
  · have := hc.completed_lt c hmem
    omega
  · have := (hc.reaped_iff c).mp hmem
    have := hc.next_le
    omega

/-- A completion that is consumed. -/
theorem left_reap {next : ℤ} (hc : v.canReap next = true)
    (hle : (v.reap next).reaped.card ≤ cfg.chunks.length) : (v.reap next).left cfg + 10 = v.left cfg := by
  have hcard : (v.reap next).reaped.card = v.reaped.card + 1 :=
    Finset.card_insert_of_notMem (of_decide_eq_true hc).2
  have hread : (v.reap next).chunkReading = v.chunkReading := rfl
  have hcomp : (v.reap next).completed = v.completed := rfl
  unfold Loader.left
  rw [hcard] at hle
  rw [hcard, hread, hcomp]
  omega

theorem Caller.rank_resume_le (caller : Caller) : caller.resume.rank ≤ 4 := by
  cases caller <;> simp [Caller.resume, Pc.rank]

/-- Every step of the thread does some of its work. -/
theorem tick_work (hs : Sound cfg) (hne : cfg.tensors ≠ []) (h : Inv cfg v pc)
    (ht : tick cfg v pc = some (v', pc')) : work cfg v' pc' < work cfg v pc := by
  have h' := h.tick hs ht
  obtain ⟨-, hcard⟩ := h'.card_le hs hne
  have hlt := h'.chunkReading_lt hs hne
  unfold work
  cases pc with
  | idle => simp [tick] at ht
  | failed e => simp [tick] at ht
  | returned index =>
    simp only [tick, Option.some.injEq, Prod.mk.injEq] at ht
    obtain ⟨rfl, rfl⟩ := ht
    simp [Pc.rank]
  | tryStep =>
    simp only [tick] at ht
    split at ht <;> cases ht <;> simp [pollReadChunk, Pc.rank]
  | waitStep index =>
    simp only [tick] at ht
    split_ifs at ht with hread
    · split at ht <;> cases ht
      · simp [Pc.rank]
      · simp [Pc.rank]
      · -- the loop reaps the tensor's last chunk at least
        unfold waitReadChunk
        split_ifs
        · simp [Pc.rank]
        · simp [Pc.rank, Int.add_one_le_iff.mpr hread]
    · cases ht
      simp [Pc.rank]
  | postReadChunk caller =>
    simp only [tick, Option.some.injEq, Prod.mk.injEq] at ht
    obtain ⟨rfl, rfl⟩ := ht
    simp only [Loader.left, Pc.rank] at hlt ⊢
    omega
  | waitWindow caller =>
    simp only [tick] at ht
    split_ifs at ht <;> cases ht
    · unfold waitReadChunk
      split_ifs <;> simp [Pc.rank]
    · simp [Pc.rank]
  | submit caller =>
    simp only [tick, Option.some.injEq, Prod.mk.injEq] at ht
    obtain ⟨rfl, rfl⟩ := ht
    simp [Loader.left, pollReadChunk, Pc.rank]
  | reap chunkId next waiter =>
    simp only [tick] at ht
    split_ifs at ht with hnext hreap
    · cases ht
      have hleft := left_reap hreap hcard
      cases waiter with
      | postReadChunk caller =>
        simp only [Pc.rank]
        omega
      | waitStep index =>
        simp only [Pc.rank, if_pos hnext]
        split_ifs <;> omega
    · cases ht
      cases waiter with
      | postReadChunk caller => simp [Loader.left, Waiter.resume, Pc.rank]
      | waitStep index => simp [Loader.left, Waiter.resume, Pc.rank, hnext]
  | poll next caller =>
    simp only [tick] at ht
    split_ifs at ht with hreap
    · cases ht
      have hleft := left_reap hreap.2 hcard
      simp only [Pc.rank]
      omega
    · cases ht
      have hcaller := caller.rank_resume_le
      have hrank : Pc.rank (.poll next caller) = 6 := rfl
      rw [hrank]
      exact Nat.add_lt_add_left (hcaller.trans_lt (by decide)) _

/-- So does every completion. -/
theorem complete_work (hs : Sound cfg) (hne : cfg.tensors ≠ []) (h : Inv cfg v pc) {c : ℕ} (hc : c ∈ v.posted)
    (hno : c ∉ v.completed) : work cfg { v with completed := insert c v.completed } pc < work cfg v pc := by
  obtain ⟨hcard, -⟩ := (h.complete hc).card_le hs hne
  simp only [work, Loader.left, Finset.card_insert_of_notMem hno] at hcard ⊢
  omega

/-- A call that is not at its end can make a step, or waits for a chunk that
the executor has. -/
theorem exists_step (hs : Sound cfg) (h : Inv cfg v pc) (hidle : pc ≠ .idle) (hfail : ∀ e, pc ≠ .failed e) :
    (tick cfg v pc).isSome = true ∨ ∃ c ∈ v.posted, c ∉ v.completed := by
  have waits : ∀ {posts next chunkId : ℤ} (waiter : Waiter), Core cfg posts next v → chunkId < posts →
      (tick cfg v (.reap chunkId next waiter)).isSome = true ∨ ∃ c ∈ v.posted, c ∉ v.completed := by
    intro posts next chunkId waiter hc hlt
    by_cases hnext : next ≤ chunkId
    · by_cases hreap : v.canReap next = true
      · exact Or.inl (by simp [tick, hnext, hreap])
      · right
        have h1 := hc.read_ge
        have h2 := hc.read_lt
        have hlen := hc.posted_length
        refine ⟨next.toNat, ?_, fun hmem => hreap (decide_eq_true ⟨hmem, fun hr => ?_⟩)⟩
        · rw [hc.posted_eq, List.mem_range]
          omega
        · have := (hc.reaped_iff _).mp hr
          omega
    · exact Or.inl (by simp [tick, hnext])
  cases pc with
  | idle => exact absurd rfl hidle
  | failed e => exact absurd rfl (hfail e)
  | returned index => exact Or.inl rfl
  | tryStep =>
    left
    simp only [tick]
    split <;> rfl
  | waitStep index =>
    left
    simp only [tick]
    split_ifs
    · split <;> rfl
    · rfl
  | postReadChunk caller => exact Or.inl rfl
  | waitWindow caller =>
    left
    simp only [tick]
    split_ifs <;> rfl
  | submit caller => exact Or.inl rfl
  | reap chunkId next waiter =>
    cases waiter with
    | postReadChunk caller =>
      obtain ⟨hc, -, rfl⟩ := h
      have := hs.ioDepth_pos
      exact waits _ hc (by omega)
    | waitStep index =>
      obtain ⟨hr, -, hle⟩ := h
      exact waits _ hr.toCore (by omega)
  | poll next caller =>
    left
    simp only [tick]
    split_ifs <;> rfl

end Work

end Runtime
end Siphon
