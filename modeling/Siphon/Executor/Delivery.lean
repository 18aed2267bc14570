/-
# No result is lost, doubled or crossed

Every submission is in exactly one place: the task queue, a worker, the
result queue, the cache, the results handed out, or the tasks that had no
result (`Inv.census`); a step moves one submission from one place to the next.
What a worker, the result queue, the cache and the reaper hold of a
submission is the value that running it returned (`Inv.own`). Outstanding
ids are distinct, so an id leads to one submission, and `emplace` never finds
its key in use. The sentinels come behind all tasks and there are as many as
workers, so when every worker has exited, no task is left.
-/
import Mathlib.Data.List.Nodup
import Siphon.Executor.Model

namespace Siphon
namespace Executor

open Census

variable {P R : Type}

/-! ### Places -/

def TaskItem.ticket? : TaskItem P → Option ℕ
  | .task t => some t.ticket
  | .stop => none

/-- The submission that a worker holds. -/
def Worker.ticket? : Worker P R → Option ℕ
  | .pending t => some t.ticket
  | .finished r => some r.ticket
  | .idle | .exited => none

/-- The submission that a worker holds and has run. -/
def Worker.ran? : Worker P R → Option ℕ
  | .finished r => some r.ticket
  | .idle | .pending _ | .exited => none

/-- What a worker that pops the item becomes. -/
def TaskItem.worker : TaskItem P → Worker P R
  | .task t => .pending t
  | .stop => .exited

theorem TaskItem.ticket?_worker (i : TaskItem P) : (i.worker : Worker P R).ticket? = i.ticket? := by
  cases i <;> rfl

theorem TaskItem.ran?_worker (i : TaskItem P) : (i.worker : Worker P R).ran? = none := by
  cases i <;> rfl

/-- How often submission `k` is in the task queue, with a worker, in the result
queue or in the cache. -/
def places (s : State P R) (k : ℕ) : ℕ :=
  (held TaskItem.ticket? s.taskQueue).count k + (held Worker.ticket? s.workers).count k +
    (s.resultQueue.map (·.ticket)).count k + (s.completedResults.map (·.ticket)).count k

/-- How often submission `k` is where its result was made and not handed out. -/
def results (s : State P R) (k : ℕ) : ℕ :=
  (held Worker.ran? s.workers).count k + (s.resultQueue.map (·.ticket)).count k +
    (s.completedResults.map (·.ticket)).count k

/-- How often submission `k` is done with. -/
def done (s : State P R) (k : ℕ) : ℕ := (s.reaped.map (·.2.ticket)).count k + s.discarded.count k

/-- A result of the executor. -/
def Produced (s : State P R) (r : ResultItem R) : Prop :=
  .finished r ∈ s.workers ∨ r ∈ s.resultQueue ∨ r ∈ s.completedResults ∨ ∃ id, (id, r) ∈ s.reaped

/-- The result is that of its own submission. -/
def Own (s : State P R) (r : ResultItem R) : Prop :=
  ∃ t, s.submitted[r.ticket]? = some t ∧ t.requestId = r.requestId ∧ t.needsResult = true ∧
    (r.ticket, r.value) ∈ s.executed

/-- Submission `k` is `t`, has a result to hand out and was not reaped. -/
def Outstanding (s : State P R) (k : ℕ) (t : Task P) : Prop :=
  s.submitted[k]? = some t ∧ t.needsResult = true ∧ k ∉ s.reaped.map (·.2.ticket)

/-- The invariant of the submissions and results. -/
structure Inv (s : State P R) : Prop where
  numbered : ∀ (k : ℕ) (t : Task P), s.submitted[k]? = some t → t.ticket = k
  census : ∀ k, places s k + done s k = if k < s.submitted.length then 1 else 0
  ran : ∀ k, (s.executed.map Prod.fst).count k = results s k + done s k
  queued : ∀ t, .task t ∈ s.taskQueue → s.submitted[t.ticket]? = some t
  pending : ∀ t, .pending t ∈ s.workers → s.submitted[t.ticket]? = some t
  own : ∀ r, Produced s r → Own s r
  dropped : ∀ k ∈ s.discarded, ∃ t, s.submitted[k]? = some t ∧ t.needsResult = false
  asked : ∀ p ∈ s.reaped, p.2.requestId = p.1
  distinct : ∀ j k t u, Outstanding s j t → Outstanding s k u → t.requestId = u.requestId → j = k
  draining : ∀ op id, s.reaper = some (op, id) → ∀ r ∈ s.completedResults, r.requestId ≠ id

section Steps

variable {s s' : State P R}

/-- A result in the result queue or the cache is of an outstanding submission. -/
theorem Inv.outstanding_of_mem (h : Inv s) {r : ResultItem R} (hr : r ∈ s.resultQueue ∨ r ∈ s.completedResults) :
    ∃ t, Outstanding s r.ticket t ∧ t.requestId = r.requestId := by
  have hprod : Produced s r := Or.inr (hr.imp_right Or.inl)
  obtain ⟨t, ht, hid, hneeds, -⟩ := h.own r hprod
  refine ⟨t, ⟨ht, hneeds, fun hmem => ?_⟩, hid⟩
  have hc := h.census r.ticket
  have hpos := List.count_pos_iff.mpr hmem
  unfold places done at hc
  rcases hr with hr | hr
  · have := count_map_pos (fun r : ResultItem R => r.ticket) hr
    split_ifs at hc <;> omega
  · have := count_map_pos (fun r : ResultItem R => r.ticket) hr
    split_ifs at hc <;> omega

/-- The first result of the queue has an id that the cache does not have. -/
theorem Inv.head_fresh (h : Inv s) {r : ResultItem R} {rest : List (ResultItem R)}
    (hq : s.resultQueue = r :: rest) : ∀ c ∈ s.completedResults, c.requestId ≠ r.requestId := by
  intro c hc he
  have hr : r ∈ s.resultQueue := by rw [hq]; exact List.mem_cons_self
  obtain ⟨t, ht, htid⟩ := h.outstanding_of_mem (Or.inl hr)
  obtain ⟨u, hu, huid⟩ := h.outstanding_of_mem (Or.inr hc)
  have hk := h.distinct _ _ t u ht hu (by rw [htid, huid, he])
  have hcen := h.census r.ticket
  have h1 := count_map_pos (fun r : ResultItem R => r.ticket) hr
  have h2 := count_map_pos (fun r : ResultItem R => r.ticket) hc
  unfold places at hcen
  rw [← hk] at h2
  split_ifs at hcen <;> omega

theorem emplace_fresh {r : ResultItem R} {l : List (ResultItem R)}
    (h : ∀ c ∈ l, c.requestId ≠ r.requestId) : emplace r l = l ++ [r] := by
  have hnone : cached r.requestId l = none := by
    rw [cached, List.find?_eq_none]
    intro c hc
    simpa using h c hc
  simp [emplace, hnone]

/-! ### The reaper -/

/-- What an operation of the reaper can do in one turn: nothing to the
results, move the first result to the cache, hand it out, or hand out a
result of the cache. -/
inductive Reaps (s : State P R) : State P R → Prop where
  | wait (reaper : Option (ReapOp × ℤ)) (answers : List (ReapOp × ℤ × Bool))
      (h : ∀ op id, reaper = some (op, id) → ∀ r ∈ s.completedResults, r.requestId ≠ id) :
      Reaps s { s with reaper := reaper, answers := answers }
  | keep (r : ResultItem R) (rest : List (ResultItem R)) (reaper : Option (ReapOp × ℤ))
      (answers : List (ReapOp × ℤ × Bool)) (hq : s.resultQueue = r :: rest)
      (h : ∀ op id, reaper = some (op, id) → s.reaper = some (op, id) ∧ r.requestId ≠ id) :
      Reaps s { s with
        resultQueue := rest, completedResults := s.completedResults ++ [r]
        reaper := reaper, answers := answers }
  | take (r : ResultItem R) (rest : List (ResultItem R)) (answers : List (ReapOp × ℤ × Bool))
      (hq : s.resultQueue = r :: rest) :
      Reaps s { s with
        resultQueue := rest, reaped := s.reaped ++ [(r.requestId, r)], reaper := none, answers := answers }
  | uncache (r : ResultItem R) (l1 l2 : List (ResultItem R)) (answers : List (ReapOp × ℤ × Bool))
      (hc : s.completedResults = l1 ++ r :: l2) :
      Reaps s { s with
        completedResults := l1 ++ l2, reaped := s.reaped ++ [(r.requestId, r)], reaper := none
        answers := answers }

theorem cached_eq_some {id : ℤ} {l : List (ResultItem R)} {r : ResultItem R} (h : cached id l = some r) :
    r.requestId = id ∧ ∃ l1 l2, l = l1 ++ r :: l2 ∧ uncache id l = l1 ++ l2 := by
  obtain ⟨l1, l2, h1, h2⟩ := find?_eraseP h
  refine ⟨?_, l1, l2, h1, h2⟩
  have := List.find?_some h
  simpa using this

theorem callReaper_reaps {op : ReapOp} {id : ℤ} (h : callReaper op id s = some s') : Reaps s s' := by
  unfold callReaper at h
  split at h
  · cases h
  · rename_i hc
    cases h
    refine .wait (some (op, id)) s.answers fun op' id' he r hr => ?_
    cases he
    have := List.find?_eq_none.mp hc r hr
    simpa using this
  · rename_i r _ hc
    obtain ⟨rfl, l1, l2, h1, h2⟩ := cached_eq_some hc
    split at h
    · cases h
      exact .wait none _ fun _ _ he => by cases he
    · cases h
      rw [h2]
      exact .uncache r l1 l2 _ h1

theorem drain_reaps (hi : Inv s) (h : drain s = some s') : Reaps s s' := by
  unfold drain at h
  split at h
  · cases h
  · rename_i op id hreap hq
    split_ifs at h
    · cases h
      exact .wait s.reaper s.answers hi.draining
    · cases h
      exact .wait none _ fun _ _ he => by cases he
  · rename_i op id r rest hreap hq
    have hfresh := hi.head_fresh hq
    have hdrain := hi.draining op id hreap
    simp only [emplace_fresh hfresh] at h
    split_ifs at h with hcaches hid hid
    · -- the result is cached, and handed out by `reap(id)`
      subst hid
      split at h
      · rename_i r' hc
        have hfind : cached r.requestId (s.completedResults ++ [r]) = some r := by
          rw [cached, List.find?_append, List.find?_eq_none.mpr (by simpa using hdrain)]
          simp
        have herase : uncache r.requestId (s.completedResults ++ [r]) = s.completedResults := by
          have hno : ∀ c ∈ s.completedResults, ¬ (decide (c.requestId = r.requestId) = true) := by
            simpa using hdrain
          rw [uncache, List.eraseP_append_right _ hno]
          simp
        rw [hfind] at hc
        cases hc
        cases h
        rw [herase]
        exact .take r rest _ hq
      · cases h
        exact .keep r rest none _ hq fun _ _ he => by cases he
    · cases h
      exact .keep r rest s.reaper s.answers hq fun op' id' he => ⟨he, by rw [hreap] at he; cases he; exact hid⟩
    · subst hid
      cases h
      exact .take r rest _ hq
    · cases h
      exact .keep r rest s.reaper s.answers hq fun op' id' he => ⟨he, by rw [hreap] at he; cases he; exact hid⟩

/-- A submission that the reaper moves is in one place less and in one more. -/
theorem Reaps.places_add_done (hr : Reaps s s') (k : ℕ) : places s' k + done s' k = places s k + done s k := by
  cases hr with
  | wait reaper answers h => rfl
  | keep r rest reaper answers hq h =>
    simp only [places, done, hq, count_map_cons, count_map_snoc]
    omega
  | take r rest answers hq =>
    simp only [places, done, hq, count_map_cons, count_map_snoc]
    omega
  | uncache r l1 l2 answers hc =>
    simp only [places, done, hc, List.map_append, List.count_append, count_map_cons, List.map_nil,
      List.count_nil]
    omega

theorem Reaps.results_add_done (hr : Reaps s s') (k : ℕ) :
    results s' k + done s' k = results s k + done s k := by
  cases hr with
  | wait reaper answers h => rfl
  | keep r rest reaper answers hq h =>
    simp only [results, done, hq, count_map_cons, count_map_snoc]
    omega
  | take r rest answers hq =>
    simp only [results, done, hq, count_map_cons, count_map_snoc]
    omega
  | uncache r l1 l2 answers hc =>
    simp only [results, done, hc, List.map_append, List.count_append, count_map_cons, List.map_nil,
      List.count_nil]
    omega

/-- The reaper makes no result. -/
theorem Reaps.produced (hr : Reaps s s') {r : ResultItem R} (hp : Produced s' r) : Produced s r := by
  unfold Produced at hp ⊢
  cases hr with
  | wait reaper answers h => exact hp
  | keep r' rest reaper answers hq h =>
    simp only [List.mem_append, List.mem_singleton] at hp
    rw [hq, List.mem_cons]
    tauto
  | take r' rest answers hq =>
    simp only [List.mem_append, List.mem_singleton, Prod.mk.injEq] at hp
    rw [hq, List.mem_cons]
    rcases hp with hp | hp | hp | ⟨id, hp | ⟨-, hp⟩⟩
    · exact Or.inl hp
    · exact Or.inr (Or.inl (Or.inr hp))
    · exact Or.inr (Or.inr (Or.inl hp))
    · exact Or.inr (Or.inr (Or.inr ⟨id, hp⟩))
    · exact Or.inr (Or.inl (Or.inl hp))
  | uncache r' l1 l2 answers hc =>
    simp only [List.mem_append, List.mem_singleton, Prod.mk.injEq] at hp
    rw [hc, List.mem_append, List.mem_cons]
    rcases hp with hp | hp | hp | ⟨id, hp | ⟨-, hp⟩⟩
    · exact Or.inl hp
    · exact Or.inr (Or.inl hp)
    · exact Or.inr (Or.inr (Or.inl (hp.imp_right Or.inr)))
    · exact Or.inr (Or.inr (Or.inr ⟨id, hp⟩))
    · exact Or.inr (Or.inr (Or.inl (Or.inr (Or.inl hp))))

/-- What is handed out has the id that was asked for. -/
theorem Reaps.asked (hr : Reaps s s') (h : ∀ p ∈ s.reaped, p.2.requestId = p.1) :
    ∀ p ∈ s'.reaped, p.2.requestId = p.1 := by
  cases hr with
  | wait reaper answers hw => exact h
  | keep r rest reaper answers hq hw => exact h
  | take r rest answers hq =>
    intro p hp
    rcases List.mem_append.mp hp with hp | hp
    · exact h p hp
    · rw [List.mem_singleton.mp hp]
  | uncache r l1 l2 answers hc =>
    intro p hp
    rcases List.mem_append.mp hp with hp | hp
    · exact h p hp
    · rw [List.mem_singleton.mp hp]

theorem Reaps.outstanding (hr : Reaps s s') {k : ℕ} {t : Task P} (ht : Outstanding s' k t) :
    Outstanding s k t := by
  obtain ⟨h1, h2, h3⟩ := ht
  cases hr with
  | wait reaper answers h => exact ⟨h1, h2, h3⟩
  | keep r rest reaper answers hq h => exact ⟨h1, h2, h3⟩
  | take r rest answers hq | uncache r l1 l2 answers hc =>
    refine ⟨h1, h2, fun hm => h3 ?_⟩
    rw [List.map_append]
    exact List.mem_append_left _ hm

theorem Reaps.draining (hr : Reaps s s')
    (h : ∀ op id, s.reaper = some (op, id) → ∀ r ∈ s.completedResults, r.requestId ≠ id) :
    ∀ op id, s'.reaper = some (op, id) → ∀ r ∈ s'.completedResults, r.requestId ≠ id := by
  cases hr with
  | wait reaper answers hw => exact hw
  | keep r rest reaper answers hq hw =>
    intro op id he c hc
    obtain ⟨hold, hne⟩ := hw op id he
    rcases List.mem_append.mp hc with hc | hc
    · exact h op id hold c hc
    · rw [List.mem_singleton.mp hc]
      exact hne
  | take r rest answers hq => exact fun _ _ he => by cases he
  | uncache r l1 l2 answers hc => exact fun _ _ he => by cases he

/-- The reaper touches neither the tasks nor the record of what ran. -/
theorem Reaps.frame (hr : Reaps s s') : s'.submitted = s.submitted ∧ s'.executed = s.executed ∧
    s'.discarded = s.discarded ∧ s'.taskQueue = s.taskQueue ∧ s'.workers = s.workers := by
  cases hr <;> exact ⟨rfl, rfl, rfl, rfl, rfl⟩

theorem Inv.reaps (h : Inv s) (hr : Reaps s s') : Inv s' := by
  obtain ⟨hsub, hex, hdis, hq, hw⟩ := hr.frame
  refine
    { numbered := hsub ▸ h.numbered
      census := fun k => ?_
      ran := fun k => ?_
      queued := ?_
      pending := ?_
      own := fun r hp => ?_
      dropped := ?_
      asked := hr.asked h.asked
      distinct := fun j k t u hj hk => h.distinct j k t u (hr.outstanding hj) (hr.outstanding hk)
      draining := hr.draining h.draining }
  · rw [hr.places_add_done, h.census, hsub]
  · rw [hr.results_add_done, hex, h.ran]
  · rw [hq, hsub]
    exact h.queued
  · rw [hw, hsub]
    exact h.pending
  · have hown := h.own r (hr.produced hp)
    unfold Own at hown ⊢
    rw [hsub, hex]
    exact hown
  · rw [hdis, hsub]
    exact h.dropped

/-! ### The submitter and the workers -/

theorem Own.mono {r : ResultItem R} {ts : List (Task P)} {es : List (ℕ × R)} (h : Own s r)
    (h1 : s'.submitted = s.submitted ++ ts) (h2 : s'.executed = s.executed ++ es) : Own s' r := by
  obtain ⟨t, ht, hid, hn, he⟩ := h
  refine ⟨t, ?_, hid, hn, ?_⟩
  · rw [h1, List.getElem?_append_left (List.getElem?_eq_some_iff.mp ht).1]
    exact ht
  · rw [h2]
    exact List.mem_append_left _ he

theorem Inv.submit (h : Inv s) {requestId : ℤ} {needsResult : Bool} {payload : P}
    (hd : distinctIds s (.submit requestId needsResult payload) = true) :
    Inv (submit requestId needsResult payload s) := by
  unfold Executor.submit
  split_ifs with hc
  · exact h
  set t : Task P := ⟨requestId, needsResult, payload, s.submitted.length⟩ with ht
  have hold : ∀ {k : ℕ} {u : Task P}, s.submitted[k]? = some u → (s.submitted ++ [t])[k]? = some u := by
    intro k u hk
    rw [List.getElem?_append_left (List.getElem?_eq_some_iff.mp hk).1]
    exact hk
  have hcases : ∀ {k : ℕ} {u : Task P}, (s.submitted ++ [t])[k]? = some u →
      s.submitted[k]? = some u ∨ k = s.submitted.length ∧ u = t := by
    intro k u hk
    have hlt := (List.getElem?_eq_some_iff.mp hk).1
    rw [List.length_append, List.length_singleton] at hlt
    rcases Nat.lt_succ_iff_lt_or_eq.mp hlt with hlt | rfl
    · rw [List.getElem?_append_left hlt] at hk
      exact Or.inl hk
    · rw [List.getElem?_concat_length, Option.some.injEq] at hk
      exact Or.inr ⟨rfl, hk.symm⟩
  -- an id that was free is not that of an older outstanding request
  have hfree : ∀ k u, Outstanding s k u → needsResult = true → u.requestId ≠ requestId := by
    rintro k u ⟨hk, hn, hre⟩ rfl
    simp only [distinctIds, Bool.not_true, Bool.false_or, List.all_eq_true] at hd
    have hu := hd u (List.mem_of_getElem? hk)
    have hticket := h.numbered k u hk
    have hout : outstanding s u = true := by
      simp only [outstanding, hn, Bool.true_and, Bool.not_eq_true', List.contains_eq_mem,
        decide_eq_false_iff_not, hticket]
      exact hre
    simpa [hout] using hu
  refine
    { numbered := fun k u hk => ?_
      census := fun k => ?_
      ran := h.ran
      queued := fun u hu => ?_
      pending := fun u hu => hold (h.pending u hu)
      own := fun r hp => (h.own r hp).mono rfl (List.append_nil _).symm
      dropped := fun k hk => ?_
      asked := h.asked
      distinct := fun j k u w hj hk he => ?_
      draining := h.draining }
  · rcases hcases hk with hk | ⟨rfl, rfl⟩
    · exact h.numbered k u hk
    · rfl
  · have := h.census k
    simp only [places, done, count_held_snoc, TaskItem.ticket?, count_toList_some, ht,
      List.length_append, List.length_singleton] at this ⊢
    split_ifs at this ⊢ <;> omega
  · rcases List.mem_append.mp hu with hu | hu
    · exact hold (h.queued u hu)
    · cases List.mem_singleton.mp hu
      simp [ht]
  · obtain ⟨u, hu, hn⟩ := h.dropped k hk
    exact ⟨u, hold hu, hn⟩
  · obtain ⟨hj, hnj, hrj⟩ := hj
    obtain ⟨hk, hnk, hrk⟩ := hk
    rcases hcases hj with hj | ⟨rfl, rfl⟩ <;> rcases hcases hk with hk | ⟨rfl, rfl⟩
    · exact h.distinct j k u w ⟨hj, hnj, hrj⟩ ⟨hk, hnk, hrk⟩ he
    · exact absurd he (hfree j u ⟨hj, hnj, hrj⟩ hnk)
    · exact absurd he.symm (hfree k w ⟨hk, hnk, hrk⟩ hnj)
    · rfl

theorem popTask_cases {w : ℕ} (hs : popTask w s = some s') :
    ∃ i rest, s.workers[w]? = some .idle ∧ s.taskQueue = i :: rest ∧
      s' = { s with taskQueue := rest, workers := s.workers.set w i.worker } := by
  unfold popTask at hs
  split at hs
  · rename_i t rest hw hq
    cases hs
    exact ⟨.task t, rest, hw, hq, rfl⟩
  · rename_i rest hw hq
    cases hs
    exact ⟨.stop, rest, hw, hq, rfl⟩
  · cases hs

theorem processTasks_cases {w : ℕ} {value : R} (hs : processTasks w value s = some s') :
    ∃ t, s.workers[w]? = some (.pending t) ∧
      ((t.needsResult = true ∧ s' = { s with
        workers := s.workers.set w (.finished ⟨t.requestId, value, t.ticket⟩)
        executed := s.executed ++ [(t.ticket, value)] }) ∨
      (t.needsResult = false ∧ s' = { s with
        workers := s.workers.set w .idle
        executed := s.executed ++ [(t.ticket, value)], discarded := s.discarded ++ [t.ticket] })) := by
  unfold processTasks at hs
  split at hs
  · rename_i t hw
    split_ifs at hs with hn
    · cases hs
      exact ⟨t, hw, Or.inl ⟨hn, rfl⟩⟩
    · cases hs
      exact ⟨t, hw, Or.inr ⟨by simpa using hn, rfl⟩⟩
  · cases hs

theorem pushResult_cases {w : ℕ} (hs : pushResult w s = some s') :
    ∃ r, s.workers[w]? = some (.finished r) ∧
      s' = { s with workers := s.workers.set w .idle, resultQueue := s.resultQueue ++ [r] } := by
  unfold pushResult at hs
  split at hs
  · rename_i r hw
    cases hs
    exact ⟨r, hw, rfl⟩
  · cases hs

theorem Inv.popTask {w : ℕ} (h : Inv s) (hs : popTask w s = some s') : Inv s' := by
  obtain ⟨i, rest, hw, hq, rfl⟩ := popTask_cases hs
  refine
    { numbered := h.numbered
      census := fun k => ?_
      ran := fun k => ?_
      queued := fun u hu => h.queued u (by rw [hq]; exact List.mem_cons_of_mem _ hu)
      pending := fun u hu => ?_
      own := fun r hp => h.own r ?_
      dropped := h.dropped, asked := h.asked, distinct := h.distinct, draining := h.draining }
  · have hset := count_held_set Worker.ticket? i.worker k s.workers w _ hw
    rw [TaskItem.ticket?_worker] at hset
    rw [← h.census k]
    simp only [places, done, hq, count_held_cons, Worker.ticket?, count_toList_none] at hset ⊢
    omega
  · have hset := count_held_set Worker.ran? i.worker k s.workers w _ hw
    rw [TaskItem.ran?_worker] at hset
    rw [h.ran k]
    simp only [results, done, Worker.ran?, count_toList_none] at hset ⊢
    omega
  · rcases List.mem_or_eq_of_mem_set hu with hu | hu
    · exact h.pending u hu
    · cases i with
      | task t =>
        cases hu
        exact h.queued u (by rw [hq]; exact List.mem_cons_self)
      | stop => cases hu
  · rcases hp with hp | hp
    · rcases List.mem_or_eq_of_mem_set hp with hp | hp
      · exact Or.inl hp
      · cases i <;> cases hp
    · exact Or.inr hp

theorem Inv.processTasks {w : ℕ} {value : R} (h : Inv s) (hs : processTasks w value s = some s') :
    Inv s' := by
  obtain ⟨t, hw, ⟨hn, rfl⟩ | ⟨hn, rfl⟩⟩ := processTasks_cases hs
  · have hsub := h.pending t (List.mem_of_getElem? hw)
    refine
      { numbered := h.numbered
        census := fun k => ?_
        ran := fun k => ?_
        queued := h.queued
        pending := fun u hu => ?_
        own := fun r hp => ?_
        dropped := h.dropped, asked := h.asked, distinct := h.distinct, draining := h.draining }
    · have hset := count_held_set Worker.ticket?
        (.finished ⟨t.requestId, value, t.ticket⟩) k s.workers w _ hw
      rw [← h.census k]
      simp only [places, done, Worker.ticket?, count_toList_some] at hset ⊢
      omega
    · have hset := count_held_set Worker.ran?
        (.finished ⟨t.requestId, value, t.ticket⟩) k s.workers w _ hw
      have := h.ran k
      simp only [count_map_snoc, results, done, Worker.ran?, count_toList_some,
        count_toList_none] at hset this ⊢
      omega
    · rcases List.mem_or_eq_of_mem_set hu with hu | hu
      · exact h.pending u hu
      · cases hu
    · have hcase : Produced s r ∨ r = ⟨t.requestId, value, t.ticket⟩ := by
        rcases hp with hp | hp
        · rcases List.mem_or_eq_of_mem_set hp with hp | hp
          · exact Or.inl (Or.inl hp)
          · cases hp
            exact Or.inr rfl
        · exact Or.inl (Or.inr hp)
      rcases hcase with hp | rfl
      · exact (h.own r hp).mono (List.append_nil _).symm rfl
      · exact ⟨t, hsub, rfl, hn, by simp⟩
  · have hsub := h.pending t (List.mem_of_getElem? hw)
    refine
      { numbered := h.numbered
        census := fun k => ?_
        ran := fun k => ?_
        queued := h.queued
        pending := fun u hu => ?_
        own := fun r hp => ?_
        dropped := fun k hk => ?_
        asked := h.asked, distinct := h.distinct, draining := h.draining }
    · have hset := count_held_set Worker.ticket? .idle k s.workers w _ hw
      rw [← h.census k]
      simp only [places, done, Worker.ticket?, count_toList_some, count_toList_none, List.count_append,
        List.count_singleton, beq_iff_eq] at hset ⊢
      omega
    · have hset := count_held_set Worker.ran? .idle k s.workers w _ hw
      have := h.ran k
      simp only [count_map_snoc, results, done, Worker.ran?, count_toList_none, List.count_append,
        List.count_singleton, beq_iff_eq] at hset this ⊢
      omega
    · rcases List.mem_or_eq_of_mem_set hu with hu | hu
      · exact h.pending u hu
      · cases hu
    · refine (h.own r ?_).mono (List.append_nil _).symm rfl
      rcases hp with hp | hp
      · rcases List.mem_or_eq_of_mem_set hp with hp | hp
        · exact Or.inl hp
        · cases hp
      · exact Or.inr hp
    · rcases List.mem_append.mp hk with hk | hk
      · exact h.dropped k hk
      · rw [List.mem_singleton.mp hk]
        exact ⟨t, hsub, hn⟩

theorem Inv.pushResult {w : ℕ} (h : Inv s) (hs : pushResult w s = some s') : Inv s' := by
  obtain ⟨r, hw, rfl⟩ := pushResult_cases hs
  refine
    { numbered := h.numbered
      census := fun k => ?_
      ran := fun k => ?_
      queued := h.queued
      pending := fun u hu => ?_
      own := fun r' hp => h.own r' ?_
      dropped := h.dropped, asked := h.asked, distinct := h.distinct, draining := h.draining }
  · have hset := count_held_set Worker.ticket? .idle k s.workers w _ hw
    rw [← h.census k]
    simp only [places, done, Worker.ticket?, count_toList_some, count_toList_none,
      count_map_snoc] at hset ⊢
    omega
  · have hset := count_held_set Worker.ran? .idle k s.workers w _ hw
    rw [h.ran k]
    simp only [results, done, Worker.ran?, count_toList_some, count_toList_none,
      count_map_snoc] at hset ⊢
    omega
  · rcases List.mem_or_eq_of_mem_set hu with hu | hu
    · exact h.pending u hu
    · cases hu
  · rcases hp with hp | hp | hp
    · rcases List.mem_or_eq_of_mem_set hp with hp | hp
      · exact Or.inl hp
      · cases hp
    · rcases List.mem_append.mp hp with hp | hp
      · exact Or.inr (Or.inl hp)
      · rw [List.mem_singleton.mp hp]
        exact Or.inl (List.mem_of_getElem? hw)
    · exact Or.inr (Or.inr hp)

/-! ### Stopping -/

theorem Inv.stop (h : Inv s) : Inv (stop s) := by
  unfold Executor.stop
  split_ifs
  · exact h
  · exact ⟨h.1, h.2, h.3, h.4, h.5, h.6, h.7, h.8, h.9, h.10⟩

theorem Inv.join (h : Inv s) (hs : join s = some s') : Inv s' := by
  unfold Executor.join at hs
  split_ifs at hs
  cases hs
  exact ⟨h.1, h.2, h.3, h.4, h.5, h.6, h.7, h.8, h.9, h.10⟩

/-- A sentinel is no submission. -/
theorem Inv.pushStop (h : Inv s) (hs : pushStop s = some s') : Inv s' := by
  unfold Executor.pushStop at hs
  split_ifs at hs
  cases hs
  refine
    { numbered := h.numbered
      census := fun k => ?_
      ran := h.ran
      queued := fun t ht => h.queued t ?_
      pending := h.pending, own := h.own, dropped := h.dropped, asked := h.asked
      distinct := h.distinct, draining := h.draining }
  · rw [← h.census k]
    simp only [places, done, count_held_snoc, TaskItem.ticket?, count_toList_none, Nat.add_zero]
  · simpa using ht

/-- A worker that has exited. -/
def Worker.exit? : Worker P R → Option Unit
  | .exited => some ()
  | .idle | .pending _ | .finished _ => none

/-- The workers that have exited. -/
def exits (s : State P R) : ℕ := (held Worker.exit? s.workers).count ()

/-- The invariant of the stop, with tasks `ts` and `m` sentinels in the queue:
there is one sentinel for every worker, and who has popped a sentinel has seen
the last task go. -/
structure Life (s : State P R) (ts : List (Task P)) (m : ℕ) : Prop where
  queue : s.taskQueue = ts.map .task ++ List.replicate m .stop
  after : 0 < exits s → ts = []
  balance : exits s + m + s.stopsLeft = if s.stopRequested then s.workers.length else 0
  ended : s.joined = true → ∀ w ∈ s.workers, w = .exited

theorem Life.submit {ts : List (Task P)} {m : ℕ} (h : Life s ts m) (requestId : ℤ) (needsResult : Bool)
    (payload : P) : ∃ ts', Life (submit requestId needsResult payload s) ts' m := by
  unfold Executor.submit
  split_ifs with hc
  · exact ⟨ts, h⟩
  · have hb := h.balance
    rw [if_neg fun hr => hc (Or.inr hr)] at hb
    have hm : m = 0 := by omega
    have he : exits s = 0 := by omega
    subst hm
    set t : Task P := ⟨requestId, needsResult, payload, s.submitted.length⟩
    refine ⟨ts ++ [t], ?_, fun hpos => ?_, h.balance, h.ended⟩
    · simp [h.queue]
    · change 0 < exits s at hpos
      omega

/-- A worker that had not exited takes a step. -/
theorem exits_set {w : ℕ} {x y : Worker P R} (hw : s.workers[w]? = some y) (hy : y.exit? = none) :
    (held Worker.exit? (s.workers.set w x)).count () = exits s + x.exit?.toList.count () := by
  have := count_held_set Worker.exit? x () s.workers w y hw
  rw [hy] at this
  exact this

theorem not_joined {ts : List (Task P)} {m w : ℕ} {y : Worker P R} (h : Life s ts m)
    (hw : s.workers[w]? = some y) (hy : y.exit? = none) : s.joined ≠ true := by
  intro hj
  rw [h.ended hj y (List.mem_of_getElem? hw)] at hy
  cases hy

theorem Life.popTask {ts : List (Task P)} {m w : ℕ} (h : Life s ts m) (hs : popTask w s = some s') :
    ∃ ts' m', Life s' ts' m' := by
  obtain ⟨i, rest, hw, hq, rfl⟩ := popTask_cases hs
  have hset := exits_set (x := i.worker) hw rfl
  have hb := h.balance
  have hno := not_joined h hw rfl
  have hqueue := h.queue
  rw [hq] at hqueue
  cases ts with
  | cons t ts =>
    simp only [List.map_cons, List.cons_append, List.cons.injEq] at hqueue
    obtain ⟨rfl, hrest⟩ := hqueue
    have he : exits s = 0 := by
      by_contra hne
      exact absurd (h.after (Nat.pos_of_ne_zero hne)) (List.cons_ne_nil _ _)
    have hstay : exits { s with taskQueue := rest, workers := s.workers.set w (.pending t) } = exits s := hset
    refine ⟨ts, m, hrest, fun hpos => ?_, ?_, fun hj => absurd hj hno⟩
    · change 0 < exits { s with taskQueue := rest, workers := s.workers.set w (.pending t) } at hpos
      omega
    · rw [show TaskItem.worker (.task t) = (.pending t : Worker P R) from rfl, hstay, List.length_set]
      exact hb
  | nil =>
    -- no task is left, so the item is a sentinel
    cases m with
    | zero => simp at hqueue
    | succ m =>
      simp only [List.map_nil, List.nil_append, List.replicate_succ, List.cons.injEq] at hqueue
      obtain ⟨rfl, hrest⟩ := hqueue
      have hone : exits { s with taskQueue := rest, workers := s.workers.set w .exited } = exits s + 1 := hset
      refine ⟨[], m, hrest, fun _ => rfl, ?_, fun hj => absurd hj hno⟩
      rw [show TaskItem.worker .stop = (.exited : Worker P R) from rfl, hone, List.length_set]
      simp only at hb ⊢
      omega

/-- A worker that stays in its loop. -/
theorem Life.work {ts : List (Task P)} {m w : ℕ} {x y : Worker P R} (h : Life s ts m)
    (hw : s.workers[w]? = some y) (hy : y.exit? = none) (hx : x.exit? = none)
    (hworkers : s'.workers = s.workers.set w x) (hq : s'.taskQueue = s.taskQueue)
    (hstop : s'.stopRequested = s.stopRequested) (hleft : s'.stopsLeft = s.stopsLeft)
    (hj : s'.joined = s.joined) : Life s' ts m := by
  have hset := exits_set (x := x) hw hy
  rw [hx, count_toList_none, Nat.add_zero, ← hworkers] at hset
  have hno := not_joined h hw hy
  refine ⟨by rw [hq, h.queue], fun hpos => h.after (hset ▸ hpos), ?_, fun hj' => absurd (hj ▸ hj') hno⟩
  rw [exits, hset, hleft, hstop, hworkers, List.length_set]
  exact h.balance

theorem Life.congr {ts : List (Task P)} {m : ℕ} (h : Life s ts m) (hworkers : s'.workers = s.workers)
    (hq : s'.taskQueue = s.taskQueue) (hstop : s'.stopRequested = s.stopRequested)
    (hleft : s'.stopsLeft = s.stopsLeft) (hj : s'.joined = s.joined) : Life s' ts m := by
  have he : exits s' = exits s := by rw [exits, hworkers, exits]
  refine ⟨by rw [hq, h.queue], fun hpos => h.after (he ▸ hpos), ?_, fun hj' => ?_⟩
  · rw [he, hleft, hstop, hworkers]
    exact h.balance
  · rw [hworkers]
    exact h.ended (hj ▸ hj')

theorem Reaps.life {ts : List (Task P)} {m : ℕ} (hr : Reaps s s') (h : Life s ts m) : Life s' ts m := by
  cases hr <;> exact h.congr rfl rfl rfl rfl rfl

theorem Life.stop {ts : List (Task P)} {m : ℕ} (h : Life s ts m) : Life (stop s) ts m := by
  unfold Executor.stop
  split_ifs with hc
  · exact h
  · have hb := h.balance
    rw [if_neg hc] at hb
    refine ⟨h.queue, h.after, ?_, h.ended⟩
    show exits s + m + s.workers.length = s.workers.length
    omega

theorem Life.pushStop {ts : List (Task P)} {m : ℕ} (h : Life s ts m) (hs : pushStop s = some s') :
    Life s' ts (m + 1) := by
  unfold Executor.pushStop at hs
  split_ifs at hs with hpos
  cases hs
  have hb := h.balance
  refine ⟨?_, h.after, ?_, h.ended⟩
  · simp [h.queue, List.replicate_succ']
  · show exits s + (m + 1) + (s.stopsLeft - 1) = if s.stopRequested then s.workers.length else 0
    rw [← hb]
    omega

theorem Life.join {ts : List (Task P)} {m : ℕ} (h : Life s ts m) (hs : join s = some s') :
    Life s' ts m := by
  unfold Executor.join at hs
  split_ifs at hs with hc
  cases hs
  refine ⟨h.queue, h.after, h.balance, fun _ w hw => ?_⟩
  have := hc.2.2 w hw
  cases w <;> simp_all

theorem exits_eq_length (hall : ∀ w ∈ s.workers, w = .exited) : exits s = s.workers.length := by
  rw [exits, List.eq_replicate_of_mem hall]
  simp [held, Worker.exit?, List.filterMap_replicate_of_some]

/-- When `join` has returned, the task queue is empty. -/
theorem Life.queue_nil {ts : List (Task P)} {m : ℕ} (h : Life s ts m) (hne : s.workers ≠ [])
    (hj : s.joined = true) : s.taskQueue = [] := by
  have hlen := exits_eq_length (h.ended hj)
  have hpos : 0 < s.workers.length := List.length_pos_iff.mpr hne
  have hb := h.balance
  have hm : m = 0 := by split_ifs at hb <;> omega
  rw [h.queue, h.after (by omega), hm]
  rfl

end Steps

end Executor
end Siphon
