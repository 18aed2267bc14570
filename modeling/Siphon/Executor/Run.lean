/-
# The delivery protocol

What every run of the executor keeps (`executor_delivers`), from the
invariants `Inv` and `Life`, and that an operation of the reaper finds a
result that was pushed before it was called (`exists_found`).
-/
import Siphon.Executor.Delivery

namespace Siphon
namespace Executor

open Census

variable {P R : Type}

/-! ### The invariant of all runs -/

/-- The invariant of the executor. -/
structure Invariant (s : State P R) : Prop where
  inv : Inv s
  life : ∃ ts m, Life s ts m
  workers : s.workers ≠ []

theorem inv_init (n : ℕ) : Inv (executor P R n).init := by
  have hheld : ∀ f : Worker P R → Option ℕ, f .idle = none → held f (executor P R n).init.workers = [] := by
    intro f hf
    simp [executor, held, hf]
  have hidle : ∀ w ∈ (executor P R n).init.workers, w = .idle := fun w hw => List.eq_of_mem_replicate hw
  exact
    { numbered := fun k t h => by simp [executor] at h
      census := fun k => by
        rw [places, hheld _ rfl]
        simp [executor, done, held]
      ran := fun k => by
        rw [results, hheld _ rfl]
        simp [executor, done]
      queued := fun t ht => by simp [executor] at ht
      pending := fun t ht => by cases hidle _ ht
      own := fun r hr => by
        rcases hr with hr | hr | hr | ⟨id, hr⟩
        · cases hidle _ hr
        all_goals simp [executor] at hr
      dropped := fun k hk => by simp [executor] at hk
      asked := fun p hp => by simp [executor] at hp
      distinct := fun j k t u hj => by simp [Outstanding, executor] at hj
      draining := fun op id hr => by simp [executor] at hr }

theorem life_init (n : ℕ) : Life (executor P R n).init [] 0 := by
  refine ⟨rfl, fun _ => rfl, ?_, fun h => by cases h⟩
  have hnone : held Worker.exit? (executor P R n).init.workers = [] := by
    simp [executor, held, Worker.exit?]
  rw [exits, hnone]
  rfl

theorem Invariant.init (n : ℕ) : Invariant (executor P R n).init := by
  refine ⟨inv_init n, ⟨[], 0, life_init n⟩, ?_⟩
  by_cases hn : n = 0 <;> simp [executor, hn]

theorem Invariant.step {s s' : State P R} {a : Action P R} (h : Invariant s) (hd : distinctIds s a = true)
    (hs : step s a = some s') : Invariant s' := by
  obtain ⟨hi, ⟨ts, m, hl⟩, hne⟩ := h
  cases a with
  | submit requestId needsResult payload =>
    cases hs
    obtain ⟨ts', hl'⟩ := hl.submit requestId needsResult payload
    refine ⟨hi.submit hd, ⟨ts', m, hl'⟩, ?_⟩
    unfold Executor.submit
    split_ifs <;> exact hne
  | popTask w =>
    refine ⟨hi.popTask hs, hl.popTask hs, ?_⟩
    obtain ⟨i, rest, -, -, rfl⟩ := popTask_cases hs
    simpa using hne
  | processTasks w value =>
    refine ⟨hi.processTasks hs, ?_, ?_⟩
    · obtain ⟨t, hw, ⟨-, rfl⟩ | ⟨-, rfl⟩⟩ := processTasks_cases hs
      · exact ⟨ts, m, hl.work hw rfl rfl rfl rfl rfl rfl rfl⟩
      · exact ⟨ts, m, hl.work hw rfl rfl rfl rfl rfl rfl rfl⟩
    · obtain ⟨t, hw, ⟨-, rfl⟩ | ⟨-, rfl⟩⟩ := processTasks_cases hs <;> simpa using hne
  | pushResult w =>
    refine ⟨hi.pushResult hs, ?_, ?_⟩
    · obtain ⟨r, hw, rfl⟩ := pushResult_cases hs
      exact ⟨ts, m, hl.work hw rfl rfl rfl rfl rfl rfl rfl⟩
    · obtain ⟨r, hw, rfl⟩ := pushResult_cases hs
      simpa using hne
  | callReaper op id =>
    have hr := callReaper_reaps hs
    refine ⟨hi.reaps hr, ⟨ts, m, hr.life hl⟩, ?_⟩
    cases hr <;> exact hne
  | drain =>
    have hr := drain_reaps hi hs
    refine ⟨hi.reaps hr, ⟨ts, m, hr.life hl⟩, ?_⟩
    cases hr <;> exact hne
  | stop =>
    cases hs
    refine ⟨hi.stop, ⟨ts, m, hl.stop⟩, ?_⟩
    unfold Executor.stop
    split_ifs <;> exact hne
  | pushStop =>
    refine ⟨hi.pushStop hs, ⟨ts, m + 1, hl.pushStop hs⟩, ?_⟩
    simp only [Executor.step, Executor.pushStop] at hs
    split_ifs at hs
    cases hs
    exact hne
  | join =>
    refine ⟨hi.join hs, ⟨ts, m, hl.join hs⟩, ?_⟩
    simp only [Executor.step, Executor.join] at hs
    split_ifs at hs
    cases hs
    exact hne

/-- Every run of an executor whose callers keep outstanding ids distinct. -/
theorem reachable_invariant {n : ℕ} {s : State P R}
    (h : ((executor P R n).restrict distinctIds).Reachable s) : Invariant s := by
  refine h.invariant (.init n) fun s a s' hi hs => ?_
  obtain ⟨hd, hs⟩ := Machine.restrict_step.mp hs
  exact hi.step hd hs

/-! ### Finding a result -/

section Found

variable {s s' : State P R}

theorem Inv.ticket_eq (h : Inv s) {r : ResultItem R} (hr : r ∈ s.resultQueue ∨ r ∈ s.completedResults)
    {k : ℕ} {t : Task P} (ht : Outstanding s k t) (hid : r.requestId = t.requestId) : r.ticket = k := by
  obtain ⟨u, hu, huid⟩ := h.outstanding_of_mem hr
  exact h.distinct _ _ u t hu ht (huid.trans hid)

theorem Inv.requestId_eq (h : Inv s) {r : ResultItem R} (hr : r ∈ s.resultQueue ∨ r ∈ s.completedResults)
    {k : ℕ} {t : Task P} (ht : s.submitted[k]? = some t) (hk : r.ticket = k) :
    r.requestId = t.requestId := by
  obtain ⟨u, ⟨hu, -, -⟩, huid⟩ := h.outstanding_of_mem hr
  rw [hk, ht, Option.some.injEq] at hu
  rw [← huid, hu]

/-- The operation `op` on `id` has ended and found submission `k`: `ready`
leaves it in the cache, the others hand it out. -/
def Found (op : ReapOp) (id : ℤ) (k : ℕ) (s : State P R) : Prop :=
  s.reaper = none ∧ s.answers.getLast? = some (op, id, true) ∧
    if op = .ready then k ∈ s.completedResults.map (·.ticket)
    else ∃ r, (id, r) ∈ s.reaped ∧ r.ticket = k

/-- The results of other requests are moved to the cache. -/
theorem drain_other {op : ReapOp} {id : ℤ} {r : ResultItem R} {rest : List (ResultItem R)}
    (hr : s.reaper = some (op, id)) (hq : s.resultQueue = r :: rest) (hne : r.requestId ≠ id) :
    drain s = some { s with resultQueue := rest, completedResults := emplace r s.completedResults } := by
  unfold drain
  rw [hr, hq]
  by_cases hc : op.caches = true <;> simp [hc, hne]

theorem drain_own (h : Inv s) {op : ReapOp} {r : ResultItem R} {rest : List (ResultItem R)}
    (hr : s.reaper = some (op, r.requestId)) (hq : s.resultQueue = r :: rest) :
    ∃ s', drain s = some s' ∧ Found op r.requestId r.ticket s' := by
  have hadd := emplace_fresh (h.head_fresh hq)
  have hfind : cached r.requestId (s.completedResults ++ [r]) = some r := by
    rw [cached, List.find?_append, List.find?_eq_none.mpr (by simpa using h.draining _ _ hr)]
    simp
  unfold drain
  rw [hr, hq]
  cases op <;> simp [ReapOp.caches, hadd, hfind, Found, hand, answer]

/-- A result of the cache is found at once. -/
theorem callReaper_own (h : Inv s) (op : ReapOp) {k : ℕ} {t : Task P} (ht : Outstanding s k t)
    (hr : s.reaper = none) {r : ResultItem R} (hc : cached t.requestId s.completedResults = some r) :
    ∃ s', callReaper op t.requestId s = some s' ∧ Found op t.requestId k s' := by
  obtain ⟨hid, l1, l2, hl, -⟩ := cached_eq_some hc
  have hmem : r ∈ s.completedResults := by simp [hl]
  have hticket := h.ticket_eq (Or.inr hmem) ht hid
  cases op with
  | ready =>
    refine ⟨answer .ready t.requestId true s, by simp [callReaper, hr, hc], rfl, by simp [answer], ?_⟩
    simp only [answer, if_true]
    exact hticket ▸ List.mem_map_of_mem hmem
  | tryReap | reapInto | reap =>
    refine ⟨_, by simp [callReaper, hr, hc]; rfl, rfl, by simp [hand], ?_⟩
    simp only [hand, reduceCtorEq, if_false]
    exact ⟨r, by simp, hticket⟩

/-- In the loop of the reaper, with submission `k` in the result queue. -/
theorem exists_found_of_draining (n : ℕ) {op : ReapOp} {k : ℕ} {t : Task P} :
    ∀ (l : List (ResultItem R)) (s : State P R), Inv s → s.resultQueue = l → Outstanding s k t →
      s.reaper = some (op, t.requestId) → k ∈ l.map (·.ticket) →
      ∃ i s', (executor P R n).exec (List.replicate i .drain) s = some s' ∧ Found op t.requestId k s' := by
  intro l
  induction l with
  | nil => intro s _ _ _ _ hk; simp at hk
  | cons r rest ih =>
    intro s h hq ht hr hk
    have hmem : r ∈ s.resultQueue ∨ r ∈ s.completedResults := by simp [hq]
    by_cases hid : r.requestId = t.requestId
    · have hticket := h.ticket_eq hmem ht hid
      rw [← hid] at hr ⊢
      obtain ⟨s', hs, hf⟩ := drain_own h hr hq
      refine ⟨1, s', ?_, hticket ▸ hf⟩
      simp [Machine.exec, executor, step, hs]
    · have hs := drain_other hr hq hid
      have hrest : k ∈ rest.map (·.ticket) := by
        rw [List.map_cons, List.mem_cons] at hk
        refine hk.resolve_left fun he => hid ?_
        exact h.requestId_eq hmem ht.1 he.symm
      obtain ⟨i, s', he, hf⟩ := ih _ (h.reaps (drain_reaps h hs)) rfl ht hr hrest
      refine ⟨i + 1, s', ?_, hf⟩
      simp only [List.replicate_succ, Machine.exec, executor, step, hs, Option.bind_some]
      exact he

/-- An operation on the id of a submission whose result is in the result queue
or in the cache ends after some turns of its loop, and finds it. -/
theorem exists_found (n : ℕ) (h : Inv s) (op : ReapOp) {k : ℕ} {t : Task P} (ht : Outstanding s k t)
    (hr : s.reaper = none) (hk : k ∈ (s.resultQueue ++ s.completedResults).map (·.ticket)) :
    ∃ i s', (executor P R n).exec (.callReaper op t.requestId :: List.replicate i .drain) s = some s' ∧
      Found op t.requestId k s' := by
  cases hc : cached t.requestId s.completedResults with
  | some r =>
    obtain ⟨s', hs, hf⟩ := callReaper_own h op ht hr hc
    exact ⟨0, s', by simp [Machine.exec, executor, step, hs], hf⟩
  | none =>
    have hcall : callReaper op t.requestId s = some { s with reaper := some (op, t.requestId) } := by
      simp [callReaper, hr, hc]
    have hnone : ∀ r ∈ s.completedResults, r.requestId ≠ t.requestId := by
      simpa [cached] using hc
    have hqueue : k ∈ s.resultQueue.map (·.ticket) := by
      rw [List.map_append, List.mem_append] at hk
      refine hk.resolve_right fun hk => ?_
      obtain ⟨r, hmem, hticket⟩ := List.mem_map.mp hk
      exact hnone r hmem (h.requestId_eq (Or.inr hmem) ht.1 hticket)
    obtain ⟨i, s', he, hf⟩ :=
      exists_found_of_draining n s.resultQueue _ (h.reaps (callReaper_reaps hcall)) rfl ht rfl hqueue
    refine ⟨i, s', ?_, hf⟩
    simp only [Machine.exec, executor, step, hcall, Option.bind_some]
    exact he

end Found

/-! ### Delivery -/

/-- What an executor with `n` workers promises in a state. -/
structure Delivers (n : ℕ) (s : State P R) : Prop where
  /-- An outstanding request is in exactly one place. -/
  one_place : ∀ k t, Outstanding s k t → places s k = 1
  /-- A loop that ends without a result ends while the request is still in the
  task queue or with a worker. -/
  missed : ∀ op id s', drain s = some s' → s'.answers = s.answers ++ [(op, id, false)] →
    ∀ k t, Outstanding s k t → t.requestId = id →
      k ∈ held TaskItem.ticket? s.taskQueue ∨ k ∈ held Worker.ticket? s.workers
  /-- An operation that starts after the result was pushed finds it. -/
  found : ∀ op k t, Outstanding s k t → s.reaper = none →
    k ∈ (s.resultQueue ++ s.completedResults).map (·.ticket) →
    ∃ i s', (executor P R n).exec (.callReaper op t.requestId :: List.replicate i .drain) s = some s' ∧
      Found op t.requestId k s'
  /-- What is handed out is the result of the request's own task. -/
  own_result : ∀ id r, (id, r) ∈ s.reaped → r.requestId = id ∧ Own s r
  /-- Nothing is handed out twice. -/
  once : (s.reaped.map (·.2.ticket)).Nodup
  /-- A request without a result is not in the result queue or the cache. -/
  no_result : ∀ k t, s.submitted[k]? = some t → t.needsResult = false →
    k ∉ s.resultQueue.map (·.ticket) ∧ k ∉ s.completedResults.map (·.ticket)
  /-- No task runs twice, and when `join` has returned, every task has run. -/
  executed : ∀ k, (s.executed.map Prod.fst).count k ≤ 1
  joined : s.joined = true → ∀ k < s.submitted.length, (s.executed.map Prod.fst).count k = 1

section Delivers

variable {n : ℕ} {s s' : State P R}

theorem Inv.one_place (h : Inv s) {k : ℕ} {t : Task P} (ht : Outstanding s k t) : places s k = 1 := by
  obtain ⟨hk, hn, hre⟩ := ht
  have hdone : done s k = 0 := by
    have hdrop : k ∉ s.discarded := by
      intro hd
      obtain ⟨u, hu, hun⟩ := h.dropped k hd
      rw [hk, Option.some.injEq] at hu
      rw [← hu, hn] at hun
      cases hun
    rw [done, List.count_eq_zero.mpr hre, List.count_eq_zero.mpr hdrop]
  have hc := h.census k
  rw [hdone, if_pos (List.getElem?_eq_some_iff.mp hk).1] at hc
  exact hc

/-- The answer `false` comes from an empty result queue. -/
theorem drain_false {op : ReapOp} {id : ℤ} (hs : drain s = some s')
    (ha : s'.answers = s.answers ++ [(op, id, false)]) : s.reaper = some (op, id) ∧ s.resultQueue = [] := by
  have hself : ∀ l : List (ReapOp × ℤ × Bool), l ≠ l ++ [(op, id, false)] := by
    intro l he
    simpa using congrArg List.length he
  unfold drain at hs
  split at hs
  · cases hs
  · rename_i op' id' hr hq
    split_ifs at hs with hb
    · cases hs
      exact absurd ha (hself _)
    · cases hs
      simp only [answer, List.append_cancel_left_eq, List.cons.injEq, Prod.mk.injEq, and_true] at ha
      obtain ⟨rfl, rfl⟩ := ha
      exact ⟨hr, hq⟩
  · dsimp only at hs
    split_ifs at hs
    · split at hs
      · cases hs
        simp [hand] at ha
      · cases hs
        simp [answer] at ha
    · cases hs
      exact absurd ha (hself _)
    · cases hs
      simp [hand] at ha
    · cases hs
      exact absurd ha (hself _)

/-- A result that an operation waits for is still with the tasks. -/
theorem Inv.still_coming (h : Inv s) {op : ReapOp} {id : ℤ} (hr : s.reaper = some (op, id))
    (hq : s.resultQueue = []) {k : ℕ} {t : Task P} (ht : Outstanding s k t) (hid : t.requestId = id) :
    k ∈ held TaskItem.ticket? s.taskQueue ∨ k ∈ held Worker.ticket? s.workers := by
  have hcache : (s.completedResults.map (·.ticket)).count k = 0 := by
    rw [List.count_eq_zero, List.mem_map]
    rintro ⟨r, hmem, hticket⟩
    exact h.draining op id hr r hmem (hid ▸ h.requestId_eq (Or.inr hmem) ht.1 hticket)
  have hone := h.one_place ht
  rw [places, hq, hcache, List.map_nil, List.count_nil] at hone
  rw [← List.count_pos_iff, ← List.count_pos_iff]
  omega

theorem Inv.missed (h : Inv s) {op : ReapOp} {id : ℤ} (hs : drain s = some s')
    (ha : s'.answers = s.answers ++ [(op, id, false)]) {k : ℕ} {t : Task P} (ht : Outstanding s k t)
    (hid : t.requestId = id) :
    k ∈ held TaskItem.ticket? s.taskQueue ∨ k ∈ held Worker.ticket? s.workers := by
  obtain ⟨hr, hq⟩ := drain_false hs ha
  exact h.still_coming hr hq ht hid

theorem Inv.once (h : Inv s) : (s.reaped.map (·.2.ticket)).Nodup := by
  rw [List.nodup_iff_count_le_one]
  intro k
  have hc := h.census k
  unfold done at hc
  split_ifs at hc <;> omega

theorem Inv.no_result (h : Inv s) {k : ℕ} {t : Task P} (ht : s.submitted[k]? = some t)
    (hn : t.needsResult = false) :
    k ∉ s.resultQueue.map (·.ticket) ∧ k ∉ s.completedResults.map (·.ticket) := by
  have hno : ∀ r, (r ∈ s.resultQueue ∨ r ∈ s.completedResults) → r.ticket ≠ k := by
    rintro r hr rfl
    obtain ⟨u, ⟨hu, hun, -⟩, -⟩ := h.outstanding_of_mem hr
    rw [ht, Option.some.injEq] at hu
    rw [← hu, hn] at hun
    cases hun
  constructor <;> rw [List.mem_map] <;> rintro ⟨r, hr, hticket⟩
  · exact hno r (Or.inl hr) hticket
  · exact hno r (Or.inr hr) hticket

theorem Inv.executed_le (h : Inv s) (k : ℕ) : (s.executed.map Prod.fst).count k ≤ 1 := by
  have hran : ∀ (w : Worker P R) (j : ℕ), w.ran? = some j → w.ticket? = some j := by
    rintro (_ | _ | _ | _) j hj
    all_goals first | exact hj | cases hj
  have hle := count_held_le hran s.workers k
  have hc := h.census k
  rw [h.ran k, results]
  unfold places at hc
  split_ifs at hc <;> omega

theorem Invariant.executed_of_joined (h : Invariant s) (hj : s.joined = true) {k : ℕ}
    (hk : k < s.submitted.length) : (s.executed.map Prod.fst).count k = 1 := by
  obtain ⟨ts, m, hl⟩ := h.life
  have hqueue := hl.queue_nil h.workers hj
  have hworker : ∀ f : Worker P R → Option ℕ, f .exited = none → held f s.workers = [] := by
    intro f hf
    rw [held, List.filterMap_eq_nil_iff]
    intro w hw
    rw [hl.ended hj w hw, hf]
  have hc := h.inv.census k
  rw [if_pos hk, places, hqueue, hworker _ rfl] at hc
  rw [h.inv.ran k, results, hworker _ rfl]
  simpa [held] using hc

/-- **Delivery.** However the submitter, the workers and the reaper interleave,
if outstanding ids are distinct, no result is lost, doubled or crossed, and
`join` returns when all tasks have run. -/
theorem executor_delivers (n : ℕ) (s : State P R) (h : ((executor P R n).restrict distinctIds).Reachable s) :
    Delivers n s := by
  have hinv := reachable_invariant h
  have hi := hinv.inv
  exact
    { one_place := fun k t ht => hi.one_place ht
      missed := fun op id s' hs ha k t ht hid => hi.missed hs ha ht hid
      found := fun op k t ht hr hk => exists_found n hi op ht hr hk
      own_result := fun id r hr => ⟨hi.asked _ hr, hi.own r (Or.inr (Or.inr (Or.inr ⟨id, hr⟩)))⟩
      once := hi.once
      no_result := fun k t ht hn => hi.no_result ht hn
      executed := hi.executed_le
      joined := fun hj k hk => hinv.executed_of_joined hj hk }

/-- Two workers; the second request is done first and is cached while the
first is reaped; a request without a result is run before the stop. -/
def outOfOrder : List (Action ℕ ℕ) :=
  [.submit 5 true 10, .submit 6 true 20, .submit 7 false 30, .popTask 0, .popTask 1, .processTasks 1 21,
    .pushResult 1, .callReaper .reap 5, .drain, .drain, .processTasks 0 11, .pushResult 0, .drain, .stop,
    .pushStop, .popTask 1, .pushStop, .popTask 0, .processTasks 1 31, .popTask 1, .join,
    .callReaper .tryReap 6]

theorem executor_delivers_outOfOrder :
    ∃ s : State ℕ ℕ, ((executor ℕ ℕ 2).restrict distinctIds).Reachable s ∧ s.joined = true ∧
      s.reaped = [(5, ⟨5, 11, 0⟩), (6, ⟨6, 21, 1⟩)] ∧ s.discarded = [2] ∧ Delivers 2 s := by
  obtain ⟨s, hs, hp⟩ := ((executor ℕ ℕ 2).restrict distinctIds).exists_reachable outOfOrder
    (fun s => decide (s.joined = true ∧ s.reaped = [(5, ⟨5, 11, 0⟩), (6, ⟨6, 21, 1⟩)] ∧ s.discarded = [2]))
    (by decide)
  obtain ⟨h1, h2, h3⟩ := of_decide_eq_true hp
  exact ⟨s, hs, h1, h2, h3, executor_delivers 2 s hs⟩

end Delivers

/-! ### One worker

`SingleThreadTaskExecutor` has one worker. What it has run, what it holds and
the task queue are then the submissions in their order, so that the users of
such an executor may take it for a thread that runs its tasks in FIFO order. -/

/-- The task that a worker is about to run. -/
def Worker.next? : Worker P R → Option ℕ
  | .pending t => some t.ticket
  | .idle | .finished _ | .exited => none

/-- The submissions that have run, the one that is next, and the queue. -/
structure InSequence (s : State P R) : Prop where
  one : s.workers.length = 1
  order : s.executed.map Prod.fst ++ (held Worker.next? s.workers ++ held TaskItem.ticket? s.taskQueue) =
    List.range s.submitted.length

section Single

variable {s s' : State P R}

theorem inSequence_init : InSequence (executor P R 1).init := ⟨rfl, rfl⟩

/-- A step that does not touch the tasks. -/
theorem InSequence.congr (h : InSequence s) (hw : s'.workers = s.workers) (hq : s'.taskQueue = s.taskQueue)
    (he : s'.executed = s.executed) (hsub : s'.submitted = s.submitted) : InSequence s' := by
  refine ⟨by rw [hw, h.one], ?_⟩
  rw [hw, hq, he, hsub]
  exact h.order

/-- The worker with index `w` is the only one. -/
theorem InSequence.workers_eq (h : InSequence s) {w : ℕ} {x : Worker P R} (hw : s.workers[w]? = some x) :
    w = 0 ∧ s.workers = [x] := by
  obtain ⟨y, hy⟩ := List.length_eq_one_iff.mp h.one
  rw [hy] at hw ⊢
  cases w with
  | zero => simpa using hw
  | succ w => simp at hw

theorem drain_frame (hs : drain s = some s') : s'.submitted = s.submitted ∧ s'.executed = s.executed ∧
    s'.taskQueue = s.taskQueue ∧ s'.workers = s.workers := by
  unfold drain at hs
  split at hs
  · cases hs
  · split_ifs at hs <;> cases hs <;> exact ⟨rfl, rfl, rfl, rfl⟩
  · dsimp only at hs
    split_ifs at hs
    · split at hs <;> cases hs <;> exact ⟨rfl, rfl, rfl, rfl⟩
    all_goals cases hs; exact ⟨rfl, rfl, rfl, rfl⟩

theorem InSequence.step {a : Action P R} (h : InSequence s) (hs : step s a = some s') : InSequence s' := by
  have horder := h.order
  cases a with
  | submit requestId needsResult payload =>
    simp only [Executor.step, Option.some.injEq] at hs
    subst hs
    unfold Executor.submit
    split_ifs
    · exact h
    · refine ⟨h.one, ?_⟩
      rw [List.length_append, List.length_singleton, List.range_succ, ← horder]
      simp [TaskItem.ticket?]
  | popTask w =>
    obtain ⟨i, rest, hw, hq, rfl⟩ := popTask_cases hs
    obtain ⟨rfl, hone⟩ := h.workers_eq hw
    refine ⟨by rw [List.length_set, h.one], ?_⟩
    rw [hone, hq] at horder
    cases i <;> simpa [hone, TaskItem.worker, TaskItem.ticket?, Worker.next?] using horder
  | processTasks w value =>
    obtain ⟨t, hw, hcase⟩ := processTasks_cases hs
    obtain ⟨rfl, hone⟩ := h.workers_eq hw
    rw [hone] at horder
    rcases hcase with ⟨-, rfl⟩ | ⟨-, rfl⟩
    · refine ⟨by rw [List.length_set, h.one], ?_⟩
      simpa [hone, Worker.next?] using horder
    · refine ⟨by rw [List.length_set, h.one], ?_⟩
      simpa [hone, Worker.next?] using horder
  | pushResult w =>
    obtain ⟨r, hw, rfl⟩ := pushResult_cases hs
    obtain ⟨rfl, hone⟩ := h.workers_eq hw
    refine ⟨by rw [List.length_set, h.one], ?_⟩
    rw [hone] at horder
    simpa [hone, Worker.next?] using horder
  | callReaper op id =>
    obtain ⟨hsub, hex, -, hq, hw⟩ := (callReaper_reaps hs).frame
    exact h.congr hw hq hex hsub
  | drain =>
    obtain ⟨hsub, hex, hq, hw⟩ := drain_frame hs
    exact h.congr hw hq hex hsub
  | stop =>
    simp only [Executor.step, Option.some.injEq] at hs
    subst hs
    unfold Executor.stop
    split_ifs
    · exact h
    · exact h.congr rfl rfl rfl rfl
  | pushStop =>
    simp only [Executor.step, Executor.pushStop] at hs
    split_ifs at hs
    cases hs
    refine ⟨h.one, ?_⟩
    simpa [TaskItem.ticket?] using horder
  | join =>
    simp only [Executor.step, Executor.join] at hs
    split_ifs at hs
    cases hs
    exact h.congr rfl rfl rfl rfl

theorem InSequence.executed_le (h : InSequence s) : s.executed.length ≤ s.submitted.length := by
  have := congrArg List.length h.order
  simp only [List.length_append, List.length_map, List.length_range] at this
  omega

theorem InSequence.executed_eq (h : InSequence s) : s.executed.map Prod.fst = List.range s.executed.length := by
  have htake := congrArg (List.take s.executed.length) h.order
  rw [List.take_left' (by simp), List.take_range, Nat.min_eq_left h.executed_le] at htake
  exact htake

/-- **One worker runs the tasks in the order of their submission.** -/
theorem executed_in_order (h : (executor P R 1).Reachable s) :
    s.executed.map Prod.fst = List.range s.executed.length := by
  have hseq : InSequence s := h.invariant inSequence_init fun _ _ _ hi hs => hi.step hs
  exact hseq.executed_eq

end Single

/-! ### Request ids -/

/-- The ids count up from 0 and start again after `2^31` calls; so none is the
id of the sentinel, which is negative as an `int`. -/
theorem toNat_executorRequestId (k : ℕ) : (executorRequestId k).toNat = k % 2 ^ 31 := by
  induction k with
  | zero => rfl
  | succ k ih =>
    have hand : ((executorRequestId k).toNat + 1) % 2 ^ 32 &&& (2 ^ 31 - 1) =
        ((executorRequestId k).toNat + 1) % 2 ^ 32 % 2 ^ 31 := Nat.and_two_pow_sub_one_eq_mod _ 31
    have hnat : (nextExecutorRequestId (executorRequestId k)).toNat =
        ((executorRequestId k).toNat + 1) % 2 ^ 32 &&& (2 ^ 31 - 1) := by
      simp [nextExecutorRequestId, UInt32.toNat_and, UInt32.toNat_add]
    rw [executorRequestId, hnat, hand, ih]
    omega

/-- Ids of calls that are less than `2^31` calls apart are different. -/
theorem executorRequestId_ne {j k : ℕ} (h : j < k) (hk : k < j + 2 ^ 31) :
    executorRequestId j ≠ executorRequestId k := by
  intro he
  have := congrArg UInt32.toNat he
  rw [toNat_executorRequestId, toNat_executorRequestId] at this
  omega

end Executor
end Siphon
