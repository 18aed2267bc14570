/-
# Threads in any order

A thread loads what it needs from a buffer at its start and stores what it
made of that at its end; in between, threads see each other's registers. A
schedule is any order of these events in which a thread stores after its peers,
and itself, have loaded (`Valid`). When each thread keeps to a part of the
buffer of its own, every schedule does what the threads' stores do one after
another: a load sees the buffer as it was at the start, also when the threads
load from the buffer they store to (`run_eq_stores`).
-/
import Siphon.Lib.Launch

namespace Schedule

open Launch

variable {α ρ τ : Type} [DecidableEq τ]

inductive Event (τ : Type) where
  | load (t : τ)
  | store (t : τ)

/-- The buffer the threads share, one that they only store to, and the registers of each. -/
structure State (α ρ τ : Type) where
  mem : Cells α
  out : Cells α
  regs : τ → ρ

section Run

variable (read : τ → Cells α → Option ρ) (write : (τ → ρ) → τ → Option (List (ℕ × α) × List (ℕ × α)))

def step (s : State α ρ τ) : Event τ → Option (State α ρ τ)
  | .load t => (read t s.mem).map fun v => { s with regs := Function.update s.regs t v }
  | .store t => do
    let (ws, os) ← write s.regs t
    let mem ← stores s.mem ws
    let out ← stores s.out os
    some { s with mem := mem, out := out }

def run (evs : List (Event τ)) (s : State α ρ τ) : Option (State α ρ τ) := evs.foldlM (step read write) s

end Run

/-- The threads in the order in which they store. -/
def stored : List (Event τ) → List τ
  | [] => []
  | .load _ :: evs => stored evs
  | .store t :: evs => t :: stored evs

/-- Every thread loads once and stores once, and stores after its peers have loaded. -/
structure Valid (peers : τ → List τ) (threads : List τ) (evs : List (Event τ)) : Prop where
  perm : evs.Perm (threads.map .load ++ threads.map .store)
  order : ∀ pre t post, evs = pre ++ .store t :: post → ∀ u ∈ peers t, .load u ∈ pre

omit [DecidableEq τ] in
theorem mem_stored {t : τ} {evs : List (Event τ)} : t ∈ stored evs ↔ .store t ∈ evs := by
  induction evs with
  | nil => simp [stored]
  | cons e evs ih => cases e <;> simp [stored, ih]

omit [DecidableEq τ] in
theorem stored_append : ∀ evs evs' : List (Event τ), stored (evs ++ evs') = stored evs ++ stored evs'
  | [], _ => rfl
  | .load _ :: evs, evs' => stored_append evs evs'
  | .store t :: evs, evs' => by rw [List.cons_append, stored, stored, stored_append evs evs', List.cons_append]

omit [DecidableEq τ] in
theorem stored_perm : ∀ {evs evs' : List (Event τ)}, evs.Perm evs' → (stored evs).Perm (stored evs') := by
  intro evs evs' h
  induction h with
  | nil => exact .nil
  | cons e _ ih =>
    cases e with
    | load t => exact ih
    | store t => exact ih.cons t
  | swap e e' l =>
    cases e <;> cases e'
    · exact .refl _
    · exact .refl _
    · exact .refl _
    · exact .swap _ _ _
  | trans _ _ ih ih' => exact ih.trans ih'

namespace Valid

variable {peers : τ → List τ} {threads : List τ} {evs : List (Event τ)}

omit [DecidableEq τ] in
theorem stored_perm (h : Valid peers threads evs) : (stored evs).Perm threads := by
  have hloads : ∀ l : List τ, stored (l.map Event.load) = [] := by
    intro l
    induction l with
    | nil => rfl
    | cons t l ih => exact ih
  have hstores : ∀ l : List τ, stored (l.map Event.store) = l := by
    intro l
    induction l with
    | nil => rfl
    | cons t l ih => exact congrArg (t :: ·) ih
  have hp := Schedule.stored_perm h.perm
  rwa [stored_append, hloads, hstores, List.nil_append] at hp

omit [DecidableEq τ] in
theorem mem_threads (h : Valid peers threads evs) {t : τ} : (.load t ∈ evs ∨ .store t ∈ evs) → t ∈ threads := by
  intro ht
  rcases ht with ht | ht
  · simpa using h.perm.mem_iff.mp ht
  · simpa using h.perm.mem_iff.mp ht

omit [DecidableEq τ] in
/-- A thread that is to load has not stored. -/
theorem not_stored (h : Valid peers threads evs) (hnodup : threads.Nodup) (hself : ∀ t ∈ threads, t ∈ peers t)
    {pre post : List (Event τ)} {t : τ} (he : evs = pre ++ .load t :: post) : t ∉ stored pre := by
  intro ht
  have ht' : t ∈ threads := h.mem_threads (.inl (by rw [he]; simp))
  obtain ⟨pre', post', rfl⟩ := List.append_of_mem (mem_stored.mp ht)
  have hload : .load t ∈ pre' := h.order pre' t (post' ++ .load t :: post) (by rw [he]; simp) t (hself t ht')
  have hevs : evs.Nodup := by
    refine h.perm.nodup_iff.mpr (List.Nodup.append ?_ ?_ ?_)
    · exact hnodup.map fun _ _ he => Event.load.inj he
    · exact hnodup.map fun _ _ he => Event.store.inj he
    · intro e h1 h2
      obtain ⟨_, _, rfl⟩ := List.mem_map.mp h1
      obtain ⟨_, _, he⟩ := List.mem_map.mp h2
      cases he
  rw [he, List.append_assoc, List.nodup_append] at hevs
  exact hevs.2.2 _ hload _ (by simp) rfl

end Valid

omit [DecidableEq τ] in
/-- All load, then all store. -/
theorem valid_phases {peers : τ → List τ} {threads : List τ} (h : ∀ t ∈ threads, ∀ u ∈ peers t, u ∈ threads) :
    Valid peers threads (threads.map .load ++ threads.map .store) where
  perm := .refl _
  order := by
    intro pre t post he u hu
    have ht : t ∈ threads := by
      have hmem : .store t ∈ threads.map Event.load ++ threads.map .store := by rw [he]; simp
      simpa using hmem
    have hload : .load u ∈ threads.map Event.load := List.mem_map_of_mem (h t ht u hu)
    rcases List.append_eq_append_iff.mp he with ⟨mid, rfl, -⟩ | ⟨mid, hmid, htail⟩
    · exact List.mem_append_left mid hload
    · -- the store would be among the loads
      rcases mid with _ | ⟨e, mid⟩
      · rw [List.append_nil] at hmid
        exact hmid ▸ hload
      · have he : e = .store t := (List.cons.inj htail).1.symm
        have hmem : .store t ∈ threads.map Event.load := by rw [hmid, he]; simp
        simp at hmem

/-! ### What a beginning of a schedule has done -/

omit [DecidableEq τ] in
/-- The stores of threads leave the cells as they were that none of them writes. -/
theorem stores_threads {ts : List τ} {ws : τ → List (ℕ × α)} {m m' : Cells α}
    (h : stores m (ts.map ws).flatten = some m') (hin : ∀ t ∈ ts, ∀ w ∈ ws t, w.1 < m.length) :
    m'.length = m.length ∧ ∀ i, (∀ t ∈ ts, ∀ w ∈ ws t, w.1 ≠ i) → load m' i = load m i := by
  have hflat : ∀ w ∈ (ts.map ws).flatten, w.1 < m.length := by
    intro w hw
    obtain ⟨t, ht, hwt⟩ := mem_flatten_map.mp hw
    exact hin t ht w hwt
  obtain ⟨m₁, hm₁, hlen, hframe⟩ := stores_frame _ m hflat
  obtain rfl : m₁ = m' := Option.some.inj (hm₁.symm.trans h)
  refine ⟨hlen, fun i hi => hframe i fun w hw => ?_⟩
  obtain ⟨t, ht, hwt⟩ := mem_flatten_map.mp hw
  exact hi t ht w hwt

/-- The buffers are what the threads make of them that have stored, one after
another, and each that has loaded holds its value. -/
structure Reached (v : τ → ρ) (ws : τ → List (ℕ × α) × List (ℕ × α)) (m0 out0 : Cells α) (pre : List (Event τ))
    (s : State α ρ τ) : Prop where
  mem : stores m0 ((stored pre).map fun t => (ws t).1).flatten = some s.mem
  out : stores out0 ((stored pre).map fun t => (ws t).2).flatten = some s.out
  regs : ∀ t, .load t ∈ pre → s.regs t = v t

namespace Reached

variable {read : τ → Cells α → Option ρ} {write : (τ → ρ) → τ → Option (List (ℕ × α) × List (ℕ × α))}
  {v : τ → ρ} {ws : τ → List (ℕ × α) × List (ℕ × α)} {m0 out0 : Cells α} {pre : List (Event τ)} {s : State α ρ τ}
  {t : τ}

theorem load (h : Reached v ws m0 out0 pre s) (hread : read t s.mem = some (v t)) :
    ∃ s', step read write s (.load t) = some s' ∧ Reached v ws m0 out0 (pre ++ [.load t]) s' := by
  have hst : stored (pre ++ [.load t]) = stored pre := by rw [stored_append, stored, stored, List.append_nil]
  refine ⟨{ s with regs := Function.update s.regs t (v t) }, ?_, ?_, ?_, fun u hu => ?_⟩
  · rw [step, hread]
    rfl
  · rw [hst]
    exact h.mem
  · rw [hst]
    exact h.out
  · dsimp only
    by_cases htu : u = t
    · rw [htu, Function.update_self]
    · rw [Function.update_of_ne htu]
      have hu : .load u ∈ pre := by simpa [htu] using hu
      exact h.regs u hu

theorem store (h : Reached v ws m0 out0 pre s) (hwrite : write s.regs t = some (ws t))
    (hmem : ∀ w ∈ (ws t).1, w.1 < s.mem.length) (hout : ∀ w ∈ (ws t).2, w.1 < s.out.length) :
    ∃ s', step read write s (.store t) = some s' ∧ Reached v ws m0 out0 (pre ++ [.store t]) s' := by
  obtain ⟨mem', hmem', -, -⟩ := stores_frame (ws t).1 s.mem hmem
  obtain ⟨out', hout', -, -⟩ := stores_frame (ws t).2 s.out hout
  have hst : stored (pre ++ [.store t]) = stored pre ++ [t] := by rw [stored_append, stored, stored]
  refine ⟨{ s with mem := mem', out := out' }, ?_, ?_, ?_, fun u hu => ?_⟩
  · simp only [step, hwrite, hmem', hout', Option.bind_eq_bind, Option.bind_some]
  · simp only [hst, List.map_append, List.flatten_append, stores_append, h.mem, Option.bind_some, List.map_cons,
      List.map_nil, List.flatten_cons, List.flatten_nil, List.append_nil, hmem']
  · simp only [hst, List.map_append, List.flatten_append, stores_append, h.out, Option.bind_some, List.map_cons,
      List.map_nil, List.flatten_cons, List.flatten_nil, List.append_nil, hout']
  · have hu : .load u ∈ pre := by simpa using hu
    exact h.regs u hu

end Reached

/-- **The rule of a schedule**: it does what the threads' stores do, one thread after another. -/
theorem run_eq_stores {read : τ → Cells α → Option ρ} {write : (τ → ρ) → τ → Option (List (ℕ × α) × List (ℕ × α))}
    {peers : τ → List τ} {threads : List τ} {evs : List (Event τ)} (hv : Valid peers threads evs)
    (hnodup : threads.Nodup) (hself : ∀ t ∈ threads, t ∈ peers t) {m0 out0 : Cells α} {o : τ → ℕ → Prop} {v : τ → ρ}
    (ws : τ → List (ℕ × α) × List (ℕ × α))
    (hlocal : ∀ t m, m.length = m0.length → (∀ i, o t i → load m i = load m0 i) → read t m = read t m0)
    (hread : ∀ t ∈ threads, read t m0 = some (v t))
    (hwrite : ∀ t ∈ threads, ∀ regs, (∀ u ∈ peers t, regs u = v u) → write regs t = some (ws t))
    (hown : ∀ t ∈ threads, ∀ w ∈ (ws t).1, o t w.1 ∧ w.1 < m0.length)
    (hout : ∀ t ∈ threads, ∀ w ∈ (ws t).2, w.1 < out0.length)
    (hdisj : ∀ t ∈ threads, ∀ u ∈ threads, t ≠ u → ∀ i, o t i → ¬ o u i) (regs0 : τ → ρ) :
    ∃ s, run read write evs ⟨m0, out0, regs0⟩ = some s ∧
      stores m0 ((stored evs).map fun t => (ws t).1).flatten = some s.mem ∧
      stores out0 ((stored evs).map fun t => (ws t).2).flatten = some s.out := by
  suffices h : ∀ pre post, evs = pre ++ post → ∃ s, run read write pre ⟨m0, out0, regs0⟩ = some s ∧
      Reached v ws m0 out0 pre s by
    obtain ⟨s, hrun, hs⟩ := h evs [] (List.append_nil evs).symm
    exact ⟨s, hrun, hs.mem, hs.out⟩
  intro pre
  induction pre using List.reverseRecOn with
  | nil => exact fun _ _ => ⟨⟨m0, out0, regs0⟩, rfl, rfl, rfl, fun t ht => by simp at ht⟩
  | append_singleton pre e ih =>
    intro post he
    rw [List.append_assoc] at he
    obtain ⟨s, hrun, hs⟩ := ih ([e] ++ post) he
    have hsub : ∀ t ∈ stored pre, t ∈ threads := fun t ht =>
      hv.mem_threads (.inr (by rw [he]; exact List.mem_append_left _ (mem_stored.mp ht)))
    obtain ⟨hlen, hframe⟩ := stores_threads hs.mem fun t ht w hw => (hown t (hsub t ht) w hw).2
    have hlast : run read write (pre ++ [e]) ⟨m0, out0, regs0⟩ = step read write s e := by
      unfold run at hrun ⊢
      rw [List.foldlM_append, hrun, Option.bind_eq_bind, Option.bind_some, List.foldlM_cons]
      cases step read write s e <;> rfl
    rw [hlast]
    cases e with
    | load t =>
      have ht : t ∈ threads := hv.mem_threads (.inl (by rw [he]; simp))
      have hnot : t ∉ stored pre := hv.not_stored hnodup hself he
      -- who has stored owns none of the cells the thread loads
      refine hs.load ?_
      rw [hlocal t s.mem hlen fun i hi => hframe i fun u hu w hw hwi => ?_, hread t ht]
      have hou := (hown u (hsub u hu) w hw).1
      exact hdisj t ht u (hsub u hu) (fun htu => hnot (htu ▸ hu)) i hi (hwi ▸ hou)
    | store t =>
      have ht : t ∈ threads := hv.mem_threads (.inr (by rw [he]; simp))
      obtain ⟨holen, -⟩ := stores_threads hs.out fun u hu w hw => hout u (hsub u hu) w hw
      refine hs.store (hwrite t ht s.regs fun u hu => hs.regs u (hv.order pre t post he u hu)) ?_ ?_
      · exact fun w hw => hlen.symm ▸ (hown t ht w hw).2
      · exact fun w hw => holen.symm ▸ hout t ht w hw

end Schedule
