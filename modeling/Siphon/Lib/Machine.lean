/-
# Machines

A machine is a start state and a step function on states and actions, where
an action that is not possible has no next state. What a machine does is its
reachable states: an invariant holds in all of them (`Reachable.invariant`),
and a machine whose steps are steps of another, seen through a map of the
states, reaches nothing else (`Reachable.simulate`). A measure that every step
lowers bounds the length of a run (`length_exec_le`).
-/
import Mathlib.Data.Nat.Notation
import Mathlib.Data.Option.Basic

/-- A start state, and the next state for every action that is possible. -/
structure Machine (σ α : Type) where
  init : σ
  step : σ → α → Option σ

namespace Machine

variable {σ α τ β : Type} {m : Machine σ α}

/-- The states that some run from the start state goes through. -/
inductive Reachable (m : Machine σ α) : σ → Prop where
  | init : Reachable m m.init
  | step {s s' : σ} {a : α} : Reachable m s → m.step s a = some s' → Reachable m s'

/-- What holds at the start and is kept by every step holds in every
reachable state. -/
theorem Reachable.invariant {I : σ → Prop} (h0 : I m.init)
    (hstep : ∀ s a s', I s → m.step s a = some s' → I s') {s : σ} (h : m.Reachable s) : I s := by
  induction h with
  | init => exact h0
  | step _ hs ih => exact hstep _ _ _ ih hs

/-- The state after a list of actions. -/
def exec (m : Machine σ α) : List α → σ → Option σ
  | [], s => some s
  | a :: l, s => (m.step s a).bind (m.exec l)

theorem Reachable.exec : ∀ (l : List α) {s s' : σ}, m.Reachable s → m.exec l s = some s' →
    m.Reachable s'
  | [], _, _, h, he => by cases he; exact h
  | _ :: l, _, _, h, he => by
    obtain ⟨s1, h1, h2⟩ := Option.bind_eq_some_iff.mp he
    exact Reachable.exec l (h.step h1) h2

/-- Where every step appends to a list what its action says, a run appends
what its actions say. -/
theorem exec_append {f : σ → List τ} {out : α → List τ}
    (hstep : ∀ s a s', m.step s a = some s' → f s' = f s ++ out a) :
    ∀ (l : List α) {s s' : σ}, m.exec l s = some s' → f s' = f s ++ l.flatMap out
  | [], s, s', he => by
    obtain rfl := Option.some.inj he
    simp
  | a :: l, s, s', he => by
    obtain ⟨s1, h1, h2⟩ := Option.bind_eq_some_iff.mp he
    rw [exec_append hstep l h2, hstep s a s1 h1, List.append_assoc, List.flatMap_cons]

/-- Where every step keeps `I` and lowers `work`, a run has no more than `work`
steps. -/
theorem length_exec_le {I : σ → Prop} {work : σ → ℕ}
    (hstep : ∀ s a s', I s → m.step s a = some s' → I s' ∧ work s' < work s) :
    ∀ (l : List α) {s s' : σ}, I s → m.exec l s = some s' → I s' ∧ l.length + work s' ≤ work s
  | [], s, s', hi, he => by
    obtain rfl := Option.some.inj he
    exact ⟨hi, by simp⟩
  | a :: l, s, s', hi, he => by
    obtain ⟨s1, h1, h2⟩ := Option.bind_eq_some_iff.mp he
    obtain ⟨hi1, hlt⟩ := hstep s a s1 hi h1
    obtain ⟨hi', hle⟩ := length_exec_le hstep l hi1 h2
    exact ⟨hi', by rw [List.length_cons]; omega⟩

/-- A test of the state after a list of actions. -/
theorem exists_exec (m : Machine σ α) (l : List α) (p : σ → Bool)
    (h : (m.exec l m.init).any p = true) : ∃ s, m.exec l m.init = some s ∧ p s = true := by
  cases he : m.exec l m.init with
  | none => simp [he] at h
  | some s => exact ⟨s, rfl, by simpa [he] using h⟩

theorem exists_reachable (m : Machine σ α) (l : List α) (p : σ → Bool)
    (h : (m.exec l m.init).any p = true) : ∃ s, m.Reachable s ∧ p s = true := by
  obtain ⟨s, he, hp⟩ := m.exists_exec l p h
  exact ⟨s, Reachable.exec l .init he, hp⟩

/-- If every step, seen through `f`, is a step of `n` or no change, every
reachable state is a reachable state of `n`. -/
theorem Reachable.simulate {n : Machine τ β} {f : σ → τ} (h0 : f m.init = n.init)
    (hstep : ∀ s a s', m.Reachable s → n.Reachable (f s) → m.step s a = some s' →
      f s' = f s ∨ ∃ b, n.step (f s) b = some (f s'))
    {s : σ} (h : m.Reachable s) : n.Reachable (f s) := by
  induction h with
  | init => rw [h0]; exact .init
  | step hr hs ih =>
    rcases hstep _ _ _ hr ih hs with he | ⟨b, hb⟩
    · rw [he]; exact ih
    · exact ih.step hb

/-- The machine with the steps that satisfy a condition only. -/
def restrict (m : Machine σ α) (p : σ → α → Bool) : Machine σ α where
  init := m.init
  step s a := if p s a then m.step s a else none

theorem restrict_step {p : σ → α → Bool} {s s' : σ} {a : α} :
    (m.restrict p).step s a = some s' ↔ p s a = true ∧ m.step s a = some s' := by
  by_cases h : p s a = true <;> simp [restrict, h]

/-- The steps that satisfy one condition satisfy another, in the states that
steps of the first kind reach. -/
theorem Reachable.restrict_mono {p q : σ → α → Bool}
    (hpq : ∀ s a s', m.Reachable s → (m.restrict p).Reachable s → p s a = true → m.step s a = some s' →
      q s a = true) {s : σ}
    (h : (m.restrict p).Reachable s) : m.Reachable s ∧ (m.restrict q).Reachable s := by
  induction h with
  | init => exact ⟨.init, .init⟩
  | step hr hs ih =>
    obtain ⟨hp, hs⟩ := restrict_step.mp hs
    exact ⟨ih.1.step hs, ih.2.step (restrict_step.mpr ⟨hpq _ _ _ ih.1 hr hp hs, hs⟩)⟩

/-- Every step satisfies the condition. -/
theorem Reachable.restrict {q : σ → α → Bool}
    (hq : ∀ s a s', m.Reachable s → m.step s a = some s' → q s a = true) {s : σ} (h : m.Reachable s) :
    (m.restrict q).Reachable s := by
  have hall : (m.restrict fun _ _ => true).Reachable s := by
    induction h with
    | init => exact .init
    | step _ hs ih => exact ih.step (restrict_step.mpr ⟨rfl, hs⟩)
  exact (hall.restrict_mono fun s a s' hr _ _ hs => hq s a s' hr hs).2

end Machine
