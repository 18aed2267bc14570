/-
# Every rank goes through its tensors

`for name, tensor in f.tensors()` on every rank of a group: a rank asks for
tensor `i + 1` when it has taken tensor `i`, whatever the other ranks are at.
Such callers read in order (`iteration_inOrder`), and what they are given is
the tensor they have asked for (`Iterates.returned`).
-/
import Siphon.Ranks.InOrder

namespace Siphon
namespace Ranks

open Siphon.Runtime

/-- The group, and the number of tensors that each rank has taken. -/
structure Iteration where
  world : World
  taken : ℕ → ℕ

/-- A caller at the next step of its rank's thread: it takes the tensor that
`get_tensor_ptr` returns. -/
def takenAfter (n : ℕ) : Pc → ℕ
  | .returned _ => n + 1
  | _ => n

/-- A step of the group, whose callers ask for `count` tensors one after the
other. -/
def iterationStep (w : Setup) (count : ℕ) (s : Iteration) (a : Action) : Option Iteration :=
  match a with
  | .thread rank (.getTensorPtr index) =>
    if index = s.taken rank ∧ index < count then
      (step w s.world a).map fun world => { s with world := world }
    else
      none
  | .thread rank .tick =>
    (step w s.world a).map fun world =>
      ⟨world, Function.update s.taken rank (takenAfter (s.taken rank) (s.world.loaders rank).2)⟩
  | _ => (step w s.world a).map fun world => { s with world := world }

/-- The group from `open` on. -/
def iteration (w : Setup) (count : ℕ) (buffers : ℕ → Io.RankBuffers) : Machine Iteration Action where
  init := ⟨(world w buffers).init, fun _ => 0⟩
  step := iterationStep w count

/-- A rank that has taken `n` tensors of `count` waits for the next one, or is
between two of them. -/
inductive Turn (cfg : Runtime.Config) (count : ℕ) (v : Loader × Pc) (n : ℕ) : Prop where
  | waits (h : v.2.target = some n) (hcur : v.1.currentTensorIndex = n) (hlt : n < count)
  | first (h : v.2.target = none) (hn : n = 0) (hcur : v.1.currentTensorIndex = 0)
  | next (h : v.2.target = none) (hn : n = v.1.currentTensorIndex + 1)
      (hread : cfg.lastChunkId v.1.currentTensorIndex ≤ v.1.chunkRead) (hle : n ≤ count)

section Turns

variable {cfg : Runtime.Config} {count : ℕ} {v v' : Loader × Pc} {n : ℕ}

/-- A step of the thread: the tensor that returns is taken. -/
theorem Turn.tick (hs : Sound cfg) (hinv : Inv cfg v.1 v.2) (h : Turn cfg count v n)
    (ht : Runtime.tick cfg v.1 v.2 = some v') :
    Turn cfg count v' (takenAfter n v.2) := by
  obtain ⟨v, pc⟩ := v
  obtain ⟨v', pc'⟩ := v'
  have hcur := tick_currentTensorIndex ht
  have hread := tick_chunkRead_le hinv ht
  by_cases hret : ∃ index, pc = .returned index
  · obtain ⟨index, rfl⟩ := hret
    simp only [Runtime.tick, Option.some.injEq, Prod.mk.injEq] at ht
    obtain ⟨rfl, rfl⟩ := ht
    obtain ⟨-, -, hle⟩ := hinv
    rcases h with ⟨h, hn, hlt⟩ | ⟨h, -, -⟩ | ⟨h, -, -, -⟩
    · obtain rfl := Option.some.inj h
      exact .next rfl (congrArg Nat.succ hn.symm) (hn ▸ hle) hlt
    · cases h
    · cases h
  · have hn : takenAfter n pc = n := by
      cases pc <;> first | rfl | exact absurd ⟨_, rfl⟩ hret
    rw [hn]
    have htarget : pc'.target = pc.target := by
      rcases tick_target ht fun index he => hret ⟨index, he⟩ with he | ⟨e, rfl⟩
      · exact he
      · exact absurd ht (tick_ne_failed hs hinv)
    rcases h with ⟨h, hn, hlt⟩ | ⟨h, hn, hc⟩ | ⟨h, hn, hle, hcount⟩
    · exact .waits (htarget.trans h) (hcur.trans hn) hlt
    · exact .first (htarget.trans h) hn (hcur.trans hc)
    · exact .next (htarget.trans h) (by rw [hcur]; exact hn) (by rw [hcur]; exact hle.trans hread) hcount

/-- The next tensor is asked for. -/
theorem Turn.getTensorPtr (h : Turn cfg count v n) (hidle : v.2 = .idle) (hlt : n < count)
    (hcount : count ≤ cfg.tensors.length) :
    Turn cfg count (Runtime.getTensorPtr cfg v.1 n) n ∧ (n ≤ v.1.currentTensorIndex ∨
      n = v.1.currentTensorIndex + 1 ∧ cfg.lastChunkId v.1.currentTensorIndex ≤ v.1.chunkRead) := by
  have hask : n ≤ v.1.currentTensorIndex ∨
      n = v.1.currentTensorIndex + 1 ∧ cfg.lastChunkId v.1.currentTensorIndex ≤ v.1.chunkRead := by
    rcases h with ⟨h, -, -⟩ | ⟨-, rfl, -⟩ | ⟨-, hn, hle, -⟩
    · rw [hidle] at h
      cases h
    · exact Or.inl (Nat.zero_le _)
    · exact Or.inr ⟨hn, hle⟩
  have hge : v.1.currentTensorIndex ≤ n := by
    rcases h with ⟨h, -, -⟩ | ⟨-, rfl, hc⟩ | ⟨-, rfl, -, -⟩
    · rw [hidle] at h
      cases h
    · exact hc.le
    · exact Nat.le_succ _
  refine ⟨?_, hask⟩
  rcases getTensorPtr_cases cfg v.1 n with ⟨-, -, hget⟩ | ⟨hbad, -⟩
  · rw [hget]
    exact .waits rfl rfl hlt
  · omega

/-- The other steps leave the caller where it is. -/
theorem Turn.congr (h : Turn cfg count v n) (htarget : v'.2.target = v.2.target)
    (hcur : v'.1.currentTensorIndex = v.1.currentTensorIndex) (hread : v'.1.chunkRead = v.1.chunkRead) :
    Turn cfg count v' n := by
  rcases h with ⟨h, hn, hlt⟩ | ⟨h, hn, hc⟩ | ⟨h, hn, hle, hcount⟩
  · exact .waits (htarget.trans h) (hcur.trans hn) hlt
  · exact .first (htarget.trans h) hn (hcur.trans hc)
  · exact .next (htarget.trans h) (by rw [hcur]; exact hn) (by rw [hcur, hread]; exact hle) hcount

/-- A call of the thread's own, or a completion. -/
theorem Turn.step (h : Turn cfg count v n) {a : Runtime.Action} (hask : ∀ index, a ≠ .getTensorPtr index)
    (htick : a ≠ .tick) (hs : Runtime.step cfg v a = some v') : Turn cfg count v' n := by
  cases a with
  | getTensorPtr index => exact absurd rfl (hask index)
  | tick => exact absurd rfl htick
  | tryStep =>
    simp only [Runtime.step, Option.ite_none_right_eq_some, Option.some.injEq] at hs
    obtain ⟨hidle, rfl⟩ := hs
    exact h.congr (by rw [hidle]; rfl) rfl rfl
  | pollReadChunk =>
    simp only [Runtime.step, Option.ite_none_right_eq_some, Option.some.injEq] at hs
    obtain ⟨hidle, rfl⟩ := hs
    exact h.congr (by rw [hidle]; rfl) rfl rfl
  | complete k =>
    simp only [Runtime.step, Option.ite_none_right_eq_some, Option.some.injEq] at hs
    obtain ⟨-, rfl⟩ := hs
    exact h.congr rfl rfl rfl

end Turns

/-! ### The group -/

/-- The group is in a state that callers in order bring it to, and every rank
has taken the tensors before the one that it waits for. -/
structure Iterates (w : Setup) (count : ℕ) (buffers : ℕ → Io.RankBuffers) (s : Iteration) : Prop where
  ordered : ((world w buffers).restrict (inOrder w)).Reachable s.world
  turn : ∀ r < w.g.worldSize, Turn w.config count (s.world.loaders r) (s.taken r)

section Runs

variable {w : Setup} {count : ℕ} {buffers : ℕ → Io.RankBuffers} {s s' : Iteration}

/-- A step of a rank's thread, or of its caller. -/
theorem Iterates.thread (h : Iterates w count buffers s) {rank : ℕ} {a : Runtime.Action} {n : ℕ} {t : World}
    (hord : inOrder w s.world (.thread rank a) = true) (ht : step w s.world (.thread rank a) = some t)
    (hturn : ∀ v, Runtime.step w.config (s.world.loaders rank) a = some v → Turn w.config count v n) :
    Iterates w count buffers ⟨t, Function.update s.taken rank n⟩ := by
  refine ⟨h.ordered.step (Machine.restrict_step.mpr ⟨hord, ht⟩), fun r hr => ?_⟩
  simp only [step, Option.ite_none_right_eq_some] at ht
  obtain ⟨-, ht⟩ := ht
  obtain ⟨v, hv, rfl⟩ := Option.map_eq_some_iff.mp ht
  by_cases he : r = rank
  · subst he
    simpa [threadStep_self] using hturn v hv
  · simpa [threadStep_of_ne he, he] using h.turn r hr

/-- A step of the backend. -/
theorem Iterates.backend (h : Iterates w count buffers s) {a : Action} {t : World} (hord : inOrder w s.world a = true)
    (ht : step w s.world a = some t) (hl : t.loaders = s.world.loaders) : Iterates w count buffers { s with world := t } :=
  ⟨h.ordered.step (Machine.restrict_step.mpr ⟨hord, ht⟩), by rw [hl]; exact h.turn⟩

/-- The guards of a rank's thread. -/
theorem lt_worldSize {t : World} {rank : ℕ} {a : Runtime.Action} {s : World}
    (ht : step w s (.thread rank a) = some t) : rank < w.g.worldSize := by
  simp only [step, Option.ite_none_right_eq_some] at ht
  exact ht.1.1

theorem Iterates.step (hw : w.Ok) (hcount : count ≤ w.tensors.length) (h : Iterates w count buffers s) {a : Action}
    (hs : iterationStep w count s a = some s') : Iterates w count buffers s' := by
  have hbase := (leftBehind_of_reachable hw h.ordered).1
  cases a with
  | thread rank a =>
    -- a call of the thread's own, or a completion
    have hown : (∀ index, a ≠ .getTensorPtr index) → a ≠ .tick →
        ((Ranks.step w s.world (.thread rank a)).map fun world => { s with world := world }) = some s' →
        inOrder w s.world (.thread rank a) = true → Iterates w count buffers s' := by
      intro hask htick hs hord
      obtain ⟨t, ht, rfl⟩ := Option.map_eq_some_iff.mp hs
      have := h.thread (n := s.taken rank) hord ht fun v hv => (h.turn rank (lt_worldSize ht)).step hask htick hv
      rwa [Function.update_eq_self] at this
    cases a with
    | getTensorPtr index =>
      simp only [iterationStep, Option.ite_none_right_eq_some] at hs
      obtain ⟨⟨rfl, hlt⟩, hs⟩ := hs
      obtain ⟨t, ht, rfl⟩ := Option.map_eq_some_iff.mp hs
      have hturn := h.turn rank (lt_worldSize ht)
      have hidle : (s.world.loaders rank).2 = .idle := by
        simp only [Ranks.step, Option.ite_none_right_eq_some] at ht
        obtain ⟨v, hv, -⟩ := Option.map_eq_some_iff.mp ht.2
        simp only [Runtime.step, Option.ite_none_right_eq_some] at hv
        exact hv.1
      obtain ⟨hask, hord⟩ := hturn.getTensorPtr hidle hlt hcount
      have hord' : inOrder w s.world (.thread rank (.getTensorPtr (s.taken rank))) = true := decide_eq_true hord
      have := h.thread (n := s.taken rank) hord' ht fun v hv => by
        simp only [Runtime.step, hidle, if_true, Option.some.injEq] at hv
        exact hv ▸ hask
      rwa [Function.update_eq_self] at this
    | tick =>
      obtain ⟨t, ht, rfl⟩ := Option.map_eq_some_iff.mp hs
      have hr := lt_worldSize ht
      refine h.thread rfl ht fun v hv => ?_
      exact (h.turn rank hr).tick hw.sound (Runtime.reachable_inv hw.sound (hbase.loader rank hr)) hv
    | tryStep => exact hown (by simp) (by simp) hs rfl
    | pollReadChunk => exact hown (by simp) (by simp) hs rfl
    | complete k => exact hown (by simp) (by simp) hs rfl
  | read rank k n =>
    obtain ⟨t, ht, rfl⟩ := Option.map_eq_some_iff.mp hs
    refine h.backend rfl ht ?_
    simp only [Ranks.step, Option.ite_none_right_eq_some, Option.some.injEq] at ht
    rw [← ht.2]
    rfl
  | copy rank k =>
    obtain ⟨t, ht, rfl⟩ := Option.map_eq_some_iff.mp hs
    refine h.backend rfl ht ?_
    simp only [Ranks.step, Option.ite_none_right_eq_some, Option.some.injEq] at ht
    rw [← ht.2]
    rfl
  | send src dst k =>
    obtain ⟨t, ht, rfl⟩ := Option.map_eq_some_iff.mp hs
    refine h.backend rfl ht ?_
    simp only [Ranks.step, Option.ite_none_right_eq_some, Option.some.injEq] at ht
    rw [← ht.2]
    rfl
  | receive src dst k =>
    obtain ⟨t, ht, rfl⟩ := Option.map_eq_some_iff.mp hs
    refine h.backend rfl ht ?_
    simp only [Ranks.step, Option.ite_none_right_eq_some, Option.some.injEq] at ht
    rw [← ht.2]
    rfl

/-- Callers that go through the tensors read in order. -/
theorem iterates_of_reachable (hw : w.Ok) (hcount : count ≤ w.tensors.length)
    (h : (iteration w count buffers).Reachable s) : Iterates w count buffers s := by
  refine h.invariant (I := Iterates w count buffers) ⟨.init, fun r _ => .first rfl rfl rfl⟩ ?_
  exact fun s a s' hi hs => hi.step hw hcount hs

/-- The bytes of the tensor that a rank is given, and of the one that it took
last until it asks for the next. -/
structure Given (w : Setup) (count : ℕ) (s : Iteration) (r : ℕ) : Prop where
  returned : ∀ index, (s.world.loaders r).2 = .returned index →
    index = s.taken r ∧ index < count ∧ ∀ t, w.tensors[index]? = some t → Delivered w s.world r t
  last : ∀ n, s.taken r = n + 1 → (s.world.loaders r).2.target = none →
    n < count ∧ ∀ t, w.tensors[n]? = some t → Delivered w s.world r t

theorem Iterates.given (hw : w.Ok) (h : Iterates w count buffers s) {r : ℕ} (hr : r < w.g.worldSize)
    (hserves : Serves w s.world r) : Given w count s r where
  returned := by
    intro index hret
    rcases h.turn r hr with ⟨h, -, hlt⟩ | ⟨h, -, -⟩ | ⟨h, -, -, -⟩ <;> rw [hret] at h
    · obtain rfl := Option.some.inj h
      exact ⟨rfl, hlt, fun t ht => hserves.returned _ t hret ht⟩
    · cases h
    · cases h
  last := by
    intro n htaken hnone
    have hbase := (leftBehind_of_reachable hw h.ordered).1
    obtain ⟨posts, next, hc, -⟩ := (Runtime.reachable_inv hw.sound (hbase.loader r hr)).core
    rcases h.turn r hr with ⟨h, -, -⟩ | ⟨-, hn, -⟩ | ⟨-, hn, hread, hle⟩
    · rw [hnone] at h
      cases h
    · omega
    · have hcur : (s.world.loaders r).1.currentTensorIndex = n := by omega
      refine ⟨by omega, fun t ht => hserves.kept n t ht hcur.le fun c hle' => hc.done c ?_⟩
      have hlast : w.config.lastChunkId n = t.lastChunkId := lastChunkId_eq ht
      rw [hcur, hlast] at hread
      have := hc.read_lt
      omega

end Runs

end Ranks
end Siphon
