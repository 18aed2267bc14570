/-
# A loader thread, as the client sees it

Most steps of a thread are silent: they touch neither queue, nor what the
client knows of the loader. The others take a request from the input queue or
push a response (`runTick_cases`). Between two calls the queues of a handle
are empty (`Quiet`); during a call its request is in the input queue, or
served, or its response is in the output queue (`Phase`), unless an exception
has ended the thread.
-/
import Siphon.Rpc.Model
import Siphon.Runtime.Ticks

namespace Siphon
namespace Rpc

open Siphon.Runtime

/-- A step that the client does not see. -/
structure Silent (t t' : RunState) : Prop where
  cfg : t'.cfg = t.cfg
  current : t'.loader.currentTensorIndex = t.loader.currentTensorIndex
  input : t'.inputQueue = t.inputQueue
  output : t'.outputQueue = t.outputQueue
  place : ∀ id, t'.place = .getTensorPtr id ↔ t.place = .getTensorPtr id
  target : ∀ id, t.place = .getTensorPtr id → t'.pc.target = t.pc.target ∨ ∃ e, t'.pc = .failed e

/-- The thread at another place of its loop. -/
theorem Silent.move {t : RunState} (pc : Pc) {place : RunPc} (h1 : t.place.inCall = false ∨ t.place = .tryStep)
    (h2 : place.inCall = false ∨ place = .tryStep) : Silent t { t with pc := pc, place := place } where
  cfg := rfl
  current := rfl
  input := rfl
  output := rfl
  place := by
    intro id
    constructor <;> intro he
    · rw [show place = .getTensorPtr id from he] at h2
      simp [RunPc.inCall] at h2
    · rw [he] at h1
      simp [RunPc.inCall] at h1
  target := by
    intro id he
    rw [he] at h1
    simp [RunPc.inCall] at h1

/-- A step of the method that runs, but for its return. -/
theorem Silent.inner {t t' : RunState} (h : innerTick t = some t') (hpc : ∀ index, t.pc ≠ .returned index) :
    Silent t t' := by
  obtain ⟨ht, he⟩ := innerTick_eq h
  refine ⟨?_, tick_currentTensorIndex ht, ?_, ?_, fun id => ?_, fun _ _ => tick_target ht hpc⟩ <;> rw [he]

/-- The steps of a thread: a silent one, the dispatch of a request, or the
response to `GET_TENSOR_PTR`. -/
theorem runTick_cases {t t' : RunState} (ht : runTick t = some t') :
    Silent t t' ∨
    (t.place = .pop ∧ ∃ m rest, t.inputQueue = m :: rest ∧ t' = dispatch { t with inputQueue := rest } m) ∨
    ∃ id index, t.place = .getTensorPtr id ∧ t.pc = .returned index ∧
      t' = { t with
        pc := .idle
        outputQueue := t.outputQueue ++ [⟨id, some (t.cfg.tensors.getD index default).deviceBufferOffset⟩]
        place := .callTryStep } := by
  unfold runTick at ht
  cases hp : t.place with
  | exited => simp [hp] at ht
  | threw => simp [hp] at ht
  | loop =>
    simp only [hp, Option.some.injEq] at ht
    subst ht
    refine Or.inl (Silent.move t.pc (Or.inl (by rw [hp]; rfl)) (Or.inl ?_))
    split_ifs <;> rfl
  | check =>
    have hmove : ∀ place : RunPc, place.inCall = false → Silent t { t with place := place } :=
      fun place h => Silent.move t.pc (Or.inl (by rw [hp]; rfl)) (Or.inl h)
    simp only [hp] at ht
    split at ht
    · cases ht
      exact Or.inl (hmove _ rfl)
    · split_ifs at ht <;> cases ht <;> exact Or.inl (hmove _ rfl)
  | pop =>
    simp only [hp] at ht
    split at ht
    · cases ht
    · rename_i m rest hq
      cases ht
      exact Or.inr (Or.inl ⟨rfl, m, rest, hq, rfl⟩)
  | getTensorPtr id =>
    simp only [hp] at ht
    split at ht
    · rename_i index hret
      cases ht
      exact Or.inr (Or.inr ⟨id, index, rfl, hret, rfl⟩)
    · rename_i hret
      exact Or.inl (Silent.inner ht hret)
  | callTryStep =>
    simp only [hp, Option.some.injEq] at ht
    subst ht
    exact Or.inl (Silent.move _ (Or.inl (by rw [hp]; rfl)) (Or.inr rfl))
  | tryStep =>
    simp only [hp] at ht
    split at ht
    · cases ht
      exact Or.inl (Silent.move t.pc (Or.inr hp) (Or.inl rfl))
    · obtain ⟨h1, he⟩ := innerTick_eq ht
      refine Or.inl ⟨?_, tick_currentTensorIndex h1, ?_, ?_, fun id => ?_, fun id hid => ?_⟩
      · rw [he]
      · rw [he]
      · rw [he]
      · rw [he]
      · rw [hp] at hid
        cases hid

/-- A completion is silent, and leaves the thread where it is. -/
theorem silent_complete {t t' : RunState} {k : ℕ} (h : runStep t (.complete k) = some t') :
    Silent t t' ∧ t'.place = t.place ∧ t'.pc = t.pc := by
  obtain ⟨r, hr, rfl⟩ := Option.map_eq_some_iff.mp h
  simp only [Runtime.step, Option.ite_none_right_eq_some, Option.some.injEq] at hr
  obtain ⟨-, rfl⟩ := hr
  exact ⟨⟨rfl, rfl, rfl, rfl, fun _ => Iff.rfl, fun _ _ => Or.inl rfl⟩, rfl, rfl⟩

/-! ### Between two calls -/

/-- The thread serves no request, and its loader has the layout and the
current tensor that the client knows. -/
structure Away (cfg : Config) (current : ℕ) (t : RunState) : Prop where
  nested : CallsNested t
  cfg_eq : t.cfg = cfg
  current_eq : t.loader.currentTensorIndex = current
  away : ∀ id, t.place ≠ .getTensorPtr id

/-- The handle's queues are empty. -/
structure Quiet (cfg : Config) (current : ℕ) (t : RunState) : Prop extends Away cfg current t where
  input : t.inputQueue = []
  output : t.outputQueue = []

section Steps

variable {cfg : Config} {current : ℕ} {t t' : RunState}

theorem Away.silent (h : Away cfg current t) (hn : CallsNested t') (hs : Silent t t') : Away cfg current t' where
  nested := hn
  cfg_eq := hs.cfg.trans h.cfg_eq
  current_eq := hs.current.trans h.current_eq
  away := fun id he => h.away id ((hs.place id).mp he)

/-- What a thread without requests does is silent. -/
theorem Quiet.runStep (h : Quiet cfg current t) {a : RunAction} (ha : ∀ m, a ≠ .push m)
    (hs : Runtime.runStep t a = some t') : Quiet cfg current t' := by
  have hn := runStep_nested h.nested hs
  have hquiet : Silent t t' → Quiet cfg current t' := fun hsil =>
    { h.toAway.silent hn hsil with
      input := hsil.input.trans h.input, output := hsil.output.trans h.output }
  cases a with
  | push m => exact absurd rfl (ha m)
  | complete k => exact hquiet (silent_complete hs).1
  | tick =>
    rcases runTick_cases hs with hsil | ⟨-, m, rest, hq, -⟩ | ⟨id, index, hp, -⟩
    · exact hquiet hsil
    · rw [h.input] at hq
      cases hq
    · exact absurd hp (h.away id)

end Steps

/-! ### During a call -/

/-- What the thread answers to a request, and what the client then knows of
the loader. -/
inductive Answer (cfg : Config) (current : ℕ) : Op → Option ℕ → Config → ℕ → Prop where
  | opened (cfg' : Config) : Answer cfg current (.open (some cfg')) none cfg' current
  | closed : Answer cfg current .close none cfg current
  | tensor (index : ℕ) (hlt : index < cfg.tensors.length) (hle : current ≤ index) :
    Answer cfg current (.getTensorPtr index)
      (some (cfg.tensors.getD index default).deviceBufferOffset) cfg index

/-- An exception has ended the thread. -/
def Dead (t : RunState) : Prop :=
  t.place = .threw ∨ ∃ id e, t.place = .getTensorPtr id ∧ t.pc = .failed e

/-- The thread waits for the tensor of the request. -/
structure Serving (cfg : Config) (current : ℕ) (m : Request) (index : ℕ) (t : RunState) : Prop where
  nested : CallsNested t
  cfg_eq : t.cfg = cfg
  current_eq : t.loader.currentTensorIndex = index
  op : m.op = .getTensorPtr index
  lt : index < cfg.tensors.length
  le : current ≤ index
  place : t.place = .getTensorPtr m.id
  target : t.pc.target = some index

/-- Where the request is. -/
inductive Phase (cfg : Config) (current : ℕ) (m : Request) (t : RunState) : Prop where
  | queued (h : Away cfg current t) (hin : t.inputQueue = [m]) (hout : t.outputQueue = [])
  | dead (h : Dead t) (hout : t.outputQueue = [])
  | serving (index : ℕ) (h : Serving cfg current m index t) (hin : t.inputQueue = []) (hout : t.outputQueue = [])
  | answered (result : Option ℕ) (cfg' : Config) (current' : ℕ) (ha : Answer cfg current m.op result cfg' current')
    (h : Away cfg' current' t) (hin : t.inputQueue = []) (hout : t.outputQueue = [⟨m.id, result⟩])

section Phases

variable {cfg : Config} {current : ℕ} {m : Request} {t t' : RunState}

theorem runTick_dead (h : Dead t) : runTick t = none := by
  rcases h with h | ⟨id, e, hp, hpc⟩
  · simp [runTick, h]
  · simp [runTick, hp, hpc, innerTick, tick]

/-- The request is taken from the queue. -/
theorem Phase.dispatch (h : Away cfg current t) (hp : t.place = .pop) (hout : t.outputQueue = []) :
    Phase cfg current m (Runtime.dispatch { t with inputQueue := [] } m) := by
  have hidle : t.pc = .idle := h.nested (by rw [hp]; rfl)
  have hnested := dispatch_nested (s := { t with inputQueue := [] }) hidle m
  unfold Runtime.dispatch at hnested ⊢
  cases hop : m.op with
  | «open» opened =>
    cases opened with
    | none => exact .dead (Or.inl rfl) hout
    | some cfg' =>
      simp only [hop] at hnested
      refine .answered none cfg' current ?_ ⟨hnested, rfl, h.current_eq, by simp⟩ rfl (by simp [hout])
      rw [hop]
      exact .opened cfg'
  | close =>
    simp only [hop] at hnested
    refine .answered none cfg current ?_ ⟨hnested, h.cfg_eq, h.current_eq, by simp⟩ rfl (by simp [hout])
    rw [hop]
    exact .closed
  | getTensorPtr index =>
    simp only [hop] at hnested
    rcases getTensorPtr_cases t.cfg t.loader index with ⟨hlt, hle, hget⟩ | ⟨-, e, hget⟩
    · simp only [hget] at hnested ⊢
      rw [← h.cfg_eq, ← h.current_eq]
      exact .serving index ⟨hnested, rfl, rfl, hop, hlt, hle, rfl, rfl⟩ rfl hout
    · simp only [hget]
      exact .dead (Or.inr ⟨m.id, e, rfl, rfl⟩) hout

/-- A silent step leaves the request where it is, unless an exception ends the
thread. -/
theorem Phase.silent (h : Phase cfg current m t) (hn : CallsNested t') (hs : Silent t t')
    (hdead : Dead t → Dead t') : Phase cfg current m t' := by
  rcases h with ⟨h, hin, hout⟩ | ⟨h, hout⟩ | ⟨index, h, hin, hout⟩ | ⟨result, cfg', current', ha, h, hin, hout⟩
  · exact .queued (h.silent hn hs) (hs.input.trans hin) (hs.output.trans hout)
  · exact .dead (hdead h) (hs.output.trans hout)
  · have hp := (hs.place m.id).mpr h.place
    rcases hs.target m.id h.place with ht | ⟨e, he⟩
    · exact .serving index ⟨hn, hs.cfg.trans h.cfg_eq, hs.current.trans h.current_eq, h.op, h.lt, h.le, hp,
        ht.trans h.target⟩ (hs.input.trans hin) (hs.output.trans hout)
    · exact .dead (Or.inr ⟨m.id, e, hp, he⟩) (hs.output.trans hout)
  · exact .answered result cfg' current' ha (h.silent hn hs) (hs.input.trans hin) (hs.output.trans hout)

/-- Every step of the thread and its executor takes the request one phase
further at most. -/
theorem Phase.runStep (h : Phase cfg current m t) (hnest : CallsNested t) {a : RunAction}
    (ha : ∀ m, a ≠ .push m) (hs : Runtime.runStep t a = some t') : Phase cfg current m t' := by
  have hn := runStep_nested hnest hs
  cases a with
  | push m => exact absurd rfl (ha m)
  | complete k =>
    obtain ⟨hsil, hp, hpc⟩ := silent_complete hs
    exact h.silent hn hsil fun hd => by unfold Dead; rw [hp, hpc]; exact hd
  | tick =>
    rcases runTick_cases hs with hsil | ⟨hp, m', rest, hq, rfl⟩ | ⟨id, index, hp, hpc, rfl⟩
    · exact h.silent hn hsil fun hd => by
        rw [Runtime.runStep, runTick_dead hd] at hs
        cases hs
    · rcases h with ⟨h, hin, hout⟩ | ⟨h, hout⟩ | ⟨index, h, hin, hout⟩ | ⟨result, cfg', current', ha, h, hin, hout⟩
      · obtain ⟨rfl, rfl⟩ := List.cons.inj (hin.symm.trans hq)
        exact Phase.dispatch h hp hout
      · rw [Runtime.runStep, runTick_dead h] at hs
        cases hs
      · rw [hin] at hq
        cases hq
      · rw [hin] at hq
        cases hq
    · rcases h with ⟨h, hin, hout⟩ | ⟨h, hout⟩ | ⟨index', h, hin, hout⟩ | ⟨result, cfg', current', ha, h, hin, hout⟩
      · exact absurd hp (h.away id)
      · rw [Runtime.runStep, runTick_dead h] at hs
        cases hs
      · -- the tensor that is returned is the one that was asked for
        have htarget := h.target
        rw [hpc] at htarget
        obtain rfl := Option.some.inj htarget
        obtain rfl := RunPc.getTensorPtr.inj (hp.symm.trans h.place)
        refine .answered (some (cfg.tensors.getD index default).deviceBufferOffset) cfg index ?_
          ⟨hn, h.cfg_eq, h.current_eq, by simp⟩ hin ?_
        · rw [h.op]
          exact .tensor index h.lt h.le
        · rw [hout, h.cfg_eq]
          rfl
      · exact absurd hp (h.away id)

end Phases

end Rpc
end Siphon
