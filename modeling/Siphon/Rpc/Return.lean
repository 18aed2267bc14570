/-
# Every call returns

A call on a handle whose layout is one that the loader makes progress on
returns, unless it asks for a tensor that the loader does not have or has left
behind (`calls_return`), as long as no other thread ends the process. What
could are the threads of erased handles: one `try_step` follows `CLOSE`, and a
chunk that it posts goes to executors that are joined. It posts none where the
loader was at its watermark when `CLOSE` came (`quiet`); such a thread only
polls and exits (`Closing`).

Key definitions: `Closing`, `quiet`, `Returns`.
Key theorems: `allClosing_of_reachable`, `refused_of_terminated`, `calls_return`.
-/
import Siphon.Rpc.Progress

namespace Siphon
namespace Rpc

open Siphon.Runtime

/-! ### A thread after `CLOSE` -/

/-- The thread was closed at its watermark, and is on its way to its end. -/
structure Closing (cfg : Config) (t : RunState) : Prop where
  nested : CallsNested t
  cfg_eq : t.cfg = cfg
  closed : t.closed = true
  quiet : Runtime.Quiet t
  inv : Inv cfg t.loader t.pc
  input : t.inputQueue = []
  fails : ∀ e, t.pc ≠ .failed e

section Threads

variable {cfg : Config} {t t' : RunState}

/-- A closed thread takes no request. -/
theorem Closing.ne_pop (h : Closing cfg t) : t.place ≠ .pop := by
  obtain ⟨-, -, haft⟩ := h.quiet h.closed
  intro hp
  rw [hp] at haft
  cases haft

/-- A closed thread polls and exits. -/
theorem Closing.tick (h : Closing cfg t) (hs : Sound cfg) (ht : runTick t = some t') : Closing cfg t' := by
  have hnested := runTick_nested h.nested ht
  have hquiet := Runtime.Quiet.runTick h.nested (by simp [quietClose, dispatched, h.ne_pop]) h.quiet ht
  have hinner : innerTick t = some t' → Closing cfg t' := by
    intro ht
    obtain ⟨h1, he⟩ := innerTick_eq ht
    rw [h.cfg_eq] at h1
    rw [he] at hnested hquiet ⊢
    exact
      { nested := hnested
        cfg_eq := h.cfg_eq
        closed := h.closed
        quiet := hquiet
        inv := h.inv.tick hs h1
        input := h.input
        fails := fun e hfail => absurd (by rw [h1, show t'.pc = .failed e from hfail]) (tick_ne_failed hs h.inv) }
  obtain ⟨hstop, -, haft⟩ := h.quiet h.closed
  have hinv := h.inv
  generalize hp : t.place = place at haft
  generalize hpc : t.pc = pc at haft hinv
  cases haft with
  | call =>
    simp only [runTick, hp, Option.some.injEq] at ht
    subst ht
    exact ⟨hnested, h.cfg_eq, h.closed, hquiet, hinv, h.input, by simp⟩
  | test => exact hinner (by simpa only [runTick, hp, hpc] using ht)
  | poll next => exact hinner (by simpa only [runTick, hp, hpc] using ht)
  | failed e => exact absurd hpc (h.fails e)
  | done =>
    simp only [runTick, hp, hpc, Option.some.injEq] at ht
    subst ht
    exact ⟨hnested, h.cfg_eq, h.closed, hquiet, hinv, h.input, by simp⟩
  | loop =>
    simp only [runTick, hp, hstop, if_true, Option.some.injEq] at ht
    subst ht
    exact ⟨hnested, h.cfg_eq, h.closed, hquiet, h.inv, h.input, h.fails⟩
  | exited => simp [runTick, hp] at ht

theorem Closing.runStep (h : Closing cfg t) (hs : Sound cfg) {a : RunAction} (ha : ∀ m, a ≠ .push m)
    (ht : Runtime.runStep t a = some t') : Closing cfg t' := by
  cases a with
  | push m => exact absurd rfl (ha m)
  | tick => exact h.tick hs ht
  | complete k =>
    have hnested := runStep_nested h.nested ht
    obtain ⟨r, hr, rfl⟩ := Option.map_eq_some_iff.mp ht
    simp only [Runtime.step, Option.ite_none_right_eq_some, Option.some.injEq] at hr
    obtain ⟨hk, rfl⟩ := hr
    exact ⟨hnested, h.cfg_eq, h.closed, h.quiet, h.inv.complete hk.1, h.input, h.fails⟩

/-- `CLOSE` comes to a thread at its watermark. -/
theorem Running.closing (h : Running cfg t) (hp : t.place = .pop) {m : Request} (hin : t.inputQueue = [m])
    (hop : m.op = .close) (hq : quietClose t .tick = true) (ht : runTick t = some t') : Closing cfg t' := by
  have hidle := h.nested (by rw [hp]; rfl)
  have hbefore : Runtime.Quiet t := fun hc => by
    rw [h.closed] at hc
    cases hc
  have hafter := Runtime.Quiet.runTick h.nested hq hbefore ht
  have hnested := runTick_nested h.nested ht
  simp only [runTick, hp, hin, dispatch, hop, Option.some.injEq] at ht
  subst ht
  refine ⟨hnested, h.cfg_eq, rfl, hafter, h.inv, rfl, fun e he => ?_⟩
  rw [hidle] at he
  cases he

/-- The response to `CLOSE` comes from a thread that is closing. -/
theorem Busy.closing {m : Request} (h : Busy cfg m t) (hop : m.op = .close) {a : RunAction} (ha : ∀ m, a ≠ .push m)
    (hq : quietClose t a = true) (ht : Runtime.runStep t a = some t') (hout : t'.outputQueue ≠ []) : Closing cfg t' := by
  rcases h with ⟨-, hopen, -, -⟩ | ⟨h, -, haway, hin, hnil⟩ | ⟨-, ⟨index, hget⟩, -, -, -, -⟩
  · rw [hop] at hopen
    cases hopen
  · cases a with
    | push m => exact absurd rfl (ha m)
    | complete k => exact absurd ((silent_complete ht).1.output.trans hnil) hout
    | tick =>
      rcases runTick_cases ht with hsil | ⟨hp, -⟩ | ⟨id, -, hp, -⟩
      · exact absurd (hsil.output.trans hnil) hout
      · exact h.closing hp hin hop hq ht
      · exact absurd hp (haway id)
  · rw [hop] at hget
    cases hget

end Threads

/-! ### The end of the process -/

section Threw

variable {cfg : Config} {hd : Handle}

theorem threw_eq_false (hplace : hd.thread.place ≠ .threw) (hfail : ∀ e, hd.thread.pc ≠ .failed e)
    (hpost : hd.thread.closed = true → hd.thread.pc.inPost = false) : hd.threw = false := by
  have hmethod : methodThrew hd.thread.pc = false := by
    unfold methodThrew
    split
    · rename_i e he
      exact absurd he (hfail e)
    · rfl
  unfold Handle.threw
  rw [hmethod, decide_eq_false hplace]
  cases hc : hd.thread.closed with
  | false => rfl
  | true => exact hpost hc

theorem Closing.threw (h : Closing cfg hd.thread) : hd.threw = false := by
  obtain ⟨-, -, haft⟩ := h.quiet h.closed
  refine threw_eq_false (fun hp => ?_) h.fails fun _ => haft.inPost
  rw [hp] at haft
  cases haft

/-- A running thread does not throw but for a tensor that it is asked for. -/
theorem Running.threw (h : Running cfg hd.thread) (hfail : ∀ e, hd.thread.pc ≠ .failed e) : hd.threw = false := by
  refine threw_eq_false h.alive.2 hfail fun hc => ?_
  rw [h.closed] at hc
  cases hc

theorem Running.ne_failed_of_away (h : Running cfg hd.thread) (haway : ∀ id, hd.thread.place ≠ .getTensorPtr id) :
    ∀ e, hd.thread.pc ≠ .failed e := by
  intro e he
  obtain ⟨id, hid⟩ := h.fails e he
  exact haway id hid

/-- A thread that has the request throws only where it refuses it. -/
theorem Busy.refused_of_threw {m : Request} (h : Busy cfg m hd.thread) (ht : hd.threw = true) :
    Refused cfg hd.thread.loader m.op := by
  rcases h with ⟨h, -, -, -⟩ | ⟨h, -, haway, -, -⟩ | ⟨h, -, hp, hpc, -, -⟩
  · have hno : hd.threw = false := by
      refine threw_eq_false (fun hp => ?_) (fun e he => ?_) fun hc => ?_
      · rcases h.place with hp' | hp' | hp' <;> simp [hp'] at hp
      · rw [h.pc] at he
        cases he
      · rw [h.closed] at hc
        cases hc
    rw [hno] at ht
    cases ht
  · rw [h.threw (h.ne_failed_of_away haway)] at ht
    cases ht
  · rcases hpc with htarget | ⟨-, href⟩
    · rw [h.threw fun e he => by simp [he, Pc.target] at htarget] at ht
      cases ht
    · exact href

end Threw

/-! ### The closed handles of the process -/

/-- A condition on the steps of a run: a thread that takes `CLOSE` is at its watermark. -/
def quiet (s : State) : Action → Bool
  | .tick h => (s.handles h).all fun hd => quietClose hd.thread .tick
  | _ => true

/-- The threads with a sound layout that were closed are closing, those of
erased handles and that of a `close` that has its response. -/
structure AllClosing (s : State) : Prop where
  closed : ∀ hd ∈ s.closed, ∀ cfg, Opens hd cfg → Closing cfg hd.thread
  closes : ∀ p hd cfg h, s.pending = some p → s.handles p.loaderHandle = some hd → Opens hd cfg →
    p.call = .close h → hd.thread.outputQueue ≠ [] → Closing cfg hd.thread

section Handles

variable {deviceType : Manager.DeviceType} {s s' : State} {m : Manager.LoaderManager}

theorem AllClosing.thread (h : AllClosing s) (hall : AllAlive s) {k : ℕ} {a : RunAction} (ha : ∀ m, a ≠ .push m)
    (hq : ∀ hd, s.handles k = some hd → quietClose hd.thread a = true) (hs : threadStep s k a = some s') :
    AllClosing s' := by
  obtain ⟨hd, hh, hs⟩ := Option.bind_eq_some_iff.mp hs
  obtain ⟨t', ht, rfl⟩ := Option.map_eq_some_iff.mp hs
  refine ⟨h.closed, fun p hd' cfg h' hp hh' hopens hcall hout => ?_⟩
  rw [put_handles] at hh'
  split_ifs at hh' with he
  · obtain rfl := Option.some.inj hh'
    subst he
    have hopens' : Opens hd cfg := hopens.of_args rfl
    by_cases hbefore : hd.thread.outputQueue = []
    · rcases (hall _ hd cfg hh hopens').waits p hp rfl with ⟨op, hop, hbusy⟩ | ⟨hne, -⟩
      · have hclose : op = .close := by
          rw [hcall] at hop
          exact (Option.some.inj hop).symm
        exact hbusy.closing hclose ha (hq hd hh) ht hout
      · exact absurd hbefore hne
    · exact (h.closes p hd cfg h' hp hh hopens' hcall hbefore).runStep hopens.sound ha ht
  · exact h.closes p hd' cfg h' hp hh' hopens hcall hout

theorem AllClosing.erased (h : AllClosing s) {i : ℕ} {a : RunAction} (ha : ∀ m, a ≠ .push m)
    (hs : closedStep s i a = some s') : AllClosing s' := by
  obtain ⟨hd, hi, hs⟩ := Option.bind_eq_some_iff.mp hs
  obtain ⟨t', ht, rfl⟩ := Option.map_eq_some_iff.mp hs
  refine ⟨fun hd' hmem cfg hopens => ?_, h.closes⟩
  rcases List.mem_or_eq_of_mem_set hmem with hmem | rfl
  · exact h.closed hd' hmem cfg hopens
  · have hopens' : Opens hd cfg := hopens.of_args rfl
    exact (h.closed hd (List.mem_of_getElem? hi) cfg hopens').runStep hopens.sound ha ht

theorem AllClosing.call (h : AllClosing s) (hsim : Sim deviceType s m) (hnone : s.pending = none)
    {c : Manager.Call} (hs : Rpc.call s c = some s') : AllClosing s' := by
  have hquiet : ∀ h hd, s.handles h = some hd →
      Quiet hd.thread.cfg hd.thread.loader.currentTensorIndex hd.thread :=
    fun h hd hh => hsim.quiet h hd hh fun p he => by simp [hnone] at he
  have hsend : ∀ {k hd op}, s.handles k = some hd → AllClosing (Rpc.send s k hd op c) := by
    intro k hd op hh
    refine ⟨h.closed, fun p hd' cfg h' hp hh' _ _ hout => ?_⟩
    obtain rfl := Option.some.inj hp
    have hput := (put_handles s k k (hd.push op)).symm.trans hh'
    rw [if_pos rfl] at hput
    obtain rfl := Option.some.inj hput
    exact absurd (hquiet k hd hh).output hout
  cases c with
  | «open» args deviceBuffer =>
    simp only [Rpc.call, Option.some.injEq] at hs
    subst hs
    refine ⟨h.closed, fun p hd' cfg h' hp _ _ hcall _ => ?_⟩
    obtain rfl := Option.some.inj hp
    cases hcall
  | openFails deviceIdx =>
    simp only [Rpc.call, Option.some.injEq] at hs
    subst hs
    refine ⟨h.closed, fun p hd' cfg h' hp _ _ _ _ => ?_⟩
    have hp' : s.pending = some p := hp
    rw [hnone] at hp'
    cases hp'
  | getDlTensor k index size =>
    obtain ⟨hd, hh, rfl⟩ := Option.map_eq_some_iff.mp hs
    exact hsend hh
  | close k =>
    obtain ⟨hd, hh, rfl⟩ := Option.map_eq_some_iff.mp hs
    exact hsend hh

theorem AllClosing.pop (h : AllClosing s) (hsim : Sim deviceType s m) (hs : Rpc.pop deviceType s = some s') :
    AllClosing s' := by
  obtain ⟨p, hp, hs⟩ := Option.bind_eq_some_iff.mp hs
  obtain ⟨hd, hh, -, hw⟩ := hsim.waits p hp
  obtain ⟨hd', hh', hs⟩ := Option.bind_eq_some_iff.mp hs
  obtain rfl := Option.some.inj (hh.symm.trans hh')
  rcases hw.response with hnil | ⟨result, hout⟩
  · simp [hnil] at hs
  simp only [hout, ne_eq, not_true, if_false] at hs
  have hdone : ∀ {s' : State}, s'.pending = none → (∀ hd ∈ s'.closed, ∀ cfg, Opens hd cfg → Closing cfg hd.thread) →
      AllClosing s' := by
    intro s' hnone hclosed
    refine ⟨hclosed, fun p' _ _ _ hp' => ?_⟩
    rw [hnone] at hp'
    cases hp'
  unfold finish at hs
  split at hs
  · cases hs
    exact hdone rfl h.closed
  · cases hs
  · obtain ⟨offset, -, rfl⟩ := Option.map_eq_some_iff.mp hs
    exact hdone rfl h.closed
  · rename_i k hcall
    cases hs
    refine hdone rfl fun hd' hmem cfg hopens => ?_
    rcases List.mem_append.mp hmem with hmem | hmem
    · exact h.closed hd' hmem cfg hopens
    · obtain rfl := List.mem_singleton.mp hmem
      have hopens' : Opens hd cfg := hopens.of_args rfl
      have hc := h.closes p hd cfg k hp hh hopens' hcall (by simp [hout])
      exact ⟨hc.nested, hc.cfg_eq, hc.closed, hc.quiet, hc.inv, hc.input, hc.fails⟩

theorem allClosing_of_reachable (h : ((system deviceType).restrict quiet).Reachable s) :
    (system deviceType).Reachable s ∧ AllClosing s := by
  induction h with
  | init =>
    refine ⟨.init, fun hd hmem => absurd hmem List.not_mem_nil, fun p hd cfg h hp => ?_⟩
    cases hp
  | @step s s' a hr hs ih =>
    obtain ⟨hreach, ih⟩ := ih
    obtain ⟨hq, hs⟩ := Machine.restrict_step.mp hs
    refine ⟨hreach.step hs, ?_⟩
    obtain ⟨m, hsim⟩ := sim_of_reachable hreach
    have hall := allAlive_of_reachable hreach
    replace hs := act_of_step hs
    cases a with
    | call c =>
      simp only [act, Option.ite_none_right_eq_some] at hs
      exact ih.call hsim (Option.isNone_iff_eq_none.mp hs.1) hs.2
    | pop => exact ih.pop hsim hs
    | tick k =>
      refine ih.thread hall (by simp) (fun hd hh => ?_) hs
      simpa [quiet, hh] using hq
    | complete k c => exact ih.thread hall (by simp) (fun hd hh => by simp [quietClose, dispatched]) hs
    | closedTick i => exact ih.erased (by simp) hs
    | closedComplete i c => exact ih.erased (by simp) hs

/-- A handle that the process has a thread for. -/
def State.Has (s : State) (hd : Handle) : Prop := (∃ h < s.loaderIdIter, s.handles h = some hd) ∨ hd ∈ s.closed

/-- **What ends the process.** Where all layouts are sound and every `CLOSE`
was quiet, nothing but the call that the client waits for: it asks for a tensor
that the loader does not have or has left behind. -/
theorem refused_of_terminated (h : ((system deviceType).restrict quiet).Reachable s)
    (hsound : ∀ hd, s.Has hd → ∃ cfg, Opens hd cfg) (ht : s.terminated = true) : ∃ p hd cfg op,
      s.pending = some p ∧ s.handles p.loaderHandle = some hd ∧ Opens hd cfg ∧ hd.thread.outputQueue = [] ∧
        requestOp p.call = some op ∧ Refused cfg hd.thread.loader op := by
  obtain ⟨hreach, hclosing⟩ := allClosing_of_reachable h
  have hall := allAlive_of_reachable hreach
  obtain ⟨m, hsim⟩ := sim_of_reachable hreach
  rcases Bool.or_eq_true _ _ |>.mp ht with ht | ht
  · obtain ⟨k, hk, ht⟩ := List.any_eq_true.mp ht
    obtain ⟨hd, hh, hthrew⟩ := (Option.any_eq_true _ _).mp ht
    obtain ⟨cfg, hopens⟩ := hsound hd (.inl ⟨k, List.mem_range.mp hk, hh⟩)
    have hno : hd.threw = false → False := fun hf => by
      rw [hf] at hthrew
      cases hthrew
    have hal := hall k hd cfg hh hopens
    by_cases hwaits : ∃ p, s.pending = some p ∧ p.loaderHandle = k
    · obtain ⟨p, hp, rfl⟩ := hwaits
      rcases hal.waits p hp rfl with ⟨op, hop, hbusy⟩ | ⟨hout, hclose | hrun⟩
      · exact ⟨p, hd, cfg, op, hp, hh, hopens, hbusy.output, hop, hbusy.refused_of_threw hthrew⟩
      · obtain ⟨k, hclose⟩ := hclose
        exact (hno (hclosing.closes p hd cfg k hp hh hopens hclose hout).threw).elim
      · -- it has answered, and serves nothing
        obtain ⟨hd', hh', -, hw⟩ := hsim.waits p hp
        obtain rfl := Option.some.inj (hh.symm.trans hh')
        exact (hno (hrun.threw (hrun.ne_failed_of_away (hw.away_of_output hout)))).elim
    · have hne : ∀ p, s.pending = some p → p.loaderHandle ≠ k := fun p hp he => hwaits ⟨p, hp, he⟩
      exact (hno ((hal.between hne).threw ((hal.between hne).ne_failed_of_away (hsim.quiet k hd hh hne).away))).elim
  · obtain ⟨hd, hmem, ht⟩ := List.any_eq_true.mp ht
    obtain ⟨cfg, hopens⟩ := hsound hd (.inr hmem)
    rw [(hclosing.closed hd hmem cfg hopens).threw] at ht
    cases ht

end Handles

/-! ### The calls -/

/-- A step of the handle's thread or of its executor. -/
def Action.on (h : ℕ) : Action → Bool
  | .call _ | .pop | .closedTick _ | .closedComplete _ _ => false
  | .tick h' => h' == h
  | .complete h' _ => h' == h

/-- The call that the client waits for comes to its end: a response is the
client's own, as long as there is none the handle's thread or its executor has
a step to make, unless the call asks for a tensor that the loader does not
have or has left behind, and they make no more than `callWork` of them. -/
structure Returns (deviceType : Manager.DeviceType) (s : State) (p : Pending) (hd : Handle) (cfg : Config) :
    Prop where
  answered : hd.thread.outputQueue ≠ [] → ∃ s', step deviceType s .pop = some s' ∧ s'.pending = none
  moves : hd.thread.outputQueue = [] →
    (∃ h index size, p.call = .getDlTensor h index size ∧
      (cfg.tensors.length ≤ index ∨ index < hd.thread.loader.currentTensorIndex)) ∨
    (step deviceType s (.tick p.loaderHandle)).isSome = true ∨
    ∃ k, (step deviceType s (.complete p.loaderHandle k)).isSome = true
  bounded : ∀ l s' hd', (∀ a ∈ l, a ≠ .pop) → (system deviceType).exec l s = some s' →
    s'.handles p.loaderHandle = some hd' → hd'.thread.outputQueue = [] →
    l.countP (Action.on p.loaderHandle) ≤ callWork cfg hd.thread

section Calls

variable {deviceType : Manager.DeviceType} {s s' : State} {p : Pending} {hd : Handle} {cfg : Config}

/-- The response to a call gives its result. -/
theorem pop_of_response (h : (system deviceType).Reachable s) (hp : s.pending = some p)
    (hh : s.handles p.loaderHandle = some hd) (hout : hd.thread.outputQueue ≠ []) :
    ∃ s', pop deviceType s = some s' ∧ s'.pending = none := by
  obtain ⟨m, hsim⟩ := sim_of_reachable h
  obtain ⟨hd', hh', -, hw⟩ := hsim.waits p hp
  obtain rfl := Option.some.inj (hh.symm.trans hh')
  obtain ⟨result, hout⟩ := hw.response.resolve_left hout
  simp only [pop, hp, hh, hout, Option.bind_some, ne_eq, not_true, if_false, finish]
  rcases hw with ⟨_, _, hcall, _, _, _, _, _⟩ | ⟨_, _, _, _, _, hcall, _, hph, _⟩ | ⟨_, _, _, hcall, _, _, _⟩
  · simp [hcall]
  · obtain ⟨_, _, ha, -, -⟩ := hph.answer hout
    cases ha
    simp [hcall]
  · simp [hcall]

/-- The request of a call that waits. -/
theorem busy_of_waits (h : (system deviceType).Reachable s) (hp : s.pending = some p)
    (hh : s.handles p.loaderHandle = some hd) (hopens : Opens hd cfg) (hout : hd.thread.outputQueue = []) :
    ∃ op, requestOp p.call = some op ∧ Busy cfg ⟨p.reqId, op⟩ hd.thread := by
  rcases (allAlive_of_reachable h p.loaderHandle hd cfg hh hopens).waits p hp rfl with hbusy | ⟨hne, -⟩
  · exact hbusy
  · exact absurd hout hne

theorem requestOp_getTensorPtr {c : Manager.Call} {index : ℕ} (h : requestOp c = some (.getTensorPtr index)) :
    ∃ h' size, c = .getDlTensor h' index size := by
  cases c with
  | close h' => cases h
  | «open» args b => cases h
  | openFails d => cases h
  | getDlTensor h' i z =>
    cases h
    exact ⟨h', z, rfl⟩

/-- A step while the client waits: one of the call's handle, or one that
leaves the handle alone. -/
theorem step_waiting {a : Action} (ha : a ≠ .pop) (hp : s.pending = some p)
    (hh : s.handles p.loaderHandle = some hd) (hs : step deviceType s a = some s') :
    s'.pending = some p ∧
      ((a.on p.loaderHandle = false ∧ s'.handles p.loaderHandle = some hd) ∨
        ∃ b t', (∀ m, b ≠ .push m) ∧ runStep hd.thread b = some t' ∧
          s'.handles p.loaderHandle = some { hd with thread := t' }) := by
  have hthread : ∀ {h b}, (∀ m, b ≠ .push m) → threadStep s h b = some s' → s'.pending = some p ∧
      (((h == p.loaderHandle) = false ∧ s'.handles p.loaderHandle = some hd) ∨
        ∃ b t', (∀ m, b ≠ .push m) ∧ runStep hd.thread b = some t' ∧
          s'.handles p.loaderHandle = some { hd with thread := t' }) := by
    intro h b hb hs
    obtain ⟨hd1, hh1, hs⟩ := Option.bind_eq_some_iff.mp hs
    obtain ⟨t', ht, rfl⟩ := Option.map_eq_some_iff.mp hs
    refine ⟨hp, ?_⟩
    rw [put_handles]
    by_cases he : h = p.loaderHandle
    · subst he
      obtain rfl := Option.some.inj (hh.symm.trans hh1)
      exact Or.inr ⟨b, t', hb, ht, if_pos rfl⟩
    · exact Or.inl ⟨by simpa using he, by rw [if_neg (Ne.symm he), hh]⟩
  have hclosed : ∀ {i b}, closedStep s i b = some s' → s'.pending = some p ∧ s'.handles p.loaderHandle = some hd := by
    intro i b hs
    obtain ⟨hd1, -, hs⟩ := Option.bind_eq_some_iff.mp hs
    obtain ⟨t', -, rfl⟩ := Option.map_eq_some_iff.mp hs
    exact ⟨hp, hh⟩
  replace hs := act_of_step hs
  cases a with
  | call c => simp [act, hp] at hs
  | pop => exact absurd rfl ha
  | tick h => exact hthread (by simp) hs
  | complete h k => exact hthread (by simp) hs
  | closedTick i => exact ⟨(hclosed hs).1, .inl ⟨rfl, (hclosed hs).2⟩⟩
  | closedComplete i k => exact ⟨(hclosed hs).1, .inl ⟨rfl, (hclosed hs).2⟩⟩

/-- The response waits for the client. -/
theorem output_ne_nil_exec : ∀ (l : List Action) {s s' : State} {hd hd' : Handle}, (∀ a ∈ l, a ≠ .pop) →
    s.pending = some p → s.handles p.loaderHandle = some hd → hd.thread.outputQueue ≠ [] →
    (system deviceType).exec l s = some s' → s'.handles p.loaderHandle = some hd' → hd'.thread.outputQueue ≠ []
  | [], s, s', hd, hd', _, _, hh, hout, he, hh' => by
    obtain rfl := Option.some.inj he
    obtain rfl := Option.some.inj (hh.symm.trans hh')
    exact hout
  | a :: l, s, s', hd, hd', hl, hp, hh, hout, he, hh' => by
    obtain ⟨s1, h1, h2⟩ := Option.bind_eq_some_iff.mp he
    have hl' := fun b hb => hl b (List.mem_cons_of_mem a hb)
    obtain ⟨hp1, ⟨-, hh1⟩ | ⟨b, t', -, ht, hh1⟩⟩ := step_waiting (hl a List.mem_cons_self) hp hh h1
    · exact output_ne_nil_exec l hl' hp1 hh1 hout h2 hh'
    · exact output_ne_nil_exec l hl' hp1 hh1 (output_ne_nil ht hout) h2 hh'

/-- The steps of the handle that a run makes before the response. -/
theorem countP_le_callWork (l : List Action) (hr : (system deviceType).Reachable s) (hp : s.pending = some p)
    (hh : s.handles p.loaderHandle = some hd) (hopens : Opens hd cfg) (hl : ∀ a ∈ l, a ≠ .pop)
    (he : (system deviceType).exec l s = some s') {hd' : Handle} (hh' : s'.handles p.loaderHandle = some hd')
    (hout' : hd'.thread.outputQueue = []) : l.countP (Action.on p.loaderHandle) ≤ callWork cfg hd.thread := by
  induction l generalizing s hd with
  | nil => simp
  | cons a l ih =>
    obtain ⟨s1, h1, h2⟩ := Option.bind_eq_some_iff.mp he
    have hl' := fun b hb => hl b (List.mem_cons_of_mem a hb)
    have hempty : ∀ hd1, s1.handles p.loaderHandle = some hd1 → s1.pending = some p →
        hd1.thread.outputQueue = [] :=
      fun hd1 hh1 hp1 => by_contra fun hne => output_ne_nil_exec l hl' hp1 hh1 hne h2 hh' hout'
    obtain ⟨hp1, ⟨hon, hh1⟩ | ⟨b, t', hb, ht, hh1⟩⟩ := step_waiting (hl a List.mem_cons_self) hp hh h1
    · rw [List.countP_cons_of_neg (by simp [hon])]
      exact ih (hr.step h1) hp1 hh1 hopens hl' h2
    · have hout : hd.thread.outputQueue = [] :=
        by_contra fun hne => output_ne_nil ht hne (hempty _ hh1 hp1)
      obtain ⟨op, -, hbusy⟩ := busy_of_waits hr hp hh hopens hout
      have hopens' : Opens { hd with thread := t' } cfg := hopens.of_args rfl
      have hle := ih (hr.step h1) hp1 hh1 hopens' hl' h2
      have hle : l.countP (Action.on p.loaderHandle) ≤ callWork cfg t' := hle
      rcases hbusy.runStep hopens.sound hopens.nonempty hb ht with ⟨-, hlt⟩ | ⟨hne, -⟩
      · rw [List.countP_cons]
        split_ifs
        · exact Nat.succ_le_of_lt (hle.trans_lt hlt)
        · exact hle.trans hlt.le
      · exact absurd (hempty _ hh1 hp1) hne

/-- **Every call returns.** While the client waits for a call in a process in
which all layouts have tensors and let their loaders progress, and every
`CLOSE` came to a loader at its watermark, the response that comes is the
client's own; until it is there the handle's thread or its executor has a
step to make, unless the call asks for a tensor that the loader does not have
or has left behind; and before it they make at most `callWork` steps, however
the steps of other handles come in between. -/
theorem calls_return (deviceType : Manager.DeviceType) (s : State) (p : Pending) (hd : Handle) (cfg : Config)
    (h : ((system deviceType).restrict quiet).Reachable s) (hsound : ∀ hd, s.Has hd → ∃ cfg, Opens hd cfg)
    (hp : s.pending = some p) (hh : s.handles p.loaderHandle = some hd) (hopens : Opens hd cfg) :
    Returns deviceType s p hd cfg := by
  obtain ⟨hr, -⟩ := allClosing_of_reachable h
  have hrefused : s.terminated = true → hd.thread.outputQueue = [] ∧ ∃ op, requestOp p.call = some op ∧
      Refused cfg hd.thread.loader op := by
    intro ht
    obtain ⟨p', hd', cfg', op, hp', hh', hopens', hout, hop, href⟩ := refused_of_terminated h hsound ht
    obtain rfl := Option.some.inj (hp.symm.trans hp')
    obtain rfl := Option.some.inj (hh.symm.trans hh')
    obtain rfl := Option.some.inj (hopens.opened.symm.trans hopens'.opened)
    exact ⟨hout, op, hop, href⟩
  refine ⟨fun hout => ?_, fun hout => ?_, fun l _ _ hl he hh' hout =>
    countP_le_callWork l hr hp hh hopens hl he hh' hout⟩
  · have hlives : ¬ s.terminated = true := fun ht => hout (hrefused ht).1
    obtain ⟨s', hs, hnone⟩ := pop_of_response hr hp hh hout
    refine ⟨s', ?_, hnone⟩
    unfold step
    rw [if_neg hlives]
    exact hs
  · have hget : ∀ {op}, requestOp p.call = some op → Refused cfg hd.thread.loader op →
        ∃ h index size, p.call = .getDlTensor h index size ∧
          (cfg.tensors.length ≤ index ∨ index < hd.thread.loader.currentTensorIndex) := by
      rintro op hop ⟨index, rfl, hbad⟩
      obtain ⟨h', size, hcall⟩ := requestOp_getTensorPtr hop
      exact ⟨h', index, size, hcall, hbad⟩
    by_cases hterm : s.terminated = true
    · obtain ⟨-, op, hop, href⟩ := hrefused hterm
      exact .inl (hget hop href)
    · obtain ⟨op, hop, hbusy⟩ := busy_of_waits hr hp hh hopens hout
      rcases hbusy.moves hopens.sound with href | htick | ⟨k, hk⟩
      · exact .inl (hget hop href)
      · exact .inr (.inl (by simpa [step, hterm, act, threadStep, hh] using htick))
      · exact .inr (.inr ⟨k, by simpa [step, hterm, act, threadStep, hh] using hk⟩)

end Calls

/-- The layout of the file of a page. -/
def onePageLayout : Config where
  tensors := [⟨4096, 0, 4096, 16, 0, 0⟩]
  chunks := [⟨4096, 0, 4096, 16⟩]
  ioDepth := 1

theorem onePageLayout_sound : Sound onePageLayout :=
  ⟨by decide, by decide, by decide, by decide, by decide, by decide, by decide⟩

/-- The first handle is closed, its thread has ended, and a second one is opened
and asked for its tensor. -/
def openAgain : List Action :=
  openGetClose ++ List.replicate 5 (.closedTick 0) ++ [.call (.open onePage 1000)] ++
  List.replicate 12 (.tick 1) ++ [.pop, .call (.getDlTensor 1 0 4096)] ++ List.replicate 2 (.tick 1)

theorem calls_return_openAgain : ∃ s p hd, ((system .cuda).restrict quiet).Reachable s ∧ s.pending = some p ∧
    p.loaderHandle = 1 ∧ s.closed.length = 1 ∧ hd.thread.outputQueue = [] ∧ Returns .cuda s p hd onePageLayout := by
  obtain ⟨s, hs, hp⟩ := ((system .cuda).restrict quiet).exists_reachable openAgain
    (fun s : State => decide (s.loaderIdIter = 2) && (s.handles 0).isNone && decide (s.closed.length = 1) &&
      (s.closed.all fun hd : Handle => decide (hd.thread.place = .exited ∧ openedOf hd.args = some onePageLayout)) &&
      s.pending.any fun p : Pending => decide (p.loaderHandle = 1) && (s.handles 1).any fun hd : Handle =>
        decide (openedOf hd.args = some onePageLayout ∧ hd.thread.outputQueue = []))
    (by decide +kernel)
  simp only [Bool.and_eq_true] at hp
  obtain ⟨⟨⟨⟨hiter, hzero⟩, hlen⟩, hclosed⟩, hp⟩ := hp
  obtain ⟨p, hpend, hp⟩ := (Option.any_eq_true _ _).mp hp
  obtain ⟨hone, hp⟩ := Bool.and_eq_true_iff.mp hp
  obtain ⟨hd, hh, hp⟩ := (Option.any_eq_true _ _).mp hp
  obtain ⟨hopened, hout⟩ := of_decide_eq_true hp
  have hhandle : p.loaderHandle = 1 := of_decide_eq_true hone
  have hopens : Opens hd onePageLayout := ⟨hopened, onePageLayout_sound, by decide⟩
  refine ⟨s, p, hd, hs, hpend, hhandle, of_decide_eq_true hlen, hout,
    calls_return .cuda s p hd onePageLayout hs ?_ hpend (hhandle.symm ▸ hh) hopens⟩
  rintro hd' (⟨k, hk, hh'⟩ | hmem)
  · rw [of_decide_eq_true hiter] at hk
    have hk' : k = 0 ∨ k = 1 := by omega
    rcases hk' with rfl | rfl
    · rw [hh'] at hzero
      cases hzero
    · obtain rfl := Option.some.inj (hh.symm.trans hh')
      exact ⟨_, hopens⟩
  · exact ⟨_, (of_decide_eq_true (List.all_eq_true.mp hclosed hd' hmem)).2, onePageLayout_sound, by decide⟩

end Rpc
end Siphon
