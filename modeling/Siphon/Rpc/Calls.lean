/-
# Calls on the handles are atomic

`Manager.process` takes a call and its result as one step. The process does
not: a request goes through a queue to a thread that prefetches in between,
and the response comes back through another. Still the calls that have
returned, with what they returned, are always a run of `Manager.process`
(`calls_atomic`), whatever the threads and the executors do meanwhile: the
thread of a handle has at most the one request of the client that waits, so
`get_result` finds its own response and drops none.
-/
import Siphon.Rpc.Thread

namespace Siphon
namespace Rpc

open Siphon.Runtime

/-! ### The manager through a step -/

theorem manager_put (s : State) (h : ℕ) (hd : Handle) : (s.put h hd).manager =
    { s.manager with loaders := Function.update s.manager.loaders h (some hd.toRpcHandle) } := by
  simp only [State.manager, State.put, Manager.LoaderManager.mk.injEq, and_true]
  funext h'
  by_cases he : h' = h
  · subst he
    simp
  · simp [he]

theorem manager_erase (s : State) (h : ℕ) :
    State.manager { s with handles := Function.update s.handles h none } =
      { s.manager with loaders := Function.update s.manager.loaders h none } := by
  simp only [State.manager, Manager.LoaderManager.mk.injEq, and_true]
  funext h'
  by_cases he : h' = h
  · subst he
    simp
  · simp [he]

/-- A step that the client does not see. -/
theorem manager_put_same {s : State} {h : ℕ} {hd hd' : Handle} (hh : s.handles h = some hd)
    (he : hd'.toRpcHandle = hd.toRpcHandle) : (s.put h hd').manager = s.manager := by
  have hl : s.manager.loaders h = some hd.toRpcHandle := by simp [State.manager, hh]
  rw [manager_put, he, ← hl, Function.update_eq_self]

/-- The manager whose handle `h` is still `l`. -/
def State.withHandle (s : State) (h : ℕ) (l : Option Manager.RpcHandle) : Manager.LoaderManager :=
  ⟨Function.update s.manager.loaders h l, s.loaderIdIter, s.deviceIdx⟩

/-- The manager before the call that the client waits for, and where the
request of the call is. -/
inductive Waits (s : State) (m : Manager.LoaderManager) (p : Pending) (hd : Handle) : Prop where
  | opens (deviceIdx : ℤ) (l : Option Manager.RpcHandle) (hcall : p.call = .open hd.args hd.deviceBuffer)
    (hid : p.reqId = 1) (hphase : Phase notOpened 0 ⟨p.reqId, .open (openedOf hd.args)⟩ hd.thread)
    (hiter : s.loaderIdIter = p.loaderHandle + 1) (hdev : s.deviceIdx = hd.args.deviceIdx)
    (hm : m = ⟨Function.update s.manager.loaders p.loaderHandle l, p.loaderHandle, deviceIdx⟩)
  | gets (index size n : ℕ) (cfg : Config) (current : ℕ)
    (hcall : p.call = .getDlTensor p.loaderHandle index size) (hid : p.reqId = n + 1)
    (hphase : Phase cfg current ⟨p.reqId, .getTensorPtr index⟩ hd.thread)
    (hm : m = s.withHandle p.loaderHandle (some ⟨n, hd.args, hd.deviceBuffer, cfg.tensors, current⟩))
  | closes (n : ℕ) (cfg : Config) (current : ℕ) (hcall : p.call = .close p.loaderHandle) (hid : p.reqId = n + 1)
    (hphase : Phase cfg current ⟨p.reqId, .close⟩ hd.thread)
    (hm : m = s.withHandle p.loaderHandle (some ⟨n, hd.args, hd.deviceBuffer, cfg.tensors, current⟩))

/-- The process and a state of `Manager.process` with the same history. -/
structure Sim (deviceType : Manager.DeviceType) (s : State) (m : Manager.LoaderManager) : Prop where
  reach : (Manager.process deviceType).Reachable ⟨m, s.history⟩
  nested : ∀ h hd, s.handles h = some hd → CallsNested hd.thread
  quiet : ∀ h hd, s.handles h = some hd → (∀ p, s.pending = some p → p.loaderHandle ≠ h) →
    Quiet hd.thread.cfg hd.thread.loader.currentTensorIndex hd.thread
  between : s.pending = none → m = s.manager
  waits : ∀ p, s.pending = some p →
    ∃ hd, s.handles p.loaderHandle = some hd ∧ hd.latestReqId = p.reqId ∧ Waits s m p hd

section Steps

variable {deviceType : Manager.DeviceType} {s s' : State} {m : Manager.LoaderManager}

theorem put_handles (s : State) (h h' : ℕ) (hd : Handle) :
    (s.put h hd).handles h' = if h' = h then some hd else s.handles h' := by
  simp [State.put, Function.update_apply]

/-- The request of a call goes to a handle whose queues are empty. -/
theorem Quiet.queued {cfg : Config} {current : ℕ} {hd : Handle} (h : Quiet cfg current hd.thread) (op : Op) :
    Phase cfg current ⟨(hd.push op).latestReqId, op⟩ (hd.push op).thread :=
  .queued ⟨h.nested, h.cfg_eq, h.current_eq, h.away⟩ (by simp [Handle.push, h.input]) h.output

/-- The manager before a call, from the manager after its request was sent. -/
theorem manager_send {h : ℕ} {hd : Handle} (hh : s.handles h = some hd) (op : Op) (c : Manager.Call) :
    s.manager = (send s h hd op c).withHandle h (some hd.toRpcHandle) := by
  have hl : s.manager.loaders h = some hd.toRpcHandle := by simp [State.manager, hh]
  have hput : (send s h hd op c).manager = (s.put h (hd.push op)).manager := rfl
  unfold State.withHandle
  rw [hput, manager_put]
  simp only [Function.update_idem]
  rw [← hl, Function.update_eq_self]
  rfl

/-- A call on a handle that the client has. -/
theorem Sim.send (hsim : Sim deviceType s m) (hp : s.pending = none) {h : ℕ} {hd : Handle}
    (hh : s.handles h = some hd) (op : Op) (c : Manager.Call)
    (hw : Waits (Rpc.send s h hd op c) m ⟨h, hd.latestReqId + 1, c⟩ (hd.push op)) :
    Sim deviceType (Rpc.send s h hd op c) m where
  reach := hsim.reach
  nested := by
    intro h' hd' hh'
    have hput := (put_handles s h h' (hd.push op)).symm.trans hh'
    split_ifs at hput
    · obtain rfl := Option.some.inj hput
      exact hsim.nested h hd hh
    · exact hsim.nested h' hd' hput
  quiet := by
    intro h' hd' hh' hne
    have hput := (put_handles s h h' (hd.push op)).symm.trans hh'
    rw [if_neg fun he => hne _ rfl he.symm] at hput
    exact hsim.quiet h' hd' hput fun p he => by simp [hp] at he
  between := fun he => by simp [Rpc.send] at he
  waits := by
    intro p he
    obtain rfl := Option.some.inj he
    exact ⟨hd.push op, by simp [Rpc.send, State.put], rfl, hw⟩

theorem Sim.call (hsim : Sim deviceType s m) (hp : s.pending = none) {c : Manager.Call}
    (hs : Rpc.call s c = some s') : ∃ m', Sim deviceType s' m' := by
  have hm := hsim.between hp
  have hquiet : ∀ h hd, s.handles h = some hd →
      Quiet hd.thread.cfg hd.thread.loader.currentTensorIndex hd.thread :=
    fun h hd hh => hsim.quiet h hd hh fun p he => by simp [hp] at he
  cases c with
  | «open» args deviceBuffer =>
    simp only [Rpc.call, Option.some.injEq] at hs
    subst hs
    set s0 : State := { s with deviceIdx := args.deviceIdx, loaderIdIter := s.loaderIdIter + 1 }
    have hh0 : ∀ h hd, s0.handles h = some hd → s.handles h = some hd := fun _ _ h => h
    refine ⟨m, ?_⟩
    have hq : Quiet notOpened 0 (newHandle args deviceBuffer).thread :=
      ⟨⟨fun _ => rfl, rfl, rfl, fun _ => by simp [newHandle, run]⟩, rfl, rfl⟩
    exact
      { reach := hsim.reach
        nested := by
          intro h' hd' hh'
          have hput := (put_handles s0 _ h' _).symm.trans hh'
          split_ifs at hput
          · obtain rfl := Option.some.inj hput
            exact hq.nested
          · exact hsim.nested h' hd' hput
        quiet := by
          intro h' hd' hh' hne
          have hput := (put_handles s0 _ h' _).symm.trans hh'
          rw [if_neg fun he => hne _ rfl he.symm] at hput
          exact hquiet h' hd' hput
        between := fun he => by simp [Rpc.send] at he
        waits := by
          intro p he
          obtain rfl := Option.some.inj he
          refine ⟨_, by simp [Rpc.send, State.put]; rfl, rfl, ?_⟩
          refine .opens s.deviceIdx (s.manager.loaders s.loaderIdIter) rfl rfl (hq.queued _) rfl rfl ?_
          have hput : (Rpc.send s0 s.loaderIdIter (newHandle args deviceBuffer) (.open (openedOf args))
            (.open args deviceBuffer)).manager =
              (s0.put s.loaderIdIter ((newHandle args deviceBuffer).push (.open (openedOf args)))).manager := rfl
          rw [hm, hput, manager_put]
          simp only [Function.update_idem]
          rw [show s0.manager.loaders = s.manager.loaders from rfl, Function.update_eq_self]
          rfl }
  | openFails deviceIdx =>
    simp only [Rpc.call, Option.some.injEq] at hs
    subst hs
    refine ⟨⟨m.loaders, m.loaderIdIter + 1, deviceIdx⟩, ?_⟩
    exact
      { reach := hsim.reach.step (a := .openFails deviceIdx) (by simp [Manager.process, Manager.call])
        nested := hsim.nested
        quiet := hsim.quiet
        between := fun _ => by rw [hm]; rfl
        waits := fun p he => absurd (hp.symm.trans he) (by simp) }
  | getDlTensor h index size =>
    obtain ⟨hd, hh, rfl⟩ := Option.map_eq_some_iff.mp hs
    refine ⟨m, hsim.send hp hh _ _ ?_⟩
    exact .gets index size hd.latestReqId _ _ rfl rfl ((hquiet h hd hh).queued _)
      (hm.trans (manager_send hh _ _))
  | close h =>
    obtain ⟨hd, hh, rfl⟩ := Option.map_eq_some_iff.mp hs
    refine ⟨m, hsim.send hp hh _ _ ?_⟩
    exact .closes hd.latestReqId _ _ rfl rfl ((hquiet h hd hh).queued _) (hm.trans (manager_send hh _ _))

theorem Quiet.self {cfg : Config} {current : ℕ} {t : RunState} (h : Quiet cfg current t) :
    Quiet t.cfg t.loader.currentTensorIndex t := by
  have hcfg := h.cfg_eq
  have hcurrent := h.current_eq
  rwa [← hcfg, ← hcurrent] at h

/-- The state after a step of a thread. -/
theorem withHandle_put {h : ℕ} {hd : Handle} (l : Option Manager.RpcHandle) :
    (s.put h hd).withHandle h l = s.withHandle h l := by
  unfold State.withHandle
  rw [manager_put]
  simp only [Function.update_idem]
  rfl

theorem withHandle_put_same {h h' : ℕ} {hd hd' : Handle} (hh : s.handles h = some hd)
    (he : hd'.toRpcHandle = hd.toRpcHandle) (l : Option Manager.RpcHandle) :
    (s.put h hd').withHandle h' l = s.withHandle h' l := by
  unfold State.withHandle
  rw [manager_put_same hh he]
  rfl

/-- A step of the thread that has the request, or of another one. -/
theorem Waits.put {p : Pending} {hd : Handle} (h : Waits s m p hd) {t' : RunState}
    (hphase : ∀ cfg current m, Phase cfg current m hd.thread → Phase cfg current m t') :
    Waits (s.put p.loaderHandle { hd with thread := t' }) m p { hd with thread := t' } := by
  rcases h with ⟨deviceIdx, l, hcall, hid, hph, hiter, hdev, hm⟩ |
    ⟨index, size, n, cfg, current, hcall, hid, hph, hm⟩ | ⟨n, cfg, current, hcall, hid, hph, hm⟩
  · refine .opens deviceIdx l hcall hid (hphase _ _ _ hph) hiter hdev ?_
    rw [hm, manager_put]
    simp only [Function.update_idem]
  · exact .gets index size n cfg current hcall hid (hphase _ _ _ hph) (hm.trans (withHandle_put _).symm)
  · exact .closes n cfg current hcall hid (hphase _ _ _ hph) (hm.trans (withHandle_put _).symm)

theorem Waits.other {p : Pending} {hd : Handle} (h : Waits s m p hd) {h' : ℕ} {hd1 hd2 : Handle}
    (hh : s.handles h' = some hd1) (he : hd2.toRpcHandle = hd1.toRpcHandle) : Waits (s.put h' hd2) m p hd := by
  rcases h with ⟨deviceIdx, l, hcall, hid, hph, hiter, hdev, hm⟩ |
    ⟨index, size, n, cfg, current, hcall, hid, hph, hm⟩ | ⟨n, cfg, current, hcall, hid, hph, hm⟩
  · refine .opens deviceIdx l hcall hid hph hiter hdev ?_
    rw [hm, manager_put_same hh he]
  · exact .gets index size n cfg current hcall hid hph (hm.trans (withHandle_put_same hh he _).symm)
  · exact .closes n cfg current hcall hid hph (hm.trans (withHandle_put_same hh he _).symm)

/-- A step of a thread or an executor. -/
theorem Sim.thread (hsim : Sim deviceType s m) {h : ℕ} {a : RunAction} (ha : ∀ m, a ≠ .push m)
    (hs : threadStep s h a = some s') : Sim deviceType s' m := by
  obtain ⟨hd, hh, hs⟩ := Option.bind_eq_some_iff.mp hs
  obtain ⟨t', ht, rfl⟩ := Option.map_eq_some_iff.mp hs
  have hnested := hsim.nested h hd hh
  have hq' : (∀ p, s.pending = some p → p.loaderHandle ≠ h) →
      Quiet hd.thread.cfg hd.thread.loader.currentTensorIndex t' :=
    fun hne => (hsim.quiet h hd hh hne).runStep ha ht
  have hsame : (∀ p, s.pending = some p → p.loaderHandle ≠ h) →
      Handle.toRpcHandle { hd with thread := t' } = hd.toRpcHandle := by
    intro hne
    simp [Handle.toRpcHandle, (hq' hne).cfg_eq, (hq' hne).current_eq]
  exact
    { reach := hsim.reach
      nested := by
        intro h' hd' hh'
        rw [put_handles] at hh'
        split_ifs at hh'
        · obtain rfl := Option.some.inj hh'
          exact runStep_nested hnested ht
        · exact hsim.nested h' hd' hh'
      quiet := by
        intro h' hd' hh' hne
        rw [put_handles] at hh'
        split_ifs at hh' with he
        · subst he
          obtain rfl := Option.some.inj hh'
          exact Quiet.self (hq' hne)
        · exact hsim.quiet h' hd' hh' hne
      between := by
        intro hp
        have hne : ∀ p, s.pending = some p → p.loaderHandle ≠ h :=
          fun p he => absurd (hp.symm.trans he) (by simp)
        rw [manager_put_same hh (hsame hne)]
        exact hsim.between hp
      waits := by
        intro p hp
        obtain ⟨hd0, hh0, hid, hw⟩ := hsim.waits p hp
        by_cases he : p.loaderHandle = h
        · subst he
          obtain rfl := Option.some.inj (hh.symm.trans hh0)
          exact ⟨{ hd with thread := t' }, by rw [put_handles, if_pos rfl], hid,
            hw.put fun _ _ _ hphase => hphase.runStep hnested ha ht⟩
        · refine ⟨hd0, by rw [put_handles, if_neg he]; exact hh0, hid, hw.other hh (hsame fun p' hp' => ?_)⟩
          obtain rfl := Option.some.inj (hp.symm.trans hp')
          exact he }

/-- A step of the thread of an erased handle. -/
theorem Waits.closed {p : Pending} {hd : Handle} (h : Waits s m p hd) (l : List Handle) :
    Waits { s with closed := l } m p hd := by
  rcases h with ⟨deviceIdx, l, hcall, hid, hph, hiter, hdev, hm⟩ |
    ⟨index, size, n, cfg, current, hcall, hid, hph, hm⟩ | ⟨n, cfg, current, hcall, hid, hph, hm⟩
  · exact .opens deviceIdx l hcall hid hph hiter hdev hm
  · exact .gets index size n cfg current hcall hid hph hm
  · exact .closes n cfg current hcall hid hph hm

theorem Sim.closed (hsim : Sim deviceType s m) {i : ℕ} {a : RunAction} (hs : closedStep s i a = some s') :
    Sim deviceType s' m := by
  obtain ⟨hd, -, hs⟩ := Option.bind_eq_some_iff.mp hs
  obtain ⟨t, -, rfl⟩ := Option.map_eq_some_iff.mp hs
  refine ⟨hsim.reach, hsim.nested, hsim.quiet, hsim.between, fun p hp => ?_⟩
  obtain ⟨hd', hh, hid, hw⟩ := hsim.waits p hp
  exact ⟨hd', hh, hid, hw.closed _⟩

/-- The response to the client's request, and nothing else, comes back. -/
theorem Waits.response {p : Pending} {hd : Handle} (h : Waits s m p hd) :
    hd.thread.outputQueue = [] ∨ ∃ result, hd.thread.outputQueue = [⟨p.reqId, result⟩] := by
  have hphase : ∀ {cfg : Config} {current : ℕ} {op : Op}, Phase cfg current ⟨p.reqId, op⟩ hd.thread →
      hd.thread.outputQueue = [] ∨ ∃ result, hd.thread.outputQueue = [⟨p.reqId, result⟩] := by
    intro cfg current op hph
    rcases hph with ⟨-, -, hout⟩ | ⟨-, hout⟩ | ⟨-, -, -, hout⟩ | ⟨result, -, -, -, -, -, hout⟩
    · exact Or.inl hout
    · exact Or.inl hout
    · exact Or.inl hout
    · exact Or.inr ⟨result, hout⟩
  rcases h with ⟨_, _, _, _, hph, _, _, _⟩ | ⟨_, _, _, _, _, _, _, hph, _⟩ | ⟨_, _, _, _, _, hph, _⟩
  · exact hphase hph
  · exact hphase hph
  · exact hphase hph

/-- The answered request. -/
theorem Phase.answer {cfg : Config} {current : ℕ} {r : Request} {t : RunState} (h : Phase cfg current r t)
    {result : Option ℕ} (hout : t.outputQueue = [⟨r.id, result⟩]) : ∃ cfg' current',
      Answer cfg current r.op result cfg' current' ∧ Away cfg' current' t ∧ t.inputQueue = [] := by
  rcases h with ⟨-, -, h⟩ | ⟨-, h⟩ | ⟨-, -, -, h⟩ | ⟨result', cfg', current', ha, haway, hin, h⟩
  · rw [h] at hout
    cases hout
  · rw [h] at hout
    cases hout
  · rw [h] at hout
    cases hout
  · rw [h] at hout
    obtain ⟨-, rfl⟩ := Response.mk.inj (List.cons.inj hout).1
    exact ⟨cfg', current', ha, haway, hin⟩

/-- A thread whose response is there serves nothing. -/
theorem Waits.away_of_output {p : Pending} {hd : Handle} (h : Waits s m p hd) (hout : hd.thread.outputQueue ≠ []) :
    ∀ id, hd.thread.place ≠ .getTensorPtr id := by
  obtain ⟨result, hres⟩ := h.response.resolve_left hout
  rcases h with ⟨_, _, _, _, hph, _, _, _⟩ | ⟨_, _, _, _, _, _, _, hph, _⟩ | ⟨_, _, _, _, _, hph, _⟩
  · obtain ⟨_, _, -, haway, -⟩ := hph.answer hres
    exact haway.away
  · obtain ⟨_, _, -, haway, -⟩ := hph.answer hres
    exact haway.away
  · obtain ⟨_, _, -, haway, -⟩ := hph.answer hres
    exact haway.away

/-- The client returns from a call that leaves the handle. -/
theorem Sim.return (hsim : Sim deviceType s m) {p : Pending} (hp : s.pending = some p) {hd : Handle}
    {cfg : Config} {current : ℕ} (haway : Away cfg current hd.thread) (hin : hd.thread.inputQueue = [])
    {e : Manager.Call × Manager.Reply} (hreach : (Manager.process deviceType).Reachable
      ⟨(s.put p.loaderHandle (hd.popped [])).manager, s.history ++ [e]⟩) :
    ∃ m', Sim deviceType
      { s.put p.loaderHandle (hd.popped []) with pending := none, history := s.history ++ [e] } m' := by
  have hq : Quiet cfg current (hd.popped []).thread :=
    ⟨⟨haway.nested, haway.cfg_eq, haway.current_eq, haway.away⟩, hin, rfl⟩
  refine ⟨_, hreach, fun h' hd' hh' => ?_, fun h' hd' hh' _ => ?_, fun _ => rfl, fun p' he => by cases he⟩
  · have hput := (put_handles s _ h' _).symm.trans hh'
    split_ifs at hput
    · obtain rfl := Option.some.inj hput
      exact hq.nested
    · exact hsim.nested h' hd' hput
  · have hput := (put_handles s _ h' _).symm.trans hh'
    split_ifs at hput with he
    · obtain rfl := Option.some.inj hput
      exact hq.self
    · refine hsim.quiet h' hd' hput fun p' hp' => ?_
      obtain rfl := Option.some.inj (hp.symm.trans hp')
      exact Ne.symm he

theorem openedOf_eq_some {args : Manager.OpenArgs} {cfg : Config} (h : openedOf args = some cfg) :
    ∃ layout, Layout.computeLayout args.geometry args.tensorOffsets = .ok layout ∧ cfg.tensors = layout.tensors := by
  unfold openedOf at h
  split at h
  · rename_i layout hl
    obtain rfl := Option.some.inj h
    exact ⟨layout, hl, rfl⟩
  · cases h

/-- A `pop` of the client that waits. -/
theorem Sim.pop (hsim : Sim deviceType s m) (hs : Rpc.pop deviceType s = some s') :
    ∃ m', Sim deviceType s' m' := by
  obtain ⟨p, hp, hs⟩ := Option.bind_eq_some_iff.mp hs
  obtain ⟨hd, hh, hid, hw⟩ := hsim.waits p hp
  obtain ⟨hd', hh', hs⟩ := Option.bind_eq_some_iff.mp hs
  obtain rfl := Option.some.inj (hh.symm.trans hh')
  rcases hw.response with hnil | ⟨result, hout⟩
  · simp [hnil] at hs
  simp only [hout, ne_eq, not_true, if_false] at hs
  have hreach := hsim.reach
  rcases hw with ⟨deviceIdx, l, hcall, hone, hph, hiter, hdev, hm⟩ |
    ⟨index, size, n, cfg, current, hcall, hn, hph, hm⟩ | ⟨n, cfg, current, hcall, hn, hph, hm⟩
  · -- the layout of the arguments is the one that the thread opened
    obtain ⟨cfg', current', ha, haway, hin⟩ := hph.answer hout
    generalize hop : openedOf hd.args = opened at ha
    cases ha with
    | opened cfg' =>
      obtain ⟨layout, hl, htensors⟩ := openedOf_eq_some hop
      simp only [finish, hcall, Option.some.injEq] at hs
      subst hs
      refine hsim.return hp haway hin (hreach.step (a := p.call) ?_)
      have hto : (hd.popped []).toRpcHandle = ⟨1, hd.args, hd.deviceBuffer, layout.tensors, 0⟩ := by
        simp [Handle.toRpcHandle, Handle.popped, haway.cfg_eq, haway.current_eq, htensors, hid, hone]
      rw [hcall, manager_put, hto, hm]
      simp only [Manager.process, Manager.call, hl, Function.update_idem, Option.map_some]
      simp [State.manager, hiter, hdev]
  · obtain ⟨cfg', current', ha, haway, hin⟩ := hph.answer hout
    cases ha with
    | tensor index hlt hle =>
      simp only [finish, hcall, Option.map_some, Option.some.injEq] at hs
      subst hs
      refine hsim.return hp haway hin (hreach.step (a := p.call) ?_)
      have hto : (hd.popped []).toRpcHandle = ⟨n + 1, hd.args, hd.deviceBuffer, cfg.tensors, index⟩ := by
        simp [Handle.toRpcHandle, Handle.popped, haway.cfg_eq, haway.current_eq, hid, hn]
      rw [hcall, manager_put, hto, hm]
      have hok : ¬ (cfg.tensors.length ≤ index ∨ index < current) := by omega
      simp [Manager.process, Manager.call, State.withHandle, Manager.getTensorPtr, hok, State.manager,
        State.put, Handle.popped]
  · obtain ⟨cfg', current', ha, haway, hin⟩ := hph.answer hout
    simp only [finish, hcall, Option.some.injEq] at hs
    subst hs
    have hne : ∀ h' hd', Function.update (s.put p.loaderHandle (hd.popped [])).handles p.loaderHandle none h' =
        some hd' → h' ≠ p.loaderHandle ∧ s.handles h' = some hd' := by
      intro h' hd' hh'
      by_cases he : h' = p.loaderHandle
      · simp [he] at hh'
      · exact ⟨he, by simpa [he, State.put] using hh'⟩
    have hstep : (Manager.process deviceType).step ⟨m, s.history⟩ (.close p.loaderHandle) =
        some ⟨State.manager { s with handles := Function.update s.handles p.loaderHandle none },
          s.history ++ [(.close p.loaderHandle, .closed)]⟩ := by
      rw [hm, manager_erase]
      simp [Manager.process, Manager.call, State.withHandle, State.manager]
    refine ⟨_, hreach.step hstep, fun h' hd' hh' => ?_, fun h' hd' hh' _ => ?_, fun _ => ?_,
      fun p' he => by cases he⟩
    · exact hsim.nested h' hd' (hne h' hd' hh').2
    · refine hsim.quiet h' hd' (hne h' hd' hh').2 fun p' hp' => ?_
      obtain rfl := Option.some.inj (hp.symm.trans hp')
      exact (hne h' hd' hh').1.symm
    · simp [State.manager, State.put]

end Steps

/-! ### The runs -/

theorem sim_of_reachable {deviceType : Manager.DeviceType} {s : State} (h : (system deviceType).Reachable s) :
    ∃ m, Sim deviceType s m := by
  refine h.invariant (I := fun s => ∃ m, Sim deviceType s m) ⟨_, .init, ?_, ?_, fun _ => rfl, ?_⟩ ?_
  · intro h hd hh
    cases hh
  · intro h hd hh
    cases hh
  · intro p hp
    cases hp
  · rintro s a s' ⟨m, hsim⟩ hs
    replace hs := act_of_step hs
    cases a with
    | call c =>
      simp only [act, Option.ite_none_right_eq_some] at hs
      exact hsim.call (Option.isNone_iff_eq_none.mp hs.1) hs.2
    | pop => exact hsim.pop hs
    | tick h => exact ⟨m, hsim.thread (by simp) hs⟩
    | complete h k => exact ⟨m, hsim.thread (by simp) hs⟩
    | closedTick i => exact ⟨m, hsim.closed hs⟩
    | closedComplete i k => exact ⟨m, hsim.closed hs⟩

/-- **The calls are atomic.** In every order of the client's calls and pops and
of the steps of the threads and the executors, the calls that have returned
and what they returned are a run of `Manager.process`, which between two calls
has the handles, layouts and current tensors of the threads; and while the
client waits, the handle's output queue is empty or has the response to the
client's request alone. -/
theorem calls_atomic (deviceType : Manager.DeviceType) (s : State) (h : (system deviceType).Reachable s) :
    (∃ m, (Manager.process deviceType).Reachable ⟨m, s.history⟩ ∧ (s.pending = none → m = s.manager)) ∧
      ∀ p hd, s.pending = some p → s.handles p.loaderHandle = some hd →
        hd.thread.outputQueue = [] ∨ ∃ result, hd.thread.outputQueue = [⟨p.reqId, result⟩] := by
  obtain ⟨m, hsim⟩ := sim_of_reachable h
  refine ⟨⟨m, hsim.reach, hsim.between⟩, fun p hd hp hh => ?_⟩
  obtain ⟨hd', hh', -, hw⟩ := hsim.waits p hp
  obtain rfl := Option.some.inj (hh.symm.trans hh')
  exact hw.response

/-- A file of a page behind a header of a page. -/
def onePage : Manager.OpenArgs := ⟨0, Layout.pageRing, [(0, 4096), (0, 8192)]⟩

/-- A loader is opened, its tensor is taken while its chunk is read, and it is
closed. -/
def openGetClose : List Action :=
  [.call (.open onePage 1000)] ++ List.replicate 12 (.tick 0) ++ [.pop, .call (.getDlTensor 0 0 4096)] ++
  List.replicate 2 (.tick 0) ++ [.complete 0 0] ++ List.replicate 10 (.tick 0) ++
  [.pop, .call (.close 0), .tick 0, .pop]

theorem calls_atomic_openGetClose : ∃ s, (system .cuda).Reachable s ∧ s.history.length = 3 ∧
    ∃ m, (Manager.process .cuda).Reachable ⟨m, s.history⟩ ∧ (s.pending = none → m = s.manager) := by
  obtain ⟨s, hs, hp⟩ := (system .cuda).exists_reachable openGetClose (fun s => decide (s.history.length = 3))
    (by decide +kernel)
  exact ⟨s, hs, of_decide_eq_true hp, (calls_atomic .cuda s hs).1⟩

end Rpc
end Siphon
