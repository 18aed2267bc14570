/-
# A request on its way

The request of a call on a handle whose layout is one that the loader makes
progress on (`Runtime.Sound`) is taken from the queue when the thread has
finished its `try_step`, whatever there is to prefetch; from there on each step
of the thread and each completion lowers `callWork`, and there is always one to
make until the response is in the output queue (`Busy.runStep`, `Busy.moves`),
unless the request asks for a tensor that the loader does not have or has left
behind. So every such handle is alive in every state of the process
(`allAlive_of_reachable`).
-/
import Siphon.Rpc.Calls

namespace Siphon
namespace Rpc

open Siphon.Runtime

/-- The thread of an opened handle that was not closed. -/
structure Running (cfg : Config) (t : RunState) : Prop where
  nested : CallsNested t
  cfg_eq : t.cfg = cfg
  stop : t.stop = false
  closed : t.closed = false
  inv : Inv cfg t.loader t.pc
  alive : t.place ≠ .exited ∧ t.place ≠ .threw
  fails : ∀ e, t.pc = .failed e → ∃ id, t.place = .getTensorPtr id

/-- The thread before `OPEN`. -/
structure Starting (t : RunState) : Prop where
  cfg_eq : t.cfg = notOpened
  stop : t.stop = false
  closed : t.closed = false
  loader : t.loader = {}
  pc : t.pc = .idle
  place : t.place = .loop ∨ t.place = .check ∨ t.place = .pop

section Steps

variable {cfg : Config} {t t' : RunState}

/-- No request but for tensors is taken. -/
def OnlyTensors (t : RunState) : Prop :=
  t.place = .pop → ∀ m rest, t.inputQueue = m :: rest → ∃ index, m.op = .getTensorPtr index

theorem Running.inner (h : Running cfg t) (hs : Sound cfg) (hc : t.place.inCall = true)
    (ht : innerTick t = some t') : Running cfg t' := by
  obtain ⟨h1, he⟩ := innerTick_eq ht
  have hnested := innerTick_nested hc ht
  rw [h.cfg_eq] at h1
  rw [he] at hnested ⊢
  exact
    { nested := hnested
      cfg_eq := h.cfg_eq
      stop := h.stop
      closed := h.closed
      inv := h.inv.tick hs h1
      alive := h.alive
      fails := fun e hfail => absurd (by rw [h1, show t'.pc = .failed e from hfail]) (tick_ne_failed hs h.inv) }

theorem Running.tick (h : Running cfg t) (hs : Sound cfg) (honly : OnlyTensors t) (ht : runTick t = some t') :
    Running cfg t' := by
  have hnested := runTick_nested h.nested ht
  unfold runTick at ht
  cases hp : t.place with
  | exited => exact absurd hp h.alive.1
  | threw => exact absurd hp h.alive.2
  | loop =>
    simp only [hp, h.stop, Option.some.injEq] at ht
    subst ht
    have hidle := h.nested (by rw [hp]; rfl)
    exact ⟨hnested, h.cfg_eq, rfl, h.closed, h.inv, by simp, fun e he => absurd (hidle.symm.trans he) (by simp)⟩
  | check =>
    have hidle := h.nested (by rw [hp]; rfl)
    have hmove : ∀ place : RunPc, place.inCall = false → place ≠ .exited ∧ place ≠ .threw →
        Running cfg { t with place := place } := fun place _ hal =>
      ⟨fun _ => hidle, h.cfg_eq, h.stop, h.closed, h.inv, hal, fun e he => absurd (hidle.symm.trans he) (by simp)⟩
    obtain ⟨posts, next, hcore, -⟩ := h.inv.core
    rw [← h.cfg_eq] at hcore
    rcases hcore.canStep_cases with ⟨hcan, -⟩ | ⟨hcan, -⟩ <;> simp only [hp, hcan] at ht
    · split_ifs at ht <;> cases ht <;> exact hmove _ rfl (by simp)
    · split_ifs at ht <;> cases ht <;> exact hmove _ rfl (by simp)
  | pop =>
    have hidle := h.nested (by rw [hp]; rfl)
    simp only [hp] at ht
    split at ht
    · cases ht
    · rename_i m rest hq
      obtain ⟨index, hop⟩ := honly hp m rest hq
      cases ht
      simp only [dispatch, hop] at hnested ⊢
      have hinv := h.inv
      rw [hidle] at hinv
      exact
        { nested := hnested
          cfg_eq := h.cfg_eq
          stop := h.stop
          closed := h.closed
          inv := by rw [← h.cfg_eq] at hinv hs ⊢; exact Inv.getTensorPtr hs hinv index
          alive := by simp
          fails := fun e _ => ⟨m.id, rfl⟩ }
  | getTensorPtr id =>
    simp only [hp] at ht
    split at ht
    · rename_i index hret
      cases ht
      have hinv := h.inv
      rw [hret] at hinv
      exact ⟨hnested, h.cfg_eq, h.stop, h.closed, hinv.1, by simp, by simp⟩
    · exact h.inner hs (by rw [hp]; rfl) ht
  | callTryStep =>
    have hidle := h.nested (by rw [hp]; rfl)
    simp only [hp, Option.some.injEq] at ht
    subst ht
    have hinv := h.inv
    rw [hidle] at hinv
    exact ⟨hnested, h.cfg_eq, h.stop, h.closed, hinv, by simp, by simp⟩
  | tryStep =>
    simp only [hp] at ht
    split at ht
    · rename_i hidle
      cases ht
      exact ⟨hnested, h.cfg_eq, h.stop, h.closed, h.inv, by simp, fun e he => absurd (hidle.symm.trans he) (by simp)⟩
    · exact h.inner hs (by rw [hp]; rfl) ht

/-- A thread that waits for a tensor does not fail. -/
theorem Running.ne_failed (h : Running cfg t) (hs : Sound cfg) {id : ℕ} (hp : t.place = .getTensorPtr id)
    (ht : runTick t = some t') {e : RuntimeError} : t'.pc ≠ .failed e := by
  simp only [runTick, hp] at ht
  split at ht
  · cases ht
    simp
  · obtain ⟨h1, -⟩ := innerTick_eq ht
    rw [h.cfg_eq] at h1
    intro he
    exact tick_ne_failed hs h.inv (by rw [h1, he])

theorem Running.complete (h : Running cfg t) {k : ℕ} (hs : runStep t (.complete k) = some t') :
    Running cfg t' := by
  have hnested := runStep_nested h.nested hs
  obtain ⟨r, hr, rfl⟩ := Option.map_eq_some_iff.mp hs
  simp only [Runtime.step, Option.ite_none_right_eq_some, Option.some.injEq] at hr
  obtain ⟨hk, rfl⟩ := hr
  exact ⟨hnested, h.cfg_eq, h.stop, h.closed, h.inv.complete hk.1, h.alive, h.fails⟩

/-! ### What is left of a call -/

/-- The steps to the dispatch of the next request. -/
def placeWork : RunPc → ℕ
  | .getTensorPtr _ | .exited | .threw => 0
  | .pop => 5
  | .check => 6
  | .loop => 7
  | .tryStep => 8
  | .callTryStep => 16

/-- A bound on the steps to the response. -/
def callWork (cfg : Config) (t : RunState) : ℕ := work cfg t.loader t.pc + placeWork t.place

/-- A step towards the response. -/
theorem callWork_tick (h : Running cfg t) (hs : Sound cfg) (hne : cfg.tensors ≠ [])
    (hq : t.inputQueue ≠ [] ∨ ∃ id, t.place = .getTensorPtr id) (ht : runTick t = some t')
    (hout : t'.outputQueue = t.outputQueue) : callWork cfg t' < callWork cfg t := by
  have hinner : ∀ {t'}, innerTick t = some t' → callWork cfg t' < callWork cfg t := by
    intro t' ht
    obtain ⟨h1, he⟩ := innerTick_eq ht
    rw [h.cfg_eq] at h1
    rw [he]
    exact Nat.add_lt_add_right (tick_work hs hne h.inv h1) _
  unfold runTick at ht
  cases hp : t.place with
  | exited => exact absurd hp h.alive.1
  | threw => exact absurd hp h.alive.2
  | loop =>
    simp only [hp, h.stop, Option.some.injEq] at ht
    subst ht
    simp [callWork, hp, placeWork]
  | check =>
    have hqueue : t.inputQueue ≠ [] := hq.resolve_right (by simp [hp])
    obtain ⟨posts, next, hcore, -⟩ := h.inv.core
    rw [← h.cfg_eq] at hcore
    have hnil : t.inputQueue.isEmpty = false := by simpa using hqueue
    rcases hcore.canStep_cases with ⟨hcan, -⟩ | ⟨hcan, -⟩
    · simp only [hp, hcan, hnil, Bool.not_false, Bool.or_true, if_true, Option.some.injEq] at ht
      subst ht
      simp [callWork, hp, placeWork]
    · simp only [hp, hcan, hnil, Bool.not_false, Bool.or_true, if_true, Option.some.injEq] at ht
      subst ht
      simp [callWork, hp, placeWork]
  | pop =>
    have hidle := h.nested (by rw [hp]; rfl)
    simp only [hp] at ht
    split at ht
    · cases ht
    · rename_i m rest hrest
      cases ht
      unfold dispatch at hout ⊢
      split at hout
      · simp at hout
      · simp only [callWork, hp, placeWork]
        omega
      · simp at hout
      · rename_i index hop
        rcases getTensorPtr_cases t.cfg t.loader index with ⟨-, -, hget⟩ | ⟨-, e, hget⟩
        · simp [callWork, hget, hp, hidle, placeWork, work, Loader.left, Pc.rank]
        · simp [callWork, hget, hp, hidle, placeWork, work, Loader.left, Pc.rank]
  | getTensorPtr id =>
    simp only [hp] at ht
    split at ht
    · cases ht
      simp at hout
    · exact hinner ht
  | callTryStep =>
    have hidle := h.nested (by rw [hp]; rfl)
    simp only [hp, Option.some.injEq] at ht
    subst ht
    simp [callWork, hp, hidle, placeWork, work, Pc.rank]
  | tryStep =>
    simp only [hp] at ht
    split at ht
    · cases ht
      simp [callWork, hp, placeWork]
    · exact hinner ht

theorem callWork_complete (h : Running cfg t) (hs : Sound cfg) (hne : cfg.tensors ≠ []) {k : ℕ}
    (ht : runStep t (.complete k) = some t') : callWork cfg t' < callWork cfg t := by
  obtain ⟨r, hr, rfl⟩ := Option.map_eq_some_iff.mp ht
  simp only [Runtime.step, Option.ite_none_right_eq_some, Option.some.injEq] at hr
  obtain ⟨⟨hk, hno⟩, rfl⟩ := hr
  exact Nat.add_lt_add_right (complete_work hs hne h.inv hk hno) _

/-! ### A request that is not answered -/

/-- The request asks for a tensor that the loader does not have or has left
behind. -/
def Refused (cfg : Config) (v : Loader) (op : Op) : Prop :=
  ∃ index, op = .getTensorPtr index ∧ (cfg.tensors.length ≤ index ∨ index < v.currentTensorIndex)

/-- The thread has the request, and the response is still to come. -/
inductive Busy (cfg : Config) (m : Request) (t : RunState) : Prop where
  | starting (h : Starting t) (hop : m.op = .open (some cfg)) (hin : t.inputQueue = [m])
    (hout : t.outputQueue = [])
  | queued (h : Running cfg t) (hop : m.op = .close ∨ ∃ index, m.op = .getTensorPtr index)
    (haway : ∀ id, t.place ≠ .getTensorPtr id) (hin : t.inputQueue = [m]) (hout : t.outputQueue = [])
  | serving (h : Running cfg t) (hop : ∃ index, m.op = .getTensorPtr index) (hp : t.place = .getTensorPtr m.id)
    (hpc : t.pc.target.isSome = true ∨ (∃ e, t.pc = .failed e) ∧ Refused cfg t.loader m.op)
    (hin : t.inputQueue = []) (hout : t.outputQueue = [])

theorem Busy.output {m : Request} (h : Busy cfg m t) : t.outputQueue = [] := by
  rcases h with ⟨-, -, -, h⟩ | ⟨-, -, -, -, h⟩ | ⟨-, -, -, -, -, h⟩ <;> exact h

theorem canStep_notOpened (v : Loader) : canStep notOpened v = .ok false := rfl

/-- The thread before `OPEN` has nothing to do but to take it. -/
theorem Starting.runStep (h : Starting t) (hs : Sound cfg) {m : Request} (hop : m.op = .open (some cfg))
    (hin : t.inputQueue = [m]) (hout : t.outputQueue = []) {a : RunAction} (ha : ∀ m, a ≠ .push m)
    (ht : Runtime.runStep t a = some t') :
    (Busy cfg m t' ∧ callWork cfg t' < callWork cfg t) ∨ t'.outputQueue ≠ [] ∧ Running cfg t' := by
  cases a with
  | push m => exact absurd rfl (ha m)
  | complete k =>
    obtain ⟨r, hr, -⟩ := Option.map_eq_some_iff.mp ht
    simp [Runtime.step, h.loader] at hr
  | tick =>
    simp only [Runtime.runStep] at ht
    unfold runTick at ht
    rcases h.place with hp | hp | hp
    · simp only [hp, h.stop, Option.some.injEq] at ht
      subst ht
      exact Or.inl ⟨.starting ⟨h.cfg_eq, rfl, h.closed, h.loader, h.pc, Or.inr (Or.inl rfl)⟩ hop hin hout,
        by simp [callWork, hp, placeWork]⟩
    · simp only [hp, h.cfg_eq, canStep_notOpened, Bool.not_false, Bool.true_or, if_true, Option.some.injEq] at ht
      subst ht
      exact Or.inl ⟨.starting ⟨rfl, h.stop, h.closed, h.loader, h.pc, Or.inr (Or.inr rfl)⟩ hop hin hout,
        by simp [callWork, hp, placeWork]⟩
    · simp only [hp, hin, dispatch, hop, Option.some.injEq] at ht
      subst ht
      have hpc := h.pc
      refine Or.inr ⟨by simp, ⟨fun _ => hpc, rfl, h.stop, h.closed, ?_, by simp, fun e he => ?_⟩⟩
      · simp only [h.loader, hpc]
        exact init_inv hs
      · exact absurd (hpc.symm.trans he) (by simp)

/-- A step of the thread that has the request takes it further, or answers. -/
theorem Busy.runStep (hs : Sound cfg) (hne : cfg.tensors ≠ []) {m : Request} (h : Busy cfg m t) {a : RunAction}
    (ha : ∀ m, a ≠ .push m) (ht : Runtime.runStep t a = some t') :
    (Busy cfg m t' ∧ callWork cfg t' < callWork cfg t) ∨
      t'.outputQueue ≠ [] ∧ (m.op = .close ∨ Running cfg t') := by
  rcases h with ⟨h, hop, hin, hout⟩ | ⟨h, hop, haway, hin, hout⟩ | ⟨h, hop, hp, hpc, hin, hout⟩
  · exact (h.runStep hs hop hin hout ha ht).imp_right (And.imp_right Or.inr)
  · cases a with
    | push m => exact absurd rfl (ha m)
    | complete k =>
      obtain ⟨hsil, hp, -⟩ := silent_complete ht
      exact Or.inl ⟨.queued (h.complete ht) hop (hp ▸ haway) (hsil.input.trans hin) (hsil.output.trans hout),
        callWork_complete h hs hne ht⟩
    | tick =>
      rcases runTick_cases ht with hsil | ⟨hp, m', rest, hq, rfl⟩ | ⟨id, -, hp, -⟩
      · have honly : OnlyTensors t := by
          intro hp
          exfalso
          have hq := hsil.input
          have : runTick t = some (dispatch { t with inputQueue := [] } m) := by simp [runTick, hp, hin]
          rw [Runtime.runStep, this, Option.some.injEq] at ht
          rw [← ht, hin] at hq
          revert hq
          unfold dispatch
          split <;> simp
        refine Or.inl ⟨.queued (h.tick hs honly ht) hop (fun id he => haway id ((hsil.place id).mp he))
          (hsil.input.trans hin) (hsil.output.trans hout), ?_⟩
        exact callWork_tick h hs hne (Or.inl (by simp [hin])) ht hsil.output
      · obtain ⟨rfl, rfl⟩ := List.cons.inj (hin.symm.trans hq)
        rcases hop with hop | ⟨index, hop⟩
        · exact Or.inr ⟨by simp [dispatch, hop], Or.inl hop⟩
        · have honly : OnlyTensors t := by
            intro _ m' rest' hq'
            obtain ⟨rfl, -⟩ := List.cons.inj (hq.symm.trans hq')
            exact ⟨index, hop⟩
          have hrun := h.tick hs honly ht
          have hwork := callWork_tick h hs hne (Or.inl (by simp [hin])) ht (by simp [dispatch, hop])
          refine Or.inl ⟨?_, hwork⟩
          simp only [dispatch, hop] at hrun ⊢
          refine .serving hrun ⟨index, hop⟩ rfl ?_ rfl hout
          rcases getTensorPtr_cases t.cfg t.loader index with ⟨-, -, hget⟩ | ⟨hbad, e, hget⟩
          · exact Or.inl (by simp [hget, Pc.target])
          · rw [h.cfg_eq] at hbad
            exact Or.inr ⟨⟨e, by simp [hget]⟩, index, hop, by simpa [hget] using hbad⟩
      · exact absurd hp (haway id)
  · cases a with
    | push m => exact absurd rfl (ha m)
    | complete k =>
      obtain ⟨hsil, hp', hpc'⟩ := silent_complete ht
      refine Or.inl ⟨.serving (h.complete ht) hop (hp'.trans hp) ?_ (hsil.input.trans hin)
        (hsil.output.trans hout), callWork_complete h hs hne ht⟩
      unfold Refused
      rwa [hpc', hsil.current]
    | tick =>
      have hrun := h.tick hs (fun hpop => absurd (hp.symm.trans hpop) (by simp)) ht
      rcases runTick_cases ht with hsil | ⟨hpop, -⟩ | ⟨id, index, -, -, he⟩
      · refine Or.inl ⟨.serving hrun hop ((hsil.place _).mpr hp) ?_ (hsil.input.trans hin) (hsil.output.trans hout),
          callWork_tick h hs hne (Or.inr ⟨_, hp⟩) ht hsil.output⟩
        rcases hpc with hpc | ⟨⟨e, hpc⟩, -⟩
        · rcases hsil.target _ hp with he | ⟨e, he⟩
          · exact Or.inl (he ▸ hpc)
          · exact absurd he (h.ne_failed hs hp ht)
        · -- a thread that has failed makes no step
          rw [Runtime.runStep, runTick_dead (Or.inr ⟨_, e, hp, hpc⟩)] at ht
          cases ht
      · exact absurd (hp.symm.trans hpop) (by simp)
      · exact Or.inr ⟨by rw [he]; simp, Or.inr hrun⟩

/-- There is a step to make, unless the request has ended the thread. -/
theorem Busy.moves (hs : Sound cfg) {m : Request} (h : Busy cfg m t) :
    Refused cfg t.loader m.op ∨ (Runtime.runStep t .tick).isSome = true ∨
      ∃ k, (Runtime.runStep t (.complete k)).isSome = true := by
  have hinner : ∀ (_ : Running cfg t), t.pc ≠ .idle → (∀ e, t.pc ≠ .failed e) →
      (innerTick t).isSome = true ∨ ∃ k, (Runtime.runStep t (.complete k)).isSome = true := by
    intro h hidle hfail
    rcases exists_step hs h.inv hidle hfail with hstep | ⟨k, hk, hno⟩
    · exact Or.inl (by simpa [innerTick, h.cfg_eq] using hstep)
    · exact Or.inr ⟨k, by simp [Runtime.runStep, Runtime.step, hk, hno]⟩
  rcases h with ⟨h, -, hin, -⟩ | ⟨h, -, haway, hin, -⟩ | ⟨h, -, hp, hpc, -, -⟩
  · right; left
    rcases h.place with hp | hp | hp
    · simp [Runtime.runStep, runTick, hp]
    · simp [Runtime.runStep, runTick, hp, h.cfg_eq, canStep_notOpened]
    · simp [Runtime.runStep, runTick, hp, hin]
  · cases hp : t.place with
    | exited => exact absurd hp h.alive.1
    | threw => exact absurd hp h.alive.2
    | loop => exact Or.inr (Or.inl (by simp [Runtime.runStep, runTick, hp]))
    | check =>
      right; left
      simp only [Runtime.runStep, runTick, hp]
      split
      · rfl
      · split_ifs <;> rfl
    | pop => exact Or.inr (Or.inl (by simp [Runtime.runStep, runTick, hp, hin]))
    | getTensorPtr id => exact absurd hp (haway id)
    | callTryStep => exact Or.inr (Or.inl (by simp [Runtime.runStep, runTick, hp]))
    | tryStep =>
      right
      by_cases hidle : t.pc = .idle
      · exact Or.inl (by simp [Runtime.runStep, runTick, hp, hidle])
      · have hfail : ∀ e, t.pc ≠ .failed e := by
          intro e he
          obtain ⟨id, hid⟩ := h.fails e he
          exact haway id hid
        refine (hinner h hidle hfail).imp_left fun hstep => ?_
        simpa [Runtime.runStep, runTick, hp, hidle] using hstep
  · rcases hpc with htarget | ⟨-, hrefused⟩
    · right
      by_cases hret : ∃ index, t.pc = .returned index
      · obtain ⟨index, hret⟩ := hret
        exact Or.inl (by simp [Runtime.runStep, runTick, hp, hret])
      · have hidle : t.pc ≠ .idle := fun he => by simp [he, Pc.target] at htarget
        have hfail : ∀ e, t.pc ≠ .failed e := fun e he => by simp [he, Pc.target] at htarget
        refine (hinner h hidle hfail).imp_left fun hstep => ?_
        simp only [Runtime.runStep, runTick, hp]
        split
        · rename_i index hret'
          exact absurd ⟨index, hret'⟩ hret
        · exact hstep
    · exact Or.inl hrefused

end Steps

/-! ### The handles of the process -/

/-- The request of a call. -/
def requestOp : Manager.Call → Option Op
  | .open args _ => some (.open (openedOf args))
  | .openFails _ => none
  | .getDlTensor _ index _ => some (.getTensorPtr index)
  | .close _ => some .close

/-- What the thread of a handle with a sound layout is doing. -/
structure Alive (s : State) (h : ℕ) (hd : Handle) (cfg : Config) : Prop where
  between : (∀ p, s.pending = some p → p.loaderHandle ≠ h) → Running cfg hd.thread
  waits : ∀ p, s.pending = some p → p.loaderHandle = h →
    (∃ op, requestOp p.call = some op ∧ Busy cfg ⟨p.reqId, op⟩ hd.thread) ∨
      hd.thread.outputQueue ≠ [] ∧ ((∃ h', p.call = .close h') ∨ Running cfg hd.thread)

/-- A layout that the loader makes progress on, with tensors. -/
structure Opens (hd : Handle) (cfg : Config) : Prop where
  opened : openedOf hd.args = some cfg
  sound : Sound cfg
  nonempty : cfg.tensors ≠ []

theorem Opens.of_args {hd hd' : Handle} {cfg : Config} (h : Opens hd cfg) (hargs : hd'.args = hd.args) :
    Opens hd' cfg :=
  ⟨hargs ▸ h.opened, h.sound, h.nonempty⟩

section Handles

variable {deviceType : Manager.DeviceType} {s s' : State}

theorem requestOp_close {c : Manager.Call} (h : requestOp c = some .close) : ∃ h', c = .close h' := by
  cases c with
  | close h' => exact ⟨h', rfl⟩
  | «open» args b => cases h
  | openFails d => cases h
  | getDlTensor h' i z => cases h

/-- A running thread that serves no request. -/
theorem Running.quiet {cfg : Config} {t t' : RunState} (h : Running cfg t) (hs : Sound cfg)
    (hin : t.inputQueue = []) {a : RunAction} (ha : ∀ m, a ≠ .push m) (ht : runStep t a = some t') :
    Running cfg t' := by
  cases a with
  | push m => exact absurd rfl (ha m)
  | complete k => exact h.complete ht
  | tick =>
    refine h.tick hs (fun _ m rest hq => ?_) ht
    rw [hin] at hq
    cases hq

/-- A response stays in the queue until the client takes it. -/
theorem output_ne_nil {t t' : RunState} {a : RunAction} (ht : runStep t a = some t') (h : t.outputQueue ≠ []) :
    t'.outputQueue ≠ [] := by
  cases a with
  | push m => cases ht; exact h
  | complete k => rwa [(silent_complete ht).1.output]
  | tick =>
    rcases runTick_cases ht with hsil | ⟨-, m, rest, -, rfl⟩ | ⟨id, index, -, -, rfl⟩
    · rwa [hsil.output]
    · unfold dispatch
      split <;> simp [h]
    · simp

/-- What the client waits for, and the queue that it is in. -/
theorem Sim.input_nil {m : Manager.LoaderManager} (hsim : Sim deviceType s m) {p : Pending} {hd : Handle}
    (hp : s.pending = some p) (hh : s.handles p.loaderHandle = some hd) (hout : hd.thread.outputQueue ≠ []) :
    hd.thread.inputQueue = [] := by
  obtain ⟨hd', hh', -, hw⟩ := hsim.waits p hp
  obtain rfl := Option.some.inj (hh.symm.trans hh')
  obtain ⟨result, hres⟩ := hw.response.resolve_left hout
  rcases hw with ⟨_, _, _, _, hph, _, _, _⟩ | ⟨_, _, _, _, _, _, _, hph, _⟩ | ⟨_, _, _, _, _, hph, _⟩
  · obtain ⟨-, -, -, -, hin⟩ := hph.answer hres
    exact hin
  · obtain ⟨-, -, -, -, hin⟩ := hph.answer hres
    exact hin
  · obtain ⟨-, -, -, -, hin⟩ := hph.answer hres
    exact hin

/-- A step of a thread or an executor. -/
theorem Alive.thread {m : Manager.LoaderManager} (hsim : Sim deviceType s m) {h : ℕ} {hd : Handle} {cfg : Config}
    (hh : s.handles h = some hd) (hopens : Opens hd cfg) (hal : Alive s h hd cfg) {a : RunAction}
    (ha : ∀ m, a ≠ .push m) {t' : RunState} (ht : runStep hd.thread a = some t') :
    Alive (s.put h { hd with thread := t' }) h { hd with thread := t' } cfg where
  between := fun hne => (hal.between hne).quiet hopens.sound (hsim.quiet h hd hh hne).input ha ht
  waits := by
    intro p hp he
    subst he
    rcases hal.waits p hp rfl with ⟨op, hop, hbusy⟩ | ⟨hout, hrun⟩
    · rcases hbusy.runStep hopens.sound hopens.nonempty ha ht with ⟨hbusy', -⟩ | ⟨hout, hrun⟩
      · exact Or.inl ⟨op, hop, hbusy'⟩
      · refine Or.inr ⟨hout, hrun.imp_left fun he => ?_⟩
        subst he
        exact requestOp_close hop
    · exact Or.inr ⟨output_ne_nil ht hout,
        hrun.imp_right fun hrun => hrun.quiet hopens.sound (hsim.input_nil hp hh hout) ha ht⟩

/-- A handle that the step leaves alone. -/
theorem Alive.congr {h : ℕ} {hd : Handle} {cfg : Config} (hal : Alive s h hd cfg)
    (hp : ∀ p, p.loaderHandle = h → (s'.pending = some p ↔ s.pending = some p)) : Alive s' h hd cfg where
  between := fun hne => hal.between fun p hpend he => hne p ((hp p he).mpr hpend) he
  waits := fun p hpend he => hal.waits p ((hp p he).mp hpend) he

/-- The handle that a request goes to. -/
theorem Alive.send {h : ℕ} {hd : Handle} {cfg : Config} (hal : Alive s h hd cfg) (hnone : s.pending = none)
    (hq : Quiet hd.thread.cfg hd.thread.loader.currentTensorIndex hd.thread) {op : Op} {c : Manager.Call}
    (hop : requestOp c = some op) (hkind : op = .close ∨ ∃ index, op = .getTensorPtr index) :
    Alive (Rpc.send s h hd op c) h (hd.push op) cfg where
  between := fun hne => absurd rfl (hne ⟨h, hd.latestReqId + 1, c⟩ rfl)
  waits := by
    intro p hp _
    obtain rfl := Option.some.inj hp
    have hrun := hal.between fun p hp => by simp [hnone] at hp
    refine Or.inl ⟨op, hop, .queued ?_ hkind hq.away (by simp [Handle.push, hq.input]) hq.output⟩
    exact ⟨hrun.nested, hrun.cfg_eq, hrun.stop, hrun.closed, hrun.inv, hrun.alive, hrun.fails⟩

end Handles

/-- Every handle with a sound layout is alive. -/
def AllAlive (s : State) : Prop :=
  ∀ h hd cfg, s.handles h = some hd → Opens hd cfg → Alive s h hd cfg

section Handles

variable {deviceType : Manager.DeviceType} {s s' : State} {m : Manager.LoaderManager}

theorem AllAlive.thread (hall : AllAlive s) (hsim : Sim deviceType s m) {h : ℕ} {a : RunAction}
    (ha : ∀ m, a ≠ .push m) (hs : threadStep s h a = some s') : AllAlive s' := by
  obtain ⟨hd, hh, hs⟩ := Option.bind_eq_some_iff.mp hs
  obtain ⟨t', ht, rfl⟩ := Option.map_eq_some_iff.mp hs
  intro h' hd' cfg hh' hopens
  rw [put_handles] at hh'
  split_ifs at hh' with he
  · subst he
    obtain rfl := Option.some.inj hh'
    have hopens' : Opens hd cfg := hopens.of_args rfl
    exact (hall h' hd cfg hh hopens').thread hsim hh hopens' ha ht
  · exact (hall h' hd' cfg hh' hopens).congr fun _ _ => Iff.rfl

theorem AllAlive.call (hall : AllAlive s) (hsim : Sim deviceType s m) (hnone : s.pending = none)
    {c : Manager.Call} (hs : Rpc.call s c = some s') : AllAlive s' := by
  have hquiet : ∀ h hd, s.handles h = some hd →
      Quiet hd.thread.cfg hd.thread.loader.currentTensorIndex hd.thread :=
    fun h hd hh => hsim.quiet h hd hh fun p he => by simp [hnone] at he
  have hsend : ∀ {h hd op}, s.handles h = some hd → requestOp c = some op →
      (op = .close ∨ ∃ index, op = .getTensorPtr index) → AllAlive (Rpc.send s h hd op c) := by
    intro h hd op hh hop hkind h' hd' cfg hh' hopens
    have hput := (put_handles s h h' (hd.push op)).symm.trans hh'
    split_ifs at hput with he
    · subst he
      obtain rfl := Option.some.inj hput
      have hopens' : Opens hd cfg := hopens.of_args rfl
      exact (hall h' hd cfg hh hopens').send hnone (hquiet h' hd hh) hop hkind
    · refine (hall h' hd' cfg hput hopens).congr fun p hp => ?_
      constructor <;> intro hpend
      · obtain rfl := Option.some.inj hpend
        exact absurd hp.symm he
      · simp [hnone] at hpend
  cases c with
  | «open» args deviceBuffer =>
    simp only [Rpc.call, Option.some.injEq] at hs
    subst hs
    intro h' hd' cfg hh' hopens
    set s0 : State := { s with deviceIdx := args.deviceIdx, loaderIdIter := s.loaderIdIter + 1 }
    have hput := (put_handles s0 _ h' _).symm.trans hh'
    split_ifs at hput with he
    · subst he
      obtain rfl := Option.some.inj hput
      refine ⟨fun hne => absurd rfl (hne _ rfl), fun p hp _ => ?_⟩
      obtain rfl := Option.some.inj hp
      refine Or.inl ⟨_, rfl, .starting ⟨rfl, rfl, rfl, rfl, rfl, Or.inl rfl⟩ ?_ rfl rfl⟩
      exact congrArg Op.open hopens.opened
    · refine (hall h' hd' cfg hput hopens).congr fun p hp => ?_
      constructor <;> intro hpend
      · obtain rfl := Option.some.inj hpend
        exact absurd hp.symm he
      · simp [hnone] at hpend
  | openFails deviceIdx =>
    simp only [Rpc.call, Option.some.injEq] at hs
    subst hs
    exact fun h' hd' cfg hh' hopens => (hall h' hd' cfg hh' hopens).congr fun _ _ => Iff.rfl
  | getDlTensor h index size =>
    obtain ⟨hd, hh, rfl⟩ := Option.map_eq_some_iff.mp hs
    exact hsend hh rfl (Or.inr ⟨index, rfl⟩)
  | close h =>
    obtain ⟨hd, hh, rfl⟩ := Option.map_eq_some_iff.mp hs
    exact hsend hh rfl (Or.inl rfl)

/-- The client has its result. -/
theorem AllAlive.pop (hall : AllAlive s) (hsim : Sim deviceType s m) (hs : Rpc.pop deviceType s = some s') :
    AllAlive s' := by
  obtain ⟨p, hp, hs⟩ := Option.bind_eq_some_iff.mp hs
  obtain ⟨hd, hh, -, hw⟩ := hsim.waits p hp
  obtain ⟨hd', hh', hs⟩ := Option.bind_eq_some_iff.mp hs
  obtain rfl := Option.some.inj (hh.symm.trans hh')
  rcases hw.response with hnil | ⟨result, hout⟩
  · simp [hnil] at hs
  simp only [hout, ne_eq, not_true, if_false] at hs
  have hother : ∀ {s' : State} {h' hd' cfg}, s'.pending = none → h' ≠ p.loaderHandle →
      s.handles h' = some hd' → Opens hd' cfg → Alive s' h' hd' cfg := by
    intro s' h' hd' cfg hnone hne hh' hopens
    refine (hall h' hd' cfg hh' hopens).congr fun p' hp' => ?_
    constructor <;> intro hpend
    · simp [hnone] at hpend
    · obtain rfl := Option.some.inj (hp.symm.trans hpend)
      exact absurd hp'.symm hne
  have hself : ∀ {s' : State} {cfg}, s'.pending = none → (∀ h', p.call ≠ .close h') →
      Opens (hd.popped []) cfg → Alive s' p.loaderHandle (hd.popped []) cfg := by
    intro s' cfg hnone hcall hopens
    refine ⟨fun _ => ?_, fun p' hpend => by simp [hnone] at hpend⟩
    have hopens' : Opens hd cfg := hopens.of_args rfl
    rcases (hall _ hd cfg hh hopens').waits p hp rfl with ⟨op, -, hbusy⟩ | ⟨-, hclose | hrun⟩
    · have hnil := hbusy.output
      rw [hout] at hnil
      cases hnil
    · obtain ⟨h', hclose⟩ := hclose
      exact absurd hclose (hcall h')
    · exact ⟨hrun.nested, hrun.cfg_eq, hrun.stop, hrun.closed, hrun.inv, hrun.alive, hrun.fails⟩
  have hleft : (∀ h', p.call ≠ .close h') → ∀ {s' : State}, s'.pending = none →
      s'.handles = (s.put p.loaderHandle (hd.popped [])).handles → AllAlive s' := by
    intro hcall s' hnone hhandles h' hd' cfg hh' hopens
    rw [hhandles, put_handles] at hh'
    split_ifs at hh' with he
    · subst he
      obtain rfl := Option.some.inj hh'
      exact hself hnone hcall hopens
    · exact hother hnone he hh' hopens
  unfold finish at hs
  split at hs
  · rename_i hcall
    cases hs
    exact hleft (by simp [hcall]) rfl rfl
  · cases hs
  · rename_i hcall
    obtain ⟨offset, -, rfl⟩ := Option.map_eq_some_iff.mp hs
    exact hleft (by simp [hcall]) rfl rfl
  · rename_i h hcall
    have hhandle : h = p.loaderHandle := by
      rcases hw with ⟨_, _, he, _, _, _, _, _⟩ | ⟨_, _, _, _, _, he, _, _, _⟩ | ⟨_, _, _, he, _, _, _⟩
      · rw [hcall] at he
        cases he
      · rw [hcall] at he
        cases he
      · exact Manager.Call.close.inj (hcall.symm.trans he)
    subst hhandle
    cases hs
    intro h' hd' cfg hh' hopens
    by_cases he : h' = p.loaderHandle
    · subst he
      simp at hh'
    · have hput : (s.put p.loaderHandle (hd.popped [])).handles h' = some hd' := by simpa [he] using hh'
      rw [put_handles, if_neg he] at hput
      exact hother rfl he hput hopens

theorem AllAlive.closed (hall : AllAlive s) {i : ℕ} {a : RunAction} (hs : closedStep s i a = some s') :
    AllAlive s' := by
  obtain ⟨hd, -, hs⟩ := Option.bind_eq_some_iff.mp hs
  obtain ⟨t, -, rfl⟩ := Option.map_eq_some_iff.mp hs
  exact fun h' hd' cfg hh' hopens => (hall h' hd' cfg hh' hopens).congr fun _ _ => Iff.rfl

theorem allAlive_of_reachable (h : (system deviceType).Reachable s) : AllAlive s := by
  induction h with
  | init =>
    intro h hd cfg hh
    cases hh
  | @step s s' a hr hs ih =>
    obtain ⟨m, hsim⟩ := sim_of_reachable hr
    replace hs := act_of_step hs
    cases a with
    | call c =>
      simp only [act, Option.ite_none_right_eq_some] at hs
      exact ih.call hsim (Option.isNone_iff_eq_none.mp hs.1) hs.2
    | pop => exact ih.pop hsim hs
    | tick h => exact ih.thread hsim (by simp) hs
    | complete h k => exact ih.thread hsim (by simp) hs
    | closedTick i => exact ih.closed hs
    | closedComplete i k => exact ih.closed hs

end Handles

end Rpc
end Siphon
