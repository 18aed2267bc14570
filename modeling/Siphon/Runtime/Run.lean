/-
# `Loader::run`

The loader thread takes one request at a time from its input queue when it
has nothing to prefetch or a request is there, dispatches it, and then makes
a `try_step`; `CLOSE` sets `stop`, which is read at the head of the loop
only. So one `try_step` follows `CLOSE`, after the executors were joined and
the buffers released. It posts no chunk if and only if the loader was at its
watermark, or not opened, when `CLOSE` came (`no_post_after_close`).

The machine makes the calls of `Runtime.Model`: while the loader stays open
its runs are runs of `loader` (`run_refines_loader`), so they are safe.
-/
import Siphon.Runtime.Invariant

namespace Siphon
namespace Runtime

/-- `Op`, with the arguments. An `OPEN` is given by what `open` leaves in the
loader, or `none` where it throws. -/
inductive Op where
  | open (opened : Option Config)
  | close
  | getTensorPtr (index : ℕ)
  deriving Repr, DecidableEq

/-- `RPCRequest`. -/
structure Request where
  id : ℕ
  op : Op
  deriving Repr, DecidableEq

/-- `RPCResponse`; the result of `GET_TENSOR_PTR` is the offset into the
device buffer. -/
structure Response where
  id : ℕ
  result : Option ℕ
  deriving Repr, DecidableEq

/-- Where `run` is. -/
inductive RunPc where
  /-- At the loop test. -/
  | loop
  /-- At `can_step` and the test of the input queue. -/
  | check
  /-- In `pop`. -/
  | pop
  /-- In the `get_tensor_ptr` of a request. -/
  | getTensorPtr (id : ℕ)
  /-- In front of `try_step`. -/
  | callTryStep
  /-- In `try_step`. -/
  | tryStep
  | exited
  | threw
  deriving Repr, DecidableEq

/-- The thread and its queues. `closed` says that `close` has joined the
executors and released the buffers. -/
structure RunState where
  cfg : Config
  loader : Loader
  pc : Pc
  place : RunPc
  stop : Bool
  closed : Bool
  inputQueue : List Request
  outputQueue : List Response
  deriving DecidableEq

/-- `dispatch`, up to the wait of `get_tensor_ptr`, and the response. -/
def dispatch (s : RunState) (m : Request) : RunState :=
  match m.op with
  | .open (some cfg) =>
    { s with cfg := cfg, outputQueue := s.outputQueue ++ [⟨m.id, none⟩], place := .callTryStep }
  | .open none => { s with place := .threw }
  | .close =>
    { s with
      stop := true, closed := true
      outputQueue := s.outputQueue ++ [⟨m.id, none⟩], place := .callTryStep }
  | .getTensorPtr index =>
    { s with
      loader := (getTensorPtr s.cfg s.loader index).1, pc := (getTensorPtr s.cfg s.loader index).2
      place := .getTensorPtr m.id }

/-- A step of the method that runs. -/
def innerTick (s : RunState) : Option RunState :=
  (tick s.cfg s.loader s.pc).map fun r => { s with loader := r.1, pc := r.2 }

/-- A step of the thread. -/
def runTick (s : RunState) : Option RunState :=
  match s.place with
  | .exited => none
  | .threw => none
  | .loop => some { s with place := if s.stop then .exited else .check }
  | .check =>
    match canStep s.cfg s.loader with
    | .error _ => some { s with place := .threw }
    | .ok can =>
      if !can || !s.inputQueue.isEmpty then
        some { s with place := .pop }
      else
        some { s with place := .callTryStep }
  | .pop =>
    match s.inputQueue with
    | [] => none
    | m :: rest => some (dispatch { s with inputQueue := rest } m)
  | .getTensorPtr id =>
    match s.pc with
    | .returned index =>
      some { s with
        pc := .idle
        outputQueue := s.outputQueue ++ [⟨id, some (s.cfg.tensors.getD index default).deviceBufferOffset⟩]
        place := .callTryStep }
    | _ => innerTick s
  | .callTryStep => some { s with pc := .tryStep, place := .tryStep }
  | .tryStep =>
    match s.pc with
    | .idle => some { s with place := .loop }
    | _ => innerTick s

/-- The caller pushes a request, the thread makes a step, or a chunk is completed. -/
inductive RunAction where
  | push (m : Request)
  | tick
  | complete (chunkId : ℕ)
  deriving Repr, DecidableEq

def runStep (s : RunState) : RunAction → Option RunState
  | .push m => some { s with inputQueue := s.inputQueue ++ [m] }
  | .tick => runTick s
  | .complete chunkId =>
    (step s.cfg (s.loader, s.pc) (.complete chunkId)).map fun r => { s with loader := r.1, pc := r.2 }

/-- The thread, with a loader that is in the state `cfg`. -/
def run (cfg : Config) : Machine RunState RunAction where
  init := ⟨cfg, {}, .idle, .loop, false, false, [], []⟩
  step := runStep

/-- The loader when the thread starts. -/
def notOpened : Config := ⟨[], [], 0⟩

/-- The request that a step dispatches. -/
def dispatched (s : RunState) (a : RunAction) : Option Op :=
  if s.place = .pop ∧ a = .tick then s.inputQueue.head?.map Request.op else none

/-! ### The calls that the thread makes -/

/-- The loader's methods run in these places only. -/
def RunPc.inCall : RunPc → Bool
  | .getTensorPtr _ | .tryStep => true
  | _ => false

/-- Outside of the calls no method runs. -/
def CallsNested (s : RunState) : Prop := s.place.inCall = false → s.pc = .idle

theorem innerTick_eq {s s' : RunState} (h : innerTick s = some s') :
    tick s.cfg s.loader s.pc = some (s'.loader, s'.pc) ∧
      s' = { s with loader := s'.loader, pc := s'.pc } := by
  obtain ⟨r, hr, rfl⟩ := Option.map_eq_some_iff.mp h
  exact ⟨hr, rfl⟩

theorem innerTick_nested {s s' : RunState} (hc : s.place.inCall = true) (h : innerTick s = some s') :
    CallsNested s' := by
  intro h0
  rw [(innerTick_eq h).2] at h0
  simp [hc] at h0

theorem dispatch_nested {s : RunState} (h : s.pc = .idle) (m : Request) : CallsNested (dispatch s m) := by
  unfold dispatch
  split
  · exact fun _ => h
  · exact fun _ => h
  · exact fun _ => h
  · exact fun h0 => by simp [RunPc.inCall] at h0

theorem runTick_nested {s s' : RunState} (h : CallsNested s) (ht : runTick s = some s') :
    CallsNested s' := by
  unfold runTick at ht
  cases hp : s.place with
  | exited => simp [hp] at ht
  | threw => simp [hp] at ht
  | loop =>
    simp only [hp, Option.some.injEq] at ht
    subst ht
    exact fun _ => h (by simp [hp, RunPc.inCall])
  | check =>
    have hi := h (by simp [hp, RunPc.inCall])
    simp only [hp] at ht
    split at ht
    · cases ht
      exact fun _ => hi
    · split_ifs at ht <;> cases ht <;> exact fun _ => hi
  | pop =>
    have hi := h (by simp [hp, RunPc.inCall])
    simp only [hp] at ht
    split at ht
    · cases ht
    · cases ht
      refine dispatch_nested ?_ _
      exact hi
  | getTensorPtr id =>
    simp only [hp] at ht
    split at ht
    · cases ht
      exact fun _ => rfl
    · exact innerTick_nested (by simp [hp, RunPc.inCall]) ht
  | callTryStep =>
    simp only [hp, Option.some.injEq] at ht
    subst ht
    exact fun h0 => by simp [RunPc.inCall] at h0
  | tryStep =>
    simp only [hp] at ht
    split at ht
    · rename_i hi
      cases ht
      exact fun _ => hi
    · exact innerTick_nested (by simp [hp, RunPc.inCall]) ht

theorem runStep_nested {s s' : RunState} {a : RunAction} (h : CallsNested s)
    (hs : runStep s a = some s') : CallsNested s' := by
  cases a with
  | push m => cases hs; exact h
  | tick => exact runTick_nested h hs
  | complete c =>
    obtain ⟨r, hr, rfl⟩ := Option.map_eq_some_iff.mp hs
    simp only [step] at hr
    split_ifs at hr
    cases hr
    exact h

/-- A step that dispatches no `OPEN` is a step of `loader` on its variables,
or leaves them as they are. -/
theorem runTick_refines {s s' : RunState} (h : CallsNested s)
    (hopen : ∀ c, dispatched s .tick ≠ some (.open c)) (ht : runTick s = some s') :
    s'.cfg = s.cfg ∧ ((s'.loader, s'.pc) = (s.loader, s.pc) ∨
      ∃ b, step s.cfg (s.loader, s.pc) b = some (s'.loader, s'.pc)) := by
  have hinner : ∀ {s'}, innerTick s = some s' → s'.cfg = s.cfg ∧ ((s'.loader, s'.pc) = (s.loader, s.pc) ∨
      ∃ b, step s.cfg (s.loader, s.pc) b = some (s'.loader, s'.pc)) := by
    intro s' hs'
    obtain ⟨h1, h2⟩ := innerTick_eq hs'
    exact ⟨by rw [h2], Or.inr ⟨.tick, h1⟩⟩
  unfold runTick at ht
  cases hp : s.place with
  | exited => simp [hp] at ht
  | threw => simp [hp] at ht
  | loop =>
    simp only [hp, Option.some.injEq] at ht
    subst ht
    exact ⟨rfl, Or.inl rfl⟩
  | check =>
    simp only [hp] at ht
    split at ht
    · cases ht
      exact ⟨rfl, Or.inl rfl⟩
    · split_ifs at ht <;> cases ht <;> exact ⟨rfl, Or.inl rfl⟩
  | pop =>
    have hi := h (by simp [hp, RunPc.inCall])
    simp only [hp] at ht
    split at ht
    · cases ht
    · rename_i m rest hq
      cases ht
      have hd : dispatched s .tick = some m.op := by simp [dispatched, hp, hq]
      unfold dispatch
      split
      · rename_i c hop
        exact absurd (hd.trans (congrArg some hop)) (hopen _)
      · rename_i hop
        exact absurd (hd.trans (congrArg some hop)) (hopen _)
      · exact ⟨rfl, Or.inl rfl⟩
      · rename_i index _
        exact ⟨rfl, Or.inr ⟨.getTensorPtr index, by simp [step, hi]⟩⟩
  | getTensorPtr id =>
    simp only [hp] at ht
    split at ht
    · rename_i index hret
      cases ht
      exact ⟨rfl, Or.inr ⟨.tick, by simp [step, hret, tick]⟩⟩
    · exact hinner ht
  | callTryStep =>
    have hi := h (by simp [hp, RunPc.inCall])
    simp only [hp, Option.some.injEq] at ht
    subst ht
    exact ⟨rfl, Or.inr ⟨.tryStep, by simp [step, hi]⟩⟩
  | tryStep =>
    simp only [hp] at ht
    split at ht
    · cases ht
      exact ⟨rfl, Or.inl rfl⟩
    · exact hinner ht

/-- A condition on the steps of a run: no `OPEN` is dispatched. -/
def staysOpen (s : RunState) (a : RunAction) : Bool :=
  match dispatched s a with
  | some (.open _) => false
  | _ => true

/-- **The thread refines the loader.** While no `OPEN` comes, the thread makes
the loader do what `loader` allows. -/
theorem run_refines_loader {cfg : Config} {s : RunState} (h : ((run cfg).restrict staysOpen).Reachable s) :
    (loader cfg).Reachable (s.loader, s.pc) := by
  have hinv : ∀ {s}, ((run cfg).restrict staysOpen).Reachable s → CallsNested s ∧ s.cfg = cfg := by
    intro s hr
    refine hr.invariant (I := fun s => CallsNested s ∧ s.cfg = cfg) ⟨fun _ => rfl, rfl⟩ ?_
    rintro s a s' ⟨hn, rfl⟩ hs
    obtain ⟨hopen, hs⟩ := Machine.restrict_step.mp hs
    refine ⟨runStep_nested hn hs, ?_⟩
    cases a with
    | push m => cases hs; rfl
    | tick =>
      refine (runTick_refines hn (fun c hc => ?_) hs).1
      simp [staysOpen, hc] at hopen
    | complete c =>
      obtain ⟨r, -, rfl⟩ := Option.map_eq_some_iff.mp hs
      rfl
  refine h.simulate (f := fun s : RunState => (s.loader, s.pc)) rfl ?_
  intro s a s' hr _ hs
  obtain ⟨hn, rfl⟩ := hinv hr
  obtain ⟨hopen, hs⟩ := Machine.restrict_step.mp hs
  cases a with
  | push m => cases hs; exact Or.inl rfl
  | tick =>
    refine (runTick_refines hn (fun c hc => ?_) hs).2
    simp [staysOpen, hc] at hopen
  | complete c =>
    obtain ⟨r, hr', rfl⟩ := Option.map_eq_some_iff.mp hs
    exact Or.inr ⟨.complete c, hr'⟩

/-- So the thread is safe on every sound layout. -/
theorem run_safe {cfg : Config} (hs : Sound cfg) {s : RunState}
    (h : ((run cfg).restrict staysOpen).Reachable s) : Inv cfg s.loader s.pc :=
  reachable_inv hs (run_refines_loader h)

/-! ### After `CLOSE` -/

/-- In `post_read_chunk`. -/
def Pc.inPost : Pc → Bool
  | .postReadChunk _ => true
  | pc => pc.posting

/-- No chunk is being posted after `CLOSE` was dispatched. -/
def NoPost (s : RunState) : Prop := s.closed = true → s.pc.inPost = false

/-- A condition on the steps of a run: when `CLOSE` is dispatched, `can_step`
is false, that is, the loader is not opened or at its watermark. -/
def quietClose (s : RunState) (a : RunAction) : Bool :=
  match dispatched s a with
  | some .close => canStep s.cfg s.loader ≠ .ok true
  | _ => true

/-- Where the thread can be after such a `CLOSE`. -/
inductive AfterClose : RunPc → Pc → Prop where
  | call : AfterClose .callTryStep .idle
  | test : AfterClose .tryStep .tryStep
  | poll (next : ℤ) : AfterClose .tryStep (.poll next .tryStep)
  | failed (e : RuntimeError) : AfterClose .tryStep (.failed e)
  | done : AfterClose .tryStep .idle
  | loop : AfterClose .loop .idle
  | exited : AfterClose .exited .idle

theorem AfterClose.inPost {place : RunPc} {pc : Pc} (h : AfterClose place pc) : pc.inPost = false := by
  cases h <;> rfl

/-- The invariant: after `CLOSE` the thread stops, and until then it only polls. -/
def Quiet (s : RunState) : Prop :=
  s.closed = true → s.stop = true ∧ canStep s.cfg s.loader ≠ .ok true ∧ AfterClose s.place s.pc

/-- Only the dispatch of `CLOSE` closes. -/
theorem runTick_closes {s s' : RunState} (hc : s.closed = false) (ht : runTick s = some s')
    (hc' : s'.closed = true) : dispatched s .tick = some .close ∧ s.place = .pop ∧
      s' = { s with
        stop := true, closed := true, place := .callTryStep
        inputQueue := s'.inputQueue, outputQueue := s'.outputQueue } := by
  have hinner : ∀ {s'}, innerTick s = some s' → s'.closed = false := by
    intro s' hs'
    rw [(innerTick_eq hs').2]
    exact hc
  unfold runTick at ht
  cases hp : s.place with
  | exited => simp [hp] at ht
  | threw => simp [hp] at ht
  | loop =>
    simp only [hp, Option.some.injEq] at ht
    subst ht
    simp [hc] at hc'
  | check =>
    simp only [hp] at ht
    split at ht
    · cases ht
      simp [hc] at hc'
    · split_ifs at ht <;> cases ht <;> simp [hc] at hc'
  | pop =>
    simp only [hp] at ht
    split at ht
    · cases ht
    · rename_i m rest hq
      cases ht
      have hd : dispatched s .tick = some m.op := by simp [dispatched, hp, hq]
      unfold dispatch at hc' ⊢
      split at hc'
      · simp [hc] at hc'
      · simp [hc] at hc'
      · rename_i hop
        exact ⟨hd.trans (congrArg some hop), rfl, rfl⟩
      · simp [hc] at hc'
  | getTensorPtr id =>
    simp only [hp] at ht
    split at ht
    · cases ht
      simp [hc] at hc'
    · rw [hinner ht] at hc'
      cases hc'
  | callTryStep =>
    simp only [hp, Option.some.injEq] at ht
    subst ht
    simp [hc] at hc'
  | tryStep =>
    simp only [hp] at ht
    split at ht
    · cases ht
      simp [hc] at hc'
    · rw [hinner ht] at hc'
      cases hc'

theorem Quiet.runTick {s s' : RunState} (hn : CallsNested s) (hq : quietClose s .tick = true)
    (h : Quiet s) (ht : runTick s = some s') : Quiet s' := by
  by_cases hc : s.closed = true
  · obtain ⟨hstop, hcan, haft⟩ := h hc
    intro _
    generalize hpl : s.place = place at haft
    generalize hpc : s.pc = pc at haft
    cases haft with
    | call =>
      simp only [Runtime.runTick, hpl, Option.some.injEq] at ht
      subst ht
      exact ⟨hstop, hcan, .test⟩
    | test =>
      simp only [Runtime.runTick, hpl, hpc] at ht
      obtain ⟨ht, he⟩ := innerTick_eq ht
      rw [hpc] at ht
      simp only [tick] at ht
      rw [he]
      split at ht
      · simp only [Option.some.injEq, Prod.mk.injEq] at ht
        obtain ⟨e1, e2⟩ := ht
        rw [← e1, ← e2]
        exact ⟨hstop, hcan, by rw [hpl]; exact .failed _⟩
      · rename_i hcan'
        exact absurd hcan' hcan
      · simp only [pollReadChunk, Option.some.injEq, Prod.mk.injEq] at ht
        obtain ⟨e1, e2⟩ := ht
        rw [← e1, ← e2]
        exact ⟨hstop, hcan, by rw [hpl]; exact .poll _⟩
    | poll next =>
      simp only [Runtime.runTick, hpl, hpc] at ht
      obtain ⟨ht, he⟩ := innerTick_eq ht
      rw [hpc] at ht
      simp only [tick] at ht
      rw [he]
      split_ifs at ht
      · simp only [Option.some.injEq, Prod.mk.injEq] at ht
        obtain ⟨e1, e2⟩ := ht
        rw [← e1, ← e2]
        exact ⟨hstop, hcan, by rw [hpl]; exact .poll _⟩
      · simp only [Option.some.injEq, Prod.mk.injEq] at ht
        obtain ⟨e1, e2⟩ := ht
        rw [← e1, ← e2]
        exact ⟨hstop, hcan, by rw [hpl]; exact .done⟩
    | failed e =>
      simp only [Runtime.runTick, hpl, hpc] at ht
      obtain ⟨ht, -⟩ := innerTick_eq ht
      simp [hpc, tick] at ht
    | done =>
      simp only [Runtime.runTick, hpl, hpc, Option.some.injEq] at ht
      subst ht
      exact ⟨hstop, hcan, .loop⟩
    | loop =>
      simp only [Runtime.runTick, hpl, hstop, if_true, Option.some.injEq] at ht
      subst ht
      exact ⟨rfl, hcan, by rw [hpc]; exact .exited⟩
    | exited => simp [Runtime.runTick, hpl] at ht
  · intro hc'
    obtain ⟨hd, hp, he⟩ := runTick_closes (by simpa using hc) ht hc'
    have hi := hn (by simp [hp, RunPc.inCall])
    rw [quietClose, hd] at hq
    rw [he]
    refine ⟨rfl, by simpa using hq, ?_⟩
    simp only [hi]
    exact .call

theorem quiet_of_reachable {cfg : Config} {s : RunState}
    (h : ((run cfg).restrict quietClose).Reachable s) : CallsNested s ∧ Quiet s := by
  refine h.invariant (I := fun s => CallsNested s ∧ Quiet s) ⟨fun _ => rfl, fun h0 => by cases h0⟩ ?_
  rintro s a s' ⟨hn, hq⟩ hs
  obtain ⟨hclose, hs⟩ := Machine.restrict_step.mp hs
  refine ⟨runStep_nested hn hs, ?_⟩
  cases a with
  | push m => cases hs; exact hq
  | tick => exact hq.runTick hn hclose hs
  | complete c =>
    obtain ⟨r, hr, rfl⟩ := Option.map_eq_some_iff.mp hs
    simp only [step] at hr
    split_ifs at hr
    cases hr
    exact hq

/-- `CLOSE` with a chunk still to prefetch: two steps later the thread is in
`post_read_chunk`. -/
theorem post_of_close {s : RunState} (hq : quietClose s .tick = false) :
    ∃ s', (run s.cfg).exec [.tick, .tick, .tick] s = some s' ∧ s'.closed = true ∧ s'.pc.inPost = true := by
  unfold quietClose at hq
  split at hq
  · rename_i hd
    have hcan : canStep s.cfg s.loader = .ok true := by simpa using hq
    unfold dispatched at hd
    split_ifs at hd with hp
    obtain ⟨m, hm, hop⟩ := Option.map_eq_some_iff.mp hd
    obtain ⟨rest, hq'⟩ := List.head?_eq_some_iff.mp hm
    simp [Machine.exec, run, runStep, runTick, hp.1, hq', dispatch, hop, innerTick, tick, hcan, Pc.inPost]
  · cases hq

/-- **When no chunk is posted after `CLOSE`.** In every run in which `can_step`
is false whenever `CLOSE` is dispatched, no chunk is posted after it; and
wherever a run dispatches `CLOSE` while `can_step` is true, the `try_step` that
follows enters `post_read_chunk`. -/
theorem no_post_after_close (cfg : Config) :
    (∀ s, ((run cfg).restrict quietClose).Reachable s → NoPost s) ∧
      ∀ s, (run cfg).Reachable s → quietClose s .tick = false →
        ∃ s', (run cfg).exec [.tick, .tick, .tick] s = some s' ∧ ¬ NoPost s' := by
  refine ⟨fun s h hc => ((quiet_of_reachable h).2 hc).2.2.inPost, fun s _ hq => ?_⟩
  obtain ⟨s', he, hc, hp⟩ := post_of_close hq
  refine ⟨s', he, fun hno => ?_⟩
  rw [hno hc] at hp
  cases hp

/-- A tensor of a chunk. -/
def oneTensor : Config := ⟨[⟨4096, 0, 4096, 16, 0, 0⟩], [⟨4096, 0, 4096, 16⟩], 1⟩

/-- The caller opens the loader and closes it when the only chunk is posted. -/
def closeAtWatermark : List RunAction :=
  [.push ⟨1, .open (some oneTensor)⟩] ++ List.replicate 10 .tick ++
  [.push ⟨2, .close⟩] ++ List.replicate 8 .tick

/-- Then the thread only polls after `CLOSE`, and ends. -/
theorem no_post_after_close_oneTensor :
    ∃ s, ((run notOpened).restrict quietClose).Reachable s ∧ s.place = .exited ∧
      s.loader.posted = [0] ∧ NoPost s := by
  obtain ⟨s, hs, hp⟩ := ((run notOpened).restrict quietClose).exists_reachable closeAtWatermark
    (fun s => decide (s.place = .exited ∧ s.loader.posted = [0])) (by decide)
  obtain ⟨h1, h2⟩ := of_decide_eq_true hp
  exact ⟨s, hs, h1, h2, (no_post_after_close notOpened).1 s hs⟩

/-- The caller opens the loader and closes it after the first chunk is posted. -/
def closeEarly : List RunAction :=
  [.push ⟨1, .open (some twoTensors)⟩] ++ List.replicate 10 .tick ++
  [.push ⟨2, .close⟩] ++ List.replicate 5 .tick

/-- The response to `CLOSE` is out, and the thread posts the second chunk. -/
theorem post_after_early_close :
    ∃ s, (run notOpened).Reachable s ∧ s.outputQueue = [⟨1, none⟩, ⟨2, none⟩] ∧
      s.pc = .postReadChunk .tryStep ∧ ¬ NoPost s := by
  obtain ⟨s, hs, hp⟩ := (run notOpened).exists_reachable closeEarly
    (fun s => decide (s.outputQueue = [⟨1, none⟩, ⟨2, none⟩] ∧ s.pc = .postReadChunk .tryStep ∧
      s.closed = true)) (by decide)
  obtain ⟨h1, h2, h3⟩ := of_decide_eq_true hp
  refine ⟨s, hs, h1, h2, fun hno => ?_⟩
  have := hno h3
  rw [h2] at this
  cases this

end Runtime
end Siphon
