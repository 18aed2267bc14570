/-
# `LoaderManager`

The process keeps one `LoaderManager` (`csrc/main.cpp`) for all loaders. A
call on a handle goes to the handle's own loader thread, and `get_dl_tensor`
wraps the address that comes back as a DLPack tensor. Data pointer, shape and
dtype come from the loader of the handle; the device index is the manager's
`device_idx`, which every `open` overwrites. So a tensor carries the device
of its handle if and only if the last `open` was for the same device
(`handles_isolated`).

The address of a loader's device buffer is chosen by `cudaMalloc`, so it is
part of the `open` call here. A call that ends the process (an exception in
the loader thread, an unknown handle) has no next state.
-/
import Mathlib.Logic.Function.Basic
import Siphon.Lib.Machine
import Siphon.Layout.Model

namespace Siphon
namespace Manager

/-- The arguments of `open` that decide a tensor's place: the device, what
`init_buffer` makes of the sizes, and the offsets. -/
structure OpenArgs where
  deviceIdx : ℤ
  geometry : Geometry
  tensorOffsets : List (ℕ × ℕ)

/-- The loader behind a handle: the last request id, the arguments it was
opened with, its device buffer, its tensors and the current one. -/
structure RpcHandle where
  latestReqId : ℕ
  args : OpenArgs
  deviceBuffer : ℕ
  tensors : List TensorMetadate
  currentTensorIndex : ℕ

/-- `DLDeviceType`. -/
inductive DeviceType where
  | cuda
  | rocm
  deriving Repr, DecidableEq

/-- `DLDataType`. -/
structure DataType where
  code : ℕ
  bits : ℕ
  lanes : ℕ
  deriving Repr, DecidableEq

/-- `torch_to_dlpack_dtype("int8")`; the code is `kDLInt`. -/
def int8 : DataType := ⟨0, 8, 1⟩

/-- `DLTensor`. -/
structure DlTensor where
  data : ℕ
  deviceType : DeviceType
  deviceId : ℤ
  ndim : ℕ
  dtype : DataType
  shape : List ℤ
  strides : List ℤ
  byteOffset : ℕ
  deriving Repr, DecidableEq

/-- The strides of contiguous data. -/
def contiguousStrides : List ℤ → List ℤ
  | [] => []
  | _ :: rest => rest.prod :: contiguousStrides rest

/-- `pack_dlpack`. -/
def packDlpack (deviceType : DeviceType) (ptr : ℕ) (shape : List ℤ) (dtype : DataType) (deviceId : ℤ) :
    DlTensor :=
  ⟨ptr, deviceType, deviceId, shape.length, dtype, shape, contiguousStrides shape, 0⟩

/-- `LoaderManager`. -/
structure LoaderManager where
  loaders : ℕ → Option RpcHandle
  loaderIdIter : ℕ
  deviceIdx : ℤ

/-- The calls of the front end. `openFails` is an `open` that throws before the
request is sent. -/
inductive Call where
  | open (args : OpenArgs) (deviceBuffer : ℕ)
  | openFails (deviceIdx : ℤ)
  | getDlTensor (loaderHandle tensorIndex size : ℕ)
  | close (loaderHandle : ℕ)

/-- What a call returns. -/
inductive Reply where
  | handle (loaderHandle : ℕ)
  | raised
  | tensor (t : DlTensor)
  | closed

/-- `get_tensor_ptr` of the handle's loader. -/
def getTensorPtr (l : RpcHandle) (index : ℕ) : Option (RpcHandle × ℕ) :=
  if index ≥ l.tensors.length ∨ index < l.currentTensorIndex then
    none
  else
    some ({ l with latestReqId := l.latestReqId + 1, currentTensorIndex := index },
      l.deviceBuffer + (l.tensors.getD index default).deviceBufferOffset)

/-- A call on the manager. -/
def call (deviceType : DeviceType) (m : LoaderManager) : Call → Option (LoaderManager × Reply)
  | .open args deviceBuffer =>
    match Layout.computeLayout args.geometry args.tensorOffsets with
    | .error _ => none
    | .ok layout =>
      some (⟨Function.update m.loaders m.loaderIdIter (some ⟨1, args, deviceBuffer, layout.tensors, 0⟩),
        m.loaderIdIter + 1, args.deviceIdx⟩, .handle m.loaderIdIter)
  | .openFails deviceIdx => some (⟨m.loaders, m.loaderIdIter + 1, deviceIdx⟩, .raised)
  | .getDlTensor loaderHandle tensorIndex size =>
    match m.loaders loaderHandle with
    | none => none
    | some l =>
      match getTensorPtr l tensorIndex with
      | none => none
      | some (l', ptr) =>
        some ({ m with loaders := Function.update m.loaders loaderHandle (some l') },
          .tensor (packDlpack deviceType ptr [(size : ℤ)] int8 m.deviceIdx))
  | .close loaderHandle =>
    match m.loaders loaderHandle with
    | none => none
    | some _ => some ({ m with loaders := Function.update m.loaders loaderHandle none }, .closed)

/-- The manager and the calls so far, with what they returned. -/
structure State where
  manager : LoaderManager
  history : List (Call × Reply)

/-- The process, under any sequence of calls. -/
def process (deviceType : DeviceType) : Machine State Call where
  init := ⟨⟨fun _ => none, 0, 0⟩, []⟩
  step s c := (call deviceType s.manager c).map fun r => ⟨r.1, s.history ++ [(c, r.2)]⟩

/-- The tensor that the arguments of an `open` and of a `get_dl_tensor` on its
handle determine. -/
def ownTensor (deviceType : DeviceType) (args : OpenArgs) (deviceBuffer : ℕ) (layout : Layout.Cursors)
    (index size : ℕ) : DlTensor :=
  packDlpack deviceType (deviceBuffer + (layout.tensor index).deviceBufferOffset) [(size : ℤ)] int8
    args.deviceIdx

/-- Every tensor returned for a handle is related by `R` to its own tensor. -/
def Returned (R : DlTensor → DlTensor → Prop) (deviceType : DeviceType) (history : List (Call × Reply)) :
    Prop :=
  ∀ args deviceBuffer h index size t, (Call.open args deviceBuffer, Reply.handle h) ∈ history →
    (Call.getDlTensor h index size, Reply.tensor t) ∈ history →
    ∃ layout, Layout.computeLayout args.geometry args.tensorOffsets = .ok layout ∧
      R t (ownTensor deviceType args deviceBuffer layout index size)

/-- Every tensor returned for a handle is the one the handle's own arguments
determine. -/
def Isolated (deviceType : DeviceType) (history : List (Call × Reply)) : Prop :=
  Returned (· = ·) deviceType history

/-- The two tensors are the same but for the device. -/
def SamePlace (t u : DlTensor) : Prop := t = { u with deviceId := t.deviceId }

/-- A condition on the calls: `get_dl_tensor` is called on a handle only while
the last `open` was for the handle's device. -/
def sameDevice (s : State) : Call → Bool
  | .getDlTensor loaderHandle _ _ =>
    (s.manager.loaders loaderHandle).all fun l => l.args.deviceIdx = s.manager.deviceIdx
  | _ => true

/-! ### The loaders and the history -/

/-- The open loaders are those of the history, and no handle was given twice. -/
structure Recorded (s : State) : Prop where
  opened : ∀ h l, s.manager.loaders h = some l →
    (Call.open l.args l.deviceBuffer, Reply.handle h) ∈ s.history ∧
      ∃ layout, Layout.computeLayout l.args.geometry l.args.tensorOffsets = .ok layout ∧
        l.tensors = layout.tensors
  fresh : ∀ args b h, (Call.open args b, Reply.handle h) ∈ s.history → h < s.manager.loaderIdIter
  unique : ∀ args b args' b' h, (Call.open args b, Reply.handle h) ∈ s.history →
    (Call.open args' b', Reply.handle h) ∈ s.history → args = args' ∧ b = b'
  known : ∀ h index size t, (Call.getDlTensor h index size, Reply.tensor t) ∈ s.history →
    h < s.manager.loaderIdIter

/-- The same loader, perhaps at another tensor. -/
def SameLoader (l l' : RpcHandle) : Prop :=
  l'.args = l.args ∧ l'.deviceBuffer = l.deviceBuffer ∧ l'.tensors = l.tensors

section Steps

variable {deviceType : DeviceType} {R : DlTensor → DlTensor → Prop} {s s' : State}

/-- What a call does, by its kind. -/
theorem step_cases {c : Call} (h : (process deviceType).step s c = some s') :
    (∃ args b layout, c = .open args b ∧
      Layout.computeLayout args.geometry args.tensorOffsets = .ok layout ∧
      s' = ⟨⟨Function.update s.manager.loaders s.manager.loaderIdIter
          (some ⟨1, args, b, layout.tensors, 0⟩), s.manager.loaderIdIter + 1, args.deviceIdx⟩,
        s.history ++ [(.open args b, .handle s.manager.loaderIdIter)]⟩) ∨
    (∃ d, c = .openFails d ∧ s' = ⟨⟨s.manager.loaders, s.manager.loaderIdIter + 1, d⟩,
      s.history ++ [(.openFails d, .raised)]⟩) ∨
    (∃ h index size l l', c = .getDlTensor h index size ∧ s.manager.loaders h = some l ∧ SameLoader l l' ∧
      s' = ⟨{ s.manager with loaders := Function.update s.manager.loaders h (some l') },
        s.history ++ [(.getDlTensor h index size, .tensor (packDlpack deviceType
          (l.deviceBuffer + (l.tensors.getD index default).deviceBufferOffset) [(size : ℤ)] int8
          s.manager.deviceIdx))]⟩) ∨
    (∃ h l, c = .close h ∧ s.manager.loaders h = some l ∧
      s' = ⟨{ s.manager with loaders := Function.update s.manager.loaders h none },
        s.history ++ [(.close h, .closed)]⟩) := by
  obtain ⟨r, hr, rfl⟩ := Option.map_eq_some_iff.mp h
  clear h
  cases c with
  | «open» args b =>
    simp only [call] at hr
    cases hl : Layout.computeLayout args.geometry args.tensorOffsets with
    | error e => simp [hl] at hr
    | ok layout =>
      simp only [hl, Option.some.injEq] at hr
      subst hr
      exact Or.inl ⟨args, b, layout, rfl, hl, rfl⟩
  | openFails d =>
    simp only [call, Option.some.injEq] at hr
    subst hr
    exact Or.inr (Or.inl ⟨d, rfl, rfl⟩)
  | getDlTensor h index size =>
    simp only [call] at hr
    cases hl : s.manager.loaders h with
    | none => simp [hl] at hr
    | some l =>
      simp only [hl, getTensorPtr] at hr
      split_ifs at hr with hi
      simp only [Option.some.injEq] at hr
      subst hr
      exact Or.inr (Or.inr (Or.inl ⟨h, index, size, l,
        { l with latestReqId := l.latestReqId + 1, currentTensorIndex := index }, rfl, hl,
        ⟨rfl, rfl, rfl⟩, rfl⟩))
  | close h =>
    simp only [call] at hr
    cases hl : s.manager.loaders h with
    | none => simp [hl] at hr
    | some l =>
      simp only [hl, Option.some.injEq] at hr
      subst hr
      exact Or.inr (Or.inr (Or.inr ⟨h, l, rfl, hl, rfl⟩))

theorem mem_snoc {α : Type} {l : List α} {a b : α} : a ∈ l ++ [b] ↔ a ∈ l ∨ a = b := by simp

/-- A call that opens no handle. -/
theorem Recorded.snoc (h : Recorded s) {m' : LoaderManager} {e : Call × Reply}
    (he : ∀ args b n, e ≠ (Call.open args b, Reply.handle n))
    (hget : ∀ n i z t, e = (Call.getDlTensor n i z, Reply.tensor t) → n < s.manager.loaderIdIter)
    (hiter : s.manager.loaderIdIter ≤ m'.loaderIdIter)
    (hl : ∀ n l', m'.loaders n = some l' → ∃ l, s.manager.loaders n = some l ∧ SameLoader l l') :
    Recorded ⟨m', s.history ++ [e]⟩ := by
  have hopen : ∀ {args b n}, (Call.open args b, Reply.handle n) ∈ s.history ++ [e] →
      (Call.open args b, Reply.handle n) ∈ s.history := by
    intro args b n hm
    rcases mem_snoc.mp hm with hm | hm
    · exact hm
    · exact absurd hm.symm (he _ _ _)
  refine
    { opened := fun n l' hn => ?_
      fresh := fun args b n hm => (h.fresh args b n (hopen hm)).trans_le hiter
      unique := fun args b args' b' n h1 h2 => h.unique args b args' b' n (hopen h1) (hopen h2)
      known := fun n i z t hm => ?_ }
  · obtain ⟨l, hl', e1, e2, e3⟩ := hl n l' hn
    obtain ⟨h1, h2⟩ := h.opened n l hl'
    rw [e1, e2, e3]
    exact ⟨mem_snoc.mpr (Or.inl h1), h2⟩
  · rcases mem_snoc.mp hm with hm | hm
    · exact (h.known n i z t hm).trans_le hiter
    · exact (hget n i z t hm.symm).trans_le hiter

theorem Recorded.lt (h : Recorded s) {n : ℕ} {l : RpcHandle} (hn : s.manager.loaders n = some l) :
    n < s.manager.loaderIdIter :=
  h.fresh _ _ _ (h.opened n l hn).1

/-- A new handle. -/
theorem Recorded.open (h : Recorded s) {args : OpenArgs} {b : ℕ} {layout : Layout.Cursors}
    (hl : Layout.computeLayout args.geometry args.tensorOffsets = .ok layout) :
    Recorded ⟨⟨Function.update s.manager.loaders s.manager.loaderIdIter
        (some ⟨1, args, b, layout.tensors, 0⟩), s.manager.loaderIdIter + 1, args.deviceIdx⟩,
      s.history ++ [(.open args b, .handle s.manager.loaderIdIter)]⟩ := by
  refine
    { opened := fun n l hn => ?_
      fresh := fun args' b' n hm => ?_
      unique := fun a1 b1 a2 b2 n h1 h2 => ?_
      known := fun n i z t hm => ?_ }
  · by_cases he : n = s.manager.loaderIdIter
    · subst he
      simp only [Function.update_self, Option.some.injEq] at hn
      subst hn
      exact ⟨mem_snoc.mpr (Or.inr rfl), layout, hl, rfl⟩
    · simp only [Function.update_of_ne he] at hn
      obtain ⟨h1, h2⟩ := h.opened n l hn
      exact ⟨mem_snoc.mpr (Or.inl h1), h2⟩
  · rcases mem_snoc.mp hm with hm | hm
    · exact (h.fresh args' b' n hm).trans (Nat.lt_succ_self _)
    · cases hm
      exact Nat.lt_succ_self _
  · rcases mem_snoc.mp h1 with h1 | h1 <;> rcases mem_snoc.mp h2 with h2 | h2
    · exact h.unique _ _ _ _ _ h1 h2
    · cases h2
      exact absurd (h.fresh _ _ _ h1) (Nat.lt_irrefl _)
    · cases h1
      exact absurd (h.fresh _ _ _ h2) (Nat.lt_irrefl _)
    · cases h1
      cases h2
      exact ⟨rfl, rfl⟩
  · rcases mem_snoc.mp hm with hm | hm
    · exact (h.known n i z t hm).trans (Nat.lt_succ_self _)
    · cases hm

theorem Recorded.step {c : Call} (h : Recorded s) (hs : (process deviceType).step s c = some s') :
    Recorded s' := by
  rcases step_cases hs with ⟨args, b, layout, rfl, hl, rfl⟩ | ⟨d, rfl, rfl⟩ |
    ⟨n, index, size, l, l', rfl, hl, hsame, rfl⟩ | ⟨n, l, rfl, hl, rfl⟩
  · exact h.open hl
  · exact h.snoc (by simp) (by simp) (Nat.le_succ _) fun n l' hn => ⟨l', hn, rfl, rfl, rfl⟩
  · refine h.snoc (by simp) (fun k i z t he => ?_) le_rfl fun k l1 hk => ?_
    · cases he
      exact h.lt hl
    · by_cases he : k = n
      · subst he
        simp only [Function.update_self, Option.some.injEq] at hk
        subst hk
        exact ⟨l, hl, hsame⟩
      · simp only [Function.update_of_ne he] at hk
        exact ⟨l1, hk, rfl, rfl, rfl⟩
  · refine h.snoc (by simp) (by simp) le_rfl fun k l1 hk => ?_
    by_cases he : k = n
    · subst he
      simp at hk
    · simp only [Function.update_of_ne he] at hk
      exact ⟨l1, hk, rfl, rfl, rfl⟩

/-- Where `get_dl_tensor` returns a tensor that `R` relates to the handle's own
one, every call keeps `Returned R`. -/
theorem Returned.step {c : Call} (hrec : Recorded s) (h : Returned R deviceType s.history)
    (hR : ∀ n index size l layout, c = .getDlTensor n index size → s.manager.loaders n = some l →
      R (packDlpack deviceType (l.deviceBuffer + (Layout.Cursors.tensor layout index).deviceBufferOffset)
          [(size : ℤ)] int8 s.manager.deviceIdx)
        (ownTensor deviceType l.args l.deviceBuffer layout index size))
    (hs : (process deviceType).step s c = some s') : Returned R deviceType s'.history := by
  -- a call that is no `get_dl_tensor` adds no tensor to a handle of the history
  have hother : ∀ e : Call × Reply, (∀ args b n, e ≠ (Call.open args b, Reply.handle n)) →
      (∀ n i z t, e ≠ (Call.getDlTensor n i z, Reply.tensor t)) →
      Returned R deviceType (s.history ++ [e]) := by
    intro e h1 h2 args b n index size t ho hg
    rcases mem_snoc.mp ho with ho | ho
    · rcases mem_snoc.mp hg with hg | hg
      · exact h args b n index size t ho hg
      · exact absurd hg.symm (h2 _ _ _ _)
    · exact absurd ho.symm (h1 _ _ _)
  rcases step_cases hs with ⟨args, b, layout, rfl, hl, rfl⟩ | ⟨d, rfl, rfl⟩ |
    ⟨n, index, size, l, l', rfl, hl, -, rfl⟩ | ⟨n, l, rfl, hl, rfl⟩
  · intro args' b' n index size t ho hg
    rcases mem_snoc.mp hg with hg | hg
    · rcases mem_snoc.mp ho with ho | ho
      · exact h args' b' n index size t ho hg
      · -- the handle is new
        cases ho
        exact absurd (hrec.known _ _ _ _ hg) (Nat.lt_irrefl _)
    · cases hg
  · exact hother _ (by simp) (by simp)
  · intro args b k i z t ho hg
    rcases mem_snoc.mp ho with ho | ho
    · rcases mem_snoc.mp hg with hg | hg
      · exact h args b k i z t ho hg
      · cases hg
        obtain ⟨ho', layout, hlay, htens⟩ := hrec.opened n l hl
        obtain ⟨rfl, rfl⟩ := hrec.unique _ _ _ _ _ ho ho'
        refine ⟨layout, hlay, ?_⟩
        rw [htens]
        exact hR n index size l layout rfl hl
    · cases ho
  · exact hother _ (by simp) (by simp)

end Steps

theorem init_recorded (deviceType : DeviceType) : Recorded (process deviceType).init :=
  ⟨fun _ _ h => by simp [process] at h, fun _ _ _ h => by simp [process] at h,
    fun _ _ _ _ _ h => by simp [process] at h, fun _ _ _ _ h => by simp [process] at h⟩

/-- **When the tensors of a handle carry its device.** In every run whose
`get_dl_tensor` calls come while the last `open` was for the handle's device,
every tensor is the one its own handle determines. In every run at all that
holds of all but the device; and where the condition fails, the tensor that is
returned has another device. -/
theorem handles_isolated (deviceType : DeviceType) :
    (∀ s, ((process deviceType).restrict sameDevice).Reachable s → Isolated deviceType s.history) ∧
    (∀ s, (process deviceType).Reachable s → Returned SamePlace deviceType s.history) ∧
    ∀ s c s', (process deviceType).Reachable s → sameDevice s c = false →
      (process deviceType).step s c = some s' → ¬ Isolated deviceType s'.history := by
  have hrec : ∀ {s}, (process deviceType).Reachable s → Recorded s := fun h =>
    h.invariant (init_recorded deviceType) fun _ _ _ hi hs => hi.step hs
  refine ⟨fun s h => ?_, fun s h => ?_, fun s c s' h hd hs => ?_⟩
  · refine (h.invariant (m := (process deviceType).restrict sameDevice)
      (I := fun s => Recorded s ∧ Isolated deviceType s.history)
      ⟨init_recorded deviceType, fun _ _ _ _ _ _ hm => by simp [process, Machine.restrict] at hm⟩ ?_).2
    rintro s c s' ⟨hr, hi⟩ hs
    obtain ⟨hd, hs⟩ := Machine.restrict_step.mp hs
    refine ⟨hr.step hs, Returned.step hr hi ?_ hs⟩
    rintro n index size l layout rfl hl
    simp only [sameDevice, hl, Option.all_some, decide_eq_true_eq] at hd
    rw [ownTensor, hd]
  · refine (h.invariant (I := fun s => Recorded s ∧ Returned SamePlace deviceType s.history)
      ⟨init_recorded deviceType, fun _ _ _ _ _ _ hm => by simp [process] at hm⟩ ?_).2
    rintro s c s' ⟨hr, hi⟩ hs
    exact ⟨hr.step hs, Returned.step hr hi (fun _ _ _ _ _ _ _ => rfl) hs⟩
  · intro hiso
    rcases step_cases hs with ⟨args, b, layout, rfl, hl, rfl⟩ | ⟨d, rfl, rfl⟩ |
      ⟨n, index, size, l, l', rfl, hl, -, rfl⟩ | ⟨n, l, rfl, hl, rfl⟩
    · simp [sameDevice] at hd
    · simp [sameDevice] at hd
    · simp only [sameDevice, hl, Option.all_some, decide_eq_false_iff_not] at hd
      obtain ⟨layout, -, ht⟩ := hiso l.args l.deviceBuffer n index size _
        (mem_snoc.mpr (Or.inl ((hrec h).opened n l hl).1)) (mem_snoc.mpr (Or.inr rfl))
      exact hd (congrArg DlTensor.deviceId ht).symm
    · simp [sameDevice] at hd

/-- The documentation's example, on a device. -/
def openOn (deviceIdx : ℤ) : OpenArgs := ⟨deviceIdx, Layout.pageRing, Layout.nineTensors⟩

/-- The first tensor of the example, as a view of `deviceIdx`. -/
def firstTensorOn (deviceIdx : ℤ) : DlTensor := ⟨65552, .cuda, deviceIdx, 1, int8, [4096], [1], 0⟩

theorem exists_exampleLayout : ∃ l, Layout.computeLayout Layout.pageRing Layout.nineTensors = .ok l ∧
    l.tensors ≠ [] ∧ (l.tensors.getD 0 default).deviceBufferOffset = 16 := by
  obtain ⟨l, hl, hp⟩ := Layout.exists_ok_of_any Layout.pageRing Layout.nineTensors
    (fun l => decide (l.tensors ≠ [] ∧ (l.tensors.getD 0 default).deviceBufferOffset = 16))
    (by decide)
  exact ⟨l, hl, of_decide_eq_true hp⟩

/-- One loader is opened and its first tensor returned. -/
theorem handles_isolated_oneLoader :
    ∃ s, ((process .cuda).restrict sameDevice).Reachable s ∧
      s.history = [(.open (openOn 0) 65536, .handle 0),
        (.getDlTensor 0 0 4096, .tensor (firstTensorOn 0))] ∧ Isolated .cuda s.history := by
  obtain ⟨l, hl, hne, hd⟩ := exists_exampleLayout
  have hrun : ∃ s, ((process .cuda).restrict sameDevice).exec
      [.open (openOn 0) 65536, .getDlTensor 0 0 4096] (process .cuda).init = some s ∧
      s.history = [(.open (openOn 0) 65536, .handle 0),
        (.getDlTensor 0 0 4096, .tensor (firstTensorOn 0))] := by
    simp [Machine.exec, Machine.restrict, process, call, openOn, hl, sameDevice, getTensorPtr, hne, hd,
      packDlpack, firstTensorOn, contiguousStrides, -List.getD_eq_getElem?_getD]
  obtain ⟨s, he, hh⟩ := hrun
  have hs := Machine.Reachable.exec _ .init he
  exact ⟨s, hs, hh, (handles_isolated .cuda).1 s hs⟩

/-- A loader is opened on device 0 and another on device 1; the first tensor of
the first loader comes back as a view of device 1. -/
theorem other_device_returned :
    ∃ s, (process .cuda).Reachable s ∧
      s.history = [(.open (openOn 0) 65536, .handle 0), (.open (openOn 1) 131072, .handle 1),
        (.getDlTensor 0 0 4096, .tensor (firstTensorOn 1))] ∧ ¬ Isolated .cuda s.history := by
  obtain ⟨l, hl, hne, hd⟩ := exists_exampleLayout
  have hrun : ∃ s, (process .cuda).exec
      [.open (openOn 0) 65536, .open (openOn 1) 131072, .getDlTensor 0 0 4096] (process .cuda).init =
        some s ∧
      s.history = [(.open (openOn 0) 65536, .handle 0), (.open (openOn 1) 131072, .handle 1),
        (.getDlTensor 0 0 4096, .tensor (firstTensorOn 1))] := by
    simp [Machine.exec, process, call, openOn, hl, getTensorPtr, hne, hd,
      packDlpack, firstTensorOn, contiguousStrides, -List.getD_eq_getElem?_getD]
  obtain ⟨s, he, hh⟩ := hrun
  refine ⟨s, Machine.Reachable.exec _ .init he, hh, fun hiso => ?_⟩
  rw [hh] at hiso
  obtain ⟨layout, -, ht⟩ := hiso (openOn 0) 65536 0 0 4096 (firstTensorOn 1) (by simp) (by simp)
  have hdev : (1 : ℤ) = 0 := congrArg DlTensor.deviceId ht
  exact absurd hdev (by decide)

end Manager
end Siphon
