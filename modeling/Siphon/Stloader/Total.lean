/-
# Arithmetic that does not panic

`read_header`, `nbytes`, `abs_range` and the planners once more, with every
addition, subtraction and multiplication of `u64` written as the operation
that panics where the exact result does not fit (`none`). The header comes
from anyone, so its numbers may be any; what `read_header` checks before it
subtracts, and `Accepted` after it, is enough for all of them to fit. So these
definitions never panic and compute what those of `Header` and `Plan` do.

Key definitions: `readHeaderPanicking`, `planShardPanicking`, `planShardUnmerged`.
Key theorems: `readHeaderPanicking_eq`, `planShardPanicking_eq`,
`planShardUnmergedPanicking_eq`, `readHeader_sound`.
-/
import Mathlib.Data.List.ReduceOption
import Siphon.Stloader.Plan

namespace Siphon
namespace Stloader

open U64 Fallible

/-! ### Computations that may panic -/

section Panicking

variable {ε : Type} {α β : Type}

/-- A step without arithmetic. -/
def noPanic (x : Except ε α) : ExceptT ε Option α := ExceptT.mk (some x)

/-- An operation of `u64`. -/
def arith (o : Option α) : ExceptT ε Option α := ExceptT.lift o

theorem noPanic_bind (x : Except ε α) (f : α → Except ε β) :
    noPanic (x >>= f) = (noPanic x >>= fun a => noPanic (f a)) := by
  cases x <;> rfl

/-- An operation whose result fits. -/
theorem arith_some_bind (a : α) (f : α → ExceptT ε Option β) : (arith (some a) >>= f) = f a := rfl

end Panicking

variable (json : SerdeJson)

/-- `readEntry`; the bytes are subtracted once for the comparison and once for
the text of the error. -/
def readEntryPanicking (bufferSize : ℕ) (name : String) (v : Value) : ExceptT EntryError Option TensorInfo := do
  let t ← noPanic (orElse .notObject v.asObject?)
  let dtypeStr ← noPanic (orElse .missingDtype ((t.lookup "dtype").bind Value.asStr?))
  let dtype ← noPanic (orElse (.unknownDtype dtypeStr) (Dtype.parse dtypeStr))
  let shapeArr ← noPanic (orElse .missingShape ((t.lookup "shape").bind Value.asArray?))
  let shape ← noPanic (readShape json shapeArr)
  let offs ← noPanic (orElse .missingOffsets ((t.lookup "data_offsets").bind Value.asArray?))
  match offs with
  | [o₀, o₁] => do
    let start ← noPanic (orElse (.offset 0) o₀.asU64?)
    let stop ← noPanic (orElse (.offset 1) o₁.asU64?)
    if stop < start then noPanic (.error (.inverted start stop))
    else if bufferSize < stop then noPanic (.error (.beyond stop bufferSize))
    else do
      let numel ← noPanic (orElse .numelOverflow (shapeNumel shape))
      let expected ← noPanic (orElse .sizeOverflow (checkedMul numel dtype.size))
      let needed ← arith (checkedSub stop start)
      if expected ≠ needed then do
        let declared ← arith (checkedSub stop start)
        noPanic (.error (.size declared shape dtype expected))
      else noPanic (.ok { name, dtype, shape, start, stop })
  | _ => noPanic (.error .notPair)

/-- `Except.mapError` of a computation that may panic. -/
def mapErrorPanicking {ε ε' α : Type} (f : ε → ε') (x : ExceptT ε Option α) : ExceptT ε' Option α :=
  ExceptT.mk (x.run.map (Except.mapError f))

/-- `readEntries` -/
def readEntriesPanicking (bufferSize : ℕ) :
    List (String × Value) → ExceptT HeaderError Option (Option (List (String × Value)) × List TensorInfo)
  | [] => noPanic (.ok (none, []))
  | (name, v) :: kvs =>
    if name = "__metadata__" then do
      let m ← noPanic (orElse .metadata v.asObject?)
      let r ← readEntriesPanicking bufferSize kvs
      noPanic (.ok (r.1.or (some m), r.2))
    else do
      let t ← mapErrorPanicking (.entry name) (readEntryPanicking json bufferSize name v)
      let r ← readEntriesPanicking bufferSize kvs
      noPanic (.ok (r.1, t :: r.2))

/-- `read_header` -/
def readHeaderPanicking (f : ShardFile) : ExceptT HeaderError Option ShardHeader := do
  let fileSize := f.bytes.length
  if fileSize < 8 then noPanic (.error .short)
  else do
    let headerLen := fromLeBytes (f.bytes.take 8)
    if headerLen = 0 then noPanic (.error .lengthZero)
    else if maxHeaderBytes < headerLen then noPanic (.error (.lengthExceeds headerLen))
    else do
      let dataStart ← noPanic (orElse .lengthOverflows (checkedAdd 8 headerLen))
      if fileSize < dataStart then noPanic (.error (.lengthOverruns headerLen fileSize))
      else do
        let bufferSize ← arith (checkedSub fileSize dataStart)
        let raw := (f.bytes.drop 8).take headerLen
        let parsed ← noPanic ((json.fromSlice raw).mapError .badJson)
        let obj ← noPanic (orElse .notObject parsed.asObject?)
        let r ← readEntriesPanicking json bufferSize obj
        noPanic (.ok { path := f.path, fileSize, headerLen, dataStart, metadata := r.1,
                       tensors := r.2.insertionSort keyLe })

/-- `nbytes` -/
def TensorInfo.nbytesPanicking (t : TensorInfo) : Option ℕ := checkedSub t.stop t.start

/-- `abs_range` -/
def TensorInfo.absRangePanicking (t : TensorInfo) (dataStart : ℕ) : Option (ℕ × ℕ) := do
  let s ← checkedAdd dataStart t.start
  let e ← checkedAdd dataStart t.stop
  some (s, e)

/-- `floor_to`; `ceil_to` has no operation that panics. -/
def floorToPanicking (x b : ℕ) : Option ℕ := checkedMul (x / max b 1) (max b 1)

/-- The blocks of a tensor, clamped to those of the file. -/
def clampedPanicking (dataStart block fileCeil : ℕ) (t : TensorInfo) : Option (ℕ × ℕ) := do
  let (s, e) ← t.absRangePanicking dataStart
  let f ← floorToPanicking s block
  some (min f fileCeil, min (ceilTo e block) fileCeil)

/-- One tensor of the loop of `plan_shard` -/
def planTensorPanicking (dataStart block maxGap fileCeil : ℕ) (out : List Range) (t : TensorInfo) :
    Option (List Range) := do
  let n ← t.nbytesPanicking
  if n = 0 then some out
  else do
    let (a₀, a₁) ← clampedPanicking dataStart block fileCeil t
    if a₁ ≤ a₀ then some out
    else
      match out.getLast? with
      | some last =>
        if a₀ ≤ saturatingAdd last.stop maxGap then do
          let len ← checkedSub (max last.stop a₁) last.offset
          some (out.dropLast ++ [⟨last.offset, len⟩])
        else do
          let len ← checkedSub a₁ a₀
          some (out ++ [⟨a₀, len⟩])
      | none => do
        let len ← checkedSub a₁ a₀
        some (out ++ [⟨a₀, len⟩])

/-- `plan_shard` -/
def planShardPanicking (h : ShardHeader) (block maxGap : ℕ) : Option (List Range) :=
  h.tensors.foldlM (planTensorPanicking h.dataStart (max block 1) maxGap (ceilTo h.fileSize (max block 1))) []

/-- One tensor of `plan_shard_unmerged` -/
def planUnmerged (dataStart block fileCeil : ℕ) (t : TensorInfo) : Option Range :=
  if t.nbytes = 0 then none
  else
    let a₀ := min (floorTo (t.absRange dataStart).1 block) fileCeil
    let a₁ := min (ceilTo (t.absRange dataStart).2 block) fileCeil
    if a₁ ≤ a₀ then none else some ⟨a₀, a₁ - a₀⟩

/-- `plan_shard_unmerged` -/
def planShardUnmerged (h : ShardHeader) (block : ℕ) : List Range :=
  h.tensors.filterMap (planUnmerged h.dataStart (max block 1) (ceilTo h.fileSize (max block 1)))

def planUnmergedPanicking (dataStart block fileCeil : ℕ) (t : TensorInfo) : Option (Option Range) := do
  let n ← t.nbytesPanicking
  if n = 0 then some none
  else do
    let (a₀, a₁) ← clampedPanicking dataStart block fileCeil t
    if a₁ ≤ a₀ then some none
    else do
      let len ← checkedSub a₁ a₀
      some (some ⟨a₀, len⟩)

def planShardUnmergedPanicking (h : ShardHeader) (block : ℕ) : Option (List Range) := do
  let ranges ← h.tensors.mapM (planUnmergedPanicking h.dataStart (max block 1) (ceilTo h.fileSize (max block 1)))
  some ranges.reduceOption

/-! ### Reading -/

section Read

variable {json}

theorem readEntryPanicking_eq (bufferSize : ℕ) (name : String) (v : Value) :
    readEntryPanicking json bufferSize name v = noPanic (readEntry json bufferSize name v) := by
  unfold readEntryPanicking readEntry
  simp only [noPanic_bind]
  refine bind_congr fun t => bind_congr fun dtypeStr => bind_congr fun dtype => bind_congr fun shapeArr =>
    bind_congr fun shape => bind_congr fun offs => ?_
  obtain _ | ⟨o₀, _ | ⟨o₁, _ | ⟨o₂, offs⟩⟩⟩ := offs
  · rfl
  · rfl
  · dsimp only
    rw [noPanic_bind]
    refine bind_congr fun start => ?_
    rw [noPanic_bind]
    refine bind_congr fun stop => ?_
    split_ifs with h1 h2
    · rfl
    · rfl
    · rw [noPanic_bind]
      refine bind_congr fun numel => ?_
      rw [noPanic_bind]
      refine bind_congr fun expected => ?_
      -- the end was compared with the start
      rw [checkedSub_of_le (not_lt.mp h1), arith_some_bind, arith_some_bind]
      split_ifs <;> rfl
  · rfl

theorem readEntriesPanicking_eq (bufferSize : ℕ) : ∀ kvs : List (String × Value),
    readEntriesPanicking json bufferSize kvs = noPanic (readEntries json bufferSize kvs)
  | [] => rfl
  | (name, v) :: kvs => by
    have ih := readEntriesPanicking_eq bufferSize kvs
    unfold readEntriesPanicking readEntries
    split_ifs with hname
    · rw [noPanic_bind]
      refine bind_congr fun m => ?_
      rw [noPanic_bind, ih]
      rfl
    · rw [noPanic_bind, readEntryPanicking_eq]
      refine bind_congr fun t => ?_
      rw [noPanic_bind, ih]
      rfl

/-- `read_header` never panics. -/
theorem readHeaderPanicking_eq (f : ShardFile) : readHeaderPanicking json f = noPanic (readHeader json f) := by
  unfold readHeaderPanicking readHeader
  dsimp only
  split_ifs with h0 h1 h2
  · rfl
  · rfl
  · rfl
  · rw [noPanic_bind]
    refine bind_congr fun dataStart => ?_
    split_ifs with h3
    · rfl
    · -- the data buffer begins inside the file
      rw [checkedSub_of_le (not_lt.mp h3), arith_some_bind, noPanic_bind]
      refine bind_congr fun parsed => ?_
      rw [noPanic_bind]
      refine bind_congr fun obj => ?_
      rw [noPanic_bind, readEntriesPanicking_eq]

end Read

/-! ### Planning -/

section Plan

variable {h : ShardHeader} {t : TensorInfo}

theorem nbytesPanicking_eq (ha : Accepted h) (ht : t ∈ h.tensors) : t.nbytesPanicking = some t.nbytes :=
  checkedSub_of_le (ha.start_le t ht)

theorem absRangePanicking_eq (ha : Accepted h) (ht : t ∈ h.tensors) :
    t.absRangePanicking h.dataStart = some (t.absRange h.dataStart) := by
  have hsize := ha.size_le
  have hstart := ha.start_le t ht
  have hstop := ha.stop_le t ht
  unfold TensorInfo.absRangePanicking
  rw [checkedAdd_of_le (by omega), checkedAdd_of_le (by omega)]
  rfl

theorem floorToPanicking_eq {x : ℕ} (hx : x ≤ maxValue) (b : ℕ) : floorToPanicking x b = some (floorTo x b) :=
  checkedMul_of_le ((Nat.div_mul_le_self x (max b 1)).trans hx)

theorem absRange_start_le (ha : Accepted h) (ht : t ∈ h.tensors) : (t.absRange h.dataStart).1 ≤ maxValue := by
  have hsize := ha.size_le
  have hle := ha.start_le t ht
  have hstop := ha.stop_le t ht
  show h.dataStart + t.start ≤ maxValue
  omega

theorem clampedPanicking_eq (ha : Accepted h) (ht : t ∈ h.tensors) (block fileCeil : ℕ) :
    clampedPanicking h.dataStart block fileCeil t =
      some (min (floorTo (t.absRange h.dataStart).1 block) fileCeil,
        min (ceilTo (t.absRange h.dataStart).2 block) fileCeil) := by
  unfold clampedPanicking
  rw [absRangePanicking_eq ha ht, Option.bind_eq_bind, Option.bind_some]
  dsimp only
  rw [floorToPanicking_eq (absRange_start_le ha ht), Option.bind_eq_bind, Option.bind_some]

theorem floorTo_le (x b : ℕ) : floorTo x b ≤ x := Nat.div_mul_le_self x (max b 1)

/-- A range ends behind its start, also where its end is saturated. -/
theorem Range.offset_le_stop {r : Range} (hr : r.offset ≤ maxValue) : r.offset ≤ r.stop := by
  unfold Range.stop saturatingAdd
  omega

/-- One tensor: the ranges so far begin at values of `u64`, and so do those
with it. -/
theorem planTensorPanicking_eq (ha : Accepted h) (ht : t ∈ h.tensors) (block maxGap fileCeil : ℕ) {out : List Range}
    (hout : ∀ r ∈ out, r.offset ≤ maxValue) :
    planTensorPanicking h.dataStart block maxGap fileCeil out t =
        some (planTensor h.dataStart block maxGap fileCeil out t) ∧
      ∀ r ∈ planTensor h.dataStart block maxGap fileCeil out t, r.offset ≤ maxValue := by
  have hclamped := clampedPanicking_eq ha ht block fileCeil
  have hfloor := (floorTo_le (t.absRange h.dataStart).1 block).trans (absRange_start_le ha ht)
  unfold planTensorPanicking planTensor
  rw [nbytesPanicking_eq ha ht, hclamped]
  generalize floorTo (t.absRange h.dataStart).1 block = f at hfloor
  generalize ceilTo (t.absRange h.dataStart).2 block = c
  have hnew : ∀ len, ∀ r ∈ out ++ [⟨min f fileCeil, len⟩], Range.offset r ≤ maxValue := by
    intro len r hr
    obtain hr | hr := List.mem_append.mp hr
    · exact hout r hr
    · rw [List.mem_singleton.mp hr]
      exact (min_le_left f fileCeil).trans hfloor
  simp only [Option.bind_eq_bind, Option.bind_some]
  split_ifs with h0 hempty
  · exact ⟨rfl, hout⟩
  · exact ⟨rfl, hout⟩
  · have hlen := checkedSub_of_le (Nat.le_of_not_le hempty)
    cases hlast : out.getLast? with
    | none =>
      dsimp only
      rw [hlen]
      exact ⟨rfl, hnew _⟩
    | some last =>
      have hmem := List.mem_of_getLast? hlast
      have hle : last.offset ≤ max last.stop (min c fileCeil) :=
        (Range.offset_le_stop (hout last hmem)).trans (le_max_left _ _)
      dsimp only
      split_ifs with hnear
      · rw [checkedSub_of_le hle]
        refine ⟨rfl, fun r hr => ?_⟩
        obtain hr | hr := List.mem_append.mp hr
        · exact hout r (List.dropLast_subset out hr)
        · rw [List.mem_singleton.mp hr]
          exact hout last hmem
      · rw [hlen]
        exact ⟨rfl, hnew _⟩

/-- The loop over the tensors, by induction on those left. -/
theorem foldlM_planTensorPanicking (ha : Accepted h) (block maxGap fileCeil : ℕ) :
    ∀ (ts : List TensorInfo) {out : List Range}, (∀ t ∈ ts, t ∈ h.tensors) → (∀ r ∈ out, r.offset ≤ maxValue) →
      ts.foldlM (planTensorPanicking h.dataStart block maxGap fileCeil) out =
        some (ts.foldl (planTensor h.dataStart block maxGap fileCeil) out)
  | [], _, _, _ => rfl
  | t :: ts, out, hts, hout => by
    obtain ⟨hstep, hout'⟩ := planTensorPanicking_eq ha (hts t (List.mem_cons_self ..)) block maxGap fileCeil hout
    rw [List.foldlM_cons, List.foldl_cons, hstep]
    exact foldlM_planTensorPanicking ha block maxGap fileCeil ts (fun t' ht' => hts t' (List.mem_cons_of_mem _ ht')) hout'

theorem planShardPanicking_eq (ha : Accepted h) (block maxGap : ℕ) :
    planShardPanicking h block maxGap = some (planShard h block maxGap) :=
  foldlM_planTensorPanicking ha _ maxGap _ h.tensors (fun _ ht => ht) fun _ hr => nomatch hr

theorem planUnmergedPanicking_eq (ha : Accepted h) (ht : t ∈ h.tensors) (block fileCeil : ℕ) :
    planUnmergedPanicking h.dataStart block fileCeil t = some (planUnmerged h.dataStart block fileCeil t) := by
  unfold planUnmergedPanicking planUnmerged
  rw [nbytesPanicking_eq ha ht, clampedPanicking_eq ha ht]
  simp only [Option.bind_eq_bind, Option.bind_some]
  split_ifs with h0 hempty
  · rfl
  · rfl
  · rw [checkedSub_of_le (Nat.le_of_not_le hempty)]
    rfl

theorem planShardUnmergedPanicking_eq (ha : Accepted h) (block : ℕ) :
    planShardUnmergedPanicking h block = some (planShardUnmerged h block) := by
  unfold planShardUnmergedPanicking planShardUnmerged
  rw [mapM_eq_map h.tensors fun t ht => planUnmergedPanicking_eq ha ht _ _, Option.bind_eq_bind, Option.bind_some,
    List.reduceOption, List.filterMap_map]
  rfl

end Plan

/-- **Reading is sound and total.** Of every file: `read_header` does not
panic. A header that it returns has tensors in order, inside the data buffer,
of as many bytes as the exact product of the shape and the size of the type
says, and sorted; and nothing computed from it afterwards panics. -/
theorem readHeader_sound (json : SerdeJson) (f : ShardFile) :
    readHeaderPanicking json f = noPanic (readHeader json f) ∧ ∀ hd, readHeader json f = .ok hd →
      (∀ t ∈ hd.tensors, t.start ≤ t.stop ∧ t.stop ≤ hd.fileSize - hd.dataStart ∧
        t.stop - t.start = t.shape.prod * t.dtype.size) ∧
      hd.fileSize = f.bytes.length ∧ hd.dataStart ≤ hd.fileSize ∧ hd.tensors.Pairwise keyLe ∧
      (∀ t ∈ hd.tensors, t.nbytesPanicking = some t.nbytes ∧
        t.absRangePanicking hd.dataStart = some (t.absRange hd.dataStart)) ∧
      ∀ block maxGap, planShardPanicking hd block maxGap = some (planShard hd block maxGap) ∧
        planShardUnmergedPanicking hd block = some (planShardUnmerged hd block) := by
  refine ⟨readHeaderPanicking_eq f, fun hd hread => ?_⟩
  have ha := readHeader_accepted hread
  obtain ⟨hfits, hsorted⟩ := readHeader_tensors hread
  obtain ⟨-, -, hsize, hstart, -, -⟩ := readHeader_eq_ok hread
  refine ⟨fun t ht => ⟨(hfits t ht).start_le, (hfits t ht).stop_le, (hfits t ht).exact⟩, hsize, hstart, hsorted,
    fun t ht => ⟨nbytesPanicking_eq ha ht, absRangePanicking_eq ha ht⟩, fun block maxGap => ?_⟩
  exact ⟨planShardPanicking_eq ha block maxGap, planShardUnmergedPanicking_eq ha block⟩

/-- A tensor inside another, whose spans are planned at the largest block. -/
theorem readHeader_sound_nested : ∃ hd, readHeader nestedSerde nestedFile = .ok hd ∧
    (∀ t ∈ hd.tensors, t.stop - t.start = t.shape.prod * t.dtype.size) ∧
    planShardPanicking hd maxValue maxValue = some (planShard hd maxValue maxValue) := by
  have h : (readHeader nestedSerde nestedFile).toOption.isSome = true := by decide +kernel
  cases hread : readHeader nestedSerde nestedFile with
  | error e =>
    rw [hread] at h
    cases h
  | ok hd =>
    obtain ⟨htensors, -, -, -, -, hplan⟩ := (readHeader_sound nestedSerde nestedFile).2 hd hread
    exact ⟨hd, rfl, fun t ht => (htensors t ht).2.2, (hplan maxValue maxValue).1⟩

end Stloader
end Siphon
