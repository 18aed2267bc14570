/-
# The bytes a returned tensor shows

`safe_open.tensors` computes the bytes of a tensor from its shape and its
dtype and asks the loader for a view of as many from where the tensor was
placed. The loader has placed what lies between the two offsets of the entry,
and nobody compares the two: the views show the bytes of their tensors exactly
if the shapes, the dtypes and the offsets of the header agree
(`tensors_exact_iff`).

The dtypes are those the installed torch has, so the attributes of the module
are a parameter.

Key definitions: `getTensorSize`, `tensorsFrom`, `Shows`.
Key theorems: `sizes_tensorRanges`, `safeOpen_validOffsets`, `tensors_exact_iff`.
-/
import Siphon.Frontend.Open
import Siphon.Layout.Payload

namespace Siphon
namespace Frontend

open Fallible Ranges Layout

/-! ### Types -/

inductive TorchDtype where
  | float64 | float32 | float16 | bfloat16 | int64 | int32 | int16 | int8 | uint8 | bool | complex64
  | uint64 | uint32 | uint16
  | float8E4m3fn | float8E4m3fnuz | float8E5m2 | float8E5m2fnuz | float8E8m0fnu | float8E8m0fnuz | float4E2m1fnX2
  deriving DecidableEq, Repr

/-- `element_size()` -/
def TorchDtype.elementSize : TorchDtype → ℕ
  | float64 | int64 | uint64 | complex64 => 8
  | float32 | int32 | uint32 => 4
  | float16 | bfloat16 | int16 | uint16 => 2
  | _ => 1

/-- `safetensors_to_torch_dtype.get`, of a torch with some attributes. -/
def torchDtype (hasattr : String → Bool) : String → Option TorchDtype
  | "F64" => some .float64
  | "F32" => some .float32
  | "F16" => some .float16
  | "BF16" => some .bfloat16
  | "I64" => some .int64
  | "I32" => some .int32
  | "I16" => some .int16
  | "I8" => some .int8
  | "U8" => some .uint8
  | "BOOL" => some .bool
  | "C64" => some .complex64
  | "U64" => if hasattr "uint64" then some .uint64 else none
  | "U32" => if hasattr "uint32" then some .uint32 else none
  | "U16" => if hasattr "uint16" then some .uint16 else none
  | "F8_E4M3" => if hasattr "float8_e4m3fn" then some .float8E4m3fn else none
  | "F8_E4M3FNUZ" => if hasattr "float8_e4m3fnuz" then some .float8E4m3fnuz else none
  | "F8_E5M2" => if hasattr "float8_e5m2" then some .float8E5m2 else none
  | "F8_E5M2FNUZ" => if hasattr "float8_e5m2fnuz" then some .float8E5m2fnuz else none
  | "F8_E8M0" =>
    if hasattr "float8_e8m0fnu" then some .float8E8m0fnu
    else if hasattr "float8_e8m0fnuz" then some .float8E8m0fnuz else none
  | "F4" => if hasattr "float4_e2m1fn_x2" then some .float4E2m1fnX2 else none
  | _ => none

/-- `get_tensor_size` -/
def getTensorSize (shape : List ℕ) (dtype : TorchDtype) : ℕ := shape.foldl (· * ·) dtype.elementSize

/-! ### Views -/

/-- A view of the device buffer: where it starts, and its bytes. -/
structure DlTensor where
  dataPtr : ℕ
  size : ℕ
  deriving DecidableEq, Repr

/-- `get_dl_tensor`, for the tensors of a layout. -/
def getDlTensor (l : Cursors) (tensorIndex size : ℕ) : DlTensor := ⟨(l.tensor tensorIndex).deviceBufferOffset, size⟩

inductive TensorsError where
  | unsupportedDtype (dtype : String)
  /-- The bytes are not a `size_t`. -/
  | incompatibleArguments
  deriving DecidableEq, Repr

/-- The text of the exception. -/
def TensorsError.message : TensorsError → String
  | .unsupportedDtype dtype => "Unsupported safetensors dtype: " ++ dtype
  | .incompatibleArguments => "get_dl_tensor(): incompatible function arguments."

/-- The loop of `tensors`, from tensor `tensorIndex` on: what it yields, and
the exception it ends with. -/
def tensorsFrom (hasattr : String → Bool) (l : Cursors) :
    ℕ → List NamedTensor → List (String × DlTensor) × Option TensorsError
  | _, [] => ([], none)
  | tensorIndex, (name, metadata) :: rest =>
    match torchDtype hasattr metadata.dtype with
    | none => ([], some (.unsupportedDtype metadata.dtype))
    | some dtype =>
      let tensorSize := getTensorSize metadata.shape dtype
      if 2 ^ 64 ≤ tensorSize then ([], some .incompatibleArguments)
      else
        let (views, e) := tensorsFrom hasattr l (tensorIndex + 1) rest
        ((name, getDlTensor l tensorIndex tensorSize) :: views, e)

/-- `safe_open.tensors` -/
def tensors (hasattr : String → Bool) (l : Cursors) (r : Ordered) : List (String × DlTensor) × Option TensorsError :=
  tensorsFrom hasattr l 0 r.orderedTensorMetadatas

/-! ### What the views should show -/

/-- A view of tensor `i` has as many bytes as the offsets of its entry are
apart, and shows those that the layout has placed. -/
structure Shows (l : Cursors) (i : ℕ) (m : TensorInfo) (v : DlTensor) : Prop where
  span : (v.size : ℤ) = m.stop - m.start
  place : v.dataPtr = (l.tensor i).deviceBufferOffset
  bytes : v.size = (l.tensor i).size

/-- Every view that `tensors` yields shows the bytes of its tensor. -/
def AllShown (hasattr : String → Bool) (l : Cursors) (r : Ordered) : Prop :=
  ∀ i name v, (tensors hasattr l r).1[i]? = some (name, v) →
    ∃ m, r.orderedTensorMetadatas[i]? = some (name, m) ∧ Shows l i m v

/-- The loop does not end at an entry: torch has its dtype, and its bytes are a `size_t`. -/
def Viewable (hasattr : String → Bool) (kv : NamedTensor) : Bool :=
  (torchDtype hasattr kv.2.dtype).any fun dtype => getTensorSize kv.2.shape dtype < 2 ^ 64

/-- The shape and the dtype of an entry need the bytes between its offsets. -/
def Consistent (hasattr : String → Bool) (m : TensorInfo) : Prop :=
  ∀ dtype ∈ torchDtype hasattr m.dtype, ((dtype.elementSize * m.shape.prod : ℕ) : ℤ) = m.stop - m.start

theorem getTensorSize_eq (shape : List ℕ) (dtype : TorchDtype) :
    getTensorSize shape dtype = dtype.elementSize * shape.prod := by
  unfold getTensorSize
  generalize dtype.elementSize = n
  induction shape generalizing n with
  | nil => simp
  | cons d shape ih => rw [List.foldl_cons, ih, List.prod_cons, Nat.mul_assoc]

/-- The views are those of the entries before the first at which the loop ends. -/
theorem tensorsFrom_getElem? {hasattr : String → Bool} {l : Cursors} : ∀ (kvs : List NamedTensor) (n i : ℕ)
    (name : String) (v : DlTensor), (tensorsFrom hasattr l n kvs).1[i]? = some (name, v) ↔
      ∃ m dtype, (kvs.takeWhile (Viewable hasattr))[i]? = some (name, m) ∧
        torchDtype hasattr m.dtype = some dtype ∧ v = getDlTensor l (n + i) (getTensorSize m.shape dtype)
  | [], n, i, name, v => by simp [tensorsFrom]
  | (k, m) :: kvs, n, i, name, v => by
    rw [tensorsFrom]
    cases hd : torchDtype hasattr m.dtype with
    | none =>
      have hv : Viewable hasattr (k, m) = false := by simp [Viewable, hd]
      rw [List.takeWhile_cons_of_neg (by simp [hv])]
      simp
    | some dtype =>
      dsimp only
      by_cases hs : 2 ^ 64 ≤ getTensorSize m.shape dtype
      · have hv : Viewable hasattr (k, m) = false := by simpa [Viewable, hd] using hs
        rw [if_pos hs, List.takeWhile_cons_of_neg (by simp [hv])]
        simp
      · have hv : Viewable hasattr (k, m) = true := by simpa [Viewable, hd] using hs
        rw [if_neg hs, List.takeWhile_cons_of_pos hv]
        cases i with
        | zero =>
          simp only [List.getElem?_cons_zero, Option.some.injEq, Prod.mk.injEq, Nat.add_zero]
          constructor
          · rintro ⟨rfl, rfl⟩
            exact ⟨m, dtype, ⟨rfl, rfl⟩, hd, rfl⟩
          · rintro ⟨m', dtype', ⟨rfl, rfl⟩, hd', rfl⟩
            rw [Option.some.inj (hd.symm.trans hd')]
            exact ⟨rfl, rfl⟩
        | succ i =>
          have ih := @tensorsFrom_getElem? hasattr l kvs (n + 1) i name v
          simp only [List.getElem?_cons_succ]
          rw [ih]
          have hi : n + 1 + i = n + (i + 1) := by omega
          rw [hi]

/-! ### The offsets that `compute_layout` gets -/

/-- The offsets of contiguous entries are those of the entries. -/
theorem sizes_offsetsOf (f n : ℕ) : ∀ (l : List NamedTensor) (last : NamedTensor), Contiguous startOf stopOf l →
    l.getLast? = some last →
    (tensorRanges (offsetsOf f n l last)).map (·.2.2) = l.map fun kv => kv.2.stop - kv.2.start
  | [], _, _, h => by cases h
  | [a], last, _, h => by
    obtain rfl : a = last := by simpa using h
    simp [offsetsOf, tensorRanges, Nat.add_sub_add_right]
  | a :: b :: l, last, hc, h => by
    have hab : a.2.stop = b.2.start := (List.isChain_cons_cons.mp hc).1
    have ih := sizes_offsetsOf f n (b :: l) last hc.tail (by simpa using h)
    have hcons : offsetsOf f n (a :: b :: l) last = (f, a.2.start + n) :: offsetsOf f n (b :: l) last := rfl
    have hhead : offsetsOf f n (b :: l) last = (f, b.2.start + n) :: (offsetsOf f n (b :: l) last).tail := rfl
    rw [hcons, hhead, tensorRanges, if_pos rfl, ← hhead, List.map_cons, ih]
    simp only [List.map_cons, hab, Nat.add_sub_add_right]

/-- Between the offsets of two files is no tensor. -/
theorem tensorRanges_append {f f' x y : ℕ} (h : f ≠ f') : ∀ (l l' : List (ℕ × ℕ)),
    tensorRanges (l ++ (f, x) :: (f', y) :: l') = tensorRanges (l ++ [(f, x)]) ++ tensorRanges ((f', y) :: l')
  | [], l' => by simp [tensorRanges, h]
  | [a], l' => by
    simp only [List.cons_append, List.nil_append, tensorRanges, if_neg h]
    split_ifs <;> rfl
  | a :: b :: l, l' => by
    have ih := @tensorRanges_append f f' x y h (b :: l) l'
    rw [List.cons_append, List.cons_append, List.cons_append, List.cons_append, tensorRanges, tensorRanges]
    rw [List.cons_append, List.cons_append] at ih
    rw [ih]
    split_ifs <;> rfl

/-- The offsets of a file start and end with offsets of the file. -/
theorem orderHeader_offsets {f : ℕ} {h : Header} {r : Ordered} (hr : orderHeader f h = .ok r) :
    (∃ y l, r.tensorOffsets = (f, y) :: l) ∧ ∃ l x, r.tensorOffsets = l ++ [(f, x)] := by
  obtain ⟨-, -, last, hlast, rfl⟩ := orderHeader_eq_ok_iff.mp hr
  refine ⟨?_, _, _, rfl⟩
  cases hl : byStart startOf h.tensors with
  | nil =>
    rw [hl] at hlast
    cases hlast
  | cons a l => exact ⟨_, _, rfl⟩

theorem sizes_orderFrom : ∀ {hs : List Header} {f : ℕ} {r : Ordered}, orderFrom f hs = .ok r →
    (tensorRanges r.tensorOffsets).map (·.2.2) = r.orderedTensorMetadatas.map fun kv => kv.2.stop - kv.2.start
  | [], f, r, hr => by
    obtain rfl := Except.ok.inj hr
    rfl
  | h :: hs, f, r, hr => by
    obtain ⟨a, ha, h1⟩ := bind_eq_ok hr
    obtain ⟨b, hb, h2⟩ := bind_eq_ok h1
    obtain rfl := Except.ok.inj h2
    have ih := sizes_orderFrom hb
    have hsizes : (tensorRanges a.tensorOffsets).map (·.2.2) =
        a.orderedTensorMetadatas.map fun kv => kv.2.stop - kv.2.start := by
      obtain ⟨-, hc, last, hlast, rfl⟩ := orderHeader_eq_ok_iff.mp ha
      exact sizes_offsetsOf f h.headerSize _ last hc hlast
    rw [List.map_append, ← hsizes, ← ih, ← List.map_append]
    obtain ⟨-, l, x, hx⟩ := orderHeader_offsets ha
    cases hs with
    | nil =>
      obtain rfl := Except.ok.inj hb
      simp [tensorRanges]
    | cons h' hs =>
      obtain ⟨a', ha', h3⟩ := bind_eq_ok hb
      obtain ⟨b', hb', h4⟩ := bind_eq_ok h3
      obtain rfl := Except.ok.inj h4
      obtain ⟨⟨y, l', hy⟩, -⟩ := orderHeader_offsets ha'
      dsimp only
      rw [hx, hy, List.cons_append, List.append_assoc, List.singleton_append,
        tensorRanges_append (Nat.lt_succ_self f).ne]

/-- What the loader needs of the entries: `size_t` has no room for one that
ends before it starts, and `_finalize_buffer_size` makes room for each. -/
structure Loadable (g : Geometry) (r : Ordered) : Prop where
  start_le : ∀ kv ∈ r.orderedTensorMetadatas, kv.2.start ≤ kv.2.stop
  fits : ∀ kv ∈ r.orderedTensorMetadatas, kv.2.stop - kv.2.start ≤ g.effectiveBufferSize

theorem tensorSizes_eq : ∀ l : List (ℕ × ℕ), Layout.tensorSizes l = (tensorRanges l).map (·.2.2)
  | [] => rfl
  | [_] => rfl
  | a :: b :: l => by
    have ih := tensorSizes_eq (b :: l)
    rw [Layout.tensorSizes, tensorRanges, ih]
    split_ifs <;> rfl

theorem chain_offsetsOf (f n : ℕ) : ∀ (l : List NamedTensor) (last : NamedTensor), Contiguous startOf stopOf l →
    l.getLast? = some last → (∀ kv ∈ l, kv.2.start ≤ kv.2.stop) → (offsetsOf f n l last).IsChain OffsetStep
  | [], _, _, h, _ => by cases h
  | [a], last, _, h, hle => by
    obtain rfl : a = last := by simpa using h
    have := hle a (by simp)
    exact List.isChain_pair.mpr (.inl ⟨rfl, by dsimp only; omega⟩)
  | a :: b :: l, last, hc, h, hle => by
    have hab : a.2.stop = b.2.start := (List.isChain_cons_cons.mp hc).1
    have ih := chain_offsetsOf f n (b :: l) last hc.tail (by simpa using h) fun kv hkv =>
      hle kv (List.mem_cons_of_mem a hkv)
    have hcons : offsetsOf f n (a :: b :: l) last = (f, a.2.start + n) :: offsetsOf f n (b :: l) last := rfl
    have hhead : offsetsOf f n (b :: l) last = (f, b.2.start + n) :: (offsetsOf f n (b :: l) last).tail := rfl
    have hstep : OffsetStep (f, a.2.start + n) (f, b.2.start + n) := by
      have := hle a (by simp)
      exact .inl ⟨rfl, by dsimp only; omega⟩
    rw [hcons, hhead, List.isChain_cons_cons, ← hhead]
    exact ⟨hstep, ih⟩

theorem chain_orderFrom : ∀ {hs : List Header} {f : ℕ} {r : Ordered}, orderFrom f hs = .ok r →
    (∀ kv ∈ r.orderedTensorMetadatas, kv.2.start ≤ kv.2.stop) → r.tensorOffsets.IsChain OffsetStep
  | [], f, r, hr, _ => by
    obtain rfl := Except.ok.inj hr
    exact .nil
  | h :: hs, f, r, hr, hle => by
    obtain ⟨a, ha, h1⟩ := bind_eq_ok hr
    obtain ⟨b, hb, h2⟩ := bind_eq_ok h1
    obtain rfl := Except.ok.inj h2
    have hrest := chain_orderFrom hb fun kv hkv => hle kv (List.mem_append_right _ hkv)
    have hfile : a.tensorOffsets.IsChain OffsetStep := by
      obtain ⟨-, hc, last, hlast, rfl⟩ := orderHeader_eq_ok_iff.mp ha
      exact chain_offsetsOf f h.headerSize _ last hc hlast fun kv hkv => hle kv (List.mem_append_left _ hkv)
    refine List.isChain_append.mpr ⟨hfile, hrest, fun x hx y hy => .inr ?_⟩
    obtain ⟨-, l, x', hl⟩ := orderHeader_offsets ha
    rw [hl, List.getLast?_concat, Option.mem_def, Option.some.injEq] at hx
    cases hs with
    | nil =>
      obtain rfl := Except.ok.inj hb
      cases hy
    | cons h' hs =>
      obtain ⟨a', ha', h3⟩ := bind_eq_ok hb
      obtain ⟨b', hb', h4⟩ := bind_eq_ok h3
      obtain rfl := Except.ok.inj h4
      obtain ⟨⟨y', l', hy'⟩, -⟩ := orderHeader_offsets ha'
      dsimp only at hy
      rw [hy', List.cons_append, List.head?_cons, Option.mem_def, Option.some.injEq] at hy
      rw [← hx, ← hy]

/-- What `safe_open` has accepted is a list that `compute_layout` takes. -/
theorem safeOpen_validOffsets {g : Geometry} {h : Header} {hs : List Header} {r : Ordered}
    (hr : safeOpen (h :: hs) = .ok r) (hload : Loadable g r) : ValidOffsets g r.tensorOffsets where
  first := by
    obtain ⟨a, ha, h1⟩ := bind_eq_ok hr
    obtain ⟨b, hb, h2⟩ := bind_eq_ok h1
    obtain rfl := Except.ok.inj h2
    obtain ⟨⟨y, l, hy⟩, -⟩ := orderHeader_offsets ha
    exact ⟨y, by rw [hy]; rfl⟩
  chain := chain_orderFrom hr hload.start_le
  fits := by
    intro n hn
    rw [tensorSizes_eq, sizes_orderFrom hr] at hn
    obtain ⟨kv, hkv, rfl⟩ := List.mem_map.mp hn
    exact hload.fits kv hkv

theorem exists_layout {g : Geometry} {h : Header} {hs : List Header} {r : Ordered}
    (hr : safeOpen (h :: hs) = .ok r) (hload : Loadable g r) : ∃ l, computeLayout g r.tensorOffsets = .ok l := by
  obtain ⟨s, z, hl, -⟩ := computeLayout_induct (safeOpen_validOffsets hr hload) (Q := fun _ _ _ => True)
    (fun _ _ _ => trivial) fun _ _ _ _ _ _ => trivial
  exact ⟨_, hl⟩

/-- The layout has placed as many bytes of a tensor as its offsets are apart. -/
theorem size_tensor {g : Geometry} {hs : List Header} {r : Ordered} {l : Cursors} (hr : safeOpen hs = .ok r)
    (hload : Loadable g r) (hl : computeLayout g r.tensorOffsets = .ok l) {i : ℕ} {kv : NamedTensor}
    (hi : r.orderedTensorMetadatas[i]? = some kv) : ((l.tensor i).size : ℤ) = kv.2.stop - kv.2.start := by
  cases hs with
  | nil =>
    obtain rfl := Except.ok.inj hr
    cases hi
  | cons h hs =>
    obtain ⟨s, z, hl', hs', hq⟩ := computeLayout_induct (safeOpen_validOffsets hr hload)
      (Q := Laid g (tensorRanges r.tensorOffsets)) (fun o l ho => by rw [ho]; exact start_laid g o l)
      fun _ _ _ _ hs hq => hq.step hs
    obtain rfl := Except.ok.inj (hl'.symm.trans hl)
    have hranges := (hq.close hs').ranges
    have hsizes := sizes_orderFrom hr
    rw [← hranges, List.map_map] at hsizes
    have hget := congrArg (fun l : List ℕ => l[i]?) hsizes
    simp only [List.getElem?_map, hi, Option.map_some, Option.map_eq_some_iff] at hget
    obtain ⟨t, ht, hsize⟩ := hget
    have hle := hload.start_le kv (List.mem_of_getElem? hi)
    rw [(tensor_of_getElem? ht).2]
    have hsize' : t.size = kv.2.stop - kv.2.start := hsize
    omega

/-- The views show the bytes of their tensors exactly if shape, dtype and
offsets agree, up to the entry at which the loop ends. -/
theorem tensors_exact_iff {g : Geometry} {hs : List Header} {r : Ordered} {l : Cursors} (hr : safeOpen hs = .ok r)
    (hload : Loadable g r) (hl : computeLayout g r.tensorOffsets = .ok l) (hasattr : String → Bool) :
    AllShown hasattr l r ↔
      ∀ kv ∈ r.orderedTensorMetadatas.takeWhile (Viewable hasattr), Consistent hasattr kv.2 := by
  have hbefore : ∀ {i : ℕ} {kv : NamedTensor}, (r.orderedTensorMetadatas.takeWhile (Viewable hasattr))[i]? = some kv →
      r.orderedTensorMetadatas[i]? = some kv := by
    intro i kv h
    obtain ⟨t, ht⟩ := @List.takeWhile_prefix _ r.orderedTensorMetadatas (Viewable hasattr)
    rw [← ht, List.getElem?_append_left (List.getElem?_eq_some_iff.mp h).1]
    exact h
  constructor
  · intro hall kv hkv dtype hd
    obtain ⟨i, hi⟩ := List.getElem?_of_mem hkv
    obtain ⟨m, hm, hshow⟩ := hall i kv.1 _ ((tensorsFrom_getElem? _ 0 i kv.1 _).mpr ⟨kv.2, dtype, hi, hd, rfl⟩)
    rw [hbefore hi] at hm
    obtain rfl : kv.2 = m := congrArg Prod.snd (Option.some.inj hm)
    rw [← getTensorSize_eq]
    exact hshow.span
  · intro hall i name v hv
    obtain ⟨m, dtype, hi, hd, rfl⟩ := (tensorsFrom_getElem? _ 0 i name v).mp hv
    have hcons := hall (name, m) (List.mem_of_getElem? hi) dtype hd
    have hsize := size_tensor hr hload hl (hbefore hi)
    rw [← getTensorSize_eq] at hcons
    dsimp only at hcons hsize
    refine ⟨m, hbefore hi, hcons, ?_, ?_⟩
    · rw [Nat.zero_add]
      rfl
    · show getTensorSize m.shape dtype = (l.tensor i).size
      omega

/-- A file with one tensor, whose shape needs 16 bytes. -/
def oneFloat4 (stop : ℕ) : Header where
  format := none
  tensors := [("weight", ⟨"F32", [4], 0, stop⟩)]
  headerSize := 128
  nodup := by simp

/-- How the file is opened. -/
def oneFloat4Ordered (stop : ℕ) : Ordered := ⟨[(0, 128), (0, stop + 128)], [("weight", ⟨"F32", [4], 0, stop⟩)]⟩

theorem safeOpen_oneFloat4 (stop : ℕ) : safeOpen [oneFloat4 stop] = .ok (oneFloat4Ordered stop) := by
  have hone : orderHeader 0 (oneFloat4 stop) = .ok (oneFloat4Ordered stop) :=
    orderHeader_eq_ok_iff.mpr ⟨rfl, .singleton _, _, rfl, rfl⟩
  unfold safeOpen
  rw [orderFrom, hone]
  rfl

theorem oneFloat4_loadable {stop : ℕ} (h : stop ≤ 4096) : Loadable pageRing (oneFloat4Ordered stop) where
  start_le := by simp [oneFloat4Ordered]
  fits := by
    have hring : pageRing.effectiveBufferSize = 4096 := rfl
    simpa [oneFloat4Ordered, hring] using h

theorem tensors_exact_iff_oneFloat4 : ∃ l, computeLayout pageRing (oneFloat4Ordered 16).tensorOffsets = .ok l ∧
    AllShown (fun _ => false) l (oneFloat4Ordered 16) := by
  obtain ⟨l, hl⟩ := exists_layout (safeOpen_oneFloat4 16) (oneFloat4_loadable (by decide))
  refine ⟨l, hl, (tensors_exact_iff (safeOpen_oneFloat4 16) (oneFloat4_loadable (by decide)) hl _).mpr ?_⟩
  simp [oneFloat4Ordered, Viewable, Consistent, torchDtype, getTensorSize, TorchDtype.elementSize]

/-- With four bytes between the offsets the view is of 16 bytes all the same. -/
theorem view_exceeds_span : ¬ ∀ (g : Geometry) (hs : List Header) (r : Ordered) (l : Cursors), safeOpen hs = .ok r →
    Loadable g r → computeLayout g r.tensorOffsets = .ok l → ∀ hasattr, AllShown hasattr l r := by
  intro h
  have hload := oneFloat4_loadable (show 4 ≤ 4096 by decide)
  obtain ⟨l, hl⟩ := exists_layout (safeOpen_oneFloat4 4) hload
  obtain ⟨m, hm, hshow⟩ := h _ _ _ l (safeOpen_oneFloat4 4) hload hl (fun _ => false) 0 "weight" _ rfl
  obtain rfl : _ = m := congrArg Prod.snd (Option.some.inj hm)
  have hspan : ((16 : ℕ) : ℤ) = (4 : ℕ) - (0 : ℕ) := hshow.span
  omega

end Frontend
end Siphon
