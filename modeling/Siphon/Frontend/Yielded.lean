/-
# What `safe_open.tensors` yields

The whole way of a tensor: `safe_open` orders the entries of the headers and
hands their offsets to `compute_layout`, every rank of the group goes through
`tensors()`, and the loaders read, copy and exchange the chunks in any order.
What a rank is given under a name are the bytes between the offsets of the
name's entry in the data of its file, and they stay there until the rank asks
for the next tensor (`tensors_yield`).

Key definitions: `places`, `Checkpoint`, `Yielded`.
-/
import Siphon.Frontend.Views
import Siphon.Ranks.Iteration

namespace Siphon
namespace Frontend

open Fallible Ranges Layout

/-! ### The entries in their files -/

/-- The entries in the order of the tensors, with their files. -/
def placesFrom : ℕ → List Header → List (ℕ × Header × NamedTensor)
  | _, [] => []
  | f, h :: hs => (byStart startOf h.tensors).map (fun kv => (f, h, kv)) ++ placesFrom (f + 1) hs

/-- Where the bytes of an entry are: the file, the offset and the size. -/
def placeRange (p : ℕ × Header × NamedTensor) : ℕ × ℕ × ℕ :=
  (p.1, p.2.2.2.start + p.2.1.headerSize, p.2.2.2.stop - p.2.2.2.start)

theorem mem_placesFrom {p : ℕ × Header × NamedTensor} : ∀ {hs : List Header} {f : ℕ}, p ∈ placesFrom f hs →
    ∃ i, hs[i]? = some p.2.1 ∧ p.1 = f + i ∧ p.2.2 ∈ p.2.1.tensors
  | [], _, h => by cases h
  | h :: hs, f, hp => by
    rcases List.mem_append.mp hp with hp | hp
    · obtain ⟨kv, hkv, rfl⟩ := List.mem_map.mp hp
      exact ⟨0, rfl, rfl, (byStart_perm h.tensors).subset hkv⟩
    · obtain ⟨i, hi, hf, hmem⟩ := mem_placesFrom hp
      exact ⟨i + 1, hi, by omega, hmem⟩

/-- The offsets of the entries of a file. -/
theorem ranges_offsetsOf (f : ℕ) (h : Header) : ∀ (l : List NamedTensor) (last : NamedTensor),
    Contiguous startOf stopOf l → l.getLast? = some last →
    tensorRanges (offsetsOf f h.headerSize l last) = l.map fun kv => placeRange (f, h, kv)
  | [], _, _, hlast => by cases hlast
  | [a], last, _, hlast => by
    obtain rfl : a = last := by simpa using hlast
    simp [offsetsOf, tensorRanges, placeRange, Nat.add_sub_add_right]
  | a :: b :: l, last, hc, hlast => by
    have hab : a.2.stop = b.2.start := (List.isChain_cons_cons.mp hc).1
    have ih := ranges_offsetsOf f h (b :: l) last hc.tail (by simpa using hlast)
    have hcons : offsetsOf f h.headerSize (a :: b :: l) last =
        (f, a.2.start + h.headerSize) :: offsetsOf f h.headerSize (b :: l) last := rfl
    have hhead : offsetsOf f h.headerSize (b :: l) last =
        (f, b.2.start + h.headerSize) :: (offsetsOf f h.headerSize (b :: l) last).tail := rfl
    rw [hcons, hhead, tensorRanges, if_pos rfl, ← hhead, ih, List.map_cons]
    simp [placeRange, hab, Nat.add_sub_add_right]

/-- The tensors of the offset list are the entries, in order. -/
theorem ranges_orderFrom : ∀ {hs : List Header} {f : ℕ} {r : Ordered}, orderFrom f hs = .ok r →
    tensorRanges r.tensorOffsets = (placesFrom f hs).map placeRange ∧
      r.orderedTensorMetadatas = (placesFrom f hs).map (·.2.2)
  | [], f, r, hr => by
    obtain rfl := Except.ok.inj hr
    exact ⟨rfl, rfl⟩
  | h :: hs, f, r, hr => by
    obtain ⟨a, ha, h1⟩ := bind_eq_ok hr
    obtain ⟨b, hb, h2⟩ := bind_eq_ok h1
    obtain rfl := Except.ok.inj h2
    obtain ⟨ih, ihm⟩ := ranges_orderFrom hb
    have hfile : tensorRanges a.tensorOffsets = (byStart startOf h.tensors).map fun kv => placeRange (f, h, kv) := by
      obtain ⟨-, hc, last, hlast, rfl⟩ := orderHeader_eq_ok_iff.mp ha
      exact ranges_offsetsOf f h _ last hc hlast
    have hnames : a.orderedTensorMetadatas = byStart startOf h.tensors := by
      obtain ⟨-, -, last, -, rfl⟩ := orderHeader_eq_ok_iff.mp ha
      rfl
    constructor
    · rw [placesFrom, List.map_append, List.map_map, ← ih]
      have hfile' : tensorRanges a.tensorOffsets =
          (byStart startOf h.tensors).map (placeRange ∘ fun kv => (f, h, kv)) := hfile
      rw [← hfile']
      obtain ⟨-, l, x, hx⟩ := orderHeader_offsets ha
      cases hs with
      | nil =>
        obtain rfl := Except.ok.inj hb
        simp [tensorRanges]
      | cons h' hs =>
        obtain ⟨a', ha', h3⟩ := bind_eq_ok hb
        obtain ⟨b', hb', h4⟩ := bind_eq_ok h3
        obtain rfl := Except.ok.inj h4
        obtain ⟨⟨y, l', hy⟩, -⟩ := orderHeader_offsets ha'
        dsimp only
        rw [hx, hy, List.cons_append, List.append_assoc, List.singleton_append,
          tensorRanges_append (Nat.lt_succ_self f).ne]
    · rw [placesFrom, List.map_append, List.map_map, ← ihm, hnames]
      simp [Function.comp_def]

/-! ### The group -/

/-- A group that has opened the files of the headers. -/
structure Checkpoint (w : Ranks.Setup) (hs : List Header) (r : Ordered) : Prop where
  ordered : safeOpen hs = .ok r
  opened : w.Opened r.tensorOffsets
  pages : PageStarts w.g r.tensorOffsets
  aligned : firstTensorAlignment ∣ w.g.rankAlignment

/-- The `n`-th view is of the `n`-th entry, and shows the entry's bytes of its
file on the rank. -/
structure Yielded (w : Ranks.Setup) (hs : List Header) (r : Ordered) (views : List (String × DlTensor))
    (s : Ranks.World) (rank n : ℕ) : Prop where
  entry : ∃ (f : ℕ) (h : Header) (name : String) (m : TensorInfo) (v : DlTensor), hs[f]? = some h ∧
    (name, m) ∈ h.tensors ∧ r.orderedTensorMetadatas[n]? = some (name, m) ∧ views[n]? = some (name, v) ∧
    (v.size : ℤ) = m.stop - m.start ∧
    ∀ b < v.size, s.device rank (v.dataPtr + b) = w.files f (h.headerSize + m.start + b)

/-- What a rank has of its tensors: the one it is given, and the one it took
last until it asks for the next. -/
structure Loop (w : Ranks.Setup) (hs : List Header) (r : Ordered) (views : List (String × DlTensor))
    (s : Ranks.Iteration) (rank : ℕ) : Prop where
  given : ∀ index, (s.world.loaders rank).2 = .returned index →
    index = s.taken rank ∧ Yielded w hs r views s.world rank index
  last : ∀ n, s.taken rank = n + 1 → (s.world.loaders rank).2.target = none →
    Yielded w hs r views s.world rank n

section Views

variable {w : Ranks.Setup} {hs : List Header} {r : Ordered} {hasattr : String → Bool} {l : Cursors}

/-- A delivered tensor is what its view shows. -/
theorem Checkpoint.yielded (hc : Checkpoint w hs r) (hl : computeLayout w.g r.tensorOffsets = .ok l)
    (hcons : ∀ kv ∈ r.orderedTensorMetadatas, Consistent hasattr kv.2) {s : Ranks.World} {rank n : ℕ}
    (hn : n < (tensors hasattr l r).1.length)
    (hdel : ∀ t, w.tensors[n]? = some t → Ranks.Delivered w s rank t) :
    Yielded w hs r (tensors hasattr l r).1 s rank n := by
  obtain ⟨l', hl', htensors, -⟩ := hc.opened.layout
  obtain rfl := Except.ok.inj (hl.symm.trans hl')
  obtain ⟨l', hl', hheld⟩ := computeLayout_held w.g r.tensorOffsets hc.opened.valid
  obtain rfl := Except.ok.inj (hl.symm.trans hl')
  obtain ⟨hranges, hnames⟩ := ranges_orderFrom hc.ordered
  -- the view, its entry, the entry's place and the tensor of the layout
  obtain ⟨⟨name, v⟩, hv⟩ : ∃ kv, (tensors hasattr l r).1[n]? = some kv := ⟨_, List.getElem?_eq_getElem hn⟩
  obtain ⟨m, dtype, hm, hd, rfl⟩ := (tensorsFrom_getElem? _ 0 n name v).mp hv
  have hentry : r.orderedTensorMetadatas[n]? = some (name, m) := by
    obtain ⟨rest, hrest⟩ := @List.takeWhile_prefix _ r.orderedTensorMetadatas (Viewable hasattr)
    rw [← hrest, List.getElem?_append_left (List.getElem?_eq_some_iff.mp hm).1, hm]
  have hplace := congrArg (fun l : List NamedTensor => l[n]?) hnames
  simp only [hentry, List.getElem?_map] at hplace
  obtain ⟨⟨f, h, kv⟩, hp, hkv⟩ := Option.map_eq_some_iff.mp hplace.symm
  obtain rfl : kv = (name, m) := hkv
  obtain ⟨i, hi, hf, hmem⟩ := mem_placesFrom (List.mem_of_getElem? hp)
  obtain rfl : f = i := by simpa using hf
  have ht := congrArg (fun l : List (ℕ × ℕ × ℕ) => l[n]?) (hheld.payload.ranges.trans hranges)
  simp only [List.getElem?_map, hp, Option.map_some, Option.map_eq_some_iff] at ht
  obtain ⟨t, ht, hrange⟩ := ht
  obtain ⟨hfile, hoffset, hsize⟩ : t.fileIndex = f ∧ t.fileOffset = m.start + h.headerSize ∧
      t.size = m.stop - m.start := by
    simpa [range, placeRange] using hrange
  have hspan := hcons (name, m) (List.mem_of_getElem? hentry) dtype hd
  rw [← getTensorSize_eq] at hspan
  refine ⟨f, h, name, m, _, hi, hmem, hentry, hv, hspan, fun b hb => ?_⟩
  have hdelivered := hdel t (htensors ▸ ht) b (by simp only [getDlTensor] at hb hspan; omega)
  rw [hfile, hoffset] at hdelivered
  have hdata : (getDlTensor l (0 + n) (getTensorSize m.shape dtype)).dataPtr = t.deviceBufferOffset := by
    rw [Nat.zero_add, getDlTensor, (tensor_of_getElem? ht).2]
  rw [hdata, hdelivered, Nat.add_comm m.start]

/-- There are no more views than tensors. -/
theorem Checkpoint.length_tensors_le (hc : Checkpoint w hs r) (hl : computeLayout w.g r.tensorOffsets = .ok l)
    (hasattr : String → Bool) : (tensors hasattr l r).1.length ≤ w.tensors.length := by
  obtain ⟨l', hl', htensors, -⟩ := hc.opened.layout
  obtain rfl := Except.ok.inj (hl.symm.trans hl')
  obtain ⟨l', hl', hheld⟩ := computeLayout_held w.g r.tensorOffsets hc.opened.valid
  obtain rfl := Except.ok.inj (hl.symm.trans hl')
  obtain ⟨hranges, hnames⟩ := ranges_orderFrom hc.ordered
  have hlen : w.tensors.length = r.orderedTensorMetadatas.length := by
    rw [← htensors, ← List.length_map range, hheld.payload.ranges, hranges, hnames, List.length_map, List.length_map]
  rw [hlen]
  by_contra hlt
  obtain ⟨⟨name, v⟩, hv⟩ : ∃ kv, (tensors hasattr l r).1[r.orderedTensorMetadatas.length]? = some kv :=
    ⟨_, List.getElem?_eq_getElem (not_le.mp hlt)⟩
  obtain ⟨m, dtype, hm, -⟩ := (tensorsFrom_getElem? _ 0 _ name v).mp hv
  have hle := (@List.takeWhile_prefix _ r.orderedTensorMetadatas (Viewable hasattr)).length_le
  have hin := (List.getElem?_eq_some_iff.mp hm).1
  omega

end Views

/-- **`tensors()` yields the files.** Every rank of a group goes through the
tensors of a checkpoint. In every order of the callers, the loader threads,
the reads, the copies and the exchanges, the tensor that a rank is given next
is the next entry, its view shows exactly the bytes between the offsets of
the entry in the data of the file, and so does the view of the last one until
the rank asks for another. -/
theorem tensors_yield (w : Ranks.Setup) (hs : List Header) (r : Ordered) (hc : Checkpoint w hs r)
    (hasattr : String → Bool) (l : Cursors) (hl : computeLayout w.g r.tensorOffsets = .ok l)
    (hcons : ∀ kv ∈ r.orderedTensorMetadatas, Consistent hasattr kv.2) (buffers : ℕ → Io.RankBuffers)
    (s : Ranks.Iteration)
    (hreach : (Ranks.iteration w (tensors hasattr l r).1.length buffers).Reachable s) (rank : ℕ)
    (hr : rank < w.g.worldSize) : Loop w hs r (tensors hasattr l r).1 s rank := by
  have hcount := hc.length_tensors_le hl hasattr
  have hit := Ranks.iterates_of_reachable hc.opened.ok hcount hreach
  have hgiven := hit.given hc.opened.ok hr (Ranks.serves_of_inOrder hc.opened hc.pages hc.aligned hit.ordered hr)
  constructor
  · intro index hret
    obtain ⟨htaken, hlt, hdel⟩ := hgiven.returned index hret
    exact ⟨htaken, hc.yielded hl hcons hlt hdel⟩
  · intro n htaken hnone
    obtain ⟨hlt, hdel⟩ := hgiven.last n htaken hnone
    exact hc.yielded hl hcons hlt hdel

/-- The header of the file with a small tensor and a large one. -/
def twoTensorsHeader : Header where
  format := some "pt"
  tensors := [("large", ⟨"U8", [64, 4096], 45056, 307200⟩), ("small", ⟨"U8", [45056], 0, 45056⟩)]
  headerSize := 4096
  nodup := by simp

/-- How the file is opened: the entries in the order of their offsets. -/
def twoTensorsOrdered : Ordered where
  tensorOffsets := [(0, 4096), (0, 49152), (0, 311296)]
  orderedTensorMetadatas := [("small", ⟨"U8", [45056], 0, 45056⟩), ("large", ⟨"U8", [64, 4096], 45056, 307200⟩)]

theorem twoTensors_checkpoint : Checkpoint Ranks.smallThenLarge [twoTensorsHeader] twoTensorsOrdered where
  ordered := by decide
  opened := Ranks.smallThenLarge_opened
  pages := by decide
  aligned := by decide

/-- Rank 0 of two is given the large tensor. -/
theorem tensors_yield_bothInOrder : ∃ l, computeLayout Ranks.smallThenLarge.g twoTensorsOrdered.tensorOffsets = .ok l ∧
    ∃ s, (s.world.loaders 0).2 = .returned 1 ∧ s.taken 0 = 1 ∧
      Loop Ranks.smallThenLarge [twoTensorsHeader] twoTensorsOrdered (tensors (fun _ => false) l twoTensorsOrdered).1
        s 0 := by
  obtain ⟨l, hl, -⟩ := Ranks.smallThenLarge_opened.layout
  have hlen : (tensors (fun _ => false) l twoTensorsOrdered).1.length = 2 := rfl
  obtain ⟨s, hs, hp⟩ := (Ranks.iteration Ranks.smallThenLarge 2 Ranks.zeroBuffers).exists_reachable
    Ranks.bothInOrder (fun s => decide ((s.world.loaders 0).2 = .returned 1 ∧ s.taken 0 = 1)) (by decide +kernel)
  obtain ⟨hret, htaken⟩ := of_decide_eq_true hp
  rw [← hlen] at hs
  refine ⟨l, hl, s, hret, htaken, tensors_yield _ _ _ twoTensors_checkpoint _ l hl ?_ Ranks.zeroBuffers s hs 0
    (by decide)⟩
  simp [twoTensorsOrdered, Consistent, torchDtype, TorchDtype.elementSize]

end Frontend
end Siphon
