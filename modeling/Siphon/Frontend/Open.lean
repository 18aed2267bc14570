/-
# The order in which a header lists its tensors

`safe_open.__init__` sorts the entries of each header by where they start,
asks that each ends where the next one starts, and appends their offsets in
the file, with the end of the last one, to the list for `compute_layout`. The
entries come in the order of the JSON object, and the sort is stable: of an
empty tensor and another one at its start, the first in the header stays the
first. The headers that are taken in every order, and always with the same
offsets, are those with a tensor and with their empty tensors at the end
(`safeOpen_order_iff`).

Key definitions: `Header`, `safeOpen`, `SameInEveryOrder`.
Key theorems: `orderHeader_eq_ok_iff`, `safeOpen_order_iff`.
-/
import Siphon.Lib.Fallible
import Siphon.Lib.Ranges

namespace Siphon
namespace Frontend

open Fallible Ranges

/-! ### Headers -/

/-- An entry of a header: `dtype`, `shape` and the two `data_offsets`. -/
structure TensorInfo where
  dtype : String
  shape : List ℕ
  start : ℕ
  stop : ℕ
  deriving DecidableEq, Repr

/-- A name and its entry. -/
abbrev NamedTensor := String × TensorInfo

/-- What `read_safetensors_metadata` returns: the `format` of `__metadata__`,
the entries in the order of the file, and the bytes before the data. -/
structure Header where
  format : Option String
  tensors : List NamedTensor
  headerSize : ℕ
  nodup : (tensors.map Prod.fst).Nodup

/-- The exceptions of the loop over the files. -/
inductive InitError where
  | format
  | notContiguous
  | indexError
  deriving DecidableEq, Repr

/-- The text of the exception. -/
def InitError.message : InitError → String
  | .format => "Siphon only supports pytorch format for now"
  | .notContiguous => "Safetensors data offsets must be contiguous"
  | .indexError => "list index out of range"

/-- `tensor_offsets` and `ordered_tensor_metadatas`. -/
structure Ordered where
  tensorOffsets : List (ℕ × ℕ)
  orderedTensorMetadatas : List NamedTensor
  deriving DecidableEq, Repr

/-- `tensor_sizes` -/
def Ordered.tensorSizes (r : Ordered) : List ℤ :=
  r.orderedTensorMetadatas.map fun kv => (kv.2.stop : ℤ) - kv.2.start

/-- Names, offsets and sizes. -/
def Ordered.triples (r : Ordered) : List (String × ℕ × ℤ) :=
  r.orderedTensorMetadatas.map fun kv => (kv.1, kv.2.start, (kv.2.stop : ℤ) - kv.2.start)

/-- Where a tensor starts in the data, and where it ends. -/
def startOf (kv : NamedTensor) : ℕ := kv.2.start
def stopOf (kv : NamedTensor) : ℕ := kv.2.stop

/-- The offsets of sorted entries in file `fIdx`, of which `last` is the last. -/
def offsetsOf (fIdx headerSize : ℕ) (ordered : List NamedTensor) (last : NamedTensor) : List (ℕ × ℕ) :=
  ordered.map (fun kv => (fIdx, kv.2.start + headerSize)) ++ [(fIdx, last.2.stop + headerSize)]

/-- The body of the loop over the files. -/
def orderHeader (fIdx : ℕ) (h : Header) : Except InitError Ordered :=
  if h.format.getD "pt" ≠ "pt" then .error .format
  else
    let ordered := byStart startOf h.tensors
    if ¬ Contiguous startOf stopOf ordered then .error .notContiguous
    else match ordered.getLast? with
      | none => .error .indexError
      | some last => .ok ⟨offsetsOf fIdx h.headerSize ordered last, ordered⟩

/-- The loop, from file `fIdx` on. -/
def orderFrom : ℕ → List Header → Except InitError Ordered
  | _, [] => .ok ⟨[], []⟩
  | fIdx, h :: hs => do
    let r ← orderHeader fIdx h
    let r' ← orderFrom (fIdx + 1) hs
    .ok ⟨r.tensorOffsets ++ r'.tensorOffsets, r.orderedTensorMetadatas ++ r'.orderedTensorMetadatas⟩

/-- `safe_open.__init__`, with the headers of the files. -/
def safeOpen (hs : List Header) : Except InitError Ordered := orderFrom 0 hs

/-! ### Orders -/

/-- The same header with its keys in another order. -/
structure Reordered (h' h : Header) : Prop where
  format : h'.format = h.format
  headerSize : h'.headerSize = h.headerSize
  tensors : h'.tensors.Perm h.tensors

/-- Two outcomes with the same offsets and the same tensors. -/
structure SameTensors (r' r : Ordered) : Prop where
  offsets : r'.tensorOffsets = r.tensorOffsets
  triples : r'.triples.Perm r.triples

/-- The files are opened, and with any order of the keys in the same way. -/
def SameInEveryOrder (hs : List Header) : Prop :=
  ∃ r, safeOpen hs = .ok r ∧ ∀ hs', List.Forall₂ Reordered hs' hs → ∃ r', safeOpen hs' = .ok r' ∧ SameTensors r' r

/-- The tensors of a header tile the data behind it. -/
def Header.Tiled (h : Header) : Prop := ∃ n, Tile startOf stopOf n h.tensors

/-- The header has a tensor, and its empty tensors are at the end of the data. -/
def Header.EmptyAtEnd (h : Header) : Prop := h.tensors ≠ [] ∧ EmptyLast startOf stopOf h.tensors

/-! ### One header -/

theorem orderHeader_eq_ok_iff {f : ℕ} {h : Header} {r : Ordered} : orderHeader f h = .ok r ↔
    h.format.getD "pt" = "pt" ∧ Contiguous startOf stopOf (byStart startOf h.tensors) ∧
      ∃ last, (byStart startOf h.tensors).getLast? = some last ∧
        r = ⟨offsetsOf f h.headerSize (byStart startOf h.tensors) last, byStart startOf h.tensors⟩ := by
  unfold orderHeader
  dsimp only
  by_cases hf : h.format.getD "pt" = "pt"
  swap
  · rw [if_pos hf]
    exact ⟨fun h => (nomatch h), fun h => absurd h.1 hf⟩
  rw [if_neg (not_not.mpr hf)]
  by_cases hc : Contiguous startOf stopOf (byStart startOf h.tensors)
  swap
  · rw [if_pos hc]
    exact ⟨fun h => (nomatch h), fun h => absurd h.2.1 hc⟩
  rw [if_neg (not_not.mpr hc)]
  cases hl : (byStart startOf h.tensors).getLast? with
  | none => simp
  | some last =>
    simp only [hf, hc, true_and, Option.some.injEq, exists_eq_left', Except.ok.injEq]
    exact eq_comm

theorem nodup_tensors (h : Header) : h.tensors.Nodup := h.nodup.of_map _

/-- The offsets depend on the starts and the last end only. -/
theorem offsetsOf_eq (f n : ℕ) (l : List NamedTensor) (last : NamedTensor) :
    offsetsOf f n l last = (l.map startOf).map (fun o => (f, o + n)) ++ [(f, stopOf last + n)] := by
  unfold offsetsOf
  rw [List.map_map]
  rfl

/-- A header with its empty tensors at the end is taken in every order. -/
theorem orderHeader_reordered {h h' : Header} (ht : h.Tiled) (he : h.EmptyAtEnd) (hf : h.format.getD "pt" = "pt")
    (hr : Reordered h' h) (f : ℕ) :
    ∃ r r', orderHeader f h = .ok r ∧ orderHeader f h' = .ok r' ∧ SameTensors r' r := by
  obtain ⟨n, ht⟩ := ht
  obtain ⟨hne, he⟩ := he
  have hc := contiguous_byStart ht he (nodup_tensors h) (List.Perm.refl _)
  have hc' := contiguous_byStart ht he (nodup_tensors h) hr.tensors
  have hperm : (byStart startOf h'.tensors).Perm (byStart startOf h.tensors) :=
    ((byStart_perm _).trans hr.tensors).trans (byStart_perm _).symm
  have hlast : ∀ l : List NamedTensor, l.Perm h.tensors → ∃ z, l.getLast? = some z := by
    intro l hl
    cases l with
    | nil => exact absurd hl.symm.eq_nil hne
    | cons a l => exact ⟨_, List.getLast?_eq_getLast_of_ne_nil (List.cons_ne_nil a l)⟩
  obtain ⟨z, hz⟩ := hlast _ (byStart_perm _)
  obtain ⟨z', hz'⟩ := hlast _ ((byStart_perm _).trans hr.tensors)
  refine ⟨_, _, orderHeader_eq_ok_iff.mpr ⟨hf, hc, z, hz, rfl⟩,
    orderHeader_eq_ok_iff.mpr ⟨hr.format ▸ hf, hc', z', hz', rfl⟩, ?_, hperm.map _⟩
  have hstop : stopOf z' = stopOf z :=
    stop_getLast_eq hc hc' hperm (fun a ha => ht.start_le a ((byStart_perm _).subset ha)) hz hz'
  dsimp only
  rw [offsetsOf_eq, offsetsOf_eq, map_start_byStart hr.tensors, hstop, hr.headerSize]

/-! ### The files -/

theorem orderFrom_reordered {hs hs' : List Header} (hr : List.Forall₂ Reordered hs' hs) :
    ∀ f, (∀ h ∈ hs, h.Tiled ∧ h.EmptyAtEnd ∧ h.format.getD "pt" = "pt") →
      ∃ r r', orderFrom f hs = .ok r ∧ orderFrom f hs' = .ok r' ∧ SameTensors r' r := by
  induction hr with
  | nil => exact fun f _ => ⟨_, _, rfl, rfl, rfl, .refl _⟩
  | cons hd _ ih =>
    intro f hall
    obtain ⟨⟨ht, he, hf⟩, hrest⟩ := List.forall_mem_cons.mp hall
    obtain ⟨a, a', h1, h2, hsame⟩ := orderHeader_reordered ht he hf hd f
    obtain ⟨b, b', h3, h4, hsame'⟩ := ih (f + 1) hrest
    refine ⟨_, _, by rw [orderFrom, h1, ok_bind, h3, ok_bind], by rw [orderFrom, h2, ok_bind, h4, ok_bind], ?_, ?_⟩
    · rw [hsame.offsets, hsame'.offsets]
    · unfold Ordered.triples
      rw [List.map_append, List.map_append]
      exact hsame.triples.append hsame'.triples

/-- Files are opened only if each header is taken. -/
theorem orderHeader_of_orderFrom : ∀ {hs : List Header} {f : ℕ} {r : Ordered}, orderFrom f hs = .ok r →
    ∀ h ∈ hs, ∃ f' a, orderHeader f' h = .ok a
  | h :: hs, f, r, hr, h', hm => by
    obtain ⟨a, ha, h1⟩ := bind_eq_ok hr
    obtain ⟨b, hb, -⟩ := bind_eq_ok h1
    rcases List.mem_cons.mp hm with rfl | hm
    · exact ⟨f, a, ha⟩
    · exact orderHeader_of_orderFrom hb h' hm

theorem Reordered.refl (h : Header) : Reordered h h := ⟨rfl, rfl, .refl _⟩

theorem forall₂_reordered_self : ∀ hs : List Header, List.Forall₂ Reordered hs hs
  | [] => .nil
  | h :: hs => .cons (Reordered.refl h) (forall₂_reordered_self hs)

/-- A header whose empty tensors are elsewhere is refused in some order. -/
theorem exists_reordered_refused {h : Header} (ht : h.Tiled) (he : ¬ EmptyLast startOf stopOf h.tensors) :
    ∃ h', Reordered h' h ∧ ∀ f r, orderHeader f h' ≠ .ok r := by
  obtain ⟨n, ht⟩ := ht
  obtain ⟨l, hp, hl⟩ := exists_perm_not_contiguous ht he
  refine ⟨⟨h.format, l, h.headerSize, (hp.map Prod.fst).nodup_iff.mpr h.nodup⟩, ⟨rfl, rfl, hp⟩, fun f r hr => ?_⟩
  exact hl (orderHeader_eq_ok_iff.mp hr).2.1

/-- Files are opened in the same way for every order of the keys exactly if
each has a tensor and its empty tensors at the end of the data. -/
theorem safeOpen_order_iff {hs : List Header} (hf : ∀ h ∈ hs, h.format.getD "pt" = "pt")
    (ht : ∀ h ∈ hs, h.Tiled) : SameInEveryOrder hs ↔ ∀ h ∈ hs, h.EmptyAtEnd := by
  constructor
  · rintro ⟨r, hr, hall⟩ h hm
    obtain ⟨f, a, ha⟩ := orderHeader_of_orderFrom hr h hm
    obtain ⟨-, -, last, hlast, -⟩ := orderHeader_eq_ok_iff.mp ha
    constructor
    · intro hnil
      rw [hnil] at hlast
      cases hlast
    · by_contra he
      obtain ⟨h', hr', hrefused⟩ := exists_reordered_refused (ht h hm) he
      obtain ⟨pre, post, rfl⟩ := List.append_of_mem hm
      have hswap : List.Forall₂ Reordered (pre ++ h' :: post) (pre ++ h :: post) :=
        List.rel_append (forall₂_reordered_self pre) (.cons hr' (forall₂_reordered_self post))
      obtain ⟨r', hopen, -⟩ := hall _ hswap
      obtain ⟨f', a', ha'⟩ := orderHeader_of_orderFrom hopen h' (by simp)
      exact hrefused f' a' ha'
  · intro hall
    have hgood : ∀ h ∈ hs, h.Tiled ∧ h.EmptyAtEnd ∧ h.format.getD "pt" = "pt" :=
      fun h hm => ⟨ht h hm, hall h hm, hf h hm⟩
    obtain ⟨r, -, hr, -⟩ := orderFrom_reordered (forall₂_reordered_self hs) 0 hgood
    refine ⟨r, hr, fun hs' hr' => ?_⟩
    obtain ⟨r1, r', h1, h2, hsame⟩ := orderFrom_reordered hr' 0 hgood
    obtain rfl := Except.ok.inj (hr.symm.trans h1)
    exact ⟨r', h2, hsame⟩

/-- A tensor of four bytes, and an empty one behind it in the header. -/
def oneAndEmpty (place : ℕ) : Header where
  format := none
  tensors := [("weight", ⟨"F32", [1], 0, 4⟩), ("empty", ⟨"F32", [0], place, place⟩)]
  headerSize := 128
  nodup := by simp

theorem oneAndEmpty_tiled {place : ℕ} (h : place ≤ 4) : (oneAndEmpty place).Tiled := by
  refine ⟨4, ?_, ?_, fun i hi => ⟨("weight", ⟨"F32", [1], 0, 4⟩), ?_, ?_⟩⟩
  · simp [oneAndEmpty, startOf, stopOf]
  · simp [oneAndEmpty, stopOf, h]
  · simp [oneAndEmpty, startOf, stopOf, hi]
  · rintro a ⟨hm, h1, h2⟩
    simp only [oneAndEmpty, List.mem_cons, List.not_mem_nil, or_false] at hm
    rcases hm with rfl | rfl
    · rfl
    · exact absurd (h1.trans_lt h2) (Nat.lt_irrefl place)

theorem safeOpen_order_iff_oneAndEmpty : SameInEveryOrder [oneAndEmpty 4] :=
  (@safeOpen_order_iff [oneAndEmpty 4] (by decide) (by simpa using oneAndEmpty_tiled (Nat.le_refl 4))).mpr (by
    unfold Header.EmptyAtEnd EmptyLast
    decide)

/-- With the empty tensor at the start of the other one, and behind it in the
header, the file is refused. -/
theorem empty_at_start_refused : ¬ ∀ hs : List Header, (∀ h ∈ hs, h.format.getD "pt" = "pt") →
    (∀ h ∈ hs, h.Tiled) → SameInEveryOrder hs := by
  intro h
  obtain ⟨r, hr, -⟩ := h [oneAndEmpty 0] (by decide) (by simpa using oneAndEmpty_tiled (Nat.zero_le 4))
  have hrefused : safeOpen [oneAndEmpty 0] = .error .notContiguous := by decide
  rw [hrefused] at hr
  cases hr

end Frontend
end Siphon
