/-
# The reads of a shard

`plan_shard` rounds the bytes of each tensor outward to blocks and merges a
rounded span into the last range when the gap between them is small enough.
The tensors come sorted by their start, so a span never begins before the
last range, but it may end before it, and spans may repeat, nest or share
blocks.

`Planned` is the invariant of the loop, over the spans of the tensors so far;
its last field, that each range begins with the block of a tensor inside it,
is what keeps the ranges apart from the spans still to come. For a header
that `read_header` accepts the plan is safe (`planShard_safe`), and the fuzz
oracle `check_plan`, which walks the ranges and the tensors side by side,
accepts it (`checkPlan_eq_none`); `plan_accepted` says both.
-/
import Mathlib.Data.List.TakeWhile
import Siphon.Lib.Rounding
import Siphon.Lib.Utf8
import Siphon.Stloader.Header

namespace Siphon
namespace Stloader

open U64 Rounding

/-! ### The planner -/

/-- A block-aligned read. -/
structure Range where
  offset : ℕ
  len : ℕ
  deriving DecidableEq, Repr

/-- `Range::end`. -/
def Range.stop (r : Range) : ℕ := saturatingAdd r.offset r.len

/-- `floor_to`. -/
def floorTo (x b : ℕ) : ℕ := x / max b 1 * max b 1

/-- `ceil_to`. -/
def ceilTo (x b : ℕ) : ℕ := saturatingMul (divCeil x (max b 1)) (max b 1)

/-- One tensor of the loop of `plan_shard`. -/
def planTensor (dataStart block maxGap fileCeil : ℕ) (out : List Range) (t : TensorInfo) : List Range :=
  if t.nbytes = 0 then out
  else
    let a₀ := min (floorTo (t.absRange dataStart).1 block) fileCeil
    let a₁ := min (ceilTo (t.absRange dataStart).2 block) fileCeil
    if a₁ ≤ a₀ then out
    else
      match out.getLast? with
      | some last =>
        if a₀ ≤ saturatingAdd last.stop maxGap then
          out.dropLast ++ [⟨last.offset, max last.stop a₁ - last.offset⟩]
        else out ++ [⟨a₀, a₁ - a₀⟩]
      | none => out ++ [⟨a₀, a₁ - a₀⟩]

/-- `plan_shard`. -/
def planShard (h : ShardHeader) (block maxGap : ℕ) : List Range :=
  h.tensors.foldl (planTensor h.dataStart (max block 1) maxGap (ceilTo h.fileSize (max block 1))) []

/-! ### The fuzz oracle -/

/-- What `check_plan` can find. -/
inductive PlanFault where
  | zeroLength (offset : ℕ)
  | offsetUnaligned (offset : ℕ)
  | lenUnaligned (len : ℕ)
  | pastCeil (offset stop fileCeil : ℕ)
  | overlap (offset stop offset' stop' : ℕ)
  | tensorPastFile (name : String) (stop fileSize : ℕ)
  | notCovered (name : String) (start stop : ℕ)
  | notContained (name : String) (start stop offset rangeStop : ℕ)
  | wasted (offset stop : ℕ)
  deriving DecidableEq, Repr

/-- The text of a finding. -/
def PlanFault.message : PlanFault → String
  | zeroLength o => "zero-length range at " ++ toString o
  | offsetUnaligned o => "range offset " ++ toString o ++ " not block-aligned"
  | lenUnaligned n => "range len " ++ toString n ++ " not block-aligned"
  | pastCeil o e c =>
    "range [" ++ toString o ++ ", " ++ toString e ++ ") extends past ceil(file_size)=" ++ toString c
  | overlap o e o' e' =>
    "ranges overlap: [" ++ toString o ++ "," ++ toString e ++ ") then [" ++ toString o' ++ "," ++
      toString e' ++ ")"
  | tensorPastFile n e s =>
    "tensor " ++ n ++ " ends at " ++ toString e ++ " past file_size " ++ toString s
  | notCovered n s e =>
    "tensor " ++ n ++ " [" ++ toString s ++ "," ++ toString e ++ ") has no covering range"
  | notContained n s e o e' =>
    "tensor " ++ n ++ " [" ++ toString s ++ "," ++ toString e ++ ") not contained in range [" ++
      toString o ++ "," ++ toString e' ++ ")"
  | wasted o e =>
    "range [" ++ toString o ++ ", " ++ toString e ++ ") covers no tensor bytes (wasted read)"

/-- The checks of one range. -/
def checkRange (block fileCeil : ℕ) (r : Range) : Option PlanFault :=
  if r.len = 0 then some (.zeroLength r.offset)
  else if r.offset % block ≠ 0 then some (.offsetUnaligned r.offset)
  else if r.len % block ≠ 0 then some (.lenUnaligned r.len)
  else if fileCeil < r.stop then some (.pastCeil r.offset r.stop fileCeil)
  else none

/-- The loop over `windows(2)`. -/
def checkWindows : List Range → Option PlanFault
  | r :: r' :: rs =>
    if r'.offset < r.stop then some (.overlap r.offset r.stop r'.offset r'.stop)
    else checkWindows (r' :: rs)
  | _ => none

/-- The loop over the tensors; `rs` is the plan from `ri` on. -/
def checkTensors (dataStart fileSize : ℕ) : List Range → List TensorInfo → Option PlanFault
  | _, [] => none
  | rs, t :: ts =>
    if t.nbytes = 0 then checkTensors dataStart fileSize rs ts
    else
      let s := (t.absRange dataStart).1
      let e := (t.absRange dataStart).2
      if fileSize < e then some (.tensorPastFile t.name e fileSize)
      else
        let rs := rs.dropWhile fun r => r.stop ≤ s
        match rs.head? with
        | none => some (.notCovered t.name s e)
        | some r =>
          if s < r.offset ∨ r.stop < e then some (.notContained t.name s e r.offset r.stop)
          else checkTensors dataStart fileSize rs ts

/-- The loop over the ranges; `ts` is the tensors from `ti` on. -/
def checkRanges (dataStart block : ℕ) : List TensorInfo → List Range → Option PlanFault
  | _, [] => none
  | ts, r :: rs =>
    let ts := ts.dropWhile fun t =>
      t.nbytes = 0 ∨ ceilTo (t.absRange dataStart).2 block ≤ r.offset
    match ts.head? with
    | none => some (.wasted r.offset r.stop)
    | some t =>
      if floorTo (t.absRange dataStart).1 block < r.stop then checkRanges dataStart block ts rs
      else some (.wasted r.offset r.stop)

/-- `check_plan`: the first fault of the plan with no gap, if any. -/
def checkPlan (h : ShardHeader) (block : ℕ) : Option PlanFault :=
  let plan := planShard h block 0
  (plan.findSome? (checkRange block (ceilTo h.fileSize block))).or <|
    (checkWindows plan).or <|
      (checkTensors h.dataStart h.fileSize plan h.tensors).or <|
        checkRanges h.dataStart block h.tensors plan

/-! ### The invariant of the loop -/

/-- The bytes, in the file, of the tensors that are not empty. -/
def spans (dataStart : ℕ) (ts : List TensorInfo) : List (ℕ × ℕ) :=
  (ts.filter fun t => t.nbytes ≠ 0).map (TensorInfo.absRange · dataStart)

/-- A range of whole blocks inside the file's, which begins with the first
block of a span inside it. -/
structure Range.Ok (block fileCeil : ℕ) (done : List (ℕ × ℕ)) (r : Range) : Prop where
  nonempty : 0 < r.len
  dvd_offset : block ∣ r.offset
  dvd_len : block ∣ r.len
  inside : r.offset + r.len ≤ fileCeil
  begins : ∃ p ∈ done, p.1 < p.2 ∧ roundDown p.1 block = r.offset ∧ p.2 ≤ r.offset + r.len

/-- The ranges made of the spans so far. -/
structure Planned (block maxGap fileCeil : ℕ) (done : List (ℕ × ℕ)) (out : List Range) : Prop where
  ok : ∀ r ∈ out, r.Ok block fileCeil done
  apart : out.Pairwise fun a b => a.offset + a.len + maxGap < b.offset
  covers : ∀ p ∈ done, ∃ r ∈ out, r.offset ≤ p.1 ∧ p.2 ≤ r.offset + r.len

section Steps

variable {block maxGap fileCeil : ℕ} {done : List (ℕ × ℕ)} {out : List Range} {s e : ℕ}

theorem planned_nil : Planned block maxGap fileCeil [] [] where
  ok := by simp
  apart := .nil
  covers := by simp

theorem Range.Ok.snoc {r : Range} (h : r.Ok block fileCeil done) (p : ℕ × ℕ) :
    r.Ok block fileCeil (done ++ [p]) :=
  { h with
    begins := by
      obtain ⟨q, hq, hin⟩ := h.begins
      exact ⟨q, List.mem_append_left _ hq, hin⟩ }

/-- No range begins behind a span that begins behind no span so far. -/
theorem Planned.offset_le (h : Planned block maxGap fileCeil done out) (hs : ∀ p ∈ done, p.1 ≤ s) :
    ∀ r ∈ out, r.offset ≤ roundDown s block := by
  intro r hr
  obtain ⟨p, hp, -, he, -⟩ := (h.ok r hr).begins
  rw [← he]
  exact roundDown_mono (hs p hp)

/-- A span more than the gap behind every range becomes a range of its own. -/
theorem Planned.push (h : Planned block maxGap fileCeil done out) (hb : 0 < block) (hse : s < e)
    (hc : roundUp e block ≤ fileCeil)
    (hfar : ∀ r ∈ out, r.offset + r.len + maxGap < roundDown s block) :
    Planned block maxGap fileCeil (done ++ [(s, e)])
      (out ++ [⟨roundDown s block, roundUp e block - roundDown s block⟩]) := by
  have h1 := roundDown_le s block
  have h2 := le_roundUp hb e
  have hstop : roundDown s block + (roundUp e block - roundDown s block) = roundUp e block := by omega
  have hnew : Range.Ok block fileCeil (done ++ [(s, e)])
      ⟨roundDown s block, roundUp e block - roundDown s block⟩ :=
    { nonempty := by simp only; omega
      dvd_offset := dvd_roundDown s block
      dvd_len := Nat.dvd_sub (dvd_roundUp e block) (dvd_roundDown s block)
      inside := hstop.le.trans hc
      begins := ⟨(s, e), by simp, hse, rfl, h2.trans hstop.ge⟩ }
  refine ⟨?_, ?_, ?_⟩
  · intro r hr
    rcases List.mem_append.mp hr with hr | hr
    · exact (h.ok r hr).snoc _
    · rw [List.mem_singleton.mp hr]
      exact hnew
  · apply List.pairwise_append.mpr
    refine ⟨h.apart, List.pairwise_singleton _ _, fun r hr r' hr' => ?_⟩
    rw [List.mem_singleton.mp hr']
    exact hfar r hr
  · intro p hp
    rcases List.mem_append.mp hp with hp | hp
    · obtain ⟨r, hr, hin⟩ := h.covers p hp
      exact ⟨r, List.mem_append_left _ hr, hin⟩
    · rw [List.mem_singleton.mp hp]
      exact ⟨_, List.mem_append_right _ (List.mem_singleton_self _), h1, h2.trans hstop.ge⟩

/-- A span that begins in the last range, or close behind it, is taken into
it. -/
theorem Planned.extend {last : Range} (h : Planned block maxGap fileCeil done (out ++ [last]))
    (hb : 0 < block) (hc : roundUp e block ≤ fileCeil) (hle : last.offset ≤ roundDown s block) :
    Planned block maxGap fileCeil (done ++ [(s, e)])
      (out ++ [⟨last.offset, max (last.offset + last.len) (roundUp e block) - last.offset⟩]) := by
  have h1 := roundDown_le s block
  have h2 := le_roundUp hb e
  have hlast := h.ok last (by simp)
  have hpos := hlast.nonempty
  have hin := hlast.inside
  have hstop : last.offset + (max (last.offset + last.len) (roundUp e block) - last.offset) =
      max (last.offset + last.len) (roundUp e block) := by omega
  have hnew : Range.Ok block fileCeil (done ++ [(s, e)])
      ⟨last.offset, max (last.offset + last.len) (roundUp e block) - last.offset⟩ :=
    { nonempty := by simp only; omega
      dvd_offset := hlast.dvd_offset
      dvd_len := by
        apply Nat.dvd_sub _ hlast.dvd_offset
        rcases max_choice (last.offset + last.len) (roundUp e block) with hm | hm
        · rw [hm]
          exact Nat.dvd_add hlast.dvd_offset hlast.dvd_len
        · rw [hm]
          exact dvd_roundUp e block
      inside := by simp only; omega
      begins := by
        obtain ⟨p, hp, h3, h4, h5⟩ := hlast.begins
        exact ⟨p, List.mem_append_left _ hp, h3, h4, by simp only; omega⟩ }
  refine ⟨?_, ?_, ?_⟩
  · intro r hr
    rcases List.mem_append.mp hr with hr | hr
    · exact (h.ok r (List.mem_append_left _ hr)).snoc _
    · rw [List.mem_singleton.mp hr]
      exact hnew
  · obtain ⟨hp, -, hx⟩ := List.pairwise_append.mp h.apart
    apply List.pairwise_append.mpr
    refine ⟨hp, List.pairwise_singleton _ _, fun r hr r' hr' => ?_⟩
    rw [List.mem_singleton.mp hr']
    exact hx r hr last (List.mem_singleton_self last)
  · intro p hp
    rcases List.mem_append.mp hp with hp | hp
    · obtain ⟨r, hr, h3, h4⟩ := h.covers p hp
      rcases List.mem_append.mp hr with hr | hr
      · exact ⟨r, List.mem_append_left _ hr, h3, h4⟩
      · obtain rfl := List.mem_singleton.mp hr
        exact ⟨_, List.mem_append_right _ (List.mem_singleton_self _), h3, by simp only; omega⟩
    · rw [List.mem_singleton.mp hp]
      exact ⟨_, List.mem_append_right _ (List.mem_singleton_self _), hle.trans h1, by simp only; omega⟩

/-- A span is placed with the ranges so far, behind none of which it begins. -/
theorem Planned.place (h : Planned block maxGap fileCeil done out) (hb : 0 < block) (hse : s < e)
    (hc : roundUp e block ≤ fileCeil) (hs : ∀ p ∈ done, p.1 ≤ s) (hmax : fileCeil ≤ maxValue) :
    Planned block maxGap fileCeil (done ++ [(s, e)])
      (match out.getLast? with
        | some last =>
          if roundDown s block ≤ saturatingAdd last.stop maxGap then
            out.dropLast ++ [⟨last.offset, max last.stop (roundUp e block) - last.offset⟩]
          else out ++ [⟨roundDown s block, roundUp e block - roundDown s block⟩]
        | none => out ++ [⟨roundDown s block, roundUp e block - roundDown s block⟩]) := by
  have h1 := roundDown_le s block
  have h2 := le_roundUp hb e
  rcases List.eq_nil_or_concat out with rfl | ⟨out, last, rfl⟩
  · exact h.push hb hse hc (by simp)
  · rw [List.concat_eq_append] at h ⊢
    have hlast := h.ok last (by simp)
    have hstop : last.stop = last.offset + last.len :=
      saturatingAdd_of_le (hlast.inside.trans hmax)
    rw [List.getLast?_concat]
    simp only [List.dropLast_concat, hstop]
    by_cases hnear : roundDown s block ≤ saturatingAdd (last.offset + last.len) maxGap
    · rw [if_pos hnear]
      exact h.extend hb hc (h.offset_le hs last (by simp))
    · rw [if_neg hnear]
      rw [le_saturatingAdd_iff (by omega), not_le] at hnear
      apply h.push hb hse hc
      intro r hr
      rcases List.mem_append.mp hr with hr | hr
      · have := (List.pairwise_append.mp h.apart).2.2 r hr last (List.mem_singleton_self last)
        omega
      · rw [List.mem_singleton.mp hr]
        exact hnear

end Steps

section Shard

variable {hd : ShardHeader} {block : ℕ}

theorem floorTo_eq (hb : 0 < block) (x : ℕ) : floorTo x block = roundDown x block := by
  rw [floorTo, max_eq_left hb]
  rfl

theorem ceilTo_eq (hb : 0 < block) {x : ℕ} (h : roundUp x block ≤ maxValue) :
    ceilTo x block = roundUp x block := by
  rw [ceilTo, max_eq_left hb]
  exact saturatingMul_of_le h

theorem spans_cons_of_empty {t : TensorInfo} (h : t.nbytes = 0) (dataStart : ℕ) (ts : List TensorInfo) :
    spans dataStart (t :: ts) = spans dataStart ts := by
  simp [spans, h]

theorem spans_cons {t : TensorInfo} (h : t.nbytes ≠ 0) (dataStart : ℕ) (ts : List TensorInfo) :
    spans dataStart (t :: ts) = t.absRange dataStart :: spans dataStart ts := by
  simp [spans, h]

/-- The clamped blocks of a tensor in the file are its own. -/
theorem clamped_eq {dataStart fileSize : ℕ} {t : TensorInfo} (hb : 0 < block)
    (hmax : roundUp fileSize block ≤ maxValue) (ht : dataStart + t.stop ≤ fileSize) (h0 : t.nbytes ≠ 0) :
    min (floorTo (t.absRange dataStart).1 block) (roundUp fileSize block) = roundDown (dataStart + t.start) block ∧
      min (ceilTo (t.absRange dataStart).2 block) (roundUp fileSize block) = roundUp (dataStart + t.stop) block ∧
        roundDown (dataStart + t.start) block < roundUp (dataStart + t.stop) block := by
  have hse : dataStart + t.start < dataStart + t.stop := by
    unfold TensorInfo.nbytes at h0
    omega
  have hc : roundUp (dataStart + t.stop) block ≤ roundUp fileSize block := roundUp_mono hb ht
  have h1 := roundDown_le (dataStart + t.start) block
  have h2 := le_roundUp hb (dataStart + t.stop)
  refine ⟨?_, ?_, by omega⟩
  · rw [floorTo_eq hb]
    exact min_eq_left (by simp only [TensorInfo.absRange]; omega)
  · show min (ceilTo (dataStart + t.stop) block) _ = _
    rw [ceilTo_eq hb (hc.trans hmax)]
    exact min_eq_left hc

/-- One tensor of the loop. -/
theorem Planned.planTensor {maxGap dataStart fileSize : ℕ} {done : List (ℕ × ℕ)} {out : List Range}
    {t : TensorInfo} (h : Planned block maxGap (roundUp fileSize block) done out) (hb : 0 < block)
    (hmax : roundUp fileSize block ≤ maxValue) (ht : dataStart + t.stop ≤ fileSize)
    (hs : ∀ p ∈ done, p.1 ≤ dataStart + t.start) :
    Planned block maxGap (roundUp fileSize block) (done ++ spans dataStart [t])
      (planTensor dataStart block maxGap (roundUp fileSize block) out t) := by
  unfold Stloader.planTensor
  by_cases h0 : t.nbytes = 0
  · rw [if_pos h0, spans_cons_of_empty h0]
    simpa [spans] using h
  · rw [if_neg h0, spans_cons h0]
    have hse : dataStart + t.start < dataStart + t.stop := by
      unfold TensorInfo.nbytes at h0
      omega
    obtain ⟨ha₀, ha₁, hlt⟩ := clamped_eq hb hmax ht h0
    simp only [ha₀, ha₁]
    rw [if_neg (by omega)]
    exact h.place hb hse (roundUp_mono hb ht) hs hmax

/-- The whole loop. -/
theorem Planned.foldl {maxGap dataStart fileSize : ℕ} (hb : 0 < block)
    (hmax : roundUp fileSize block ≤ maxValue) {ts : List TensorInfo} :
    ∀ {done : List (ℕ × ℕ)} {out : List Range},
    Planned block maxGap (roundUp fileSize block) done out →
    (∀ t ∈ ts, dataStart + t.stop ≤ fileSize) → ts.Pairwise (fun a b => a.start ≤ b.start) →
    (∀ p ∈ done, ∀ t ∈ ts, p.1 ≤ dataStart + t.start) →
    Planned block maxGap (roundUp fileSize block) (done ++ spans dataStart ts)
      (ts.foldl (Stloader.planTensor dataStart block maxGap (roundUp fileSize block)) out) := by
  induction ts with
  | nil =>
    intro done out h _ _ _
    simpa [spans] using h
  | cons t ts ih =>
    intro done out h hstop hsorted hs
    rw [List.pairwise_cons] at hsorted
    have hsplit : spans dataStart (t :: ts) = spans dataStart [t] ++ spans dataStart ts := by
      rw [spans, spans, spans, ← List.map_append, ← List.filter_append]
      rfl
    rw [hsplit, ← List.append_assoc, List.foldl_cons]
    apply ih (h.planTensor hb hmax (hstop t (by simp)) fun p hp => hs p hp t (by simp))
      (fun t' ht' => hstop t' (by simp [ht'])) hsorted.2
    intro p hp t' ht'
    rcases List.mem_append.mp hp with hp | hp
    · exact hs p hp t' (by simp [ht'])
    · obtain ⟨a, ha, rfl⟩ := List.mem_map.mp hp
      rw [List.mem_singleton.mp (List.mem_of_mem_filter ha)]
      exact Nat.add_le_add_left (hsorted.1 t' ht') dataStart

/-- The plan of an accepted header. -/
theorem planShard_planned (ha : Accepted hd) (hb : 1 ≤ block)
    (hmax : roundUp hd.fileSize block ≤ maxValue) (maxGap : ℕ) :
    Planned block maxGap (roundUp hd.fileSize block) (spans hd.dataStart hd.tensors)
      (planShard hd block maxGap) := by
  have h : Planned block maxGap (roundUp hd.fileSize block) ([] ++ spans hd.dataStart hd.tensors)
      (hd.tensors.foldl (planTensor hd.dataStart block maxGap (roundUp hd.fileSize block)) []) :=
    planned_nil.foldl hb hmax ha.stop_le ha.sorted (by simp)
  unfold planShard
  rw [max_eq_left hb, ceilTo_eq hb hmax]
  exact h

theorem mem_spans_of_nonempty {t : TensorInfo} (ht : t ∈ hd.tensors) (h0 : t.nbytes ≠ 0) :
    t.absRange hd.dataStart ∈ spans hd.dataStart hd.tensors :=
  List.mem_map.mpr ⟨t, List.mem_filter.mpr ⟨ht, by simpa using h0⟩, rfl⟩

theorem exists_tensor_of_mem_spans {p : ℕ × ℕ} (h : p ∈ spans hd.dataStart hd.tensors) :
    ∃ t ∈ hd.tensors, t.nbytes ≠ 0 ∧ t.absRange hd.dataStart = p := by
  obtain ⟨t, ht, rfl⟩ := List.mem_map.mp h
  obtain ⟨ht, h0⟩ := List.mem_filter.mp ht
  exact ⟨t, ht, by simpa using h0, rfl⟩

/-- The bytes of the tensor are inside the range. -/
def Range.Contains (r : Range) (dataStart : ℕ) (t : TensorInfo) : Prop :=
  r.offset ≤ (t.absRange dataStart).1 ∧ (t.absRange dataStart).2 ≤ r.stop

/-- A plan that reads every tensor once, in whole blocks, and nothing else. -/
structure Safe (hd : ShardHeader) (block maxGap : ℕ) (plan : List Range) : Prop where
  nonempty : ∀ r ∈ plan, 0 < r.len
  aligned : ∀ r ∈ plan, block ∣ r.offset ∧ block ∣ r.stop
  inside : ∀ r ∈ plan, r.stop ≤ ceilTo hd.fileSize block
  apart : plan.Pairwise fun a b => a.offset < a.stop ∧ a.stop + maxGap < b.offset
  covers : ∀ t ∈ hd.tensors, t.nbytes ≠ 0 → ∃! r, r ∈ plan ∧ r.Contains hd.dataStart t
  useful : ∀ r ∈ plan, ∃ t ∈ hd.tensors, t.nbytes ≠ 0 ∧ r.Contains hd.dataStart t

theorem Range.Ok.stop_eq {done : List (ℕ × ℕ)} {fileCeil : ℕ} {r : Range} (h : r.Ok block fileCeil done)
    (hmax : fileCeil ≤ maxValue) : r.stop = r.offset + r.len :=
  saturatingAdd_of_le (h.inside.trans hmax)

/-- Two ranges with a byte in common are one. -/
theorem Planned.eq_of_common {maxGap fileCeil : ℕ} {done : List (ℕ × ℕ)} {out : List Range}
    (h : Planned block maxGap fileCeil done out) (x : ℕ) {a b : Range} (ha : a ∈ out) (hb : b ∈ out)
    (hxa : a.offset ≤ x ∧ x < a.offset + a.len) (hxb : b.offset ≤ x ∧ x < b.offset + b.len) : a = b := by
  have hall : ∀ a ∈ out, ∀ b ∈ out, a.offset ≤ x ∧ x < a.offset + a.len →
      b.offset ≤ x ∧ x < b.offset + b.len → a = b := by
    apply List.Pairwise.forall_of_forall_of_flip
    · intro r _ _ _
      rfl
    · apply h.apart.imp
      intro a b hab ha hb
      omega
    · apply h.apart.imp
      intro a b hab hb ha
      omega
  exact hall a ha b hb hxa hxb

theorem planShard_safe (ha : Accepted hd) (hb : 1 ≤ block)
    (hmax : roundUp hd.fileSize block ≤ maxValue) (maxGap : ℕ) :
    Safe hd block maxGap (planShard hd block maxGap) := by
  have h := planShard_planned ha hb hmax maxGap
  have hstop : ∀ r ∈ planShard hd block maxGap, r.stop = r.offset + r.len :=
    fun r hr => (h.ok r hr).stop_eq hmax
  have hapart : (planShard hd block maxGap).Pairwise
      fun a b => a.offset < a.stop ∧ a.stop + maxGap < b.offset := by
    apply h.apart.imp_of_mem
    intro a b ha' _ hab
    have := (h.ok a ha').nonempty
    rw [hstop a ha']
    exact ⟨by omega, hab⟩
  refine ⟨fun r hr => (h.ok r hr).nonempty, ?_, ?_, hapart, ?_, ?_⟩
  · intro r hr
    rw [hstop r hr]
    exact ⟨(h.ok r hr).dvd_offset, Nat.dvd_add (h.ok r hr).dvd_offset (h.ok r hr).dvd_len⟩
  · intro r hr
    rw [hstop r hr, ceilTo_eq hb hmax]
    exact (h.ok r hr).inside
  · intro t ht h0
    obtain ⟨r, hr, h1, h2⟩ := h.covers _ (mem_spans_of_nonempty ht h0)
    refine ⟨r, ⟨hr, h1, (hstop r hr).symm ▸ h2⟩, ?_⟩
    rintro r' ⟨hr', h3, h4⟩
    rw [hstop r' hr'] at h4
    have hse : (t.absRange hd.dataStart).1 < (t.absRange hd.dataStart).2 := by
      unfold TensorInfo.nbytes at h0
      simp only [TensorInfo.absRange]
      omega
    exact h.eq_of_common (t.absRange hd.dataStart).1 hr' hr ⟨h3, by omega⟩ ⟨h1, by omega⟩
  · intro r hr
    obtain ⟨p, hp, hlt, h1, h2⟩ := (h.ok r hr).begins
    obtain ⟨t, ht, h0, rfl⟩ := exists_tensor_of_mem_spans hp
    refine ⟨t, ht, h0, ?_, (hstop r hr).symm ▸ h2⟩
    rw [← h1]
    exact roundDown_le _ _

/-! ### The oracle accepts -/

/-- A pointer that skips the elements with `P` stops at or before each element
without it. -/
theorem dropWhile_stops {α : Type} {R : α → α → Prop} {P : α → Bool} {l : List α} (hl : l.Pairwise R)
    {a : α} (ha : a ∈ l) (hP : P a = false) :
    ∃ b rest, l.dropWhile P = b :: rest ∧ P b = false ∧ (b = a ∨ R b a) := by
  induction l with
  | nil => cases ha
  | cons c l ih =>
    rw [List.pairwise_cons] at hl
    by_cases hc : P c = true
    · rw [List.dropWhile_cons_of_pos hc]
      rcases List.mem_cons.mp ha with rfl | ha
      · rw [hP] at hc
        cases hc
      · exact ih hl.2 ha
    · rw [List.dropWhile_cons_of_neg hc]
      refine ⟨c, l, rfl, by simpa using hc, ?_⟩
      rcases List.mem_cons.mp ha with rfl | ha
      · exact .inl rfl
      · exact .inr (hl.1 a ha)

/-- What a pointer has skipped has `P`. -/
theorem mem_dropWhile {α : Type} {P : α → Bool} {l : List α} {a : α} (ha : a ∈ l) (hP : P a = false) :
    a ∈ l.dropWhile P := by
  rw [← List.takeWhile_append_dropWhile (p := P) (l := l), List.mem_append] at ha
  rcases ha with ha | ha
  · rw [List.mem_takeWhile_imp ha] at hP
    cases hP
  · exact ha

theorem checkWindows_eq_none {rs : List Range} (h : rs.Pairwise fun a b => a.stop ≤ b.offset) :
    checkWindows rs = none := by
  induction rs with
  | nil => rfl
  | cons r rs ih =>
    rw [List.pairwise_cons] at h
    cases rs with
    | nil => rfl
    | cons r' rs =>
      rw [checkWindows, if_neg (not_lt.mpr (h.1 r' (by simp)))]
      exact ih h.2

/-- The loop over the tensors finds each one in the range its pointer stops
at. -/
theorem checkTensors_eq_none {dataStart fileSize : ℕ} {ts : List TensorInfo} : ∀ {rs : List Range},
    rs.Pairwise (fun a b => a.stop ≤ b.offset) → ts.Pairwise (fun a b => a.start ≤ b.start) →
    (∀ t ∈ ts, dataStart + t.stop ≤ fileSize) →
    (∀ t ∈ ts, t.nbytes ≠ 0 → ∃ r ∈ rs, r.Contains dataStart t) →
    checkTensors dataStart fileSize rs ts = none := by
  induction ts with
  | nil =>
    intro rs _ _ _ _
    rfl
  | cons t ts ih =>
    intro rs hrs hts hle hin
    rw [List.pairwise_cons] at hts
    have hle' : ∀ t' ∈ ts, dataStart + t'.stop ≤ fileSize := fun t' ht' => hle t' (by simp [ht'])
    unfold checkTensors
    by_cases h0 : t.nbytes = 0
    · rw [if_pos h0]
      exact ih hrs hts.2 hle' fun t' ht' => hin t' (by simp [ht'])
    · rw [if_neg h0]
      have hlt : t.start < t.stop := by
        unfold TensorInfo.nbytes at h0
        omega
      obtain ⟨r, hr, h1, h2⟩ := hin t (by simp) h0
      have hs : (t.absRange dataStart).1 = dataStart + t.start := rfl
      have he : (t.absRange dataStart).2 = dataStart + t.stop := rfl
      simp only
      rw [if_neg (by rw [he]; exact not_lt.mpr (hle t (by simp)))]
      have hP : decide (r.stop ≤ (t.absRange dataStart).1) = false := by
        rw [decide_eq_false_iff_not]
        omega
      obtain ⟨b, rest, hd, hb, hor⟩ := dropWhile_stops
        (P := fun r : Range => decide (r.stop ≤ (t.absRange dataStart).1)) hrs hr hP
      -- a range before the tensor's own would end before the tensor begins
      have hbr : b = r := by
        rcases hor with hbr | hbr
        · exact hbr
        · rw [decide_eq_false_iff_not] at hb
          exact absurd (hbr.trans h1) hb
      rw [hd, List.head?_cons]
      simp only
      rw [hbr, if_neg (by omega), ← hbr, ← hd]
      apply ih (hrs.sublist (List.dropWhile_sublist _)) hts.2 hle'
      intro t' ht' h0'
      obtain ⟨r', hr', h3, h4⟩ := hin t' (by simp [ht']) h0'
      refine ⟨r', mem_dropWhile hr' ?_, h3, h4⟩
      have := hts.1 t' ht'
      unfold TensorInfo.nbytes at h0'
      simp only [TensorInfo.absRange] at h4
      rw [decide_eq_false_iff_not]
      omega

/-- The loop over the ranges finds a tensor in each one. -/
theorem checkRanges_eq_none {dataStart : ℕ} {rs : List Range} : ∀ {ts : List TensorInfo},
    rs.Pairwise (fun a b => a.offset < b.offset) → (∀ r ∈ rs, r.offset < r.stop) →
    ts.Pairwise (fun a b => a.start ≤ b.start) →
    (∀ r ∈ rs, ∃ t ∈ ts, t.nbytes ≠ 0 ∧ floorTo (t.absRange dataStart).1 block = r.offset ∧
      r.offset < ceilTo (t.absRange dataStart).2 block) →
    checkRanges dataStart block ts rs = none := by
  induction rs with
  | nil =>
    intro ts _ _ _ _
    rfl
  | cons r rs ih =>
    intro ts hrs hpos hts hin
    rw [List.pairwise_cons] at hrs
    unfold checkRanges
    obtain ⟨t, ht, h0, h1, h2⟩ := hin r (by simp)
    have hP : decide (t.nbytes = 0 ∨ ceilTo (t.absRange dataStart).2 block ≤ r.offset) = false := by
      rw [decide_eq_false_iff_not]
      omega
    obtain ⟨b, rest, hd, -, hor⟩ := dropWhile_stops (P := fun t : TensorInfo =>
      decide (t.nbytes = 0 ∨ ceilTo (t.absRange dataStart).2 block ≤ r.offset)) hts ht hP
    have hle : floorTo (b.absRange dataStart).1 block ≤ r.offset := by
      rw [← h1]
      rcases hor with rfl | hbt
      · exact le_rfl
      · exact roundDown_mono (Nat.add_le_add_left hbt dataStart)
    rw [hd]
    simp only [List.head?_cons]
    rw [if_pos (lt_of_le_of_lt hle (hpos r (by simp))), ← hd]
    apply ih hrs.2 (fun r' hr' => hpos r' (by simp [hr'])) (hts.sublist (List.dropWhile_sublist _))
    intro r' hr'
    obtain ⟨t', ht', h0', h1', h2'⟩ := hin r' (by simp [hr'])
    refine ⟨t', mem_dropWhile ht' ?_, h0', h1', h2'⟩
    have := hrs.1 r' hr'
    rw [decide_eq_false_iff_not]
    omega

/-- The oracle finds no fault in the plan of an accepted header. -/
theorem checkPlan_eq_none (ha : Accepted hd) (hb : 1 ≤ block)
    (hmax : roundUp hd.fileSize block ≤ maxValue) : checkPlan hd block = none := by
  have h := planShard_planned ha hb hmax 0
  have hsafe := planShard_safe ha hb hmax 0
  unfold checkPlan
  simp only
  have hrange : (planShard hd block 0).findSome? (checkRange block (ceilTo hd.fileSize block)) = none := by
    rw [List.findSome?_eq_none_iff]
    intro r hr
    have hr' := h.ok r hr
    have := hr'.nonempty
    unfold checkRange
    rw [if_neg (by omega), if_neg (not_not.mpr (Nat.mod_eq_zero_of_dvd hr'.dvd_offset)),
      if_neg (not_not.mpr (Nat.mod_eq_zero_of_dvd hr'.dvd_len)),
      if_neg (not_lt.mpr (hsafe.inside r hr))]
  have hsep : (planShard hd block 0).Pairwise fun a b => a.stop ≤ b.offset :=
    hsafe.apart.imp fun hab => by omega
  have htensors : checkTensors hd.dataStart hd.fileSize (planShard hd block 0) hd.tensors = none := by
    apply checkTensors_eq_none hsep ha.sorted ha.stop_le
    intro t ht h0
    obtain ⟨r, hr, -⟩ := hsafe.covers t ht h0
    exact ⟨r, hr⟩
  have hranges : checkRanges hd.dataStart block hd.tensors (planShard hd block 0) = none := by
    apply checkRanges_eq_none (hsafe.apart.imp fun hab => by omega) _ ha.sorted
    · intro r hr
      obtain ⟨p, hp, hlt, h1, -⟩ := (h.ok r hr).begins
      obtain ⟨t, ht, h0, rfl⟩ := exists_tensor_of_mem_spans hp
      have hup : roundUp (t.absRange hd.dataStart).2 block ≤ maxValue :=
        (roundUp_mono hb (ha.stop_le t ht)).trans hmax
      refine ⟨t, ht, h0, (floorTo_eq hb _).trans h1, ?_⟩
      rw [ceilTo_eq hb hup, ← h1]
      have := roundDown_le (t.absRange hd.dataStart).1 block
      have := le_roundUp hb (t.absRange hd.dataStart).2
      omega
    · intro r hr
      have := (h.ok r hr).nonempty
      rw [(h.ok r hr).stop_eq hmax]
      omega
  rw [hrange, checkWindows_eq_none hsep, htensors, hranges]
  rfl

end Shard

/-- **The plan of an accepted header is safe, and the oracle accepts it.** -/
theorem plan_accepted (json : SerdeJson) (f : ShardFile) {hd : ShardHeader}
    (hread : readHeader json f = .ok hd) {block : ℕ} (hb : 1 ≤ block)
    (hmax : roundUp hd.fileSize block ≤ maxValue) (maxGap : ℕ) :
    Safe hd block maxGap (planShard hd block maxGap) ∧ checkPlan hd block = none := by
  have ha := readHeader_accepted hread
  exact ⟨planShard_safe ha hb hmax maxGap, checkPlan_eq_none ha hb hmax⟩

/-- The JSON of two tensors, the second inside the first. -/
def nestedJson : List Char :=
  "\x7b\"a\":\x7b\"dtype\":\"I16\",\"shape\":[3],\"data_offsets\":[0,6]\x7d,".toList ++
    "\"b\":\x7b\"dtype\":\"U8\",\"shape\":[2],\"data_offsets\":[2,4]\x7d\x7d".toList

def nestedEntry (dtype : String) (dim start stop : UInt64) : Value :=
  .object [("data_offsets", .array [.number (.posInt start), .number (.posInt stop)]),
    ("dtype", .string dtype), ("shape", .array [.number (.posInt dim)])]

/-- serde_json on that text. -/
def nestedSerde : SerdeJson where
  fromSlice raw :=
    if raw = Utf8.encode nestedJson then
      .ok (.object [("a", nestedEntry "I16" 3 0 6), ("b", nestedEntry "U8" 2 2 4)])
    else .error "expected value at line 1 column 1"
  display _ := "null"

def nestedFile : ShardFile where
  path := "model.safetensors"
  bytes := 106 :: List.replicate 7 0 ++ Utf8.encode nestedJson ++ List.replicate 6 1
  size_le := by decide +kernel

theorem plan_accepted_nested : ∃ hd, readHeader nestedSerde nestedFile = .ok hd ∧
    planShard hd 4 0 = [⟨112, 8⟩] ∧ Safe hd 4 0 (planShard hd 4 0) ∧ checkPlan hd 4 = none := by
  have h : (readHeader nestedSerde nestedFile).toOption.map (fun hd => (hd.fileSize, planShard hd 4 0)) =
      some (120, [⟨112, 8⟩]) := by decide +kernel
  cases hr : readHeader nestedSerde nestedFile with
  | error e =>
    rw [hr] at h
    cases h
  | ok hd =>
    rw [hr] at h
    obtain ⟨h1, h2⟩ : hd.fileSize = 120 ∧ planShard hd 4 0 = [⟨112, 8⟩] := by
      simpa [Except.toOption] using h
    exact ⟨hd, rfl, h2, plan_accepted nestedSerde nestedFile hr (by decide) (by rw [h1]; decide) 0⟩

end Stloader
end Siphon
