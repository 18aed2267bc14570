/-
# What a passing check says

The flag of `samplecheck` is set by a wrong stage order, a configuration that
is refused and a difference that no boundary excuses. A case without its two
arrays is only counted, the excuse looks at the case and not at the difference,
and of the stage order only the strings are read. A corpus with none of these
has been checked where it passes, and one that has been checked has neither the
first nor the last (`samplecheck_sound`).

Key definitions: `Checked`, `Sound`, `Complete`, `Legible`.
Key theorems: `compare_agrees`, `checkCase_spec`, `runCases_spec`,
`samplecheck_sound`.
-/
import Siphon.Pyjson.RoundTrip
import Siphon.Qwen.Draw
import Siphon.Qwen.Samplecheck

namespace Siphon
namespace Qwen
namespace Samplecheck

open Pyjson Ieee Fallible

/-! ### A case -/

/-- What the filters are checked on: the logits of a case and what they leave of them. -/
structure Checked where
  settings : Value
  expect : List Value
  logits : List F32
  got : List F32

/-- The case has both arrays, logits that are literals and a configuration that is accepted. -/
def checkedOf (m : Libm) (case : Value) : Option Checked := do
  let arrays ← caseArrays case
  let logits ← (decodeFrom 0 arrays.2).toOption
  let sampler ← (Sampler.new (configFrom (caseSettings case))).toOption
  some ⟨caseSettings case, arrays.1, logits, applyFilters m sampler.cfg logits (caseHistory case)⟩

/-- Equal, or within the bound where a temperature other than one is set. -/
def Close (temperature : Bool) (x y : F32) : Prop := Feq x y ∨ temperature = true ∧ WithinBound x y

namespace Checked

variable (c : Checked)

/-- The values that are left, in their order where the logits are pairwise distinct. -/
def Rearranged (got : List F32) : Prop := got.Perm c.got ∧ (c.logits.Nodup → got = c.got)

/-- The values that are left agree with the expected ones. -/
def Agrees : Prop := ∃ want got, decodeFrom 0 c.expect = .ok want ∧ c.Rearranged got ∧
  List.Forall₂ (Close (hasTemperature c.settings)) got want

/-- The values that are left agree with the expected ones but for one that is masked on one side. -/
def DiffersByOneMask : Prop := ∃ want got, decodeFrom 0 c.expect = .ok want ∧ c.Rearranged got ∧
  got.length = want.length ∧ ∃ k, ∀ j < want.length,
    Close (hasTemperature c.settings) (got.getD j nan) (want.getD j nan) ∨
      j = k ∧ (Feq (got.getD j nan) filtered ∨ Feq (want.getD j nan) filtered)

/-- The boundary of `top_p` excuses a difference. -/
def Excused (m : Libm) : Prop := (boundaryCase m c.settings c.logits c.expect).isSome = true

end Checked

/-! ### The comparison -/

section Compare

variable {allowUlp : Bool}

theorem forall₂_of_compareFrom : ∀ {k : ℕ} {xs ys : List F32} {within within' : Bool}, xs.length = ys.length →
    compareFrom allowUlp k xs ys within = .ok within' → List.Forall₂ (Close allowUlp) xs ys
  | _, [], [], _, _, _, _ => .nil
  | k, x :: xs, y :: ys, within, within', hlen, h => by
    have hlen : xs.length = ys.length := Nat.succ.inj hlen
    unfold compareFrom at h
    split_ifs at h with heq hulp
    · exact .cons (.inl heq) (forall₂_of_compareFrom hlen h)
    · exact .cons (.inr hulp) (forall₂_of_compareFrom hlen h)

theorem length_decodeFrom : ∀ {k : ℕ} {vs : List Value} {xs : List F32}, decodeFrom k vs = .ok xs → xs.length = vs.length
  | _, [], xs, h => by
    obtain rfl := Except.ok.inj h
    rfl
  | k, v :: vs, xs, h => by
    unfold decodeFrom at h
    rcases hv : decodeLit v with - | x
    · simp [hv] at h
    · rw [hv] at h
      obtain ⟨rest, hrest, rfl⟩ := map_eq_ok h
      rw [List.length_cons, List.length_cons, length_decodeFrom hrest]

/-- A verdict that is no difference compares the sorted values, and where no logit comes twice, each with its own. -/
theorem compare_agrees {got input : List F32} {expect : List Value}
    (h : ∀ k g w, compare got expect input allowUlp ≠ .differ k g w) : ∃ want, decodeFrom 0 expect = .ok want ∧
      List.Forall₂ (Close allowUlp) (sortTotal got) (sortTotal want) ∧
      (hasDuplicateValues input = false → List.Forall₂ (Close allowUlp) got want) := by
  unfold compare at h
  by_cases hlen : got.length = expect.length
  · rw [if_neg (not_not.mpr hlen)] at h
    rcases hdecode : decodeFrom 0 expect with ⟨k, v⟩ | want
    · simp [hdecode] at h
    · simp only [hdecode] at h
      have hcount : got.length = want.length := hlen.trans (length_decodeFrom hdecode).symm
      have hsorted : (sortTotal got).length = (sortTotal want).length := by
        simpa [sortTotal] using hcount
      rcases hsort : compareFrom allowUlp 0 (sortTotal got) (sortTotal want) true with e | within
      · simp [hsort] at h
      · simp only [hsort] at h
        refine ⟨want, rfl, forall₂_of_compareFrom hsorted hsort, fun hdup => ?_⟩
        rw [hdup, if_neg Bool.false_ne_true] at h
        rcases hindex : compareFrom allowUlp 0 got want within with e | within'
        · simp [hindex] at h
        · exact forall₂_of_compareFrom hcount hindex
  · rw [if_pos hlen] at h
    exact absurd rfl (h _ _ _)

theorem compareFrom_self : ∀ {k : ℕ} {xs : List F32} {within : Bool}, (∀ x ∈ xs, x ≠ nan) →
    compareFrom allowUlp k xs xs within = .ok within
  | _, [], _, _ => rfl
  | k, x :: xs, within, h => by
    obtain ⟨hx, hxs⟩ := List.forall_mem_cons.mp h
    unfold compareFrom
    rw [if_pos ⟨hx, hx, rfl⟩]
    exact compareFrom_self hxs

/-- Values that are what is expected are exact, if they are numbers. -/
theorem compare_self {got input : List F32} {expect : List Value} (hdecode : decodeFrom 0 expect = .ok got)
    (hnan : ∀ x ∈ got, x ≠ nan) : compare got expect input allowUlp = .exact := by
  have hsorted : ∀ x ∈ sortTotal got, x ≠ nan := fun x hx => hnan x ((List.mergeSort_perm _ _).mem_iff.mp hx)
  unfold compare
  rw [if_neg (not_not.mpr (length_decodeFrom hdecode)), hdecode]
  simp only [compareFrom_self hsorted, compareFrom_self hnan, if_true, ite_self]

end Compare

/-! ### Logits that come twice -/

/-- A number is the one of its bits. -/
theorem ofBits_toBits (x : F32) : (ofBits (2 ^ 31 ≤ toBits x) (toBits x % 2 ^ 31) : F32) = x := by
  rcases x with ⟨n, b⟩ | n | -
  · have hb : b.val < 2139095040 := b.isLt
    rcases n with - | -
    · have hbits : toBits (finite false b) = b.val := Nat.zero_add _
      rw [hbits, Nat.mod_eq_of_lt (by omega), decide_eq_false (by omega)]
      exact dif_pos b.isLt
    · have hbits : toBits (finite true b) = 2 ^ 31 + b.val := rfl
      rw [hbits, Nat.add_mod_left, Nat.mod_eq_of_lt (by omega), decide_eq_true (by omega)]
      exact dif_pos b.isLt
  · rcases n with - | - <;> rfl
  · rfl

theorem toBits_injective : Function.Injective toBits := by
  intro x y h
  rw [← ofBits_toBits x, ← ofBits_toBits y, h]

/-- Neighbours of a list without repetitions differ. -/
theorem any_neighbours_eq_false {l : List ℕ} (h : l.Nodup) : ((l.zip l.tail).any fun w => w.1 = w.2) = false := by
  rcases l with - | ⟨x, l⟩
  · rfl
  · rw [List.any_eq_false]
    rintro ⟨a, b⟩ hmem
    obtain ⟨j, hj, hab⟩ := List.getElem_of_mem hmem
    have hlen : j + 1 < (x :: l).length := by simpa using hj
    have hlt : j < (x :: l).length := by omega
    obtain ⟨ha, hb⟩ : (x :: l)[j] = a ∧ (x :: l)[j + 1] = b := by simpa using hab
    have hne : (x :: l)[j] ≠ (x :: l)[j + 1] := (List.Nodup.getElem_inj_iff h).not.mpr (Nat.succ_ne_self j).symm
    rw [ha, hb] at hne
    simpa using hne

/-- Distinct logits are not taken for duplicates. -/
theorem hasDuplicateValues_of_nodup {v : List F32} (h : v.Nodup) : hasDuplicateValues v = false := by
  have hbits : (v.map toBits).Nodup := (List.nodup_map_iff toBits_injective).mpr h
  exact any_neighbours_eq_false ((List.mergeSort_perm _ _).nodup_iff.mpr hbits)

/-! ### A round of the loop -/

section Round

variable {m : Libm} {i : ℕ} {case : Value} {t t' : Tally}

/-- The case is on the list of the boundary cases. -/
def Listed (i : ℕ) (case : Value) (t : Tally) : Prop := ∃ why, (i, caseName case, why) ∈ t.boundary

/-- What a round leaves of a case where the flag stays down. -/
def Counted (m : Libm) (i : ℕ) (case : Value) (t : Tally) : Prop := caseArrays case = none ∨
  ∃ c, checkedOf m case = some c ∧ (c.Agrees ∨ c.Excused m ∧ Listed i case t)

theorem agrees_of_compare {c : Checked}
    (h : ∀ k g w, compare c.got c.expect c.logits (hasTemperature c.settings) ≠ .differ k g w) : c.Agrees := by
  obtain ⟨want, hdecode, hsorted, hindex⟩ := compare_agrees h
  by_cases hdup : hasDuplicateValues c.logits = false
  · exact ⟨want, c.got, hdecode, ⟨.refl _, fun _ => rfl⟩, hindex hdup⟩
  · -- the sorted values agree, so the values in the order of the expected ones do
    have hperm : Relation.Comp (List.Forall₂ (Close (hasTemperature c.settings))) List.Perm (sortTotal c.got) want :=
      ⟨_, hsorted, List.mergeSort_perm _ _⟩
    rw [List.forall₂_comp_perm_eq_perm_comp_forall₂] at hperm
    obtain ⟨got, hgot, hclose⟩ := hperm
    refine ⟨want, got, hdecode, ⟨hgot.symm.trans (List.mergeSort_perm _ _), fun hnodup => ?_⟩, hclose⟩
    exact absurd (hasDuplicateValues_of_nodup hnodup) hdup

/-- The verdict on a case leaves the flag up, keeps the list, and leaves the
flag down only where the values agree or the difference is excused. -/
theorem countVerdict_spec {c : Checked} (hsettings : c.settings = caseSettings case) :
    (t.failed = true → (countVerdict m i case c.logits c.got c.expect t).failed = true) ∧
    (∃ more, (countVerdict m i case c.logits c.got c.expect t).boundary = t.boundary ++ more) ∧
    ((countVerdict m i case c.logits c.got c.expect t).failed = false →
      c.Agrees ∨ c.Excused m ∧ Listed i case (countVerdict m i case c.logits c.got c.expect t)) := by
  unfold countVerdict
  rw [← hsettings]
  rcases hcompare : compare c.got c.expect c.logits (hasTemperature c.settings) with - | - | ⟨k, g, w⟩
  · exact ⟨id, ⟨[], by simp⟩, fun _ => .inl (agrees_of_compare (by simp [hcompare]))⟩
  · exact ⟨id, ⟨[], by simp⟩, fun _ => .inl (agrees_of_compare (by simp [hcompare]))⟩
  · rcases hboundary : boundaryCase m c.settings c.logits c.expect with - | why
    · exact ⟨fun _ => rfl, ⟨[], by simp⟩, by simp⟩
    · refine ⟨id, ⟨_, rfl⟩, fun _ => .inr ⟨by simp [Checked.Excused, hboundary], why, by simp⟩⟩

/-- **A round** leaves the flag up, keeps the list, and leaves the flag down
only over a case that it counts. -/
theorem checkCase_spec (h : checkCase m i case t = .ok t') : (t.failed = true → t'.failed = true) ∧
    (∃ more, t'.boundary = t.boundary ++ more) ∧ (t'.failed = false → Counted m i case t') := by
  unfold checkCase at h
  rcases harrays : caseArrays case with - | ⟨expect, logitsJson⟩
  · rw [harrays] at h
    obtain rfl := Except.ok.inj h
    exact ⟨id, ⟨[], by simp⟩, fun _ => .inl harrays⟩
  · simp only [harrays] at h
    rcases hlogits : decodeFrom 0 logitsJson with e | logits
    · simp [hlogits] at h
    · simp only [hlogits] at h
      rcases hsampler : Sampler.new (configFrom (caseSettings case)) with e | sampler
      · simp only [hsampler] at h
        obtain rfl := Except.ok.inj h
        exact ⟨fun _ => rfl, ⟨[], by simp⟩, by simp⟩
      · simp only [hsampler] at h
        obtain rfl := Except.ok.inj h
        have hchecked : checkedOf m case = some ⟨caseSettings case, expect, logits,
            applyFilters m sampler.cfg logits (caseHistory case)⟩ := by
          simp [checkedOf, harrays, hlogits, hsampler, Except.toOption]
        have hverdict := fun tally => @countVerdict_spec m i case tally ⟨caseSettings case, expect, logits,
            applyFilters m sampler.cfg logits (caseHistory case)⟩ rfl
        obtain ⟨hup, hmore, hdown⟩ := hverdict _
        exact ⟨hup, hmore, fun hfailed => .inr ⟨_, hchecked, hdown hfailed⟩⟩

end Round

/-! ### The loop -/

section Loop

variable {m : Libm} {max : Option ℕ}

/-- Nothing goes off the list. -/
theorem Listed.append {i : ℕ} {case : Value} {t t' : Tally} (h : Listed i case t)
    (hmore : ∃ more, t'.boundary = t.boundary ++ more) : Listed i case t' := by
  obtain ⟨why, hmem⟩ := h
  obtain ⟨more, hmore⟩ := hmore
  exact ⟨why, by rw [hmore]; exact List.mem_append_left _ hmem⟩

theorem Counted.append {i : ℕ} {case : Value} {t t' : Tally} (h : Counted m i case t)
    (hmore : ∃ more, t'.boundary = t.boundary ++ more) : Counted m i case t' := by
  rcases h with h | ⟨c, hc, h | ⟨he, hl⟩⟩
  · exact .inl h
  · exact .inr ⟨c, hc, .inl h⟩
  · exact .inr ⟨c, hc, .inr ⟨he, hl.append hmore⟩⟩

/-- **The loop** leaves the flag up, keeps the list, and leaves the flag down
only over cases that it counts. -/
theorem runCases_spec : ∀ {cases : List Value} {i : ℕ} {t t' : Tally}, runCases m max i cases t = .ok t' →
    (t.failed = true → t'.failed = true) ∧ (∃ more, t'.boundary = t.boundary ++ more) ∧
    (t'.failed = false → ∀ j case, cases[j]? = some case → max.all (i + j < ·) = true → Counted m (i + j) case t')
  | [], i, t, t', h => by
    obtain rfl := Except.ok.inj h
    exact ⟨id, ⟨[], by simp⟩, fun _ j case hj => by simp at hj⟩
  | case :: cases, i, t, t', h => by
    unfold runCases at h
    split_ifs at h with hmax
    · obtain rfl := Except.ok.inj h
      refine ⟨id, ⟨[], by simp⟩, fun _ j case _ hall => ?_⟩
      rcases max with - | n
      · simp at hmax
      · simp only [Option.any_some, decide_eq_true_eq] at hmax
        simp only [Option.all_some, decide_eq_true_eq] at hall
        omega
    · obtain ⟨t1, hround, hrest⟩ := bind_eq_ok h
      obtain ⟨hup, ⟨more, hmore⟩, hdown⟩ := checkCase_spec hround
      obtain ⟨hup', ⟨more', hmore'⟩, hdown'⟩ := runCases_spec hrest
      refine ⟨hup' ∘ hup, ⟨more ++ more', by rw [hmore', hmore, List.append_assoc]⟩, fun hfailed j other hj hall => ?_⟩
      have hfailed1 : t1.failed = false := by
        by_contra hne
        rw [hup' (by simpa using hne)] at hfailed
        exact absurd hfailed (by simp)
      rcases j with - | j
      · obtain rfl : case = other := by simpa using hj
        exact (hdown hfailed1).append ⟨more', hmore'⟩
      · have hnext : i + (j + 1) = i + 1 + j := by omega
        rw [hnext] at hall ⊢
        exact hdown' hfailed j other (by simpa using hj) hall

end Loop

/-! ### A corpus that passes -/

/-- Case `i` of the document, before the one that `--max` stops at. -/
def Processed (max : Option ℕ) (doc : Value) (i : ℕ) (case : Value) : Prop :=
  ∃ cases, (doc.get "cases").bind Value.asArray? = some cases ∧ cases[i]? = some case ∧ max.all (i < ·) = true

/-- The stage order is the pipeline's, and each case was checked: what the
filters leave agrees with what it expects, or it is listed as a boundary case
and differs by the masking of at most one token. -/
structure Sound (m : Libm) (max : Option ℕ) (doc : Value) (t : Tally) : Prop where
  order : (doc.get "stage_order").bind Value.asArray? = some (ourOrder.map fun s => .str s.toList)
  cases : ∀ i case, Processed max doc i case → ∃ c, checkedOf m case = some c ∧
    (c.Agrees ∨ Listed i case t ∧ c.DiffersByOneMask)

/-- Nothing that the flag does not tell: the entries of the stage order are
strings, a case has its arrays, and none is at the boundary of `top_p`. -/
structure Complete (m : Libm) (max : Option ℕ) (doc : Value) : Prop where
  strings : ∀ entries, (doc.get "stage_order").bind Value.asArray? = some entries → ∀ v ∈ entries, ∃ s, v = .str s
  arrays : ∀ i case, Processed max doc i case → (caseArrays case).isSome = true
  boundary : ∀ i case expect values logits, Processed max doc i case → caseArrays case = some (expect, values) →
    decodeFrom 0 values = .ok logits → boundaryCase m (caseSettings case) logits expect = none

/-- The stage order and the cases can be read: strings, both arrays, and an
expected literal for each logit. -/
structure Legible (max : Option ℕ) (doc : Value) : Prop where
  strings : ∀ entries, (doc.get "stage_order").bind Value.asArray? = some entries → ∀ v ∈ entries, ∃ s, v = .str s
  arrays : ∀ i case, Processed max doc i case → ∃ expect values want, caseArrays case = some (expect, values) ∧
    decodeFrom 0 expect = .ok want ∧ want.length = values.length

theorem filterMap_asStr? : ∀ {entries : List Value}, (∀ v ∈ entries, ∃ s, v = .str s) →
    entries = (entries.filterMap Value.asStr?).map .str
  | [], _ => rfl
  | v :: vs, h => by
    obtain ⟨⟨s, rfl⟩, hvs⟩ := List.forall_mem_cons.mp h
    rw [List.filterMap_cons_some (show Value.asStr? (.str s) = some s from rfl), List.map_cons, ← filterMap_asStr? hvs]

/-- The flag is down before the first case where the strings of the stage order are the pipeline's. -/
theorem start_failed {doc : Value} (h : (start doc).failed = false) : wantOrder doc = ourOrder.map String.toList := by
  simpa [start] using h

section Corpus

variable {m : Libm} {max : Option ℕ} {doc : Value} {t : Tally}

theorem order_of_wantOrder (h : wantOrder doc = ourOrder.map String.toList)
    (hstrings : ∀ entries, (doc.get "stage_order").bind Value.asArray? = some entries → ∀ v ∈ entries, ∃ s, v = .str s) :
    (doc.get "stage_order").bind Value.asArray? = some (ourOrder.map fun s => .str s.toList) := by
  unfold wantOrder at h
  rcases harray : (doc.get "stage_order").bind Value.asArray? with - | entries
  · rw [harray] at h
    exact absurd h (by simp [ourOrder])
  · rw [harray] at h
    have hentries := filterMap_asStr? (hstrings entries harray)
    have hmap : entries.filterMap Value.asStr? = ourOrder.map String.toList := h
    rw [hmap, List.map_map] at hentries
    exact congrArg some hentries

/-- What the loop counts of the cases of a document that passes. -/
theorem counted_of_checkDoc (h : checkDoc m max doc = .ok t) (hpass : t.failed = false) :
    wantOrder doc = ourOrder.map String.toList ∧ ∀ i case, Processed max doc i case → Counted m i case t := by
  obtain ⟨cases, hcases, h⟩ := bind_eq_ok h
  obtain ⟨hup, -, hdown⟩ := runCases_spec h
  refine ⟨start_failed ?_, ?_⟩
  · by_contra hne
    rw [hup (by simpa using hne)] at hpass
    exact absurd hpass (by simp)
  · rintro i case ⟨cases', hcases', hi, hmax⟩
    obtain rfl := Option.some.inj ((orElse_eq_ok hcases).symm.trans hcases')
    simpa using hdown hpass i case hi (by simpa using hmax)

/-- What a case was checked on was read off it. -/
theorem checkedOf_eq_some {case : Value} {c : Checked} (h : checkedOf m case = some c) :
    ∃ values, caseArrays case = some (c.expect, values) ∧ decodeFrom 0 values = .ok c.logits ∧
      c.settings = caseSettings case ∧ c.got.length = values.length := by
  obtain ⟨⟨expect, values⟩, harrays, h⟩ := Option.bind_eq_some_iff.mp h
  obtain ⟨logits, hlogits, h⟩ := Option.bind_eq_some_iff.mp h
  obtain ⟨sampler, -, h⟩ := Option.bind_eq_some_iff.mp h
  obtain rfl := Option.some.inj h
  have hdecode := toOption_eq_some hlogits
  exact ⟨values, harrays, hdecode, rfl, (length_applyFilters m _ _ _).trans (length_decodeFrom hdecode)⟩

/-- What the filters leave stands against as many expected literals. -/
theorem Checked.exists_want {c : Checked} (h : c.Agrees ∨ c.DiffersByOneMask) :
    ∃ want, decodeFrom 0 c.expect = .ok want ∧ want.length = c.got.length := by
  rcases h with ⟨want, got, hdecode, hgot, hclose⟩ | ⟨want, got, hdecode, hgot, hlen, -⟩
  · exact ⟨want, hdecode, by rw [← hclose.length_eq, hgot.1.length_eq]⟩
  · exact ⟨want, hdecode, by rw [← hlen, hgot.1.length_eq]⟩

theorem sound_of_complete (h : checkDoc m max doc = .ok t) (hcomplete : Complete m max doc) (hpass : t.failed = false) :
    Sound m max doc t := by
  obtain ⟨horder, hcounted⟩ := counted_of_checkDoc h hpass
  refine ⟨order_of_wantOrder horder hcomplete.strings, fun i case hi => ?_⟩
  rcases hcounted i case hi with hnone | ⟨c, hc, hagrees | ⟨hexcused, -⟩⟩
  · have harrays := hcomplete.arrays i case hi
    rw [hnone] at harrays
    exact absurd harrays (by simp)
  · exact ⟨c, hc, .inl hagrees⟩
  · obtain ⟨values, harrays, hlogits, hsettings, -⟩ := checkedOf_eq_some hc
    have hnone := hcomplete.boundary i case c.expect values c.logits hi harrays hlogits
    rw [Checked.Excused, hsettings, hnone] at hexcused
    exact absurd hexcused (by simp)

theorem Sound.legible (h : Sound m max doc t) : Legible max doc := by
  refine ⟨fun entries hentries v hv => ?_, fun i case hi => ?_⟩
  · rw [h.order] at hentries
    obtain rfl := Option.some.inj hentries
    obtain ⟨s, -, rfl⟩ := List.mem_map.mp hv
    exact ⟨_, rfl⟩
  · obtain ⟨c, hc, hagrees⟩ := h.cases i case hi
    obtain ⟨values, harrays, -, -, hgot⟩ := checkedOf_eq_some hc
    obtain ⟨want, hwant, hlen⟩ := Checked.exists_want (hagrees.imp_right And.right)
    exact ⟨c.expect, values, want, harrays, hwant, hlen.trans hgot⟩

end Corpus

/-! ### A corpus of one case -/

/-- A document of the cases, with the pipeline's order. -/
def corpus (cases : List Value) : Value :=
  .object [("stage_order".toList, .array (ourOrder.map fun s => .str s.toList)), ("cases".toList, .array cases)]

/-- The document as it is written. -/
def corpusBytes (cases : List Value) : List UInt8 := Utf8.encode (dumps (fun _ => []) (corpus cases))

theorem parse_corpus (cases : List Value) (h : ∀ u ∈ elementLeaves cases, LeafOk lax u ∧ ∀ x, u ≠ .float x) :
    parse (Utf8.decodeLossy (corpusBytes cases)) = .ok (corpus cases) := by
  have hleaves : (corpus cases).leaves = ourOrder.map (fun s => .str s.toList) ++ elementLeaves cases := by
    simp [corpus, Value.leaves, memberLeaves, ourOrder, elementLeaves]
  have hall : ∀ u ∈ (corpus cases).leaves, LeafOk lax u ∧ ∀ x, u ≠ .float x := by
    rw [hleaves]
    intro u hu
    rcases List.mem_append.mp hu with hu | hu
    · obtain ⟨s, -, rfl⟩ := List.mem_map.mp hu
      exact ⟨trivial, by simp⟩
    · exact h u hu
  rw [corpusBytes, Utf8.decodeLossy_encode]
  refine parse_dumps (fun u hu => ⟨(hall u hu).1, fun x hx => absurd hx ((hall u hu).2 x)⟩) fun x hx => ?_
  exact absurd rfl ((hall _ hx).2 x)

theorem get_cases (cases : List Value) : ((corpus cases).get "cases").bind Value.asArray? = some cases := rfl

theorem get_order (cases : List Value) : ((corpus cases).get "stage_order").bind Value.asArray? =
    some (ourOrder.map fun s => .str s.toList) := rfl

theorem start_corpus (cases : List Value) : (start (corpus cases)).failed = false := by
  have horder : wantOrder (corpus cases) = ourOrder.map String.toList := by
    rw [wantOrder, get_order]
    rfl
  simp [start, horder]

/-- The platform's functions, left out. -/
def plain : Libm := ⟨id, id⟩

/-- A case without arrays is counted and nothing else. -/
theorem samplecheck_empty : ∃ t, samplecheck plain none (corpusBytes [.object []]) = .ok t ∧ t.failed = false := by
  have hdown : (start (corpus [.object []])).failed = false := start_corpus _
  refine ⟨{ start (corpus [.object []]) with bad := 1 }, ?_, hdown⟩
  unfold samplecheck
  rw [parse_corpus _ (by simp [elementLeaves, Value.leaves, memberLeaves])]
  rfl

/-- Two logits that are expected as they are. -/
def pairCase : Value :=
  .object [("expect".toList, .array [.int 0, .int 1]), ("logits".toList, .array [.int 0, .int 1])]

/-- No filter is on by default. -/
theorem applyFilters_default (m : Libm) (l : List F32) : applyFilters m (configFrom .null) l [] = l := by
  have hone : Feq (ofNat 1 : F64) (ofNat 1) := by decide +kernel
  have hone' : ¬ (ofNat 1 : F64) < ofNat 1 := by decide +kernel
  have hzero : Feq (zero : F64) zero := by decide
  have hzero' : ¬ (zero : F64) < zero := by decide
  unfold applyFilters
  simp [configFrom, Value.get, hone, hone', hzero, hzero']

theorem samplecheck_pair : ∃ t, samplecheck plain none (corpusBytes [pairCase]) = .ok t ∧ t.failed = false := by
  have harrays : caseArrays pairCase = some ([.int 0, .int 1], [.int 0, .int 1]) := rfl
  have hdecode : decodeFrom 0 [.int 0, .int 1] = .ok [ofRat false 0, ofRat false 1] := rfl
  have hnan : ∀ x ∈ [(ofRat false 0 : F32), ofRat false 1], x ≠ nan := by decide +kernel
  have hsettings : caseSettings pairCase = .null := rfl
  have hvalid : (configFrom .null).validate = .ok () := by decide +kernel
  have hsampler : Sampler.new (configFrom .null) = .ok ⟨configFrom .null, ⟨1⟩⟩ := by
    unfold Sampler.new
    rw [hvalid]
    rfl
  have hhistory : caseHistory pairCase = [] := rfl
  have hdown : (start (corpus [pairCase])).failed = false := start_corpus _
  have hround : ∃ t, checkCase plain 0 pairCase (start (corpus [pairCase])) = .ok t ∧ t.failed = false := by
    unfold checkCase countVerdict
    simp only [harrays, hdecode, hsettings, hsampler, hhistory, applyFilters_default, compare_self hdecode hnan]
    exact ⟨_, rfl, hdown⟩
  obtain ⟨t, ht, hpass⟩ := hround
  refine ⟨t, ?_, hpass⟩
  unfold samplecheck checkDoc
  rw [parse_corpus _ (by simp [pairCase, elementLeaves, Value.leaves, memberLeaves, LeafOk])]
  simp only [Except.mapError, ok_bind, get_cases, orElse, runCases, Option.any_none, Bool.false_eq_true, if_false, ht]

theorem complete_pair : Complete plain none (corpus [pairCase]) := by
  have hcase : ∀ i case, Processed none (corpus [pairCase]) i case → case = pairCase := by
    rintro i case ⟨cases, hcases, hi, -⟩
    obtain rfl := Option.some.inj ((get_cases _).symm.trans hcases)
    exact List.mem_singleton.mp (List.mem_of_getElem? hi)
  refine ⟨fun entries hentries v hv => ?_, fun i case hi => ?_, fun i case expect values logits hi _ _ => ?_⟩
  · obtain rfl := Option.some.inj ((get_order _).symm.trans hentries)
    obtain ⟨s, -, rfl⟩ := List.mem_map.mp hv
    exact ⟨_, rfl⟩
  · rw [hcase i case hi]
    rfl
  · obtain rfl := hcase i case hi
    have hsettings : caseSettings pairCase = .null := rfl
    rw [hsettings]
    simp [boundaryCase, Value.get]

end Samplecheck
end Qwen
end Siphon
