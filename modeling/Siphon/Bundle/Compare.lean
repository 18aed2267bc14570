/-
# What a passing comparison says

`Sound` is what a `PASS` is read as: every selected tensor was read from both
bundles and is within the tolerance, the token ids agree, and every recorded
argmax of the candidate is the argmax of its logits.

A tensor that cannot be read is left out of the comparison, and so is a greedy
step without logits. A `PASS` is `Sound` exactly where nothing is left out so
(`Unskipped`), or something that is looked at fails anyway (`Caught`).

Key definitions: `Sound`, `Unskipped`, `Caught`.
Key theorem: `pass_sound_iff`.
-/
import Siphon.Bundle.Model
import Siphon.Lib.Fallible
import Siphon.Lib.Ranking

namespace Siphon
namespace Goldenbundle

open Ieee

/-! ### The loop of `diff` -/

/-- The greatest magnitude of a tensor. -/
def goldenScale (golden : List F32) : F32 := golden.foldl (fun s g => max s (abs g)) zero

/-- What is known of the loop behind the pairs `done`. -/
structure Scanned (done : List (F32 × F32)) (w : Worst) : Prop where
  finite : ∀ p ∈ done, p.1.isFinite ∧ p.2.isFinite
  scale : w.scale = goldenScale (done.map Prod.fst)
  scaleFinite : w.scale.isFinite
  worst : zero ≤ w.worst
  le_worst : ∀ p ∈ done, abs (sub p.1 p.2) ≤ w.worst

theorem scanned_nil : Scanned [] ⟨0, zero, 0, zero⟩ where
  finite := nofun
  scale := rfl
  scaleFinite := rfl
  worst := le_self zero_ne_nan
  le_worst := nofun

theorem scanned_step {done : List (F32 × F32)} {w w' : Worst} {p : F32 × F32} (h : Scanned done w)
    (hs : w.step p = .ok w') : Scanned (done ++ [p]) w' := by
  unfold Worst.step at hs
  by_cases hp : (!p.1.isFinite || !p.2.isFinite) = true
  · rw [if_pos hp] at hs
    cases hs
  rw [if_neg hp] at hs
  obtain rfl := Except.ok.inj hs
  have hfin : p.1.isFinite ∧ p.2.isFinite := by simpa using hp
  have hd : abs (sub p.1 p.2) ≠ nan := abs_ne_nan (sub_ne_nan hfin.1 hfin.2)
  have hle : w.worst ≤ (if w.worst < abs (sub p.1 p.2) then abs (sub p.1 p.2) else w.worst) := by
    split
    · exact le_of_lt' ‹_›
    · exact le_self h.worst.2.1
  refine ⟨?_, ?_, ?_, le_chain h.worst hle, ?_⟩
  · intro q hq
    rcases List.mem_append.mp hq with hq | hq
    · exact h.finite q hq
    · rw [List.mem_singleton.mp hq]
      exact hfin
  · simp only [goldenScale, List.map_append, List.foldl_append, List.map_cons, List.map_nil, List.foldl_cons,
      List.foldl_nil]
    rw [h.scale, goldenScale]
  · exact isFinite_max h.scaleFinite (isFinite_abs.trans hfin.1)
  · intro q hq
    rcases List.mem_append.mp hq with hq | hq
    · exact le_chain (h.le_worst q hq) hle
    · rw [List.mem_singleton.mp hq]
      dsimp only
      split
      · exact le_self hd
      · exact le_of_not_lt' hd h.worst.2.1 ‹_›

theorem scanned_foldlM : ∀ {ps done : List (F32 × F32)} {w w' : Worst}, Scanned done w →
    ps.foldlM Worst.step w = .ok w' → Scanned (done ++ ps) w'
  | [], done, w, w', h, hf => by
    obtain rfl := Except.ok.inj hf
    rwa [List.append_nil]
  | p :: ps, done, w, w', h, hf => by
    rw [List.foldlM_cons] at hf
    obtain ⟨w₁, hs, hf⟩ := Fallible.bind_eq_ok hf
    have := scanned_foldlM (scanned_step h hs) hf
    rwa [List.append_assoc, List.singleton_append] at this

/-- The loop does not end early on finite pairs. -/
theorem scan_ends : ∀ {ps : List (F32 × F32)} (w : Worst), (∀ p ∈ ps, p.1.isFinite ∧ p.2.isFinite) →
    ∃ w', ps.foldlM Worst.step w = .ok w'
  | [], w, _ => ⟨w, rfl⟩
  | p :: ps, w, h => by
    obtain ⟨hp, hps⟩ := List.forall_mem_cons.mp h
    rw [List.foldlM_cons]
    obtain ⟨w₁, hs⟩ : ∃ w₁, w.step p = .ok w₁ := by
      unfold Worst.step
      rw [if_neg (by simp [hp])]
      exact ⟨_, rfl⟩
    rw [hs]
    exact scan_ends w₁ hps

/-! ### What `diff` reports -/

/-- Two tensors of one length, all finite. -/
structure Comparable (golden cand : List F32) : Prop where
  length : golden.length = cand.length
  goldenFinite : ∀ x ∈ golden, x.isFinite
  candFinite : ∀ x ∈ cand, x.isFinite

/-- Two tensors that differ by at most `maxRel` of the golden scale. -/
structure Within (maxRel : F32) (golden cand : List F32) : Prop extends Comparable golden cand where
  close : ∀ p ∈ golden.zip cand, Feq p.1 p.2 ∨ div (abs (sub p.1 p.2)) (goldenScale golden) ≤ maxRel

theorem comparable_iff {golden cand : List F32} (h : golden.length = cand.length) :
    Comparable golden cand ↔ ∀ p ∈ golden.zip cand, p.1.isFinite ∧ p.2.isFinite := by
  constructor
  · intro hc p hp
    exact ⟨hc.goldenFinite _ (List.of_mem_zip hp).1, hc.candFinite _ (List.of_mem_zip hp).2⟩
  · intro hz
    refine ⟨h, fun x hx => ?_, fun x hx => ?_⟩
    · rw [← List.map_fst_zip h.le] at hx
      obtain ⟨p, hp, rfl⟩ := List.mem_map.mp hx
      exact (hz p hp).1
    · rw [← List.map_snd_zip h.ge] at hx
      obtain ⟨p, hp, rfl⟩ := List.mem_map.mp hx
      exact (hz p hp).2

/-- The error of the tensors behind the loop. -/
def Worst.rel (w : Worst) : F32 := if zero < w.scale then div w.worst w.scale else infinite false

theorem diff_incomparable {name : String} {shape : List ℕ} {golden cand : List F32}
    (h : ¬ Comparable golden cand) : ∃ d, diff name shape golden cand = some d ∧ d.maxRel = infinite false := by
  unfold diff
  by_cases hl : golden.length = cand.length
  · rw [if_neg (not_not.mpr hl)]
    split
    · exact ⟨_, rfl, rfl⟩
    · rename_i w hw
      exact absurd ((comparable_iff hl).mpr (scanned_foldlM scanned_nil hw).finite) h
  · rw [if_pos hl]
    exact ⟨_, rfl, rfl⟩

theorem diff_comparable {golden cand : List F32} (h : Comparable golden cand) :
    ∃ w : Worst, Scanned (golden.zip cand) w ∧ ∀ name shape,
      (Feq w.worst zero ∧ diff name shape golden cand = none) ∨
      ¬ Feq w.worst zero ∧ ∃ d, diff name shape golden cand = some d ∧ d.maxRel = w.rel := by
  obtain ⟨w, hw⟩ := scan_ends ⟨0, zero, 0, zero⟩ ((comparable_iff h.length).mp h)
  refine ⟨w, scanned_foldlM scanned_nil hw, fun name shape => ?_⟩
  unfold diff
  rw [if_neg (not_not.mpr h.length), hw]
  by_cases h0 : Feq w.worst zero
  · exact .inl ⟨h0, if_pos h0⟩
  · exact .inr ⟨h0, _, if_neg h0, rfl⟩

theorem eq_infinite_of_le {x : F32} (h : infinite false ≤ x) : x = infinite false := by
  rcases finite_or_infinite_of_le h with h | h | h
  · cases h
  · exact h
  · cases h.1

section Scan

variable {done : List (F32 × F32)} {w : Worst} (h : Scanned done w)
include h

theorem rel_nonneg : zero ≤ w.rel := by
  unfold Worst.rel
  split
  · rename_i hs
    have hdz : div zero w.scale ≤ div w.worst w.scale := div_le_div_right h.scaleFinite hs.2.2 h.worst
    refine ⟨zero_ne_nan, hdz.2.1, ?_⟩
    calc key zero = key (div zero w.scale) := (key_zero_div hs).symm
      _ ≤ key (div w.worst w.scale) := hdz.2.2
  · exact le_infinite zero_ne_nan

/-- No difference is greater than the worst one. -/
theorem feq_of_worst (h0 : Feq w.worst zero) : ∀ p ∈ done, Feq p.1 p.2 := by
  intro p hp
  have hle := h.le_worst p hp
  obtain ⟨h1, h2⟩ := h.finite p hp
  rw [← abs_sub_feq_zero h1 h2]
  refine ⟨hle.1, zero_ne_nan, le_antisymm (hle.2.2.trans h0.2.2.le) ?_⟩
  rw [key_abs, key_zero]
  exact abs_nonneg _

theorem close_of_rel {maxRel : F32} (hr : w.rel ≤ maxRel) : ∀ p ∈ done,
    Feq p.1 p.2 ∨ div (abs (sub p.1 p.2)) w.scale ≤ maxRel := by
  intro p hp
  by_cases he : Feq p.1 p.2
  · exact .inl he
  right
  obtain ⟨h1, h2⟩ := h.finite p hp
  unfold Worst.rel at hr
  by_cases hs : zero < w.scale
  · rw [if_pos hs] at hr
    exact le_chain (div_le_div_right h.scaleFinite hs.2.2 (h.le_worst p hp)) hr
  · -- all of the golden tensor is zero: only the infinite tolerance is left
    rw [if_neg hs] at hr
    rw [eq_infinite_of_le hr]
    have hd : abs (sub p.1 p.2) ≠ nan := abs_ne_nan (sub_ne_nan h1 h2)
    refine le_infinite (div_ne_nan hd h.scaleFinite (.inl fun hk => he ?_))
    exact (abs_sub_feq_zero h1 h2).mp ⟨hd, zero_ne_nan, hk⟩

end Scan

theorem within_of_diff_none {name : String} {shape : List ℕ} {golden cand : List F32} (maxRel : F32)
    (h : diff name shape golden cand = none) : Within maxRel golden cand := by
  by_cases hc : Comparable golden cand
  · obtain ⟨w, hw, hd⟩ := diff_comparable hc
    rcases hd name shape with ⟨h0, -⟩ | ⟨-, d, hd, -⟩
    · exact ⟨hc, fun p hp => .inl (feq_of_worst hw h0 p hp)⟩
    · rw [hd] at h
      cases h
  · obtain ⟨d, hd, -⟩ := @diff_incomparable name shape _ _ hc
    rw [hd] at h
    cases h

theorem maxRel_nonneg {name : String} {shape : List ℕ} {golden cand : List F32} {d : TensorDiff}
    (h : diff name shape golden cand = some d) : zero ≤ d.maxRel := by
  by_cases hc : Comparable golden cand
  · obtain ⟨w, hw, hd⟩ := diff_comparable hc
    rcases hd name shape with ⟨-, hn⟩ | ⟨-, d', hd', hr⟩
    · rw [hn] at h
      cases h
    · rw [hd'] at h
      obtain rfl := Option.some.inj h
      rw [hr]
      exact rel_nonneg hw
  · obtain ⟨d', hd', hr⟩ := @diff_incomparable name shape _ _ hc
    rw [hd'] at h
    obtain rfl := Option.some.inj h
    rw [hr]
    exact le_infinite zero_ne_nan

/-- A reported error within the tolerance bounds every element, but where the
tolerance is infinite: then the tensors may have no error at all. -/
theorem within_of_maxRel {name : String} {shape : List ℕ} {golden cand : List F32} {d : TensorDiff} {maxRel : F32}
    (h : diff name shape golden cand = some d) (hle : d.maxRel ≤ maxRel)
    (hinf : maxRel = infinite false → Comparable golden cand) : Within maxRel golden cand := by
  by_cases hc : Comparable golden cand
  · obtain ⟨w, hw, hd⟩ := diff_comparable hc
    rcases hd name shape with ⟨-, hn⟩ | ⟨-, d', hd', hr⟩
    · rw [hn] at h
      cases h
    · rw [hd'] at h
      obtain rfl := Option.some.inj h
      rw [hr] at hle
      refine ⟨hc, ?_⟩
      have hclose := close_of_rel hw hle
      rwa [hw.scale, List.map_fst_zip hc.length.le] at hclose
  · obtain ⟨d', hd', hr⟩ := @diff_incomparable name shape _ _ hc
    rw [hd'] at h
    obtain rfl := Option.some.inj h
    rw [hr] at hle
    exact absurd (hinf (eq_infinite_of_le hle)) hc

/-! ### The lists of the comparison -/

section Lists

variable (g c : Bundle) (group : Option String)

/-- The tensors that the group filter lets through. -/
def Selected (e : TensorEntry) : Prop := ∀ gr, group = some gr → e.group = gr

/-- A golden tensor that the candidate does not list. -/
def Missing (e : TensorEntry) : Prop := Selected group e ∧ c.entry e.name = none

/-- A tensor that is read from both bundles, with what its comparison reports. -/
def Differs (e : TensorEntry) (d : TensorDiff) : Prop :=
  Selected group e ∧ ∃ gv cv, g.readEntry e = .ok gv ∧ c.read e.name = .ok cv ∧
    diff e.name e.shape gv cv = some d

variable {g c group}

theorem read_eq_ok {b : Bundle} {name : String} {v : List F32} :
    b.read name = .ok v ↔ ∃ e, b.entry name = some e ∧ b.readEntry e = .ok v := by
  unfold Bundle.read
  cases b.entry name with
  | none => exact ⟨fun h => (nomatch h), fun ⟨_, h, _⟩ => (nomatch h)⟩
  | some e => exact ⟨fun h => ⟨e, rfl, h⟩, fun ⟨e', he, h⟩ => Option.some.inj he ▸ h⟩

theorem selected_iff {e : TensorEntry} :
    Selected group e ↔ ¬ (group.any fun gr => decide (e.group ≠ gr)) = true := by
  unfold Selected
  cases group with
  | none => simp
  | some gr => simp

/-- What one round adds to the lists. -/
theorem compareEntry_lists (t : Tally) (e : TensorEntry) :
    (∀ d, d ∈ (compareEntry g c group t e).diffs ↔ d ∈ t.diffs ∨ Differs g c group e d) ∧
    (∀ n, n ∈ (compareEntry g c group t e).missing ↔ n ∈ t.missing ∨ (Missing c group e ∧ n = e.name)) := by
  unfold compareEntry
  by_cases hsel : Selected group e
  · rw [if_neg (selected_iff.mp hsel)]
    cases hce : c.entry e.name with
    | none =>
      have hread : ∀ cv, c.read e.name ≠ .ok cv := by
        intro cv h
        obtain ⟨_, he, -⟩ := read_eq_ok.mp h
        rw [hce] at he
        cases he
      refine ⟨fun d => ⟨.inl, ?_⟩, fun n => ?_⟩
      · rintro (hd | ⟨-, -, cv, -, hcv, -⟩)
        · exact hd
        · exact absurd hcv (hread cv)
      · simp only [List.mem_append, List.mem_singleton, Missing, hsel, hce, true_and]
    | some ce =>
      have hmiss : ∀ n, n ∈ t.missing ↔ n ∈ t.missing ∨ (Missing c group e ∧ n = e.name) := by
        refine fun n => ⟨.inl, ?_⟩
        rintro (hn | ⟨⟨-, hnone⟩, -⟩)
        · exact hn
        · rw [hce] at hnone
          cases hnone
      have hread : c.read e.name = c.readEntry ce := by
        unfold Bundle.read
        rw [hce]
      dsimp only
      cases hg : g.readEntry e with
      | error _ =>
        refine ⟨fun d => ⟨.inl, ?_⟩, hmiss⟩
        rintro (hd | ⟨-, gv, -, hgv, -⟩)
        · exact hd
        · rw [hg] at hgv
          cases hgv
      | ok gv =>
        dsimp only
        cases hc : c.readEntry ce with
        | error _ =>
          refine ⟨fun d => ⟨.inl, ?_⟩, hmiss⟩
          rintro (hd | ⟨-, -, cv, -, hcv, -⟩)
          · exact hd
          · rw [hread, hc] at hcv
            cases hcv
        | ok cv =>
          have hiff : ∀ d, Differs g c group e d ↔ diff e.name e.shape gv cv = some d := by
            intro d
            constructor
            · rintro ⟨-, gv', cv', hgv, hcv, hd⟩
              rw [hg] at hgv
              rw [hread, hc] at hcv
              obtain rfl := Except.ok.inj hgv
              obtain rfl := Except.ok.inj hcv
              exact hd
            · exact fun hd => ⟨hsel, gv, cv, hg, hread.trans hc, hd⟩
          simp only [hiff]
          cases diff e.name e.shape gv cv with
          | none => exact ⟨fun d => by simp, hmiss⟩
          | some d' => exact ⟨fun d => by simp [eq_comm], hmiss⟩
  · rw [if_pos (not_not.mp fun h => hsel (selected_iff.mpr h))]
    refine ⟨fun d => ⟨.inl, ?_⟩, fun n => ⟨.inl, ?_⟩⟩
    · rintro (hd | ⟨hs, -⟩)
      · exact hd
      · exact absurd hs hsel
    · rintro (hn | ⟨⟨hs, -⟩, -⟩)
      · exact hn
      · exact absurd hs hsel

/-- What the loop adds to the lists. -/
theorem foldl_compareEntry_lists : ∀ (es : List TensorEntry) (t : Tally),
    (∀ d, d ∈ (es.foldl (compareEntry g c group) t).diffs ↔ d ∈ t.diffs ∨ ∃ e ∈ es, Differs g c group e d) ∧
    (∀ n, n ∈ (es.foldl (compareEntry g c group) t).missing ↔
      n ∈ t.missing ∨ ∃ e ∈ es, Missing c group e ∧ n = e.name)
  | [], t => by simp
  | e :: es, t => by
    obtain ⟨hd, hm⟩ := foldl_compareEntry_lists es (compareEntry g c group t e)
    obtain ⟨hd1, hm1⟩ := @compareEntry_lists g c group t e
    constructor
    · intro d
      rw [List.foldl_cons, hd, hd1, or_assoc, List.exists_mem_cons_iff]
    · intro n
      rw [List.foldl_cons, hm, hm1, or_assoc, List.exists_mem_cons_iff]

end Lists

/-! ### The verdict -/

/-- The report is sorted by the error. -/
theorem pairwise_worse {l : List TensorDiff} (h : ∀ d ∈ l, d.maxRel ≠ nan) :
    (l.mergeSort worse).Pairwise fun a b => b.maxRel ≤ a.maxRel := by
  have hkey : ∀ a ∈ l, ∀ b ∈ l,
      worse a b = decide (OrderDual.toDual (key a.maxRel) ≤ OrderDual.toDual (key b.maxRel)) := by
    intro a ha b hb
    rw [worse, decide_eq_decide, lt_def, OrderDual.toDual_le_toDual]
    exact ⟨fun hn => not_lt.mp fun hk => hn ⟨h a ha, h b hb, hk⟩, fun hk hn => absurd hn.2.2 (not_lt.mpr hk)⟩
  refine (Ranking.pairwise_mergeSort_key hkey).imp_of_mem fun {a b} ha hb hab => ?_
  exact ⟨h b (List.mem_mergeSort.mp hb), h a (List.mem_mergeSort.mp ha), OrderDual.toDual_le_toDual.mp hab⟩

/-- The worst error is within the tolerance iff all of them are. -/
theorem worst_le_iff {l : List TensorDiff} {maxRel : F32} (h : ∀ d ∈ l, zero ≤ d.maxRel) :
    (((l.mergeSort worse).head?.map TensorDiff.maxRel).getD zero ≤ maxRel) ↔
      zero ≤ maxRel ∧ ∀ d ∈ l, d.maxRel ≤ maxRel := by
  have hp := pairwise_worse fun d hd => (h d hd).2.1
  have hmem : ∀ d, d ∈ l ↔ d ∈ l.mergeSort worse := fun d => List.mem_mergeSort.symm
  simp only [hmem] at h ⊢
  generalize l.mergeSort worse = m at h hp ⊢
  cases m with
  | nil => simp
  | cons d ds =>
    rw [List.head?_cons, Option.map_some, Option.getD_some, List.forall_mem_cons]
    constructor
    · intro hle
      refine ⟨le_chain (h d (List.mem_cons_self ..)) hle, hle, fun d' hd' => ?_⟩
      exact le_chain (List.rel_of_pairwise_cons hp hd') hle
    · exact fun hle => hle.2.1

theorem firstDivergence_eq_none {g c : Manifest} :
    (diffTokens g c).firstDivergence = none ↔ g.greedy.finalIds = c.greedy.finalIds := by
  simp only [diffTokens, Option.or_eq_none_iff, firstDifference, List.find?_eq_none]
  constructor
  · rintro ⟨hsame, hlen⟩
    have hl : g.greedy.finalIds.length = c.greedy.finalIds.length := by
      by_contra hne
      rw [if_pos hne] at hlen
      cases hlen
    refine List.ext_getElem? fun i => ?_
    by_cases hi : i < g.greedy.finalIds.length
    · have := hsame i (List.mem_range.mpr (lt_min hi (hl ▸ hi)))
      simpa using this
    · rw [List.getElem?_eq_none (by omega), List.getElem?_eq_none (by omega)]
  · intro h
    rw [h]
    simp

/-- The recorded ids of a bundle are the argmax of the logits that are there. -/
theorem selfconsistent_iff {b : Bundle} : checkTokenSelfconsistency b = [] ↔
    ∀ s ∈ b.manifest.greedy.steps, ∀ logits, b.read (stepName s.step) = .ok logits → logits ≠ [] →
      UInt32.ofNat (argmax logits) = s.argmaxToken := by
  unfold checkTokenSelfconsistency
  rw [List.filterMap_eq_nil_iff]
  constructor
  · intro h s hs logits hr h0
    obtain ⟨i, hi⟩ := List.mem_iff_getElem?.mp hs
    have := h (s, i) (List.mem_zipIdx_iff_getElem?.mpr hi)
    dsimp only at this
    rw [hr] at this
    by_contra hne
    simp [h0, hne] at this
  · rintro h ⟨s, i⟩ hsi
    have hs : s ∈ b.manifest.greedy.steps := List.mem_of_getElem? (List.mem_zipIdx_iff_getElem?.mp hsi)
    dsimp only
    cases hr : b.read (stepName s.step) with
    | error _ => rfl
    | ok logits =>
      dsimp only
      by_cases h0 : logits = []
      · simp [h0]
      · have := h s hs logits hr h0
        simp [this]

/-! ### What a passing comparison says -/

section Pass

variable (g c : Bundle) (group : Option String) (maxRel : F32)

/-- What a `PASS` is read as. -/
structure Sound : Prop where
  tensors : ∀ e ∈ g.manifest.tensors, Selected group e → ∃ gv cv, g.readEntry e = .ok gv ∧
    c.read e.name = .ok cv ∧ Within maxRel gv cv
  finalIds : g.manifest.greedy.finalIds = c.manifest.greedy.finalIds
  steps : ∀ s ∈ c.manifest.greedy.steps, ∃ logits, c.read (stepName s.step) = .ok logits ∧
    IsFirstMax logits s.argmaxToken.toNat

/-- Nothing that the verdict is about is left out: every selected tensor that
the candidate lists is read from both bundles; an infinite tolerance meets
comparable tensors only; and every greedy step of the candidate has logits,
with a greatest one among the first `2 ^ 32`. -/
structure Unskipped : Prop where
  readable : ∀ e ∈ g.manifest.tensors, Selected group e → ∀ ce, c.entry e.name = some ce →
    (∃ gv, g.readEntry e = .ok gv) ∧ ∃ cv, c.readEntry ce = .ok cv
  comparable : maxRel = infinite false → ∀ e ∈ g.manifest.tensors, Selected group e → ∀ gv cv,
    g.readEntry e = .ok gv → c.read e.name = .ok cv → Comparable gv cv
  logits : ∀ s ∈ c.manifest.greedy.steps, ∃ logits, c.read (stepName s.step) = .ok logits ∧
    ∃ i < 2 ^ 32, IsFirstMax logits i

/-- Something that is looked at fails: the tolerance admits nothing, a selected
tensor is missing, the token ids differ, a tensor that is read from both
bundles differs by more than the tolerance, or a recorded argmax of one of the
bundles is not that of its logits. -/
def Caught : Prop :=
  ¬ zero ≤ maxRel ∨ (∃ e ∈ g.manifest.tensors, Missing c group e) ∨
  g.manifest.greedy.finalIds ≠ c.manifest.greedy.finalIds ∨
  (∃ e ∈ g.manifest.tensors, ∃ d, Differs g c group e d ∧ ¬ d.maxRel ≤ maxRel) ∨
  checkTokenSelfconsistency g ≠ [] ∨ checkTokenSelfconsistency c ≠ []

variable {g c group maxRel}

/-- The verdict is `FAIL` exactly where something is caught. -/
theorem ok_iff : (cmdCompare g c group maxRel).ok ↔ ¬ Caught g c group maxRel := by
  obtain ⟨hdiffs, hmissing⟩ := @foldl_compareEntry_lists g c group g.manifest.tensors ⟨[], 0, 0, []⟩
  simp only [List.not_mem_nil, false_or] at hdiffs hmissing
  have hmiss : (g.manifest.tensors.foldl (compareEntry g c group) ⟨[], 0, 0, []⟩).missing = [] ↔
      ¬ ∃ e ∈ g.manifest.tensors, Missing c group e := by
    rw [List.eq_nil_iff_forall_not_mem]
    constructor
    · rintro h ⟨e, he, hm⟩
      exact h e.name ((hmissing _).mpr ⟨e, he, hm, rfl⟩)
    · intro h n hn
      obtain ⟨e, he, hm, -⟩ := (hmissing n).mp hn
      exact h ⟨e, he, hm⟩
  have hworst := @worst_le_iff (g.manifest.tensors.foldl (compareEntry g c group) ⟨[], 0, 0, []⟩).diffs maxRel
    fun d hd => by
      obtain ⟨e, -, -, gv, cv, -, -, hdiff⟩ := (hdiffs d).mp hd
      exact maxRel_nonneg hdiff
  have hall : (∀ d ∈ (g.manifest.tensors.foldl (compareEntry g c group) ⟨[], 0, 0, []⟩).diffs, d.maxRel ≤ maxRel) ↔
      ¬ ∃ e ∈ g.manifest.tensors, ∃ d, Differs g c group e d ∧ ¬ d.maxRel ≤ maxRel := by
    constructor
    · rintro h ⟨e, he, d, hd, hn⟩
      exact hn (h d ((hdiffs d).mpr ⟨e, he, hd⟩))
    · intro h d hd
      obtain ⟨e, he, hd⟩ := (hdiffs d).mp hd
      by_contra hn
      exact h ⟨e, he, d, hd, hn⟩
  simp only [cmdCompare, Bool.and_eq_true, decide_eq_true_eq, Option.isNone_iff_eq_none, List.isEmpty_iff,
    firstDivergence_eq_none, hworst, hmiss, hall, Caught, not_or, not_not, ne_eq]
  exact ⟨fun ⟨⟨⟨⟨⟨h1, h2⟩, h3⟩, h4⟩, h5⟩, h6⟩ => ⟨h1, h4, h3, h2, h5, h6⟩,
    fun ⟨h1, h4, h3, h2, h5, h6⟩ => ⟨⟨⟨⟨⟨h1, h2⟩, h3⟩, h4⟩, h5⟩, h6⟩⟩

theorem sound_of_unskipped (h : Unskipped g c group maxRel) (hok : ¬ Caught g c group maxRel) :
    Sound g c group maxRel := by
  simp only [Caught, not_or, not_not, ne_eq] at hok
  obtain ⟨-, hmissing, hids, hdiffs, -, hself⟩ := hok
  refine ⟨fun e he hsel => ?_, hids, fun s hs => ?_⟩
  · cases hce : c.entry e.name with
    | none => exact absurd ⟨e, he, hsel, hce⟩ hmissing
    | some ce =>
      obtain ⟨⟨gv, hgv⟩, cv, hcv⟩ := h.readable e he hsel ce hce
      have hread : c.read e.name = .ok cv := read_eq_ok.mpr ⟨ce, hce, hcv⟩
      refine ⟨gv, cv, hgv, hread, ?_⟩
      cases hd : diff e.name e.shape gv cv with
      | none => exact within_of_diff_none maxRel hd
      | some d =>
        refine within_of_maxRel hd ?_ fun hinf => h.comparable hinf e he hsel gv cv hgv hread
        by_contra hn
        exact hdiffs ⟨e, he, d, ⟨hsel, gv, cv, hgv, hread, hd⟩, hn⟩
  · obtain ⟨logits, hread, i, hi, hmax⟩ := h.logits s hs
    refine ⟨logits, hread, ?_⟩
    have hne : logits ≠ [] := List.ne_nil_of_length_pos (Nat.zero_lt_of_lt hmax.lt_length)
    have harg : argmax logits = i := (isFirstMax_argmax hne hmax.ne_nan).unique hmax
    rw [← selfconsistent_iff.mp hself s hs logits hread hne, harg]
    have hnat : (UInt32.ofNat i).toNat = i := by
      rw [UInt32.toNat_ofNat']
      exact Nat.mod_eq_of_lt hi
    rwa [hnat]

theorem unskipped_of_sound (h : Sound g c group maxRel) : Unskipped g c group maxRel := by
  refine ⟨fun e he hsel ce hce => ?_, fun _ e he hsel gv cv hgv hcv => ?_, fun s hs => ?_⟩
  · obtain ⟨gv, cv, hgv, hcv, -⟩ := h.tensors e he hsel
    obtain ⟨ce', hce', hread⟩ := read_eq_ok.mp hcv
    obtain rfl := Option.some.inj (hce.symm.trans hce')
    exact ⟨⟨gv, hgv⟩, cv, hread⟩
  · obtain ⟨gv', cv', hgv', hcv', hwithin⟩ := h.tensors e he hsel
    obtain rfl := Except.ok.inj (hgv.symm.trans hgv')
    obtain rfl := Except.ok.inj (hcv.symm.trans hcv')
    exact hwithin.toComparable
  · obtain ⟨logits, hread, hmax⟩ := h.steps s hs
    exact ⟨logits, hread, _, s.argmaxToken.toNat_lt, hmax⟩

/-- **A `PASS` is sound exactly where nothing is left out**, or where something
else makes it a `FAIL`. -/
theorem pass_sound_iff (g c : Bundle) (group : Option String) (maxRel : F32) :
    ((cmdCompare g c group maxRel).ok → Sound g c group maxRel) ↔
      Unskipped g c group maxRel ∨ Caught g c group maxRel := by
  rw [ok_iff]
  constructor
  · intro h
    by_cases hc : Caught g c group maxRel
    · exact .inr hc
    · exact .inl (unskipped_of_sound (h hc))
  · rintro (h | h) hok
    · exact sound_of_unskipped h hok
    · exact absurd h hok

/-- A golden tensor of four bytes. -/
def weightEntry : TensorEntry := ⟨"weights", "w", "weights/w.f32", [1], 4⟩

def smallManifest : Manifest := ⟨"qwen35-golden-v1", "little", "f32", [weightEntry], ⟨[], []⟩⟩

/-- The golden bundle has the file (the number `1`), the candidate lists it only. -/
def smallGolden : Bundle :=
  ⟨"golden", smallManifest, fun _ => some [0, 0, 128, 63], List.nodup_singleton _⟩

def smallCandidate : Bundle := ⟨"candidate", smallManifest, fun _ => none, List.nodup_singleton _⟩

/-- The tensor that cannot be read is not compared, and the comparison passes. -/
theorem unread_passes : ¬ ∀ (g c : Bundle) (group : Option String) (maxRel : F32),
    (cmdCompare g c group maxRel).ok → Sound g c group maxRel := by
  intro h
  have hok : (cmdCompare smallGolden smallCandidate none zero).ok := by decide +kernel
  obtain ⟨gv, cv, -, hcv, -⟩ := (h _ _ _ _ hok).tensors weightEntry (List.mem_singleton_self _) nofun
  have hno : smallCandidate.read "w" = .error (.io "weights/w.f32") := by decide
  rw [show smallCandidate.read weightEntry.name = smallCandidate.read "w" from rfl, hno] at hcv
  cases hcv

end Pass

end Goldenbundle
end Siphon
