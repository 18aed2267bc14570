/-
# No position reads a later token

A pass over a sequence goes on from the pass over any beginning of it: it is
the trace of the beginning with the rest of the trace behind it
(`forward_prefix`). So two sequences with a common beginning share the rows of
all positions in it, in the logits and in the output of every layer, however
they and their lengths differ behind it.

Key definition: `SameRows`.
Key theorem: `forward_causal`.
-/
import Siphon.Qwen.Cached

namespace Siphon
namespace Qwen

open Rows

variable {F D : Type} (a : Arith F D)

/-- The first `n` rows of the logits and of each layer are the same. -/
structure SameRows (mcfg : ModelConfig F) (n : ℕ) (tr tr' : ModelTrace F) : Prop where
  count : tr.layers.length = tr'.layers.length
  logits : ∀ q < n, row tr.logits mcfg.vocab q = row tr'.logits mcfg.vocab q
  layers : ∀ i < tr.layers.length, ∀ q < n,
    row (tr.layers.getD i []) mcfg.hidden q = row (tr'.layers.getD i []) mcfg.hidden q

variable {mcfg : ModelConfig F} {w : ModelWeights F} {n : ℕ} {tr tr' tr'' : ModelTrace F}

theorem SameRows.refl (tr : ModelTrace F) : SameRows mcfg n tr tr := ⟨rfl, fun _ _ => rfl, fun _ _ _ _ => rfl⟩

theorem SameRows.symm (h : SameRows mcfg n tr tr') : SameRows mcfg n tr' tr where
  count := h.count.symm
  logits q hq := (h.logits q hq).symm
  layers i hi q hq := (h.layers i (h.count ▸ hi) q hq).symm

theorem SameRows.trans (h : SameRows mcfg n tr tr') (h' : SameRows mcfg n tr' tr'') : SameRows mcfg n tr tr'' where
  count := h.count.trans h'.count
  logits q hq := (h.logits q hq).trans (h'.logits q hq)
  layers i hi q hq := (h.layers i hi q hq).trans (h'.layers i (h.count ▸ hi) q hq)

/-- What is put behind a trace changes none of its rows. -/
theorem sameRows_append {k : ℕ} (h : tr.Sized mcfg k n) (h' : tr'.layers.length = k) :
    SameRows mcfg n tr (tr.append tr') := by
  have hcount : (tr.append tr').layers.length = k := by
    unfold ModelTrace.append
    rw [List.length_zipWith, h.count, h', Nat.min_self]
  refine ⟨h.count.trans hcount.symm, fun q hq => (row_append_left h.logits hq).symm, fun i hi q hq => ?_⟩
  have hlen : (tr.layers[i]).length = n * mcfg.hidden := h.layers _ (List.getElem_mem hi)
  have hi' : i < tr'.layers.length := by rwa [h', ← h.count]
  calc row (tr.layers.getD i []) mcfg.hidden q = row tr.layers[i] mcfg.hidden q := by rw [List.getD_eq_getElem _ _ hi]
    _ = row (tr.layers[i] ++ tr'.layers[i]) mcfg.hidden q := (row_append_left hlen hq).symm
    _ = row ((tr.append tr').layers.getD i []) mcfg.hidden q := by
      rw [List.getD_eq_getElem _ _ (by rwa [hcount, ← h.count])]
      unfold ModelTrace.append
      rw [List.getElem_zipWith]

/-- A pass over a nonempty sequence ends well exactly where every token is in the vocabulary. -/
theorem forward_isOk_iff (hw : WellShaped mcfg w) {ids : List ℕ} (hne : ids ≠ []) :
    (∃ tr, forward a mcfg w ids = .ok tr) ↔ ∀ id ∈ ids, id < mcfg.vocab := by
  constructor
  · rintro ⟨tr, htr⟩
    cases hemb : embed w.embedTokens mcfg.vocab mcfg.hidden ids with
    | ok e => exact embed_range hemb
    | error e =>
      rw [forward_refuses a hw hne hemb] at htr
      cases htr
  · intro hids
    obtain ⟨tr, cache, hrun, -⟩ := forwardCached_resume a hw (Cache.new_fits a) hne hids
    exact ⟨tr, forward_eq_cached a hw hne hrun⟩

/-- **A pass goes on from the pass over a beginning.** -/
theorem forward_prefix (hw : WellShaped mcfg w) {ids : List ℕ} (rest : List ℕ) (hne : ids ≠ [])
    (hids : ∀ id ∈ ids ++ rest, id < mcfg.vocab) : ∃ tr full, forward a mcfg w ids = .ok tr ∧
      forward a mcfg w (ids ++ rest) = .ok full ∧ SameRows mcfg ids.length tr full := by
  obtain ⟨hpre, hrest⟩ := List.forall_mem_append.mp hids
  obtain ⟨tr, cache, hrun, hsize, hfit, -, hgoes⟩ := forwardCached_resume a hw (Cache.new_fits a) hne hpre
  have htr := forward_eq_cached a hw hne hrun
  by_cases hnil : rest = []
  · subst hnil
    rw [List.append_nil]
    exact ⟨tr, tr, htr, htr, .refl tr⟩
  · obtain ⟨tr', cache', hrun', hboth⟩ := hgoes hnil hrest
    obtain ⟨tr1, cache1, hrun1, hsize', -⟩ := forwardCached_resume a hw hfit hnil hrest
    obtain rfl : tr1 = tr' := Except.ok.inj (Prod.mk.inj (hrun1.symm.trans hrun')).1
    have hfull := forward_eq_cached a hw (List.append_ne_nil_of_left_ne_nil hne rest) hboth
    exact ⟨tr, tr.append tr1, htr, hfull, sameRows_append hsize hsize'.count⟩

/-- **No position's result depends on a later token.** -/
theorem forward_causal (hw : WellShaped mcfg w) {p : ℕ} {ids ids' : List ℕ} (hp : p < ids.length) (hp' : p < ids'.length)
    (hagree : ids.take (p + 1) = ids'.take (p + 1)) :
    ((∃ tr, forward a mcfg w ids = .ok tr) ↔ ∀ id ∈ ids, id < mcfg.vocab) ∧
    ((∃ tr, forward a mcfg w ids' = .ok tr) ↔ ∀ id ∈ ids', id < mcfg.vocab) ∧
    ∀ tr tr', forward a mcfg w ids = .ok tr → forward a mcfg w ids' = .ok tr' →
      tr.layers.length = w.layers.length ∧ SameRows mcfg (p + 1) tr tr' := by
  have hne : ids ≠ [] := List.length_pos_iff.mp (Nat.lt_of_le_of_lt (Nat.zero_le p) hp)
  have hne' : ids' ≠ [] := List.length_pos_iff.mp (Nat.lt_of_le_of_lt (Nat.zero_le p) hp')
  refine ⟨forward_isOk_iff a hw hne, forward_isOk_iff a hw hne', fun tr tr' htr htr' => ?_⟩
  have hids := (forward_isOk_iff a hw hne).mp ⟨tr, htr⟩
  have hids' := (forward_isOk_iff a hw hne').mp ⟨tr', htr'⟩
  obtain ⟨tr0, cache0, hrun0, hsize0, -⟩ := forwardCached_resume a hw (Cache.new_fits a) hne hids
  obtain rfl : tr0 = tr := Except.ok.inj ((forward_eq_cached a hw hne hrun0).symm.trans htr)
  have hlen : (ids.take (p + 1)).length = p + 1 := List.length_take_of_le hp
  have hbegin : ids.take (p + 1) ≠ [] := by
    rw [ne_eq, ← List.length_eq_zero_iff, hlen]
    exact Nat.succ_ne_zero p
  have hjoin : ids.take (p + 1) ++ ids.drop (p + 1) = ids := List.take_append_drop _ _
  have hjoin' : ids.take (p + 1) ++ ids'.drop (p + 1) = ids' := by rw [hagree, List.take_append_drop]
  obtain ⟨b, full, hb, hfull, hsame⟩ := forward_prefix a hw (ids.drop (p + 1)) hbegin (by rwa [hjoin])
  obtain ⟨b', full', hb', hfull', hsame'⟩ := forward_prefix a hw (ids'.drop (p + 1)) hbegin (by rwa [hjoin'])
  rw [hjoin] at hfull
  rw [hjoin'] at hfull'
  rw [hlen] at hsame hsame'
  obtain rfl : full = tr0 := Except.ok.inj (hfull.symm.trans htr)
  obtain rfl : full' = tr' := Except.ok.inj (hfull'.symm.trans htr')
  obtain rfl : b = b' := Except.ok.inj (hb.symm.trans hb')
  exact ⟨hsize0.count, hsame.symm.trans hsame'⟩

theorem forward_causal_small : ∃ tr tr', forward intArith smallConfig smallWeights [0, 1, 0] = .ok tr ∧
    forward intArith smallConfig smallWeights [0, 1, 1, 1] = .ok tr' ∧ tr.layers.length = 2 ∧
    SameRows smallConfig 2 tr tr' := by
  have hp : 1 < [0, 1, 0].length := by decide
  have hp' : 1 < [0, 1, 1, 1].length := by decide
  obtain ⟨hok, hok', hsame⟩ := forward_causal intArith smallWeights_wellShaped hp hp' rfl
  obtain ⟨tr, htr⟩ := hok.mpr (by decide)
  obtain ⟨tr', htr'⟩ := hok'.mpr (by decide)
  obtain ⟨hcount, hrows⟩ := hsame tr tr' htr htr'
  exact ⟨tr, tr', htr, htr', hcount, hrows⟩

end Qwen
end Siphon
