/-
# Merging spans in one pass

Spans of numbers, given in the order of their starts, are merged by a pass
that looks at the last span only: the next one is taken into it when it starts
at most a given gap behind its stop. What the pass covers does not depend on
how the spans nest or repeat, and a greater gap only fills gaps of the smaller
one: the span that is being built stops at the same place for every gap, since
every span so far is in it or before it, so two passes differ only in where
that span starts.

Key definitions: `Merging.mergeFrom`, `Merging.merge`, `Merging.Covers`.
Key theorems: `Merging.covers_merge_zero`, `Merging.covers_mono`,
`Merging.gap_of_covers`, `Merging.length_merge_le`, `Merging.foldl_extendLast`.
-/
import Mathlib.Algebra.Order.Group.Nat
import Mathlib.Data.List.Basic
import Mathlib.Data.List.Infix

namespace Merging

/-- The pass, with the span that is being built. -/
def mergeFrom (gap : ℕ) : ℕ × ℕ → List (ℕ × ℕ) → List (ℕ × ℕ)
  | c, [] => [c]
  | c, p :: ps =>
    if p.1 ≤ c.2 + gap then mergeFrom gap (c.1, max c.2 p.2) ps else c :: mergeFrom gap p ps

/-- The pass over all spans. -/
def merge (gap : ℕ) : List (ℕ × ℕ) → List (ℕ × ℕ)
  | [] => []
  | p :: ps => mergeFrom gap p ps

/-- A number is in one of the spans. -/
def Covers (ps : List (ℕ × ℕ)) (x : ℕ) : Prop := ∃ p ∈ ps, p.1 ≤ x ∧ x < p.2

theorem covers_cons {p : ℕ × ℕ} {ps : List (ℕ × ℕ)} {x : ℕ} :
    Covers (p :: ps) x ↔ (p.1 ≤ x ∧ x < p.2) ∨ Covers ps x := by
  simp [Covers]

/-- No span starts before an earlier one. -/
def Sorted (ps : List (ℕ × ℕ)) : Prop := ps.Pairwise fun p q => p.1 ≤ q.1

variable {gap gap' : ℕ} {ps : List (ℕ × ℕ)} {x : ℕ}

/-! ### The pass as a loop over its output -/

/-- One span of the loop: the last span of the output is extended, or a new
one begins. -/
def extendLast (gap : ℕ) (out : List (ℕ × ℕ)) (p : ℕ × ℕ) : List (ℕ × ℕ) :=
  match out.getLast? with
  | some last => if p.1 ≤ last.2 + gap then out.dropLast ++ [(last.1, max last.2 p.2)] else out ++ [p]
  | none => out ++ [p]

theorem foldl_extendLast_concat (gap : ℕ) : ∀ (ps out : List (ℕ × ℕ)) (c : ℕ × ℕ),
    ps.foldl (extendLast gap) (out ++ [c]) = out ++ mergeFrom gap c ps
  | [], out, c => rfl
  | p :: ps, out, c => by
    rw [List.foldl_cons, extendLast, List.getLast?_concat, mergeFrom]
    dsimp only
    split_ifs with h
    · rw [List.dropLast_concat, foldl_extendLast_concat gap ps]
    · rw [foldl_extendLast_concat gap ps, List.append_assoc]
      rfl

theorem foldl_extendLast (gap : ℕ) (ps : List (ℕ × ℕ)) : ps.foldl (extendLast gap) [] = merge gap ps := by
  cases ps with
  | nil => rfl
  | cons p ps => exact foldl_extendLast_concat gap ps [] p

/-! ### One pass -/

/-- The span that is being built is the start of the first one of the output. -/
theorem exists_mergeFrom_eq_cons (gap : ℕ) : ∀ (ps : List (ℕ × ℕ)) (c : ℕ × ℕ),
    ∃ stop rest, mergeFrom gap c ps = (c.1, stop) :: rest ∧ c.2 ≤ stop
  | [], c => ⟨c.2, [], rfl, le_rfl⟩
  | p :: ps, c => by
    rw [mergeFrom]
    split_ifs
    · obtain ⟨stop, rest, he, hle⟩ := exists_mergeFrom_eq_cons gap ps (c.1, max c.2 p.2)
      exact ⟨stop, rest, he, (le_max_left _ _).trans hle⟩
    · exact ⟨c.2, _, rfl, le_rfl⟩

/-- What spans have and keep when one is taken into another. -/
def Kept (I : ℕ × ℕ → Prop) : Prop := ∀ c p, I c → I p → I (c.1, max c.2 p.2)

theorem forall_mem_extendLast {I : ℕ × ℕ → Prop} (hI : Kept I) {out : List (ℕ × ℕ)} {p : ℕ × ℕ}
    (h : ∀ q ∈ out, I q) (hp : I p) : ∀ q ∈ extendLast gap out p, I q := by
  have hpush : ∀ q ∈ out ++ [p], I q := by
    intro q hq
    obtain hq | hq := List.mem_append.mp hq
    · exact h q hq
    · exact List.mem_singleton.mp hq ▸ hp
  unfold extendLast
  cases hlast : out.getLast? with
  | none => exact hpush
  | some last =>
    dsimp only
    split_ifs
    · intro q hq
      obtain hq | hq := List.mem_append.mp hq
      · exact h q (List.dropLast_subset out hq)
      · exact List.mem_singleton.mp hq ▸ hI last p (h last (List.mem_of_getLast? hlast)) hp
    · exact hpush

theorem forall_mem_mergeFrom {I : ℕ × ℕ → Prop} (hI : Kept I) : ∀ {ps : List (ℕ × ℕ)} {c : ℕ × ℕ}, I c →
    (∀ p ∈ ps, I p) → ∀ r ∈ mergeFrom gap c ps, I r
  | [], c, hc, _, r, hr => by
    rw [List.mem_singleton.mp hr]
    exact hc
  | p :: ps, c, hc, h, r, hr => by
    have hp := h p (by simp)
    have hps : ∀ q ∈ ps, I q := fun q hq => h q (by simp [hq])
    rw [mergeFrom] at hr
    split_ifs at hr
    · exact forall_mem_mergeFrom hI (hI c p hc hp) hps r hr
    · obtain rfl | hr := List.mem_cons.mp hr
      · exact hc
      · exact forall_mem_mergeFrom hI hp hps r hr

theorem forall_mem_merge {I : ℕ × ℕ → Prop} (hI : Kept I) (h : ∀ p ∈ ps, I p) : ∀ r ∈ merge gap ps, I r := by
  cases ps with
  | nil => simp [merge]
  | cons p ps => exact forall_mem_mergeFrom hI (h p (by simp)) fun q hq => h q (by simp [hq])

theorem le_of_covers_mergeFrom {c : ℕ × ℕ} (h : Sorted (c :: ps)) (hx : Covers (mergeFrom gap c ps) x) : c.1 ≤ x := by
  obtain ⟨r, hr, hle, -⟩ := hx
  have hkept : Kept fun r => c.1 ≤ r.1 := fun _ _ h _ => h
  exact (forall_mem_mergeFrom hkept (le_refl c.1) (List.pairwise_cons.mp h).1 r hr).trans hle

/-- A span that starts in the one being built adds what lies behind its stop. -/
theorem mem_extended_iff {c p : ℕ × ℕ} (h1 : c.1 ≤ p.1) (h2 : p.1 ≤ c.2) :
    (c.1 ≤ x ∧ x < max c.2 p.2) ↔ (c.1 ≤ x ∧ x < c.2) ∨ (p.1 ≤ x ∧ x < p.2) := by
  omega

theorem covers_mergeFrom_zero : ∀ {ps : List (ℕ × ℕ)} {c : ℕ × ℕ}, Sorted (c :: ps) →
    (Covers (mergeFrom 0 c ps) x ↔ Covers (c :: ps) x)
  | [], c, _ => Iff.rfl
  | p :: ps, c, h => by
    obtain ⟨hc, hps⟩ := List.pairwise_cons.mp h
    have hcp := hc p (by simp)
    rw [mergeFrom]
    split_ifs with hnear
    · have h' : Sorted ((c.1, max c.2 p.2) :: ps) :=
        List.pairwise_cons.mpr ⟨fun q hq => hc q (by simp [hq]), (List.pairwise_cons.mp hps).2⟩
      rw [covers_mergeFrom_zero h', covers_cons, covers_cons, covers_cons, mem_extended_iff hcp hnear, or_assoc]
    · rw [covers_cons, covers_mergeFrom_zero hps, covers_cons, covers_cons, covers_cons]

/-- Without a gap the pass covers what the spans cover. -/
theorem covers_merge_zero (h : Sorted ps) : Covers (merge 0 ps) x ↔ Covers ps x := by
  cases ps with
  | nil => rfl
  | cons p ps => exact covers_mergeFrom_zero h

/-! ### Two passes -/

/-- Every span of the pass with the smaller gap is inside one of the pass with
the greater gap, which is building a span that starts no later and stops at
the same place. -/
theorem exists_mem_mergeFrom (hg : gap ≤ gap') : ∀ {ps : List (ℕ × ℕ)} {c c' : ℕ × ℕ},
    c'.1 ≤ c.1 → c'.2 = c.2 → c.1 ≤ c.2 → (∀ p ∈ ps, p.1 < p.2) →
    ∀ r ∈ mergeFrom gap c ps, ∃ r' ∈ mergeFrom gap' c' ps, r'.1 ≤ r.1 ∧ r.2 ≤ r'.2
  | [], c, c', h1, h2, _, _, r, hr => by
    rw [List.mem_singleton.mp hr]
    exact ⟨c', List.mem_singleton_self c', h1, h2.ge⟩
  | p :: ps, c, c', h1, h2, h3, hne, r, hr => by
    have hp := hne p (by simp)
    have hps : ∀ q ∈ ps, q.1 < q.2 := fun q hq => hne q (by simp [hq])
    rw [mergeFrom] at hr ⊢
    split_ifs at hr with hnear
    · -- what is near for the smaller gap is near for the greater one
      rw [if_pos (by omega)]
      have hstart : (c'.1, max c'.2 p.2).1 ≤ (c.1, max c.2 p.2).1 := h1
      exact exists_mem_mergeFrom hg hstart (congrArg (max · p.2) h2) (h3.trans (le_max_left _ _)) hps r hr
    · split_ifs with hnear'
      · have hstop : max c'.2 p.2 = p.2 := max_eq_right (by omega)
        obtain rfl | hr := List.mem_cons.mp hr
        · -- the span that ends here is inside the one that goes on
          obtain ⟨stop, rest, he, hle⟩ := exists_mergeFrom_eq_cons gap' ps (c'.1, max c'.2 p.2)
          refine ⟨(c'.1, stop), by simp [he], h1, ?_⟩
          calc r.2 = c'.2 := h2.symm
            _ ≤ max c'.2 p.2 := le_max_left _ _
            _ ≤ stop := hle
        · exact exists_mem_mergeFrom hg (by dsimp only; omega) hstop hp.le hps r hr
      · obtain rfl | hr := List.mem_cons.mp hr
        · exact ⟨c', by simp, h1, h2.ge⟩
        · obtain ⟨r', hr', hin⟩ := exists_mem_mergeFrom hg le_rfl rfl hp.le hps r hr
          exact ⟨r', by simp [hr'], hin⟩

/-- A greater gap takes each span of the output into one of its own. -/
theorem exists_mem_merge (hg : gap ≤ gap') (hne : ∀ p ∈ ps, p.1 < p.2) :
    ∀ r ∈ merge gap ps, ∃ r' ∈ merge gap' ps, r'.1 ≤ r.1 ∧ r.2 ≤ r'.2 := by
  cases ps with
  | nil => simp [merge]
  | cons p ps => exact exists_mem_mergeFrom hg le_rfl rfl (hne p (by simp)).le fun q hq => hne q (by simp [hq])

theorem length_mergeFrom_le (hg : gap ≤ gap') : ∀ {ps : List (ℕ × ℕ)} {c c' : ℕ × ℕ},
    c'.2 = c.2 → (∀ p ∈ ps, p.1 < p.2) → (mergeFrom gap' c' ps).length ≤ (mergeFrom gap c ps).length
  | [], _, _, _, _ => le_rfl
  | p :: ps, c, c', h2, hne => by
    have hp := hne p (by simp)
    have hps : ∀ q ∈ ps, q.1 < q.2 := fun q hq => hne q (by simp [hq])
    rw [mergeFrom, mergeFrom]
    split_ifs with hnear' hnear hnear
    · have hstop : (c'.1, max c'.2 p.2).2 = (c.1, max c.2 p.2).2 := congrArg (max · p.2) h2
      exact length_mergeFrom_le hg hstop hps
    · have hstop : max c'.2 p.2 = p.2 := max_eq_right (by omega)
      exact (length_mergeFrom_le hg hstop hps).trans (Nat.le_succ _)
    · omega
    · exact Nat.succ_le_succ (length_mergeFrom_le hg rfl hps)

/-- A greater gap makes no more spans. -/
theorem length_merge_le (hg : gap ≤ gap') (hne : ∀ p ∈ ps, p.1 < p.2) :
    (merge gap' ps).length ≤ (merge gap ps).length := by
  cases ps with
  | nil => exact le_rfl
  | cons p ps => exact length_mergeFrom_le hg rfl fun q hq => hne q (by simp [hq])

/-- A number from the start of the span being built on that only the pass with
the greater gap covers is between two neighbours of the other pass. -/
theorem gap_of_covers_mergeFrom (hg : gap ≤ gap') : ∀ {ps : List (ℕ × ℕ)} {c c' : ℕ × ℕ},
    c'.2 = c.2 → Sorted (c :: ps) → (∀ p ∈ ps, p.1 < p.2) → c.1 ≤ x →
    Covers (mergeFrom gap' c' ps) x → ¬ Covers (mergeFrom gap c ps) x →
    ∃ a b, [a, b] <:+: mergeFrom gap c ps ∧ a.2 ≤ x ∧ x < b.1 ∧ b.1 ≤ a.2 + gap'
  | [], c, c', h2, _, _, hx, hcov, hnot => by
    obtain ⟨r, hr, -, hlt⟩ := hcov
    rw [List.mem_singleton.mp hr, h2] at hlt
    exact absurd ⟨c, List.mem_singleton_self c, hx, hlt⟩ hnot
  | p :: ps, c, c', h2, hs, hne, hx, hcov, hnot => by
    have hp := hne p (by simp)
    have hps : ∀ q ∈ ps, q.1 < q.2 := fun q hq => hne q (by simp [hq])
    obtain ⟨hc, hsorted⟩ := List.pairwise_cons.mp hs
    rw [mergeFrom] at hcov
    rw [mergeFrom] at hnot ⊢
    split_ifs at hnot ⊢ with hnear
    · rw [if_pos (by omega)] at hcov
      have hs' : Sorted ((c.1, max c.2 p.2) :: ps) :=
        List.pairwise_cons.mpr ⟨fun q hq => hc q (by simp [hq]), (List.pairwise_cons.mp hsorted).2⟩
      have hstop : (c'.1, max c'.2 p.2).2 = (c.1, max c.2 p.2).2 := congrArg (max · p.2) h2
      exact gap_of_covers_mergeFrom hg hstop hs' hps hx hcov hnot
    · rw [covers_cons, not_or] at hnot
      have hstopped : c.2 ≤ x := by omega
      by_cases hbehind : p.1 ≤ x
      · -- behind the start of the next span both passes go on alike
        have hcov' : ∃ d, d.2 = p.2 ∧ Covers (mergeFrom gap' d ps) x := by
          split_ifs at hcov with hnear'
          · exact ⟨_, max_eq_right (by omega), hcov⟩
          · obtain hcov | hcov := covers_cons.mp hcov
            · omega
            · exact ⟨p, rfl, hcov⟩
        obtain ⟨d, hd, hcov'⟩ := hcov'
        obtain ⟨a, b, hinfix, hab⟩ := gap_of_covers_mergeFrom hg hd hsorted hps hbehind hcov' hnot.2
        exact ⟨a, b, hinfix.trans (List.suffix_cons _ _).isInfix, hab⟩
      · have hnear' : p.1 ≤ c'.2 + gap' := by
          by_contra hfar
          rw [if_neg hfar, covers_cons] at hcov
          obtain hcov | hcov := hcov
          · omega
          · exact hbehind (le_of_covers_mergeFrom hsorted hcov)
        obtain ⟨stop, rest, he, -⟩ := exists_mergeFrom_eq_cons gap ps p
        refine ⟨c, (p.1, stop), ?_, hstopped, by dsimp only; omega, by dsimp only; omega⟩
        rw [he]
        exact ⟨[], rest, rfl⟩

/-- What only a greater gap covers is in a gap it allows, between two
neighbours. -/
theorem gap_of_covers (hg : gap ≤ gap') (hs : Sorted ps) (hne : ∀ p ∈ ps, p.1 < p.2)
    (hcov : Covers (merge gap' ps) x) (hnot : ¬ Covers (merge gap ps) x) :
    ∃ a b, [a, b] <:+: merge gap ps ∧ a.2 ≤ x ∧ x < b.1 ∧ b.1 ≤ a.2 + gap' := by
  cases ps with
  | nil => simp [merge, Covers] at hcov
  | cons p ps =>
    exact gap_of_covers_mergeFrom hg rfl hs (fun q hq => hne q (by simp [hq])) (le_of_covers_mergeFrom hs hcov)
      hcov hnot

end Merging
