/-
# The draw is the inverse distribution function

The walk of `select` stops at the first token with mass whose sum with those
before it is above the number drawn, and behind them all at the last token with
mass. So a token with mass is drawn for the numbers from the mass before it up
to the one with it, the last one also for all greater ones, and a token without
mass for none (`select_eq_iff`). Of a uniform number in `[0, 1)` each token is
drawn with its own mass.

Key definition: `below`.
Key theorems: `select_eq_iff`, `select_inverse`.
-/
import Mathlib.MeasureTheory.Measure.Lebesgue.Basic
import Siphon.Qwen.Exact

namespace Siphon
namespace Qwen
namespace Exact

open MeasureTheory

variable {F : Type} [Field F] [LinearOrder F]

/-- The mass before token `k`. -/
def below (probs : List F) (k : ℕ) : F := (probs.take k).sum

omit [LinearOrder F] in
theorem below_zero (probs : List F) : below probs 0 = 0 := rfl

omit [LinearOrder F] in
theorem below_cons (p : F) (probs : List F) (k : ℕ) : below (p :: probs) (k + 1) = p + below probs k := by
  rw [below, List.take_succ_cons, List.sum_cons, below]

variable [IsStrictOrderedRing F]

theorem below_mono {probs : List F} (h : ∀ p ∈ probs, 0 ≤ p) {j k : ℕ} (hjk : j ≤ k) :
    below probs j ≤ below probs k :=
  List.Sublist.sum_le_sum (List.take_sublist_take_left hjk) fun p hp => h p (List.mem_of_mem_take hp)

theorem below_le_sum {probs : List F} (h : ∀ p ∈ probs, 0 ≤ p) (k : ℕ) : below probs k ≤ probs.sum :=
  List.Sublist.sum_le_sum (List.take_sublist k probs) h

/-- The intervals of two tokens have nothing in common. -/
theorem below_unique {probs : List F} (h : ∀ p ∈ probs, 0 ≤ p) {u : F} {j k : ℕ} (hj : below probs j ≤ u)
    (hj' : u < below probs (j + 1)) (hk : below probs k ≤ u) (hk' : u < below probs (k + 1)) : j = k := by
  rcases lt_trichotomy j k with hlt | heq | hlt
  · exact absurd (hj'.trans_le ((below_mono h hlt).trans hk)) (lt_irrefl u)
  · exact heq
  · exact absurd (hk'.trans_le ((below_mono h hlt).trans hj)) (lt_irrefl u)

/-! ### The walk -/

omit [IsStrictOrderedRing F] in
/-- A number below the sum falls into the interval of a token with mass. -/
theorem selectFrom_of_lt {u : F} : ∀ {probs : List F} (i : ℕ) {acc : F} (last : Option ℕ), (∀ p ∈ probs, 0 ≤ p) →
    acc ≤ u → u < acc + probs.sum → ∃ k, selectFrom u probs i acc last = some (i + k) ∧ 0 < probs.getD k 0 ∧
      acc + below probs k ≤ u ∧ u < acc + below probs (k + 1)
  | [], _, acc, _, _, hacc, hu => by
    rw [List.sum_nil, add_zero] at hu
    exact absurd hacc hu.not_ge
  | p :: probs, i, acc, last, h, hacc, hu => by
    obtain ⟨hp, hprobs⟩ := List.forall_mem_cons.mp h
    rw [List.sum_cons, ← add_assoc] at hu
    rw [selectFrom]
    by_cases hpos : 0 < p
    · rw [if_neg (not_not.mpr hpos)]
      dsimp only
      by_cases hlt : u < acc + p
      · refine ⟨0, if_pos hlt, hpos, by rwa [below_zero, add_zero], ?_⟩
        rwa [below_cons, below_zero, add_zero]
      · rw [if_neg hlt]
        obtain ⟨k, hk, hkpos, hle, hlt'⟩ := selectFrom_of_lt (i + 1) (some i) hprobs (not_lt.mp hlt) hu
        refine ⟨k + 1, by rw [hk]; congr 1; omega, hkpos, ?_, ?_⟩
        · rwa [below_cons, ← add_assoc]
        · rwa [below_cons, ← add_assoc]
    · obtain rfl : p = 0 := le_antisymm (not_lt.mp hpos) hp
      rw [if_pos hpos]
      rw [add_zero] at hu
      obtain ⟨k, hk, hkpos, hle, hlt⟩ := selectFrom_of_lt (i + 1) last hprobs hacc hu
      refine ⟨k + 1, by rw [hk]; congr 1; omega, hkpos, ?_, ?_⟩
      · rwa [below_cons, zero_add]
      · rwa [below_cons, zero_add]

/-- A number that is not below the sum falls to the last token with mass. -/
theorem selectFrom_of_ge {u : F} : ∀ {probs : List F} (i : ℕ) {acc : F} (last : Option ℕ), (∀ p ∈ probs, 0 ≤ p) →
    acc + probs.sum ≤ u → (∀ k, ¬ 0 < probs.getD k 0) ∧ selectFrom u probs i acc last = last ∨
      ∃ k, selectFrom u probs i acc last = some (i + k) ∧ 0 < probs.getD k 0 ∧ ∀ j > k, ¬ 0 < probs.getD j 0
  | [], _, _, _, _, _ => .inl ⟨fun k => by simp, rfl⟩
  | p :: probs, i, acc, last, h, hu => by
    obtain ⟨hp, hprobs⟩ := List.forall_mem_cons.mp h
    rw [List.sum_cons, ← add_assoc] at hu
    have hrest : ∀ {last' : Option ℕ} {acc' : F},
        (∃ k, selectFrom u probs (i + 1) acc' last' = some (i + 1 + k) ∧ 0 < probs.getD k 0 ∧
          ∀ j > k, ¬ 0 < probs.getD j 0) →
        ∃ k, selectFrom u probs (i + 1) acc' last' = some (i + k) ∧ 0 < (p :: probs).getD k 0 ∧
          ∀ j > k, ¬ 0 < (p :: probs).getD j 0 := by
      rintro last' acc' ⟨k, hk, hkpos, hlast⟩
      refine ⟨k + 1, by rw [hk]; congr 1; omega, hkpos, fun j hj => ?_⟩
      obtain ⟨j, rfl⟩ := Nat.exists_eq_succ_of_ne_zero (Nat.ne_zero_of_lt hj)
      exact hlast j (Nat.lt_of_succ_lt_succ hj)
    rw [selectFrom]
    by_cases hpos : 0 < p
    · have hsum : 0 ≤ probs.sum := List.sum_nonneg hprobs
      have hnot : ¬ u < acc + p := not_lt.mpr (le_trans (le_add_of_nonneg_right hsum) hu)
      rw [if_neg (not_not.mpr hpos)]
      dsimp only
      rw [if_neg hnot]
      right
      rcases selectFrom_of_ge (i + 1) (some i) hprobs hu with ⟨hnone, hlast⟩ | hk
      · refine ⟨0, hlast, hpos, fun j hj => ?_⟩
        obtain ⟨j, rfl⟩ := Nat.exists_eq_succ_of_ne_zero (Nat.ne_zero_of_lt hj)
        exact hnone j
      · exact hrest hk
    · rw [if_pos hpos]
      have hle : acc + probs.sum ≤ u := by
        rwa [le_antisymm (not_lt.mp hpos) hp, add_zero] at hu
      refine (selectFrom_of_ge (i + 1) last hprobs hle).imp (fun ⟨hnone, hlast⟩ => ⟨fun k => ?_, hlast⟩) hrest
      match k with
      | 0 => exact hpos
      | k + 1 => exact hnone k

/-! ### What is drawn -/

omit [IsStrictOrderedRing F] in
/-- Where no token behind `k` has mass, the sum ends with it. -/
theorem below_succ_eq_sum {probs : List F} (h : ∀ p ∈ probs, 0 ≤ p) {k : ℕ} (hlast : ∀ j > k, ¬ 0 < probs.getD j 0) :
    below probs (k + 1) = probs.sum := by
  have hrest : (probs.drop (k + 1)).sum = 0 := by
    refine List.sum_eq_zero fun p hp => ?_
    obtain ⟨j, hj, rfl⟩ := List.getElem_of_mem hp
    rw [List.getElem_drop]
    have hlt : k + 1 + j < probs.length := by
      rw [List.length_drop] at hj
      omega
    have hnot := hlast (k + 1 + j) (by omega)
    rw [List.getD_eq_getElem _ _ hlt] at hnot
    exact le_antisymm (not_lt.mp hnot) (h _ (List.getElem_mem hlt))
  rw [below, ← List.sum_take_add_sum_drop probs (k + 1), hrest, add_zero]

/-- **Token `k` is drawn** where it has mass and the number is at least the
mass before it, and either below the one with it or no token behind has any. -/
theorem select_eq_iff {probs : List F} (h : ∀ p ∈ probs, 0 ≤ p) {u : F} (hu : 0 ≤ u) (k : ℕ) :
    select probs u = some k ↔ 0 < probs.getD k 0 ∧ below probs k ≤ u ∧
      (u < below probs (k + 1) ∨ ∀ j > k, ¬ 0 < probs.getD j 0) := by
  by_cases hlt : u < probs.sum
  · obtain ⟨i, hi, hpos, hle, hbelow⟩ := selectFrom_of_lt 0 none h hu (by rwa [zero_add])
    rw [zero_add] at hle hbelow
    rw [Nat.zero_add] at hi
    rw [select, hi, Option.some.injEq]
    constructor
    · rintro rfl
      exact ⟨hpos, hle, .inl hbelow⟩
    · rintro ⟨-, hk, hk'⟩
      refine below_unique h hle hbelow hk ?_
      rcases hk' with hk' | hlast
      · exact hk'
      · rwa [below_succ_eq_sum h hlast]
  · have hge := not_lt.mp hlt
    have hge' : 0 + probs.sum ≤ u := by rwa [zero_add]
    rcases selectFrom_of_ge 0 none h hge' with ⟨hnone, hsel⟩ | ⟨i, hi, hpos, hlast⟩
    · rw [select, hsel]
      exact iff_of_false nofun fun hk => hnone k hk.1
    · rw [Nat.zero_add] at hi
      rw [select, hi, Option.some.injEq]
      constructor
      · rintro rfl
        exact ⟨hpos, (below_le_sum h i).trans hge, .inr hlast⟩
      · rintro ⟨hkpos, -, hk'⟩
        have hklast : ∀ j > k, ¬ 0 < probs.getD j 0 :=
          hk'.resolve_left fun hk => absurd (hk.trans_le ((below_le_sum h _).trans hge)) (lt_irrefl u)
        rcases lt_trichotomy i k with hik | hik | hik
        · exact absurd hkpos (hlast k hik)
        · exact hik
        · exact absurd hpos (hklast i hik)

theorem select_eq_none {probs : List F} (h : ∀ p ∈ probs, 0 ≤ p) {u : F} (hu : 0 ≤ u) :
    select probs u = none ↔ ∀ p ∈ probs, ¬ 0 < p := by
  have hmem : (∀ k, ¬ 0 < probs.getD k 0) ↔ ∀ p ∈ probs, ¬ 0 < p := by
    constructor
    · intro hnone p hp
      obtain ⟨k, hk, rfl⟩ := List.getElem_of_mem hp
      exact List.getD_eq_getElem probs 0 hk ▸ hnone k
    · intro hnone k
      by_cases hk : k < probs.length
      · rw [List.getD_eq_getElem _ _ hk]
        exact hnone _ (List.getElem_mem hk)
      · rw [List.getD_eq_default _ _ (not_lt.mp hk)]
        exact lt_irrefl 0
  rw [← hmem, Option.eq_none_iff_forall_not_mem]
  constructor
  · -- some token with mass is drawn, whether the number is below the sum or not
    intro hsel
    by_cases hlt : u < probs.sum
    · obtain ⟨i, hi, -⟩ := selectFrom_of_lt 0 none h hu (by rwa [zero_add])
      exact absurd hi (hsel _)
    · have hge : 0 + probs.sum ≤ u := by rwa [zero_add, ← not_lt]
      rcases selectFrom_of_ge 0 none h hge with ⟨hnone, -⟩ | ⟨i, hi, -⟩
      · exact hnone
      · exact absurd hi (hsel _)
  · exact fun hnone k hk => hnone k ((select_eq_iff h hu k).mp hk).1

/-- The numbers that draw a token. -/
def drawing (probs : List F) (k : ℕ) : Set F := {u | 0 ≤ u ∧ select probs u = some k}

section Drawing

variable {probs : List F} (h : ∀ p ∈ probs, 0 ≤ p) {k : ℕ}

include h

theorem mem_drawing {u : F} : u ∈ drawing probs k ↔ 0 ≤ u ∧ 0 < probs.getD k 0 ∧ below probs k ≤ u ∧
    (u < below probs (k + 1) ∨ ∀ j > k, ¬ 0 < probs.getD j 0) :=
  and_congr_right fun hu => select_eq_iff h hu k

theorem below_nonneg : 0 ≤ below probs k := List.sum_nonneg fun p hp => h p (List.mem_of_mem_take hp)

theorem drawing_of_not_pos (hp : ¬ 0 < probs.getD k 0) : drawing probs k = ∅ :=
  Set.eq_empty_of_forall_notMem fun _ hu => hp ((mem_drawing h).mp hu).2.1

theorem drawing_of_later (hp : 0 < probs.getD k 0) (hlater : ∃ j > k, 0 < probs.getD j 0) :
    drawing probs k = Set.Ico (below probs k) (below probs (k + 1)) := by
  obtain ⟨j, hj, hjpos⟩ := hlater
  ext u
  rw [mem_drawing h, Set.mem_Ico]
  constructor
  · rintro ⟨-, -, hle, hlt | hlast⟩
    · exact ⟨hle, hlt⟩
    · exact absurd hjpos (hlast j hj)
  · exact fun hu => ⟨(below_nonneg h).trans hu.1, hp, hu.1, .inl hu.2⟩

theorem drawing_of_last (hp : 0 < probs.getD k 0) (hlast : ∀ j > k, ¬ 0 < probs.getD j 0) :
    drawing probs k = Set.Ici (below probs k) := by
  ext u
  rw [mem_drawing h, Set.mem_Ici]
  exact ⟨fun hu => hu.2.2.1, fun hu => ⟨(below_nonneg h).trans hu, hp, hu, .inr hlast⟩⟩

/-- Within the numbers below the sum every token is drawn on one interval. -/
theorem drawing_inter (hp : 0 < probs.getD k 0) :
    drawing probs k ∩ Set.Ico 0 probs.sum = Set.Ico (below probs k) (below probs (k + 1)) := by
  by_cases hlater : ∃ j > k, 0 < probs.getD j 0
  · rw [drawing_of_later h hp hlater, Set.inter_eq_left]
    exact fun u hu => ⟨(below_nonneg h).trans hu.1, hu.2.trans_le (below_le_sum h _)⟩
  · push Not at hlater
    have hlast : ∀ j > k, ¬ 0 < probs.getD j 0 := fun j hj => not_lt.mpr (hlater j hj)
    rw [drawing_of_last h hp hlast, below_succ_eq_sum h hlast]
    ext u
    exact ⟨fun hu => ⟨hu.1, hu.2.2⟩, fun hu => ⟨hu.1, (below_nonneg h).trans hu.1, hu.2⟩⟩

end Drawing

omit [LinearOrder F] [IsStrictOrderedRing F] in
theorem below_succ (probs : List F) (k : ℕ) : below probs (k + 1) = below probs k + probs.getD k 0 := by
  rw [below, List.take_add_one, List.sum_append, List.getD_eq_getElem?_getD, below]
  cases probs[k]? with
  | none => simp
  | some p => simp

/-- Of a uniform number in `[0, 1)` each token is drawn with its own mass. -/
theorem volume_drawing {probs : List ℝ} (h : ∀ p ∈ probs, 0 ≤ p) (hsum : probs.sum = 1) (k : ℕ) :
    volume (drawing probs k ∩ Set.Ico 0 1) = ENNReal.ofReal (probs.getD k 0) := by
  by_cases hp : 0 < probs.getD k 0
  · rw [← hsum, drawing_inter h hp, Real.volume_Ico, below_succ, add_sub_cancel_left]
  · rw [drawing_of_not_pos h hp, Set.empty_inter, measure_empty, ENNReal.ofReal_of_nonpos (not_lt.mp hp)]

/-- **`select` is the inverse of the distribution function.** -/
theorem select_inverse {probs : List F} (h : ∀ p ∈ probs, 0 ≤ p) :
    (∀ u, 0 ≤ u → (select probs u = none ↔ ∀ p ∈ probs, ¬ 0 < p)) ∧
    (∀ k, 0 < probs.getD k 0 → (∃ j > k, 0 < probs.getD j 0) →
      {u | 0 ≤ u ∧ select probs u = some k} = Set.Ico (below probs k) (below probs (k + 1))) ∧
    (∀ k, 0 < probs.getD k 0 → (∀ j > k, ¬ 0 < probs.getD j 0) →
      {u | 0 ≤ u ∧ select probs u = some k} = Set.Ici (below probs k)) ∧
    (∀ k, ¬ 0 < probs.getD k 0 → {u | 0 ≤ u ∧ select probs u = some k} = ∅) ∧
    ∀ {masses : List ℝ}, (∀ p ∈ masses, 0 ≤ p) → masses.sum = 1 → ∀ k,
      volume ({u | 0 ≤ u ∧ select masses u = some k} ∩ Set.Ico 0 1) = ENNReal.ofReal (masses.getD k 0) :=
  ⟨fun _ hu => select_eq_none h hu, fun _ hp hlater => drawing_of_later h hp hlater,
    fun _ hp hlast => drawing_of_last h hp hlast, fun _ hp => drawing_of_not_pos h hp,
    fun hm hsum k => volume_drawing hm hsum k⟩

/-- A token of half the mass, one without any, and another half. -/
theorem select_inverse_halves :
    {u | 0 ≤ u ∧ select [(1 / 2 : ℝ), 0, 1 / 2] u = some 0} = Set.Ico (below [(1 / 2 : ℝ), 0, 1 / 2] 0)
      (below [(1 / 2 : ℝ), 0, 1 / 2] 1) ∧
    {u | 0 ≤ u ∧ select [(1 / 2 : ℝ), 0, 1 / 2] u = some 1} = ∅ ∧
    volume ({u | 0 ≤ u ∧ select [(1 / 2 : ℝ), 0, 1 / 2] u = some 2} ∩ Set.Ico 0 1) = ENNReal.ofReal (1 / 2) := by
  have hnonneg : ∀ p ∈ [(1 / 2 : ℝ), 0, 1 / 2], 0 ≤ p := by simp
  obtain ⟨-, hinner, -, hzero, hvolume⟩ := select_inverse hnonneg
  refine ⟨hinner 0 (by norm_num) ⟨2, by norm_num, by norm_num⟩, hzero 1 (by norm_num), ?_⟩
  exact hvolume hnonneg (by norm_num) 2

end Exact
end Qwen
end Siphon
