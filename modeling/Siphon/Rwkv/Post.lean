/-
# The epilogue of the recurrence

`wkv7_post` does for one token what the unfused path does in several steps:
group norm, the bonus term, and the gate. The kernel takes the variance as the
mean of the squares less the square of the mean, and cuts it off at zero.

Key theorem: `wkv7Post_eq`.
-/
import Siphon.Lib.Launch
import Siphon.Rwkv.Tensor
import Mathlib.Algebra.Order.BigOperators.Ring.Finset
import Mathlib.Tactic.FieldSimp
import Mathlib.Tactic.Ring

namespace Siphon
namespace Rwkv

open Finset Launch Fallible

section Kernel

variable {F : Type} [Field F] [LinearOrder F] (fn : Functions F)

/-- `wkv7_post_kernel` in thread `p.2` of head `p.1`. -/
def wkv7PostThread (o k r v g gnW gnB rkW : List F) (D : ℕ) (eps : F) (p : ℕ × ℕ) : Option (List (ℕ × F)) := do
  let base := p.1 * D + p.2
  let sum ← total (List.range D) fun i => o[p.1 * D + i]?
  let sumsq ← total (List.range D) fun i => (o[p.1 * D + i]?).map fun x => x * x
  let rk ← total (List.range D) fun i => do
    some ((← k[p.1 * D + i]?) * (← r[p.1 * D + i]?) * (← rkW[p.1 * D + i]?))
  let mean := sum / D
  let var := sumsq / D - mean * mean
  let var := if var < 0 then 0 else var
  let nv := ((← o[base]?) - mean) * (1 / fn.sqrt (var + eps))
  some [(base, (nv * (← gnW[base]?) + (← gnB[base]?) + rk * (← v[base]?)) * (← g[base]?))]

/-- `wkv7_post`: the shared arrays of a block have 64 cells. -/
def wkv7Post (o k r v g gnW gnB rkW : List F) (H D : ℕ) (eps : F) : Option (List F) := do
  if 64 < D then none
  else do
    let og ← launch (List.range H ×ˢ List.range D) (wkv7PostThread fn o k r v g gnW gnB rkW D eps) (alloc (H * D))
    contents og

end Kernel

variable {F : Type} [Field F] [LinearOrder F] [IsStrictOrderedRing F]

/-- The mean of the squares less the square of the mean. -/
theorem variance_eq (x : ℕ → F) {D : ℕ} (hD : 0 < D) :
    (∑ i ∈ range D, x i * x i) / D - (∑ i ∈ range D, x i) / D * ((∑ i ∈ range D, x i) / D) =
      (∑ i ∈ range D, (x i - (∑ i ∈ range D, x i) / D) * (x i - (∑ i ∈ range D, x i) / D)) / D := by
  have hne : (D : F) ≠ 0 := Nat.cast_ne_zero.mpr (by omega)
  have hexpand : ∀ m : F, ∑ i ∈ range D, (x i - m) * (x i - m) =
      ∑ i ∈ range D, x i * x i - 2 * m * ∑ i ∈ range D, x i + D * (m * m) := by
    intro m
    calc ∑ i ∈ range D, (x i - m) * (x i - m) = ∑ i ∈ range D, (x i * x i - 2 * m * x i + m * m) :=
          sum_congr rfl fun i _ => by ring
      _ = ∑ i ∈ range D, x i * x i - 2 * m * ∑ i ∈ range D, x i + D * (m * m) := by
          rw [sum_add_distrib, sum_sub_distrib, ← mul_sum, sum_const, card_range, nsmul_eq_mul]
  rw [hexpand]
  field_simp
  ring

variable (fn : Functions F)

/-- **The epilogue is group norm, bonus and gate.** -/
theorem wkv7Post_eq {o k r v g gnW gnB rkW : List F} {H D : ℕ} {eps : F} (hD : 0 < D) (hD64 : D ≤ 64)
    (ho : o.length = H * D) (hk : k.length = H * D) (hr : r.length = H * D) (hv : v.length = H * D)
    (hg : g.length = H * D) (hw : gnW.length = H * D) (hb : gnB.length = H * D) (hrk : rkW.length = H * D) :
    wkv7Post fn o k r v g gnW gnB rkW H D eps = some (tab (H * D) fun i =>
      (entry (groupNorm fn H D gnW gnB eps o) i + entry (bonus H D k r rkW v) i) * entry g i) := by
  have hbody : ∀ p ∈ List.range H ×ˢ List.range D, wkv7PostThread fn o k r v g gnW gnB rkW D eps p =
      some [(p.1 * D + p.2, (entry (groupNorm fn H D gnW gnB eps o) (p.1 * D + p.2) +
        entry (bonus H D k r rkW v) (p.1 * D + p.2)) * entry g (p.1 * D + p.2))] := by
    intro p hp
    have hp1 := List.mem_range.mp (List.mem_product.mp hp).1
    have hp2 := List.mem_range.mp (List.mem_product.mp hp).2
    have hle : (p.1 + 1) * D ≤ H * D := Nat.mul_le_mul_right D hp1
    rw [Nat.succ_mul] at hle
    have hi : p.1 * D + p.2 < H * D := by omega
    have hdiv : (p.1 * D + p.2) / D = p.1 := by
      rw [Nat.mul_comm, Nat.mul_add_div hD, Nat.div_eq_of_lt hp2, Nat.add_zero]
    have hload : ∀ {x : List F}, x.length = H * D → ∀ i < D, x[p.1 * D + i]? = some (entry x (p.1 * D + i)) :=
      fun hx i hi => getElem?_entry (by omega)
    have hsq : ∀ i < D, ((o[p.1 * D + i]?).map fun x => x * x) =
        some (entry o (p.1 * D + i) * entry o (p.1 * D + i)) := fun i hi => by rw [hload ho i hi, Option.map_some]
    have hprod : ∀ i < D, (do some ((← k[p.1 * D + i]?) * (← r[p.1 * D + i]?) * (← rkW[p.1 * D + i]?))) =
        some (entry k (p.1 * D + i) * entry r (p.1 * D + i) * entry rkW (p.1 * D + i)) := fun i hi => by
      rw [hload hk i hi, hload hr i hi, hload hrk i hi]
      rfl
    have hvar := variance_eq (fun i => entry o (p.1 * D + i)) hD
    have hpos : ¬ (∑ i ∈ range D, entry o (p.1 * D + i) * entry o (p.1 * D + i)) / D -
        (∑ i ∈ range D, entry o (p.1 * D + i)) / D * ((∑ i ∈ range D, entry o (p.1 * D + i)) / D) < 0 := by
      rw [hvar, not_lt]
      exact div_nonneg (sum_nonneg fun i _ => mul_self_nonneg _) (Nat.cast_nonneg D)
    unfold wkv7PostThread
    dsimp only
    rw [total_range (hload ho), total_range hsq, total_range hprod, hload ho _ hp2, hload hw _ hp2, hload hb _ hp2,
      hload hv _ hp2, hload hg _ hp2]
    simp only [Option.bind_eq_bind, Option.bind_some, if_neg hpos]
    rw [hvar, groupNorm, bonus, entry_tab _ hi, entry_tab _ hi, hdiv]
  have hlaunch := launch_contents (m := alloc (H * D)) (v := fun i =>
    (entry (groupNorm fn H D gnW gnB eps o) i + entry (bonus H D k r rkW v) i) * entry g i) hbody
    (fun p hp w hw => ?_) fun i hi => ?_
  · unfold wkv7Post
    rw [if_neg (by omega), hlaunch, Option.bind_eq_bind, Option.bind_some, contents_map_some, length_alloc]
    rfl
  · have hp1 := List.mem_range.mp (List.mem_product.mp hp).1
    have hp2 := List.mem_range.mp (List.mem_product.mp hp).2
    have hle : (p.1 + 1) * D ≤ H * D := Nat.mul_le_mul_right D hp1
    rw [Nat.succ_mul] at hle
    rw [List.mem_singleton] at hw
    subst hw
    rw [length_alloc]
    exact ⟨by dsimp only; omega, rfl⟩
  · rw [length_alloc] at hi
    refine ⟨(i / D, i % D), List.mem_product.mpr ⟨List.mem_range.mpr ?_, List.mem_range.mpr (Nat.mod_lt i hD)⟩, _,
      List.mem_singleton_self _, ?_⟩
    · exact Nat.div_lt_of_lt_mul (by rw [Nat.mul_comm]; exact hi)
    · exact Nat.div_add_mod' i D

end Rwkv
end Siphon
