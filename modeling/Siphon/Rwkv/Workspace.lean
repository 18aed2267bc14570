/-
# The workspaces of the split products

The partial sums of a split product go through a buffer that is allocated
apart from the launch: `gemv16` hands the launch the size of its buffer and
the launch settles on a split that fits, and `gate_ws` computes the size of
the LoRA buffer by a formula of its own, for 32 chunks of the first products
where the launches are made with 128.

Key theorems: `gemv16Launch_exact`: with any workspace, every product is added once and the partial sums stay inside;
`lora_inside_iff`: the LoRA kernels stay inside `gate_ws` exactly when `C` is at least 320.
-/
import Siphon.Rwkv.Lora

namespace Siphon
namespace Rwkv

open Finset Launch Rounding Fallible

variable {F : Type} [Field F]

/-! ### The split-K product -/

/-- The terms that the thread of chunk `s` adds, in order. -/
def gemvTerms (K : ℕ) (sp : Split) (s : ℕ) : List ℕ :=
  let kBegin := s * sp.kChunk
  let kEnd := min (kBegin + sp.kChunk) K
  (List.range (divCeil (kEnd - kBegin) 8)).flatMap fun j => (List.range 8).map fun u => kBegin + j * 8 + u

/-- The cells of the workspace that `gemv_reduce_kernel` reads. -/
def gemvReads (N splitK : ℕ) : List ℕ := (List.range N).flatMap fun n => (List.range splitK).map fun i => i * N + n

/-- Steps of eight make a range. -/
theorem flatMap_eights (a : ℕ) : ∀ m : ℕ,
    ((List.range m).flatMap fun j => (List.range 8).map fun u => a + j * 8 + u) = List.range' a (m * 8)
  | 0 => rfl
  | m + 1 => by
    have hlast : ((List.range 8).map fun u => a + m * 8 + u) = List.range' (a + m * 8) 8 :=
      List.range'_eq_map_range.symm
    rw [@List.range_succ m, List.flatMap_append, flatMap_eights a m, List.flatMap_singleton, hlast, Nat.succ_mul,
      ← List.range'_append_1]

/-- Chunks of whole vectors are gone through exactly. -/
theorem gemvTerms_eq {K : ℕ} {sp : Split} (hK : K % 8 = 0) (hc : sp.kChunk % 8 = 0) (s : ℕ) :
    gemvTerms K sp s =
      List.range' (s * sp.kChunk) (min (s * sp.kChunk + sp.kChunk) K - s * sp.kChunk) := by
  have hb : s * sp.kChunk % 8 = 0 := by rw [Nat.mul_mod, hc, Nat.mul_zero]
  unfold gemvTerms
  dsimp only
  rw [flatMap_eights]
  congr 1
  unfold divCeil
  omega

/-- The chunks, one after another, go through all terms. -/
theorem flatMap_chunks (K c : ℕ) : ∀ m : ℕ,
    ((List.range m).flatMap fun s => List.range' (s * c) (min (s * c + c) K - s * c)) = List.range (min (m * c) K)
  | 0 => by simp
  | m + 1 => by
    rw [List.range_succ, List.flatMap_append, flatMap_chunks K c m, List.flatMap_singleton, List.range_eq_range',
      List.range_eq_range', Nat.succ_mul]
    rcases Nat.le_total K (m * c) with h | h
    · have hall : min (m * c + c) K = K := Nat.min_eq_right (by omega)
      rw [hall, Nat.min_eq_right h, Nat.sub_eq_zero_of_le h, List.range'_zero, List.append_nil]
    · have hjoin : List.range' 0 (m * c) ++ List.range' (0 + m * c) (min (m * c + c) K - m * c) = _ :=
        List.range'_append_1
      rw [Nat.zero_add] at hjoin
      rw [Nat.min_eq_left h, hjoin]
      congr 1
      omega

/-- What a thread accumulates, term by term. -/
theorem gemvAcc_terms {W x : List F} {K N : ℕ} (hK : K % 8 = 0) (hN : N % 8 = 0) (hx : K ≤ x.length)
    (hW : W.length = K * N) {sp : Split} {n s i : ℕ} (hc : sp.kChunk % 8 = 0) (hn : n % 8 = 0) (hnN : n < N)
    (hi : i < 8) : gemvAcc W x K N sp n s i =
      some ((gemvTerms K sp s).map fun k => entry x k * entry W (k * N + (n + i))).sum := by
  rw [gemvAcc_eq hK hN hx hW hc hn hnN hi, gemvTerms_eq hK hc]
  rfl

/-- **The split product is exact.** The launch computes the product; the chunks go through the terms of an output one
by one, from the first to the last, and each thread adds the products of its own; and where there is more than one
chunk, the partial sums are inside the workspace and all those that are added were written. -/
theorem gemv16Launch_exact {W x : List F} {K N : ℕ} (hposK : 0 < K) (hK : K % 8 = 0) (hN : N % 8 = 0)
    (hx : x.length = K) (hW : W.length = K * N) (wsFloats : ℕ) :
    gemv16Launch W x K N wsFloats = some (tab N fun n => some (∑ k ∈ range K, entry x k * entry W (k * N + n))) ∧
    (List.range (gemvSplit K N wsFloats).splitK).flatMap (gemvTerms K (gemvSplit K N wsFloats)) = List.range K ∧
    (∀ s n i, n % 8 = 0 → n < N → i < 8 → gemvAcc W x K N (gemvSplit K N wsFloats) n s i =
      some ((gemvTerms K (gemvSplit K N wsFloats) s).map fun k => entry x k * entry W (k * N + (n + i))).sum) ∧
    ((gemvSplit K N wsFloats).splitK ≠ 1 →
      Inside (List.range (divCeil N 2048 * 256) ×ˢ List.range (gemvSplit K N wsFloats).splitK)
        (gemvPartial W x K N (gemvSplit K N wsFloats)) (gemvReads N (gemvSplit K N wsFloats).splitK) wsFloats) := by
  have hcov : (gemvSplit K N wsFloats).Covers K := gemvSplit_covers wsFloats hposK
  refine ⟨?_, ?_, fun s n i hn hnN hi => gemvAcc_terms hK hN hx.ge hW hcov.vec hn hnN hi, fun h1 => ?_⟩
  · rw [gemv16Launch_eq hK hN hx.ge hW wsFloats hposK, vecMat, tab, tab, List.map_map]
    rfl
  · have hterms : gemvTerms K (gemvSplit K N wsFloats) = fun s => List.range' (s * (gemvSplit K N wsFloats).kChunk)
        (min (s * (gemvSplit K N wsFloats).kChunk + (gemvSplit K N wsFloats).kChunk) K -
          s * (gemvSplit K N wsFloats).kChunk) := funext fun s => gemvTerms_eq hK hcov.vec s
    rw [hterms, flatMap_chunks, Nat.min_eq_right hcov.all]
  · have hfit := gemvSplit_fits hposK h1
    have hcell : ∀ s < (gemvSplit K N wsFloats).splitK, ∀ n < N, s * N + n < wsFloats := by
      intro s hs n hn
      calc s * N + n < s * N + N := by omega
        _ = (s + 1) * N := (Nat.succ_mul s N).symm
        _ ≤ (gemvSplit K N wsFloats).splitK * N := Nat.mul_le_mul_right N hs
        _ ≤ wsFloats := hfit
    obtain ⟨ws, hws, hload⟩ := launch_partials hK hN hx.ge hW hcov h1 hfit
    refine ⟨fun t ht => ⟨_, gemvPartial_eq hK hN hx.ge hW hcov.vec t, fun w hw => ?_⟩, ws, hws, fun a ha => ?_⟩
    · obtain ⟨n, hn, rfl⟩ := mem_partialStores hN hw
      dsimp only
      rw [if_neg h1]
      exact hcell _ (List.mem_range.mp (List.mem_product.mp ht).2) n hn
    · obtain ⟨n, hn, ha⟩ := List.mem_flatMap.mp ha
      obtain ⟨s, hs, rfl⟩ := List.mem_map.mp ha
      have hn := List.mem_range.mp hn
      have hs := List.mem_range.mp hs
      exact ⟨hcell s hs n hn, _, hload n hn s hs⟩

theorem gemv16Launch_exact_tall :
    gemv16Launch (List.replicate (16 * 8) 1) (List.replicate 16 (1 : ℚ)) 16 8 64 =
      some (tab 8 fun n => some (∑ k ∈ range 16, entry (List.replicate 16 (1 : ℚ)) k *
        entry (List.replicate (16 * 8) 1) (k * 8 + n))) :=
  (gemv16Launch_exact (by decide) (by decide) (by decide) List.length_replicate List.length_replicate 64).1

/-! ### The LoRA products -/

/-- The cells of the workspace that a LoRA reduce kernel reads: gate `z` has `N z` outputs. -/
def loraReads (splits stride : ℕ) (N : ℕ → ℕ) : List ℕ :=
  (List.range 4).flatMap fun z => (List.range (N z)).flatMap fun r =>
    (List.range splits).map fun s => (z * splits + s) * stride + r

/-- The launches of `lora_h1`, with the default phases, keep to a workspace of `cells`. -/
def H1Inside (x W : ℕ → List F) (R : ℕ → ℕ) (C cells : ℕ) : Prop :=
  let kChunk := divCeil C loraPhases
  let splitK := divCeil C kChunk
  let rmax := max (max (max (R 0) (R 1)) (R 2)) (R 3)
  Inside (loraThreads splitK (divCeil rmax 1024))
    (loraPartial (fun z => 0 < R z) x W (fun _ => C) R (fun _ => kChunk) splitK loraRmax)
    (loraReads splitK loraRmax R) cells

/-- The launches of `lora_gates`, with the default chunks, keep to a workspace of `cells`. -/
def GatesInside (h1 W : ℕ → List F) (R : ℕ → ℕ) (C cells : ℕ) : Prop :=
  Inside (loraThreads loraSplitR (divCeil C 1024))
    (loraPartial (fun z => 0 < R z) h1 W R (fun _ => C) (fun z => divCeil (R z) loraSplitR) loraSplitR C)
    (loraReads loraSplitR C fun _ => C) cells

/-- Partial sums that fit stay inside, and all that are added were written. -/
theorem Narrow.inside {on : ℕ → Bool} {x W : ℕ → List F} {K N chunk : ℕ → ℕ} {splits stride cells blocks : ℕ}
    (h : Narrow on x W K N splits stride cells) (hon : ∀ z < 4, on z) (hblocks : ∀ z < 4, on z → N z ≤ blocks * 128 * 8) :
    Inside (loraThreads splits blocks) (loraPartial on x W K N chunk splits stride) (loraReads splits stride N) cells := by
  have hcell : ∀ z < 4, ∀ s < splits, ∀ r < N z, (z * splits + s) * stride + r < cells := by
    intro z hz s hs r hr
    have hrs : r < stride := hr.trans_le (h.le z hz (hon z hz))
    calc (z * splits + s) * stride + r < (z * splits + s) * stride + stride := by omega
      _ = (z * splits + s + 1) * stride := (Nat.succ_mul _ _).symm
      _ ≤ (z + 1) * splits * stride := Nat.mul_le_mul_right _ (by rw [Nat.succ_mul]; omega)
      _ ≤ cells := h.fits z hz (hon z hz)
  obtain ⟨ws, hws, hload⟩ := launch_loraPartial chunk h hblocks
  refine ⟨fun t ht => ?_, ws, hws, fun a ha => ?_⟩
  · obtain ⟨hz, hs⟩ := List.mem_product.mp ht
    have hz := List.mem_range.mp hz
    have hs := List.mem_range.mp (List.mem_product.mp hs).1
    refine ⟨_, loraPartial_eq (h.vec _ hz) (h.input _ hz) (h.size _ hz), fun w hw => ?_⟩
    unfold loraStores at hw
    by_cases hoff : on t.1 = false ∨ N t.1 ≤ t.2.2 * 8
    · rw [if_pos hoff] at hw
      simp at hw
    · rw [if_neg hoff] at hw
      obtain ⟨i, hi, rfl⟩ := List.mem_map.mp hw
      have hi := List.mem_range.mp hi
      have hvec := h.vec _ hz (hon _ hz)
      have hlt := hcell _ hz _ hs (t.2.2 * 8 + i) (by omega)
      rw [← Nat.add_assoc] at hlt
      exact hlt
  · obtain ⟨z, hz, ha⟩ := List.mem_flatMap.mp ha
    obtain ⟨r, hr, ha⟩ := List.mem_flatMap.mp ha
    obtain ⟨s, hs, rfl⟩ := List.mem_map.mp ha
    have hz := List.mem_range.mp hz
    have hr := List.mem_range.mp hr
    have hs := List.mem_range.mp hs
    exact ⟨hcell z hz s hs r hr, _, hload z hz (hon z hz) s hs r hr⟩

/-- The largest rank has a block for each of its outputs. -/
theorem le_blocks_rmax (R : ℕ → ℕ) {z : ℕ} (hz : z < 4) :
    R z ≤ divCeil (max (max (max (R 0) (R 1)) (R 2)) (R 3)) 1024 * 128 * 8 := by
  have hmax : max (max (max (R 0) (R 1)) (R 2)) (R 3) ≤
      divCeil (max (max (max (R 0) (R 1)) (R 2)) (R 3)) 1024 * 1024 := le_roundUp (by decide) _
  have hz' : z = 0 ∨ z = 1 ∨ z = 2 ∨ z = 3 := by omega
  rcases hz' with rfl | rfl | rfl | rfl <;> omega

/-- The chunks of the first products fit `gate_ws`, or the first cell of the last chunk is not in it. -/
theorem h1_room {C : ℕ} (hC : 0 < C) (h64 : C % 64 = 0) :
    (320 ≤ C → 4 * divCeil C (divCeil C loraPhases) * loraRmax ≤ gateWs C) ∧
    (C < 320 → gateWs C ≤ (4 * divCeil C (divCeil C loraPhases) - 1) * loraRmax) := by
  have hsplit : divCeil C (divCeil C loraPhases) ≤ 128 := by
    have hchunk : 0 < divCeil C 128 := Nat.div_pos (by omega) (by decide)
    have hcover : C ≤ divCeil C 128 * 128 := le_roundUp (by decide) C
    show (C + divCeil C 128 - 1) / divCeil C 128 ≤ 128
    apply Nat.lt_succ_iff.mp
    rw [Nat.div_lt_iff_lt_mul hchunk, Nat.succ_mul]
    rw [Nat.mul_comm] at hcover
    omega
  constructor
  · intro h
    by_cases h320 : C = 320
    · subst h320
      decide
    · unfold gateWs loraRmax
      omega
  · intro h
    have hcases : C = 64 ∨ C = 128 ∨ C = 192 ∨ C = 256 := by omega
    rcases hcases with rfl | rfl | rfl | rfl <;> decide

/-- Where they do not fit, the thread of the last chunk of the last gate stores where the workspace has ended. -/
theorem h1_outside (x W : ℕ → List F) {R : ℕ → ℕ} {C : ℕ} (hC : 0 < C) (h64 : C % 64 = 0)
    (hR : ∀ z < 4, R z % 8 = 0 ∧ 8 ≤ R z ∧ R z ≤ 512) (h : C < 320) :
    ∃ t ∈ loraThreads (divCeil C (divCeil C loraPhases)) (divCeil (max (max (max (R 0) (R 1)) (R 2)) (R 3)) 1024),
      ∃ w ∈ loraStores (fun z => 0 < R z) x W (fun _ => C) R (fun _ => divCeil C loraPhases)
        (divCeil C (divCeil C loraPhases)) loraRmax t, gateWs C ≤ w.1 := by
  have hroom := (h1_room hC h64).2 h
  generalize hsplits : divCeil C (divCeil C loraPhases) = splits at hroom ⊢
  generalize loraRmax = stride at hroom ⊢
  have hpos : 0 < splits := by
    have hchunk : 0 < divCeil C loraPhases := Nat.div_pos (by omega) (by decide)
    rw [← hsplits]
    exact Nat.div_pos (by omega) hchunk
  have hblocks := le_blocks_rmax R (z := 3) (by decide)
  have hR3 := (hR 3 (by decide)).2.1
  refine ⟨(3, splits - 1, 0), ?_, ((3 * splits + (splits - 1)) * stride + 0 * 8 + 0,
    chunkSum (W 3) (x 3) C (R 3) ⟨splits, divCeil C loraPhases⟩ (splits - 1) (0 * 8 + 0)), ?_, ?_⟩
  · refine List.mem_product.mpr ⟨List.mem_range.mpr (by decide), List.mem_product.mpr ⟨?_, ?_⟩⟩
    · exact List.mem_range.mpr (by omega)
    · exact List.mem_range.mpr (by omega)
  · unfold loraStores
    rw [if_neg (by simp only [decide_eq_false_iff_not]; omega)]
    exact List.mem_map.mpr ⟨0, List.mem_range.mpr (by decide), rfl⟩
  · have hlast : 3 * splits + (splits - 1) = 4 * splits - 1 := by omega
    dsimp only
    rw [hlast]
    omega

/-- What the partial kernel of the first products stores, for ranks of whole vectors. -/
theorem h1_stores {x W : ℕ → List F} {R : ℕ → ℕ} {C : ℕ} (hR : ∀ z < 4, R z % 8 = 0 ∧ 8 ≤ R z ∧ R z ≤ 512)
    (hx : ∀ z < 4, (x z).length = C) (hW : ∀ z < 4, (W z).length = C * R z) {splits blocks : ℕ} {chunk : ℕ → ℕ} :
    ∀ t ∈ loraThreads splits blocks, loraPartial (fun z => 0 < R z) x W (fun _ => C) R chunk splits loraRmax t =
      some (loraStores (fun z => 0 < R z) x W (fun _ => C) R chunk splits loraRmax t) := by
  intro t ht
  have hz := List.mem_range.mp (List.mem_product.mp ht).1
  exact loraPartial_eq (fun _ => (hR _ hz).1) (fun _ => (hx _ hz).ge) fun _ => hW _ hz

/-- The first products are not inside `gate_ws` for less than five heads. -/
theorem le_of_h1Inside {x W : ℕ → List F} {R : ℕ → ℕ} {C : ℕ} (hC : 0 < C) (h64 : C % 64 = 0)
    (hR : ∀ z < 4, R z % 8 = 0 ∧ 8 ≤ R z ∧ R z ≤ 512) (hx : ∀ z < 4, (x z).length = C)
    (hW : ∀ z < 4, (W z).length = C * R z) (h : H1Inside x W R C (gateWs C)) : 320 ≤ C := by
  by_contra hlt
  obtain ⟨t, ht, w, hw, hge⟩ := h1_outside x W hC h64 hR (not_le.mp hlt)
  obtain ⟨ws, hws, hlt⟩ := h.writes t ht
  rw [h1_stores hR hx hW t ht] at hws
  obtain rfl := Option.some.inj hws
  exact absurd (hlt w hw) (not_lt.mpr hge)

/-- **The LoRA workspace.** For hidden sizes of whole heads and ranks of whole vectors, the second products are inside
`gate_ws`; the first are, and have a result, exactly when `C` is at least 320. -/
theorem lora_inside_iff (act : ℕ → F → F) {x W1 h1 W2 : ℕ → List F} {R : ℕ → ℕ} {C : ℕ} (hC : 0 < C)
    (h64 : C % 64 = 0) (hR : ∀ z < 4, R z % 8 = 0 ∧ 8 ≤ R z ∧ R z ≤ 512) (hx : ∀ z < 4, (x z).length = C)
    (hW1 : ∀ z < 4, (W1 z).length = C * R z) (hh1 : ∀ z < 4, (h1 z).length = R z)
    (hW2 : ∀ z < 4, (W2 z).length = R z * C) :
    (H1Inside x W1 R C (gateWs C) ∧ GatesInside h1 W2 R C (gateWs C) ↔ 320 ≤ C) ∧
    ((loraH1 act x W1 R C loraPhases).isSome ↔ 320 ≤ C) ∧ GatesInside h1 W2 R C (gateWs C) := by
  have hon : ∀ z < 4, (0 < R z : Bool) := fun z hz => by
    have := (hR z hz).2.1
    exact decide_eq_true (by omega)
  have hgates : GatesInside h1 W2 R C (gateWs C) := by
    refine Narrow.inside {
      vec := fun _ _ _ => (by omega : C % 8 = 0)
      le := fun _ _ _ => le_rfl
      fits := fun z hz _ => gates_fit C hz
      input := fun z hz _ => (hh1 z hz).ge
      size := fun z hz _ => hW2 z hz } hon fun z _ _ => ?_
    have hmax : C ≤ divCeil C 1024 * 1024 := le_roundUp (by decide) C
    omega
  have hnarrow : 320 ≤ C → Narrow (fun z => 0 < R z) x W1 (fun _ => C) R (divCeil C (divCeil C loraPhases)) loraRmax
      (gateWs C) := fun h => {
    vec := fun z hz _ => (hR z hz).1
    le := fun z hz _ => (hR z hz).2.2
    fits := fun z hz _ => by
      calc (z + 1) * divCeil C (divCeil C loraPhases) * loraRmax
          ≤ 4 * divCeil C (divCeil C loraPhases) * loraRmax := Nat.mul_le_mul_right _ (Nat.mul_le_mul_right _ hz)
        _ ≤ gateWs C := (h1_room hC h64).1 h
    input := fun z hz _ => (hx z hz).ge
    size := fun z hz _ => hW1 z hz }
  have hin : 320 ≤ C → H1Inside x W1 R C (gateWs C) := fun h =>
    (hnarrow h).inside hon fun z hz _ => le_blocks_rmax R hz
  refine ⟨⟨fun h => le_of_h1Inside hC h64 hR hx hW1 h.1, fun h => ⟨hin h, hgates⟩⟩, ⟨fun h => ?_, fun h => ?_⟩, hgates⟩
  · by_contra hlt
    obtain ⟨t, ht, w, hw, hge⟩ := h1_outside x W1 hC h64 hR (not_le.mp hlt)
    unfold loraH1 at h
    dsimp only at h
    rw [launch_out_of_range (h1_stores hR hx hW1) ht hw (by rw [length_alloc]; exact hge)] at h
    simp at h
  · rw [loraH1_eq act hC (by decide) (hnarrow h)]
    rfl

theorem lora_inside_five_heads :
    (H1Inside (fun _ => List.replicate 320 (0 : ℚ)) (fun _ => List.replicate (320 * 8) 0) (fun _ => 8) 320
        (gateWs 320) ∧
      GatesInside (fun _ => List.replicate 8 (0 : ℚ)) (fun _ => List.replicate (8 * 320) 0) (fun _ => 8) 320
        (gateWs 320) ↔ 320 ≤ 320) ∧
    ((loraH1 (fun _ v => v) (fun _ => List.replicate 320 (0 : ℚ)) (fun _ => List.replicate (320 * 8) 0) (fun _ => 8)
      320 loraPhases).isSome ↔ 320 ≤ 320) ∧
    GatesInside (fun _ => List.replicate 8 (0 : ℚ)) (fun _ => List.replicate (8 * 320) 0) (fun _ => 8) 320
      (gateWs 320) :=
  lora_inside_iff (fun _ v => v) (by decide) (by decide) (fun _ _ => by decide) (fun _ _ => List.length_replicate)
    (fun _ _ => List.length_replicate) (fun _ _ => List.length_replicate) fun _ _ => List.length_replicate

/-- One head of 64: with its 64 chunks, the first products store beyond the end of `gate_ws`. -/
theorem not_h1Inside_one_head :
    ¬ ∀ (C : ℕ) (R : ℕ → ℕ) (x W1 h1 W2 : ℕ → List ℚ), 0 < C → C % 64 = 0 →
      (∀ z < 4, R z % 8 = 0 ∧ 8 ≤ R z ∧ R z ≤ 512) → (∀ z < 4, (x z).length = C) →
      (∀ z < 4, (W1 z).length = C * R z) → (∀ z < 4, (h1 z).length = R z) → (∀ z < 4, (W2 z).length = R z * C) →
      H1Inside x W1 R C (gateWs C) ∧ GatesInside h1 W2 R C (gateWs C) := by
  intro h
  have hin := h 64 (fun _ => 8) (fun _ => List.replicate 64 0) (fun _ => List.replicate (64 * 8) 0)
    (fun _ => List.replicate 8 0) (fun _ => List.replicate (8 * 64) 0) (by decide) (by decide) (fun _ _ => by decide)
    (fun _ _ => List.length_replicate) (fun _ _ => List.length_replicate) (fun _ _ => List.length_replicate)
    fun _ _ => List.length_replicate
  have hle := le_of_h1Inside (by decide) (by decide) (fun _ _ => by decide) (fun _ _ => List.length_replicate)
    (fun _ _ => List.length_replicate) hin.1
  omega

end Rwkv
end Siphon
