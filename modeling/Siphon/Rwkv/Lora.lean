/-
# The LoRA gates

A layer has four gates, each a product with a narrow matrix, an activation, and
a product back. `lora_h1` and `lora_gates` compute all four in one launch each,
for one token: a thread computes eight outputs of one chunk of one gate, the
partial sums go through a workspace, and a second launch adds them. The ranks
of the matrices are not checked, though the kernels load 16 bytes at a time,
have 512 threads for the sums of a gate and 512 cells for each of its chunks.

Key definitions: `loraH1`, `loraGates`.
Key theorems: `loraH1_eq`, `loraGates_eq`: for ranks that are multiples of 8, up to 512, with partial sums that
fit the workspace, the launches compute the products; `loraH1_misaligned`: for no other multiple.
-/
import Siphon.Rwkv.Gemv

namespace Siphon
namespace Rwkv

open Finset Launch Rounding Fallible

/-! ### Kernels -/

/-- `LORA_RMAX` -/
def loraRmax : ℕ := 512

/-- `SIPHON_LORA_PHASES` and `SIPHON_LORA_SPLITR`, where they are not set. -/
def loraPhases : ℕ := 128
def loraSplitR : ℕ := 16

/-- The floats of `gate_ws`. -/
def gateWs (C : ℕ) : ℕ := 8 * 64 * C + 4 * 32 * 512

section Kernel

variable {F : Type} [Field F]

/-- `acc[i]` of the thread at output `n` of a gate and chunk `s`. -/
def loraAcc (x W : List F) (K N chunk s n i : ℕ) : Option F :=
  total (List.range' (s * chunk) (min (s * chunk + chunk) K - s * chunk)) fun k =>
    x[k]?.bind fun xv => (half8 W (k * N + n) i).map fun wv => xv * wv

/-- A partial kernel in thread `t.2.2` of chunk `t.2.1` of gate `t.1`: the gates that are `on` have `K` terms and `N`
outputs. -/
def loraPartial (on : ℕ → Bool) (x W : ℕ → List F) (K N chunk : ℕ → ℕ) (splits stride : ℕ) (t : ℕ × ℕ × ℕ) :
    Option (List (ℕ × F)) :=
  let n := t.2.2 * 8
  if on t.1 = false ∨ N t.1 ≤ n then some []
  else
    ((List.range 8).mapM (loraAcc (x t.1) (W t.1) (K t.1) (N t.1) (chunk t.1) t.2.1 n)).map fun acc =>
      (List.range 8).map fun i => ((t.1 * splits + t.2.1) * stride + n + i, entry acc i)

/-- A reduce kernel in thread `r` of gate `z`. -/
def loraReduce (finish : ℕ → F → Option F) (ws : Cells F) (z splits stride N r : ℕ) : Option (List (ℕ × F)) :=
  if N ≤ r then some []
  else do
    let acc ← total (List.range splits) fun s => load ws ((z * splits + s) * stride + r)
    let y ← finish r acc
    some [(r, y)]

/-- The gates, the chunks of each, and the threads of a chunk. -/
def loraThreads (splits blocks : ℕ) : List (ℕ × ℕ × ℕ) :=
  List.range 4 ×ˢ (List.range splits ×ˢ List.range (blocks * 128))

/-- `lora_h1`: the four rows `act(x @ W)`. -/
def loraH1 (act : ℕ → F → F) (x W : ℕ → List F) (R : ℕ → ℕ) (C phases : ℕ) : Option (List (List F)) := do
  let kChunk := divCeil C phases
  let splitK := divCeil C kChunk
  let rmax := max (max (max (R 0) (R 1)) (R 2)) (R 3)
  let partials := loraPartial (fun z => 0 < R z) x W (fun _ => C) R (fun _ => kChunk) splitK loraRmax
  let ws ← launch (loraThreads splitK (divCeil rmax 1024)) partials (alloc (gateWs C))
  (List.range 4).mapM fun z => do
    let h1 ← launch (List.range 512) (loraReduce (fun _ acc => some (act z acc)) ws z splitK loraRmax (R z)) (alloc (R z))
    contents h1

/-- `lora_gates`: the four rows `act2(b2 + h1 @ W2)`, where a gate that is absent is not written. -/
def loraGates (finish : ℕ → ℕ → F → Option F) (h1 W : ℕ → List F) (R : ℕ → ℕ) (C splitR : ℕ) :
    Option (List (Cells F)) := do
  let partials := loraPartial (fun z => 0 < R z) h1 W R (fun _ => C) (fun z => divCeil (R z) splitR) splitR C
  let ws ← launch (loraThreads splitR (divCeil C 1024)) partials (alloc (gateWs C))
  (List.range 4).mapM fun z =>
    launch (List.range (divCeil C 256 * 256)) (fun n => if R z = 0 then some [] else loraReduce (finish z) ws z splitR C C n)
      (alloc C)

end Kernel

/-! ### The partial sums -/

section Partial

variable {F : Type} [Field F]

theorem loraAcc_eq {x W : List F} {K N : ℕ} (hN : N % 8 = 0) (hx : K ≤ x.length) (hW : W.length = K * N)
    {chunk s n i : ℕ} (hn : n % 8 = 0) (hnN : n < N) (hi : i < 8) (splits : ℕ) :
    loraAcc x W K N chunk s n i = some (chunkSum W x K N ⟨splits, chunk⟩ s (n + i)) := by
  unfold loraAcc chunkSum
  refine total_range' fun k _ hk => ?_
  have hkK : k < K := by omega
  have hlt : k * N + n + i < W.length := by
    have h1 : (k + 1) * N ≤ K * N := Nat.mul_le_mul_right N hkK
    rw [Nat.succ_mul] at h1
    omega
  have hal : (k * N + n) % 8 = 0 := by rw [Nat.add_mod, Nat.mul_mod, hN, Nat.mul_zero, hn]
  rw [getElem?_entry (by omega), half8_eq hal hlt, Nat.add_assoc _ n i]
  rfl

/-- What the thread stores. -/
def loraStores (on : ℕ → Bool) (x W : ℕ → List F) (K N chunk : ℕ → ℕ) (splits stride : ℕ) (t : ℕ × ℕ × ℕ) :
    List (ℕ × F) :=
  if on t.1 = false ∨ N t.1 ≤ t.2.2 * 8 then []
  else (List.range 8).map fun i => ((t.1 * splits + t.2.1) * stride + t.2.2 * 8 + i,
    chunkSum (W t.1) (x t.1) (K t.1) (N t.1) ⟨splits, chunk t.1⟩ t.2.1 (t.2.2 * 8 + i))

variable {on : ℕ → Bool} {x W : ℕ → List F} {K N chunk : ℕ → ℕ} {splits stride : ℕ}

theorem loraPartial_eq {t : ℕ × ℕ × ℕ} (hN : on t.1 → N t.1 % 8 = 0) (hx : on t.1 → K t.1 ≤ (x t.1).length)
    (hW : on t.1 → (W t.1).length = K t.1 * N t.1) :
    loraPartial on x W K N chunk splits stride t = some (loraStores on x W K N chunk splits stride t) := by
  unfold loraPartial loraStores
  dsimp only
  by_cases h : on t.1 = false ∨ N t.1 ≤ t.2.2 * 8
  · rw [if_pos h, if_pos h]
  · rw [if_neg h, if_neg h]
    have hon : on t.1 := by simpa using fun hf => h (.inl hf)
    have hacc : (List.range 8).mapM (loraAcc (x t.1) (W t.1) (K t.1) (N t.1) (chunk t.1) t.2.1 (t.2.2 * 8)) =
        some (tab 8 fun i => chunkSum (W t.1) (x t.1) (K t.1) (N t.1) ⟨splits, chunk t.1⟩ t.2.1 (t.2.2 * 8 + i)) :=
      mapM_eq_map _ fun i hi => loraAcc_eq (hN hon) (hx hon) (hW hon) (by omega) (by omega) (List.mem_range.mp hi) _
    rw [hacc, Option.map_some]
    refine congrArg some (List.map_congr_left fun i hi => ?_)
    rw [entry_tab _ (List.mem_range.mp hi)]

/-- A cell of the workspace belongs to one chunk of one gate. -/
theorem cell_coords {z s n : ℕ} (hs : s < splits) (hn : n < stride) :
    ((z * splits + s) * stride + n) % stride = n ∧ ((z * splits + s) * stride + n) / stride % splits = s ∧
      ((z * splits + s) * stride + n) / stride / splits = z := by
  have hdiv : ((z * splits + s) * stride + n) / stride = z * splits + s := by
    rw [Nat.mul_comm, Nat.mul_add_div (by omega), Nat.div_eq_of_lt hn, Nat.add_zero]
  refine ⟨?_, ?_, ?_⟩
  · rw [Nat.mul_comm, Nat.mul_add_mod, Nat.mod_eq_of_lt hn]
  · rw [hdiv, Nat.mul_comm, Nat.mul_add_mod, Nat.mod_eq_of_lt hs]
  · rw [hdiv, Nat.mul_comm, Nat.mul_add_div (by omega), Nat.div_eq_of_lt hs, Nat.add_zero]

/-- What the kernels rely on: whole vectors, outputs that keep to their stride, and a workspace for all chunks. -/
structure Narrow (on : ℕ → Bool) (x W : ℕ → List F) (K N : ℕ → ℕ) (splits stride cells : ℕ) : Prop where
  vec : ∀ z < 4, on z → N z % 8 = 0
  le : ∀ z < 4, on z → N z ≤ stride
  fits : ∀ z < 4, on z → (z + 1) * splits * stride ≤ cells
  input : ∀ z < 4, on z → K z ≤ (x z).length
  size : ∀ z < 4, on z → (W z).length = K z * N z

variable (chunk) in
/-- The partial sums are in the workspace. -/
theorem launch_loraPartial {blocks cells : ℕ} (h : Narrow on x W K N splits stride cells)
    (hblocks : ∀ z < 4, on z → N z ≤ blocks * 128 * 8) :
    ∃ ws, launch (loraThreads splits blocks) (loraPartial on x W K N chunk splits stride) (alloc cells) = some ws ∧
      ∀ z < 4, on z → ∀ s < splits, ∀ n < N z, load ws ((z * splits + s) * stride + n) =
        some (chunkSum (W z) (x z) (K z) (N z) ⟨splits, chunk z⟩ s n) := by
  have hmem : ∀ t ∈ loraThreads splits blocks, t.1 < 4 ∧ t.2.1 < splits := by
    intro t ht
    obtain ⟨h1, h2⟩ := List.mem_product.mp ht
    exact ⟨List.mem_range.mp h1, List.mem_range.mp (List.mem_product.mp h2).1⟩
  let v : ℕ → F := fun a => chunkSum (W (a / stride / splits)) (x (a / stride / splits)) (K (a / stride / splits))
    (N (a / stride / splits)) ⟨splits, chunk (a / stride / splits)⟩ (a / stride % splits) (a % stride)
  have hstore : ∀ t ∈ loraThreads splits blocks, ∀ w ∈ loraStores on x W K N chunk splits stride t,
      w.1 < (alloc cells : Cells F).length ∧ w.2 = v w.1 := by
    intro t ht w hw
    obtain ⟨hz, hs⟩ := hmem t ht
    unfold loraStores at hw
    by_cases hoff : on t.1 = false ∨ N t.1 ≤ t.2.2 * 8
    · rw [if_pos hoff] at hw
      simp at hw
    · rw [if_neg hoff] at hw
      obtain ⟨i, hi, rfl⟩ := List.mem_map.mp hw
      have hi := List.mem_range.mp hi
      have hon : on t.1 := by simpa using fun hf => hoff (.inl hf)
      have hvec := h.vec _ hz hon
      have hn : t.2.2 * 8 + i < N t.1 := by omega
      have hns : t.2.2 * 8 + i < stride := hn.trans_le (h.le _ hz hon)
      obtain ⟨h1, h2, h3⟩ := cell_coords (z := t.1) hs hns
      rw [Nat.add_assoc]
      dsimp only [v]
      rw [h1, h2, h3, length_alloc]
      refine ⟨?_, rfl⟩
      calc (t.1 * splits + t.2.1) * stride + (t.2.2 * 8 + i) < (t.1 * splits + t.2.1) * stride + stride := by omega
        _ = (t.1 * splits + t.2.1 + 1) * stride := (Nat.succ_mul _ _).symm
        _ ≤ (t.1 + 1) * splits * stride := Nat.mul_le_mul_right _ (by rw [Nat.succ_mul]; omega)
        _ ≤ cells := h.fits _ hz hon
  have hbody : ∀ t ∈ loraThreads splits blocks, loraPartial on x W K N chunk splits stride t =
      some (loraStores on x W K N chunk splits stride t) := fun t ht =>
    loraPartial_eq (h.vec _ (hmem t ht).1) (h.input _ (hmem t ht).1) (h.size _ (hmem t ht).1)
  obtain ⟨ws, hws, -, hload⟩ := launch_spec hbody hstore
  refine ⟨ws, hws, fun z hz hon s hs n hn => ?_⟩
  have hni : n / 8 * 8 + n % 8 = n := by omega
  have ht : (z, s, n / 8) ∈ loraThreads splits blocks := by
    have := hblocks z hz hon
    refine List.mem_product.mpr ⟨List.mem_range.mpr hz, List.mem_product.mpr ⟨List.mem_range.mpr hs, ?_⟩⟩
    exact List.mem_range.mpr (by omega)
  refine hload (z, s, n / 8) ht ((z * splits + s) * stride + n,
    chunkSum (W z) (x z) (K z) (N z) ⟨splits, chunk z⟩ s n) ?_
  unfold loraStores
  rw [if_neg (by simp only [hon, Bool.true_eq_false, false_or, not_le]; omega)]
  refine List.mem_map.mpr ⟨n % 8, List.mem_range.mpr (Nat.mod_lt n (by decide)), ?_⟩
  dsimp only
  rw [Nat.add_assoc _ (n / 8 * 8), hni]

variable (chunk) in
/-- The sums of a gate, finished one by one. -/
theorem loraReduce_eq {finish : ℕ → F → Option F} {ws : Cells F} {z r : ℕ} {y : ℕ → F}
    (hcover : K z ≤ splits * chunk z)
    (hload : ∀ s < splits, ∀ n < N z, load ws ((z * splits + s) * stride + n) =
      some (chunkSum (W z) (x z) (K z) (N z) ⟨splits, chunk z⟩ s n))
    (hf : r < N z → finish r (∑ k ∈ range (K z), entry (x z) k * entry (W z) (k * N z + r)) = some (y r)) :
    loraReduce finish ws z splits stride (N z) r = some (if N z ≤ r then [] else [(r, y r)]) := by
  unfold loraReduce
  by_cases hr : N z ≤ r
  · rw [if_pos hr, if_pos hr]
  · have hlt : r < N z := not_le.mp hr
    have hsum : ∑ s ∈ range splits, chunkSum (W z) (x z) (K z) (N z) ⟨splits, chunk z⟩ s r =
        ∑ k ∈ range (K z), entry (x z) k * entry (W z) (k * N z + r) := sum_chunkSum hcover r
    rw [if_neg hr, if_neg hr, total_range fun s hs => hload s hs r hlt, hsum, Option.bind_eq_bind, Option.bind_some,
      hf hlt]
    rfl

/-- **The first products**: each gate's row is `act(x @ W)`. -/
theorem loraH1_eq (act : ℕ → F → F) {R : ℕ → ℕ} {C phases : ℕ} (hC : 0 < C) (hphases : 0 < phases)
    (h : Narrow (fun z => 0 < R z) x W (fun _ => C) R (divCeil C (divCeil C phases)) loraRmax (gateWs C)) :
    loraH1 act x W R C phases =
      some ((List.range 4).map fun z => vmap (R z) (act z) (vecMat (W z) C (R z) (x z))) := by
  have hchunk : 0 < divCeil C phases := Nat.div_pos (by omega) hphases
  have hblocks : ∀ z < 4, (0 < R z : Bool) → R z ≤ divCeil (max (max (max (R 0) (R 1)) (R 2)) (R 3)) 1024 * 128 * 8 := by
    intro z hz _
    have hmax : max (max (max (R 0) (R 1)) (R 2)) (R 3) ≤ divCeil (max (max (max (R 0) (R 1)) (R 2)) (R 3)) 1024 * 1024 :=
      le_roundUp (by decide) _
    have hz' : z = 0 ∨ z = 1 ∨ z = 2 ∨ z = 3 := by omega
    rcases hz' with rfl | rfl | rfl | rfl <;> omega
  obtain ⟨ws, hws, hload⟩ := launch_loraPartial (fun _ => divCeil C phases) h hblocks
  have hgate : ∀ z ∈ List.range 4, (do
      let h1 ← launch (List.range 512)
        (loraReduce (fun _ acc => some (act z acc)) ws z (divCeil C (divCeil C phases)) loraRmax (R z)) (alloc (R z))
      contents h1) = some (vmap (R z) (act z) (vecMat (W z) C (R z) (x z))) := by
    intro z hz
    have hz := List.mem_range.mp hz
    have hR : R z ≤ 512 := by
      by_cases hpos : 0 < R z
      · exact h.le z hz (by simpa using hpos)
      · omega
    have hbody : ∀ r < 512, loraReduce (fun _ acc => some (act z acc)) ws z (divCeil C (divCeil C phases)) loraRmax
        (R z) r = some (if R z ≤ r then []
          else [(r, act z (∑ k ∈ range C, entry (x z) k * entry (W z) (k * R z + r)))]) := fun r _ =>
      loraReduce_eq (fun _ => divCeil C phases) (K := fun _ => C)
        (y := fun r => act z (∑ k ∈ range C, entry (x z) k * entry (W z) (k * R z + r))) (le_roundUp hchunk C)
        (fun s hs n hn => hload z hz (by simpa using Nat.zero_lt_of_lt hn) s hs n hn) fun _ => rfl
    rw [launch_each hR hbody, Option.bind_eq_bind, Option.bind_some, contents_map_some]
    refine congrArg some (tab_congr fun r hr => ?_)
    rw [vecMat, entry_tab _ hr]
  unfold loraH1
  dsimp only
  rw [hws, Option.bind_eq_bind, Option.bind_some, mapM_eq_map _ hgate]

/-- A rank that is not a multiple of 8 has a row that starts where 16 bytes cannot be loaded. -/
theorem loraH1_misaligned {act : ℕ → F → F} {R : ℕ → ℕ} {C phases z : ℕ} (hz : z < 4) (hR : R z % 8 ≠ 0) (hC : 1 < C)
    (hphases : 0 < phases) : loraH1 act x W R C phases = none := by
  have hchunk : 0 < divCeil C phases := Nat.div_pos (by omega) hphases
  have hcover : C ≤ divCeil C (divCeil C phases) * divCeil C phases := le_roundUp hchunk C
  have hpos : 0 < R z := Nat.pos_of_ne_zero fun h0 => hR (by rw [h0])
  have hmax : max (max (max (R 0) (R 1)) (R 2)) (R 3) ≤ divCeil (max (max (max (R 0) (R 1)) (R 2)) (R 3)) 1024 * 1024 :=
    le_roundUp (by decide) _
  have hblocks : 0 < divCeil (max (max (max (R 0) (R 1)) (R 2)) (R 3)) 1024 * 128 := by
    have hz' : z = 0 ∨ z = 1 ∨ z = 2 ∨ z = 3 := by omega
    rcases hz' with rfl | rfl | rfl | rfl <;> omega
  -- the thread that meets row 1 of the matrix first
  have hrow : 1 / divCeil C phases * divCeil C phases ≤ 1 ∧
      1 < 1 / divCeil C phases * divCeil C phases + divCeil C phases :=
    ⟨Nat.div_mul_le_self 1 _, Nat.lt_div_mul_add hchunk⟩
  have ht : (z, 1 / divCeil C phases, 0) ∈ loraThreads (divCeil C (divCeil C phases))
      (divCeil (max (max (max (R 0) (R 1)) (R 2)) (R 3)) 1024) := by
    refine List.mem_product.mpr ⟨List.mem_range.mpr hz, List.mem_product.mpr ⟨List.mem_range.mpr ?_, ?_⟩⟩
    · exact Nat.div_lt_of_lt_mul (by rw [Nat.mul_comm]; omega)
    · exact List.mem_range.mpr hblocks
  have hbody : loraPartial (fun z => 0 < R z) x W (fun _ => C) R (fun _ => divCeil C phases)
      (divCeil C (divCeil C phases)) loraRmax (z, 1 / divCeil C phases, 0) = none := by
    have hterm : ((x z)[1]?.bind fun xv => (half8 (W z) (1 * R z + 0) 0).map fun wv => xv * wv) = none := by
      rw [half8, if_neg (by omega)]
      cases (x z)[1]? <;> rfl
    have hacc : loraAcc (x z) (W z) C (R z) (divCeil C phases) (1 / divCeil C phases) 0 0 = none :=
      total_eq_none (List.mem_range'_1.mpr ⟨hrow.1, by omega⟩) hterm
    unfold loraPartial
    dsimp only
    rw [if_neg (by simp only [decide_eq_false_iff_not]; omega)]
    rw [mapM_eq_none _ (List.mem_range.mpr (by decide)) hacc]
    rfl
  unfold loraH1
  dsimp only
  rw [launch_eq_none ht hbody]
  rfl

/-- **The second products**, finished with the bias and the activation. -/
theorem loraGates_eq {finish : ℕ → ℕ → F → Option F} {y : ℕ → ℕ → F} {R : ℕ → ℕ} {C splitR : ℕ} (hsplit : 0 < splitR)
    (h : Narrow (fun z => 0 < R z) x W R (fun _ => C) splitR C (gateWs C))
    (hf : ∀ z < 4, 0 < R z → ∀ n < C,
      finish z n (∑ r ∈ range (R z), entry (x z) r * entry (W z) (r * C + n)) = some (y z n)) :
    loraGates finish x W R C splitR =
      some ((List.range 4).map fun z => if R z = 0 then alloc C else (tab C (y z)).map some) := by
  have hblocks : ∀ z < 4, (0 < R z : Bool) → C ≤ divCeil C 1024 * 128 * 8 := by
    intro z _ _
    have hmax : C ≤ divCeil C 1024 * 1024 := le_roundUp (by decide) _
    omega
  obtain ⟨ws, hws, hload⟩ := launch_loraPartial (fun z => divCeil (R z) splitR) h hblocks
  have hgate : ∀ z ∈ List.range 4, launch (List.range (divCeil C 256 * 256))
      (fun n => if R z = 0 then some [] else loraReduce (finish z) ws z splitR C C n) (alloc C) =
        some (if R z = 0 then alloc C else (tab C (y z)).map some) := by
    intro z hz
    have hz := List.mem_range.mp hz
    by_cases hR : R z = 0
    · simp only [if_pos hR]
      unfold launch
      rw [mapM_eq_map _ fun _ _ => rfl, Option.bind_some]
      have hnil : ((List.range (divCeil C 256 * 256)).map fun _ => ([] : List (ℕ × F))).flatten = [] := by simp
      rw [hnil]
      rfl
    · simp only [if_neg hR]
      exact launch_each (le_roundUp (by decide) C) fun n _ =>
        loraReduce_eq (fun z => divCeil (R z) splitR) (N := fun _ => C)
          ((le_roundUp hsplit (R z)).trans_eq (Nat.mul_comm _ _))
          (fun s hs m hm => hload z hz (by simpa using Nat.pos_of_ne_zero hR) s hs m hm)
          fun hn => hf z hz (Nat.pos_of_ne_zero hR) n hn
  unfold loraGates
  dsimp only
  rw [hws, Option.bind_eq_bind, Option.bind_some, mapM_eq_map _ hgate]

end Partial

/-! ### Both launches -/

theorem contents_gate {F : Type} {R : ℕ → ℕ} {y : ℕ → ℕ → F} {C z : ℕ} (hz : z < 4) (hpos : 0 < R z) :
    contents (((List.range 4).map fun z => if R z = 0 then alloc C else (tab C (y z)).map some).getD z []) =
      some (tab C (y z)) := by
  rw [List.getD_eq_getElem?_getD, List.getElem?_map, List.getElem?_range hz, Option.map_some, Option.getD_some,
    if_neg hpos.ne', contents_map_some]

/-- What a gate of rank `R` needs to be computed as gate `z`. -/
structure GateFits {F : Type} (x W1 W2 : List F) (C phases R z : ℕ) : Prop where
  vec : R % 8 = 0
  le : R ≤ loraRmax
  room : (z + 1) * divCeil C (divCeil C phases) * loraRmax ≤ gateWs C
  input : C ≤ x.length
  down : W1.length = C * R
  up : W2.length = R * C

/-- The partial sums of the second products always fit. -/
theorem gates_fit (C : ℕ) {z : ℕ} (hz : z < 4) : (z + 1) * loraSplitR * C ≤ gateWs C := by
  calc (z + 1) * loraSplitR * C ≤ 4 * 16 * C := Nat.mul_le_mul_right C (Nat.mul_le_mul_right 16 hz)
    _ ≤ gateWs C := by unfold gateWs; omega

/-- **The gates**: down, the first activation, up, and the second. -/
theorem lora_eq {F : Type} [Field F] (act : ℕ → F → F) {finish : ℕ → ℕ → F → Option F} {f : ℕ → ℕ → F → F}
    {x W1 W2 : ℕ → List F} {R : ℕ → ℕ} {C phases : ℕ} (hC : 0 < C) (hC8 : C % 8 = 0) (hphases : 0 < phases)
    (h : ∀ z < 4, 0 < R z → GateFits (x z) (W1 z) (W2 z) C phases (R z) z)
    (hf : ∀ z < 4, 0 < R z → ∀ n < C, ∀ acc, finish z n acc = some (f z n acc)) :
    ((loraH1 act x W1 R C phases).bind fun h1 => loraGates finish (fun z => h1.getD z []) W2 R C loraSplitR) =
      some ((List.range 4).map fun z =>
        if R z = 0 then alloc C
        else (tab C fun n =>
          f z n (entry (vecMat (W2 z) (R z) C (vmap (R z) (act z) (vecMat (W1 z) C (R z) (x z)))) n)).map some) := by
  have hdown := loraH1_eq act hC hphases {
    vec := fun z hz hon => (h z hz (of_decide_eq_true hon)).vec
    le := fun z hz hon => (h z hz (of_decide_eq_true hon)).le
    fits := fun z hz hon => (h z hz (of_decide_eq_true hon)).room
    input := fun z hz hon => (h z hz (of_decide_eq_true hon)).input
    size := fun z hz hon => (h z hz (of_decide_eq_true hon)).down }
  have hget : ∀ z < 4, ((List.range 4).map fun z => vmap (R z) (act z) (vecMat (W1 z) C (R z) (x z))).getD z [] =
      vmap (R z) (act z) (vecMat (W1 z) C (R z) (x z)) := by
    intro z hz
    rw [List.getD_eq_getElem?_getD, List.getElem?_map, List.getElem?_range hz]
    rfl
  rw [hdown, Option.bind_some]
  refine loraGates_eq (Nat.succ_pos 15) {
    vec := fun _ _ _ => hC8
    le := fun _ _ _ => le_rfl
    fits := fun z hz _ => gates_fit C hz
    input := fun z hz _ => by rw [hget z hz, length_vmap]
    size := fun z hz hon => (h z hz (of_decide_eq_true hon)).up } ?_
  intro z hz hpos n hn
  have hup : entry (vecMat (W2 z) (R z) C (vmap (R z) (act z) (vecMat (W1 z) C (R z) (x z)))) n =
      ∑ r ∈ range (R z), entry (vmap (R z) (act z) (vecMat (W1 z) C (R z) (x z))) r * entry (W2 z) (r * C + n) :=
    entry_tab _ hn
  rw [hget z hz, hf z hz hpos n hn, hup]

end Rwkv
end Siphon
