/-
# The split-K product

`gemv16_launch` computes `y = x @ W` for one row: it cuts the `K` terms of
each sum into chunks, one thread computes a chunk of eight outputs, the
partial sums go through a workspace, and a second launch adds them. Loads of
16 bytes have to be aligned, and every access has to be in range.

Key theorem: `gemv16Launch_eq`: for sizes that are multiples of 8, and any
workspace, the launch computes the product.
-/
import Siphon.Lib.Launch
import Siphon.Lib.Reduce
import Siphon.Lib.Rounding
import Siphon.Rwkv.Tensor

namespace Siphon
namespace Rwkv

open Finset Launch Rounding Fallible

/-! ### Geometry -/

/-- The number of chunks and the terms in each. -/
structure Split where
  splitK : ℕ
  kChunk : ℕ

/-- `k_chunk`, rounded up to whole vectors, and the number of chunks that is left. -/
def Split.ofCount (K splitK : ℕ) : Split :=
  let kChunk := roundUp (divCeil K splitK) 8
  { splitK := divCeil K kChunk, kChunk := kChunk }

/-- The split that `gemv16_launch` settles on. -/
def gemvSplit (K N wsFloats : ℕ) : Split :=
  let blocksN := divCeil N 2048
  let splitK := divCeil 1280 blocksN
  let cap := divCeil K 64
  let cap := if cap > 80 then 80 else cap
  let cap := if cap < 20 then 20 else cap
  let splitK := if splitK > cap then cap else splitK
  let splitK := if splitK < 1 then 1 else splitK
  let first := Split.ofCount K splitK
  let wsCap := wsFloats / N
  let wsCap := if wsCap < 1 then 1 else wsCap
  if first.splitK > wsCap then Split.ofCount K wsCap else first

/-! ### Kernels -/

section Kernel

variable {F : Type} [Field F]

/-- Half `i` of the 16 bytes at `base`, which have to be aligned. -/
def half8 (m : List F) (base i : ℕ) : Option F := if base % 8 = 0 then m[base + i]? else none

/-- `acc[i]` of the thread at output `n` and chunk `s`. -/
def gemvAcc (W x : List F) (K N : ℕ) (sp : Split) (n s i : ℕ) : Option F :=
  let kBegin := s * sp.kChunk
  let kEnd := min (kBegin + sp.kChunk) K
  total (List.range (divCeil (kEnd - kBegin) 8)) fun j =>
    total (List.range 8) fun u =>
      (half8 x (kBegin + j * 8) u).bind fun xv =>
        (half8 W ((kBegin + j * 8 + u) * N + n) i).map fun wv => xv * wv

/-- `gemv_partial_kernel` in thread `j` of the first dimension and block `s` of the second. -/
def gemvPartial (W x : List F) (K N : ℕ) (sp : Split) (t : ℕ × ℕ) : Option (List (ℕ × F)) :=
  let n := t.1 * 8
  if N ≤ n then some []
  else
    ((List.range 8).mapM (gemvAcc W x K N sp n t.2)).map fun acc =>
      ((List.range 8).filter fun i => n + i < N).map fun i =>
        ((if sp.splitK = 1 then n + i else t.2 * N + n + i), entry acc i)

/-- `gemv_reduce_kernel` in thread `n`. -/
def gemvReduce (ws : Cells F) (N splitK n : ℕ) : Option (List (ℕ × F)) :=
  if N ≤ n then some []
  else do
    let part i := load ws (i * N + n)
    let s0 ← total (List.range (splitK / 4)) fun j => part (4 * j)
    let s1 ← total (List.range (splitK / 4)) fun j => part (4 * j + 1)
    let s2 ← total (List.range (splitK / 4)) fun j => part (4 * j + 2)
    let s3 ← total (List.range (splitK / 4)) fun j => part (4 * j + 3)
    let rest ← total (List.range' (4 * (splitK / 4)) (splitK - 4 * (splitK / 4))) part
    some [(n, s0 + rest + s1 + (s2 + s3))]

/-- `gemv16_launch` -/
def gemv16Launch (W x : List F) (K N wsFloats : ℕ) : Option (Cells F) :=
  let sp := gemvSplit K N wsFloats
  let threads := List.range (divCeil N 2048 * 256) ×ˢ List.range sp.splitK
  if sp.splitK = 1 then launch threads (gemvPartial W x K N sp) (alloc N)
  else
    (launch threads (gemvPartial W x K N sp) (alloc wsFloats)).bind fun ws =>
      launch (List.range (divCeil N 256 * 256)) (gemvReduce ws N sp.splitK) (alloc N)

end Kernel

/-! ### The split covers the product -/

/-- What the kernels rely on. -/
structure Split.Covers (sp : Split) (K : ℕ) : Prop where
  pos : 0 < sp.splitK
  vec : sp.kChunk % 8 = 0
  all : K ≤ sp.splitK * sp.kChunk

theorem Split.ofCount_covers {K splitK : ℕ} (hK : 0 < K) (h : 0 < splitK) : (Split.ofCount K splitK).Covers K := by
  have hc : 0 < divCeil K splitK := Nat.div_pos (by omega) h
  have hk : 0 < roundUp (divCeil K splitK) 8 := Nat.lt_of_lt_of_le hc (le_roundUp (by decide) _)
  refine ⟨Nat.div_pos (by omega) hk, Nat.mod_eq_zero_of_dvd (dvd_roundUp _ _), ?_⟩
  exact le_roundUp hk K

/-- Rounding the chunk up leaves no more chunks than were asked for. -/
theorem Split.ofCount_le {K splitK : ℕ} (hK : 0 < K) (h : 0 < splitK) : (Split.ofCount K splitK).splitK ≤ splitK := by
  have hc : 0 < divCeil K splitK := Nat.div_pos (by omega) h
  have hk : 0 < roundUp (divCeil K splitK) 8 := Nat.lt_of_lt_of_le hc (le_roundUp (by decide) _)
  have hcover : K ≤ splitK * roundUp (divCeil K splitK) 8 := by
    calc K ≤ divCeil K splitK * splitK := le_roundUp h K
      _ = splitK * divCeil K splitK := Nat.mul_comm _ _
      _ ≤ splitK * roundUp (divCeil K splitK) 8 := Nat.mul_le_mul_left _ (le_roundUp (by decide) _)
  show (K + roundUp (divCeil K splitK) 8 - 1) / roundUp (divCeil K splitK) 8 ≤ splitK
  apply Nat.lt_succ_iff.mp
  rw [Nat.div_lt_iff_lt_mul hk, Nat.succ_mul]
  omega

theorem gemvSplit_covers {K N : ℕ} (wsFloats : ℕ) (hK : 0 < K) : (gemvSplit K N wsFloats).Covers K := by
  unfold gemvSplit
  dsimp only
  split_ifs <;> exact Split.ofCount_covers hK (by omega)

/-- A split with more chunks than fit is replaced. -/
theorem Split.capped_le {first second : Split} {cap : ℕ} (h : second.splitK ≤ cap) :
    (if first.splitK > cap then second else first).splitK ≤ cap := by
  split <;> omega

/-- More than one chunk only where the workspace holds them all. -/
theorem gemvSplit_fits {K N wsFloats : ℕ} (hK : 0 < K) (h : (gemvSplit K N wsFloats).splitK ≠ 1) :
    (gemvSplit K N wsFloats).splitK * N ≤ wsFloats := by
  have hpos := (gemvSplit_covers (N := N) wsFloats hK).pos
  have hcap : (gemvSplit K N wsFloats).splitK ≤ if wsFloats / N < 1 then 1 else wsFloats / N := by
    unfold gemvSplit
    exact Split.capped_le (Split.ofCount_le hK (by split <;> omega))
  by_cases h1 : wsFloats / N < 1
  · rw [if_pos h1] at hcap
    omega
  · rw [if_neg h1] at hcap
    calc (gemvSplit K N wsFloats).splitK * N ≤ wsFloats / N * N := Nat.mul_le_mul_right N hcap
      _ ≤ wsFloats := Nat.div_mul_le_self wsFloats N

/-! ### The kernels compute the product -/

section Product

variable {F : Type} [Field F] {W x : List F} {K N : ℕ}

theorem half8_eq {m : List F} {base i : ℕ} (hb : base % 8 = 0) (h : base + i < m.length) :
    half8 m base i = some (entry m (base + i)) := by
  rw [half8, if_pos hb, getElem?_entry h]

/-- The terms `kBegin`, ..., `kEnd - 1` of output `n`. -/
def chunkSum (W x : List F) (K N : ℕ) (sp : Split) (s n : ℕ) : F :=
  ∑ k ∈ Ico (s * sp.kChunk) (min (s * sp.kChunk + sp.kChunk) K), entry x k * entry W (k * N + n)

variable (hK : K % 8 = 0) (hN : N % 8 = 0) (hx : K ≤ x.length) (hW : W.length = K * N)
include hK hN hx hW

theorem gemvAcc_eq {sp : Split} {n s i : ℕ} (hc : sp.kChunk % 8 = 0) (hn : n % 8 = 0) (hnN : n < N) (hi : i < 8) :
    gemvAcc W x K N sp n s i = some (chunkSum W x K N sp s (n + i)) := by
  have hb : s * sp.kChunk % 8 = 0 := by rw [Nat.mul_mod, hc, Nat.mul_zero]
  unfold gemvAcc chunkSum
  dsimp only
  generalize hkb : s * sp.kChunk = kBegin at hb ⊢
  generalize hke : min (kBegin + sp.kChunk) K = kEnd
  have heK : kEnd ≤ K := by omega
  have he8 : kEnd % 8 = 0 := by
    rcases Nat.le_total (kBegin + sp.kChunk) K with h | h
    · rw [Nat.min_eq_left h] at hke; omega
    · rw [Nat.min_eq_right h] at hke; omega
  -- the steps of eight terms end exactly at `kEnd`
  have hsteps : divCeil (kEnd - kBegin) 8 * 8 = kEnd - kBegin := by
    unfold divCeil; omega
  have hterm : ∀ j < divCeil (kEnd - kBegin) 8, ∀ u < 8,
      ((half8 x (kBegin + j * 8) u).bind fun xv =>
        (half8 W ((kBegin + j * 8 + u) * N + n) i).map fun wv => xv * wv) =
      some (entry x (kBegin + j * 8 + u) * entry W ((kBegin + j * 8 + u) * N + (n + i))) := by
    intro j hj u hu
    have hk : kBegin + j * 8 + u < K := by omega
    have hlt : (kBegin + j * 8 + u) * N + n + i < W.length := by
      have h1 : (kBegin + j * 8 + u + 1) * N ≤ K * N := Nat.mul_le_mul_right N hk
      rw [Nat.succ_mul] at h1
      omega
    have hal : ((kBegin + j * 8 + u) * N + n) % 8 = 0 := by
      rw [Nat.add_mod, Nat.mul_mod, hN, Nat.mul_zero, hn]
    rw [half8_eq (by omega) (by omega), half8_eq hal hlt, Nat.add_assoc _ n i]
    rfl
  rw [total_range fun j hj => total_range (hterm j hj),
    sum_congr rfl fun j _ => rfl]
  congr 1
  rw [Reduce.sum_blocks (fun k => entry x k * entry W (k * N + (n + i))) kBegin 8, hsteps]
  rcases Nat.le_total kBegin kEnd with h | h
  · rw [Nat.add_sub_cancel' h]
  · rw [Nat.sub_eq_zero_of_le h, Nat.add_zero, Ico_self, Ico_eq_empty (by omega)]

/-- What a thread of the first launch stores. -/
def partialStores (W x : List F) (K N : ℕ) (sp : Split) (t : ℕ × ℕ) : List (ℕ × F) :=
  if N ≤ t.1 * 8 then []
  else
    (List.range 8).map fun i =>
      ((if sp.splitK = 1 then t.1 * 8 + i else t.2 * N + t.1 * 8 + i), chunkSum W x K N sp t.2 (t.1 * 8 + i))

theorem gemvPartial_eq {sp : Split} (hc : sp.kChunk % 8 = 0) (t : ℕ × ℕ) :
    gemvPartial W x K N sp t = some (partialStores W x K N sp t) := by
  unfold gemvPartial partialStores
  dsimp only
  by_cases hn : N ≤ t.1 * 8
  · rw [if_pos hn, if_pos hn]
  · rw [if_neg hn, if_neg hn]
    have hacc : (List.range 8).mapM (gemvAcc W x K N sp (t.1 * 8) t.2) =
        some (tab 8 fun i => chunkSum W x K N sp t.2 (t.1 * 8 + i)) :=
      mapM_eq_map _ fun i hi =>
        gemvAcc_eq hK hN hx hW hc (by omega) (by omega) (List.mem_range.mp hi)
    have hguard : ((List.range 8).filter fun i => t.1 * 8 + i < N) = List.range 8 := by
      rw [List.filter_eq_self]
      intro i hi
      have := List.mem_range.mp hi
      simp only [decide_eq_true_eq]
      omega
    rw [hacc, hguard, Option.map_some]
    refine congrArg some (List.map_congr_left fun i hi => ?_)
    rw [entry_tab _ (List.mem_range.mp hi)]

omit hK hN hx hW in
/-- The stores of a thread are to its outputs. -/
theorem mem_partialStores {sp : Split} (hN : N % 8 = 0) {t : ℕ × ℕ} {w : ℕ × F}
    (hw : w ∈ partialStores W x K N sp t) :
    ∃ n < N, w = ((if sp.splitK = 1 then n else t.2 * N + n), chunkSum W x K N sp t.2 n) := by
  unfold partialStores at hw
  by_cases hn : N ≤ t.1 * 8
  · rw [if_pos hn] at hw
    simp at hw
  · rw [if_neg hn] at hw
    obtain ⟨i, hi, rfl⟩ := List.mem_map.mp hw
    have hi := List.mem_range.mp hi
    refine ⟨t.1 * 8 + i, by omega, ?_⟩
    rw [Nat.add_assoc (t.2 * N)]

omit hK hN hx hW in
/-- Every output of every chunk has a thread. -/
theorem exists_thread {sp : Split} {n s : ℕ} (hn : n < N) (hs : s < sp.splitK) :
    ∃ t ∈ List.range (divCeil N 2048 * 256) ×ˢ List.range sp.splitK,
      ((if sp.splitK = 1 then n else s * N + n), chunkSum W x K N sp s n) ∈ partialStores W x K N sp t := by
  have hb : n / 8 < divCeil N 2048 * 256 := by
    have h : N ≤ divCeil N 2048 * 2048 := le_roundUp (by decide) N
    omega
  have hni : n / 8 * 8 + n % 8 = n := by omega
  refine ⟨(n / 8, s), List.mem_product.mpr ⟨List.mem_range.mpr hb, List.mem_range.mpr hs⟩, ?_⟩
  unfold partialStores
  rw [if_neg (by dsimp only; omega)]
  refine List.mem_map.mpr ⟨n % 8, List.mem_range.mpr (Nat.mod_lt n (by decide)), ?_⟩
  dsimp only
  rw [Nat.add_assoc (s * N), hni]

omit hK hN hx hW in
theorem sum_chunkSum {sp : Split} (h : K ≤ sp.splitK * sp.kChunk) (n : ℕ) :
    ∑ s ∈ range sp.splitK, chunkSum W x K N sp s n = ∑ k ∈ range K, entry x k * entry W (k * N + n) :=
  Reduce.sum_chunks (fun k => entry x k * entry W (k * N + n)) h

omit hK hN hx hW in
theorem gemvReduce_eq {ws : Cells F} {splitK n : ℕ} {part : ℕ → F} (hn : n < N)
    (hws : ∀ i < splitK, load ws (i * N + n) = some (part i)) :
    gemvReduce ws N splitK n = some [(n, ∑ i ∈ range splitK, part i)] := by
  have hturn : ∀ u < 4, (total (List.range (splitK / 4)) fun j => load ws ((4 * j + u) * N + n)) =
      some (∑ j ∈ range (splitK / 4), part (4 * j + u)) :=
    fun u hu => total_range fun j hj => hws _ (by omega)
  have hrest : total (List.range' (4 * (splitK / 4)) (splitK - 4 * (splitK / 4))) (fun i => load ws (i * N + n)) =
      some (∑ i ∈ Ico (4 * (splitK / 4)) splitK, part i) :=
    total_range' fun i _ hi => hws i hi
  have h0 := hturn 0 (by decide)
  simp only [Nat.add_zero] at h0
  unfold gemvReduce
  rw [if_neg (by omega)]
  dsimp only
  rw [h0, hturn 1 (by decide), hturn 2 (by decide), hturn 3 (by decide), hrest]
  simp only [Option.bind_eq_bind, Option.bind_some]
  rw [Reduce.sum_turns]

/-- One chunk: the first launch writes the product. -/
theorem launch_direct {sp : Split} (hcov : sp.Covers K) (h1 : sp.splitK = 1) :
    launch (List.range (divCeil N 2048 * 256) ×ˢ List.range sp.splitK) (gemvPartial W x K N sp) (alloc N) =
      some ((vecMat W K N x).map some) := by
  have hval : ∀ n, chunkSum W x K N sp 0 n = ∑ k ∈ range K, entry x k * entry W (k * N + n) := by
    intro n
    rw [← sum_chunkSum hcov.all n, h1, sum_range_one]
  rw [launch_contents (v := fun n => ∑ k ∈ range K, entry x k * entry W (k * N + n))
    fun t _ => gemvPartial_eq hK hN hx hW hcov.vec t, length_alloc]
  · rfl
  · intro t ht w hw
    obtain ⟨n, hn, rfl⟩ := mem_partialStores hN hw
    have ht2 : t.2 = 0 := by
      have := List.mem_range.mp (List.mem_product.mp ht).2
      omega
    rw [if_pos h1, ht2, length_alloc]
    exact ⟨hn, hval n⟩
  · intro n hn
    rw [length_alloc] at hn
    obtain ⟨t, ht, hw⟩ := exists_thread (W := W) (x := x) (K := K) hn hcov.pos
    exact ⟨t, ht, _, hw, if_pos h1⟩

/-- More chunks: the first launch writes the partial sums. -/
theorem launch_partials {sp : Split} {wsFloats : ℕ} (hcov : sp.Covers K) (h1 : sp.splitK ≠ 1)
    (hfit : sp.splitK * N ≤ wsFloats) :
    ∃ ws, launch (List.range (divCeil N 2048 * 256) ×ˢ List.range sp.splitK) (gemvPartial W x K N sp)
        (alloc wsFloats) = some ws ∧
      ∀ n < N, ∀ s < sp.splitK, load ws (s * N + n) = some (chunkSum W x K N sp s n) := by
  have hdiv : ∀ s n, n < N → (s * N + n) / N = s ∧ (s * N + n) % N = n := by
    intro s n hn
    rw [Nat.mul_comm s N, Nat.mul_add_div (by omega), Nat.mul_add_mod, Nat.div_eq_of_lt hn, Nat.mod_eq_of_lt hn]
    exact ⟨rfl, rfl⟩
  have hstore : ∀ t ∈ List.range (divCeil N 2048 * 256) ×ˢ List.range sp.splitK,
      ∀ w ∈ partialStores W x K N sp t, w.1 < (alloc wsFloats : Cells F).length ∧
        w.2 = chunkSum W x K N sp (w.1 / N) (w.1 % N) := by
    intro t ht w hw
    obtain ⟨n, hn, rfl⟩ := mem_partialStores hN hw
    have hle : (t.2 + 1) * N ≤ sp.splitK * N :=
      Nat.mul_le_mul_right N (List.mem_range.mp (List.mem_product.mp ht).2)
    rw [Nat.succ_mul] at hle
    simp only [if_neg h1, length_alloc, (hdiv t.2 n hn).1, (hdiv t.2 n hn).2, and_true]
    omega
  obtain ⟨ws, hws, -, hload⟩ := launch_spec (v := fun a => chunkSum W x K N sp (a / N) (a % N))
    (fun t _ => gemvPartial_eq hK hN hx hW hcov.vec t) hstore
  refine ⟨ws, hws, fun n hn s hs => ?_⟩
  obtain ⟨t, ht, hw⟩ := exists_thread (W := W) (x := x) (K := K) hn hs
  rw [if_neg h1] at hw
  exact hload t ht _ hw

omit hK hN hx hW in
/-- The second launch adds them. -/
theorem launch_reduce {sp : Split} {ws : Cells F} (hcov : sp.Covers K)
    (hws : ∀ n < N, ∀ s < sp.splitK, load ws (s * N + n) = some (chunkSum W x K N sp s n)) :
    launch (List.range (divCeil N 256 * 256)) (gemvReduce ws N sp.splitK) (alloc N) =
      some ((vecMat W K N x).map some) := by
  refine launch_each (le_roundUp (by decide) N) fun n _ => ?_
  by_cases hn : N ≤ n
  · rw [if_pos hn, gemvReduce, if_pos hn]
  · rw [if_neg hn, gemvReduce_eq (by omega) (hws n (by omega)), sum_chunkSum hcov.all]

/-- **The split product is the product**, whatever the workspace. -/
theorem gemv16Launch_eq (wsFloats : ℕ) (hpos : 0 < K) :
    gemv16Launch W x K N wsFloats = some ((vecMat W K N x).map some) := by
  have hcov : (gemvSplit K N wsFloats).Covers K := gemvSplit_covers wsFloats hpos
  unfold gemv16Launch
  dsimp only
  by_cases h1 : (gemvSplit K N wsFloats).splitK = 1
  · rw [if_pos h1]
    exact launch_direct hK hN hx hW hcov h1
  · rw [if_neg h1]
    obtain ⟨ws, hws, hload⟩ := launch_partials hK hN hx hW hcov h1 (gemvSplit_fits hpos h1)
    rw [hws]
    exact launch_reduce hcov hload

end Product

end Rwkv
end Siphon
