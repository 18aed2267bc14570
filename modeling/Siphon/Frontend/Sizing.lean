/-
# The sizes a rank opens its files with hold together

`_determine_io_params` cuts the depth twice, before and behind the all-reduce;
`_finalize_buffer_size` enlarges the buffer to the largest tensor and to the
window, cuts it to what the files need, and compares it with the budget. What
comes out fits in every respect at once (`sizes_fit`), so that the loader
neither enlarges the buffer nor finds it smaller than a tensor.

The overlap factor is a binary floating-point number and the share of the
bytes a rounded product. The share exceeds no total (`overlapShare_le`), so
the loop over the buffer sizes ends at one of them.

Key definitions: `overlapShare`, `Fits`.
Key theorems: `recommendedBufferSizeForTensors_ne`, `computeLayout_ne_bufferTooSmall`, `sizes_fit`.
-/
import Siphon.Lib.Ieee
import Siphon.Frontend.Agreement

namespace Siphon
namespace Frontend

open Fallible Layout
open Ieee (F64 toRat ofRat ofNat toRat_mul_ofNat_le)

/-- `overlap_factor`. -/
def overlapFactor : F64 := ofRat false (9 / 10)

/-- `total_tensor_size * overlap_factor`. No float holds a total from `2 ** 1024`
on, where the source raises. -/
def overlapShare (total : ℕ) : ℚ := toRat (Ieee.mul (ofNat total) overlapFactor)

/-! ### The share of the bytes -/

theorem overlapShare_le (n : ℕ) : overlapShare n ≤ n :=
  toRat_mul_ofNat_le (by decide +kernel) (by decide +kernel) n

/-- The keys count every byte once. -/
theorem firstCovering_isSome {target : ℚ} : ∀ (m : List (ℕ × ℕ)) (total : ℕ), m ≠ [] →
    target ≤ (total + (m.map (·.2)).sum : ℕ) → ∃ k, firstCovering target total m = some k
  | [], _, hne, _ => absurd rfl hne
  | (k, n) :: rest, total, _, h => by
    rw [firstCovering]
    by_cases ht : target ≤ (total + n : ℕ)
    · exact ⟨k, if_pos ht⟩
    rw [if_neg ht]
    rw [List.map_cons, List.sum_cons, ← Nat.add_assoc] at h
    refine firstCovering_isSome rest (total + n) ?_ h
    rintro rfl
    exact ht h

theorem addOverlapped_ne_nil (key size : ℕ) (m : List (ℕ × ℕ)) : addOverlapped key size m ≠ [] := by
  cases m with
  | nil => nofun
  | cons p rest =>
    unfold addOverlapped
    split_ifs <;> nofun

theorem overlapped_ne_nil : ∀ (l : List ℕ) (m : List (ℕ × ℕ)), m ≠ [] → overlapped l m ≠ []
  | [], _, h => h
  | [_], _, h => h
  | _ :: b :: rest, m, _ => overlapped_ne_nil (b :: rest) _ (addOverlapped_ne_nil _ b m)

theorem recommendedBufferSizeForTensors_ne {s : Shared} (hs : s.overlapShare = overlapShare) :
    recommendedBufferSizeForTensors s ≠ .error .noRecommendedSize := by
  unfold recommendedBufferSizeForTensors
  cases s.tensorSizes with
  | nil => nofun
  | cons a rest =>
    have hne : overlapped (a :: rest) [(a, a)] ≠ [] := overlapped_ne_nil _ _ (by simp)
    dsimp only
    generalize overlapped (a :: rest) [(a, a)] = m at hne
    have hshare : s.overlapShare (m.map (·.2)).sum ≤ (0 + (m.map (·.2)).sum : ℕ) := by
      rw [hs, Nat.zero_add]
      exact overlapShare_le _
    obtain ⟨k, hk⟩ := firstCovering_isSome m 0 hne hshare
    rw [hk]
    nofun

/-! ### The largest tensor -/

theorem le_recommended {s : Shared} {m n : ℕ} (h : recommendedBufferSizeForTensors s = .ok m)
    (hn : n ∈ s.tensorSizes) : n ≤ m := by
  unfold recommendedBufferSizeForTensors at h
  cases hl : s.tensorSizes with
  | nil =>
    rw [hl] at hn
    cases hn
  | cons a rest =>
    rw [hl] at h hn
    obtain ⟨k, -, hk⟩ := Option.map_eq_some_iff.mp (orElse_eq_ok h)
    rw [← hk]
    have hmax : (a :: rest).max? = some (rest.foldl max a) := List.max?_cons'
    exact ((List.max?_eq_some_iff.mp hmax).2 n hn).trans (le_max_right _ _)

theorem tensor_le_finalize {s : Shared} {c d m n : ℕ} (h : finalizeBufferSize s c d = .ok m)
    (hn : n ∈ s.tensorSizes) : n ≤ m := by
  unfold finalizeBufferSize at h
  cases hb : s.config.bufferSize with
  | none =>
    rw [hb] at h
    obtain ⟨k, hk, h1⟩ := bind_eq_ok h
    rw [← Except.ok.inj h1]
    exact (le_recommended hk hn).trans (le_max_left _ _)
  | some b =>
    rw [hb] at h
    obtain ⟨k, hk, h1⟩ := bind_eq_ok h
    have hk := orElse_eq_ok hk
    have hnk : n ≤ k := (List.max?_eq_some_iff.mp hk).2 n hn
    have hsum := max?_le_sum hk
    rw [← Except.ok.inj h1]
    generalize windowSize s c d = w
    split_ifs <;> omega

/-! ### The layout finds the buffer large enough -/

section Layout

variable {g : Geometry}

theorem finishChunk_ne (s : Cursors) : finishChunk g s ≠ .error .bufferTooSmall := by
  unfold finishChunk
  split_ifs <;> nofun

theorem resetChunkBufferOffset_ne (n : ℕ) (s : Cursors) : resetChunkBufferOffset g n s ≠ .error .bufferTooSmall := by
  unfold resetChunkBufferOffset
  split_ifs <;> nofun

theorem resetChunkFile_ne (f o : ℕ) (s : Cursors) : resetChunkFile g f o s ≠ .error .bufferTooSmall := by
  unfold resetChunkFile
  split_ifs <;> nofun

theorem splitTensor_ne : ∀ (n : ℕ) (s : Cursors) (left : ℕ), splitTensor g n s left ≠ .error .bufferTooSmall
  | 0, _, _ => by rintro ⟨⟩
  | n + 1, s, left => by
    rw [splitTensor]
    split_ifs
    · exact bind_ne_error (finishChunk_ne _) fun s' _ => splitTensor_ne n s' _
    · rintro ⟨⟩

theorem fitTensor_ne (n : ℕ) (s : Cursors) : fitTensor g n s ≠ .error .bufferTooSmall := by
  unfold fitTensor
  split_ifs
  · exact bind_ne_error (finishChunk_ne _) fun s' _ => resetChunkBufferOffset_ne _ s'
  · nofun

/-- Only a tensor that is larger than the buffer fails for its size. -/
theorem placeTensor_ne {f o o' : ℕ} (h : o' - o ≤ g.bufferSize) (s : Cursors) :
    placeTensor g f o o' s ≠ .error .bufferTooSmall := by
  by_cases hs : (s.currentChunkSize : ℤ) ≠ o - s.chunkFileOffset
  · unfold placeTensor
    rw [if_pos hs]
    nofun
  · unfold placeTensor
    rw [if_neg hs]
    simp only [if_neg (Nat.not_lt.mpr h)]
    exact bind_ne_error (fitTensor_ne _ s) fun s1 _ => bind_ne_error (splitTensor_ne _ s1 _) fun _ _ => nofun

theorem layoutLoop_ne : ∀ (l : List (ℕ × ℕ)) (s : Cursors), (∀ n ∈ tensorSizes l, n ≤ g.bufferSize) →
    layoutLoop g l s ≠ .error .bufferTooSmall
  | [], _, _ => nofun
  | [_], _, _ => nofun
  | a :: b :: rest, s, h => by
    rw [layoutLoop]
    rw [tensorSizes] at h
    unfold layoutPair
    by_cases hf : a.1 = b.1
    · rw [if_pos hf] at h
      obtain ⟨h1, h2⟩ := List.forall_mem_cons.mp h
      rw [if_neg (not_not.mpr hf)]
      exact bind_ne_error (placeTensor_ne h1 s) fun s' _ => layoutLoop_ne (b :: rest) s' h2
    · rw [if_neg hf] at h
      rw [if_pos hf]
      exact bind_ne_error (bind_ne_error (finishChunk_ne s) fun s' _ => resetChunkFile_ne _ _ s')
        fun s' _ => layoutLoop_ne (b :: rest) s' h

theorem computeLayout_ne_bufferTooSmall {offs : List (ℕ × ℕ)} (h : ∀ n ∈ tensorSizes offs, n ≤ g.bufferSize) :
    computeLayout g offs ≠ .error .bufferTooSmall := by
  unfold computeLayout
  split
  · exact bind_ne_error (resetChunkFile_ne _ _ _) fun s1 _ => bind_ne_error (layoutLoop_ne _ s1 h) fun s2 _ =>
      bind_ne_error (finishChunk_ne s2) fun s3 _ => bind_ne_error (resetChunkBufferOffset_ne _ s3) fun s4 _ =>
        resetChunkBufferOffset_ne _ s4
  · nofun

end Layout

/-! ### The sizes together -/

/-- What holds of the sizes a rank opens its files with. -/
structure Fits (s : Shared) (budget : ℤ) (r : Opened) : Prop where
  ioDepth_pos : 0 < r.ioDepth
  ioDepth_le : r.ioDepth ≤ maxIoDepth
  chunkSize_pos : 0 < r.chunkSize
  window_le : windowSize s r.chunkSize r.ioDepth ≤ r.bufferSize
  bufferSize_le : r.bufferSize ≤ budget
  tensor_le : ∀ n ∈ s.tensorSizes, n ≤ r.bufferSize
  /-- Only the memory lowers a depth that was given. -/
  given : ∀ d, s.config.ioDepth = some d → (r.ioDepth : ℤ) = min d (budget / windowSize s r.chunkSize 1)

/-- The defaults do not replace a depth that was given. -/
theorem defaultParams_ioDepth (s : Shared) (o : Observed) (b : Backend) {d : ℤ} (h : s.config.ioDepth = some d) :
    (defaultParams s o b).ioDepth = d := by
  unfold defaultParams
  dsimp only
  simp only [h, Option.getD_some]
  split_ifs <;> rfl

theorem prepare_ioDepth {s : Shared} {o : Observed} {p : Prepared} (h : prepare s o = .ok p) :
    p.ioDepth ≤ maxIoDepth ∧ ∀ d, s.config.ioDepth = some d → (p.ioDepth : ℤ) = d := by
  obtain ⟨b, hb, h1⟩ := bind_eq_ok h
  obtain ⟨u, hc, h2⟩ := bind_eq_ok h1
  obtain ⟨n, hn, h3⟩ := bind_eq_ok h2
  obtain ⟨-, hpos, hle⟩ := checkParams_eq_ok hc
  have hcut := (fitBuffer_eq_ok (by omega) hn).2.2
  obtain rfl := Except.ok.inj h3
  constructor
  · show n ≤ maxIoDepth
    rw [hcut]
    split
    · split_ifs <;> omega
    · omega
  · intro d hd
    have hasked := defaultParams_ioDepth s o b hd
    show (n : ℤ) = d
    rw [hcut, hd, ← hasked]
    split
    · rw [if_pos Option.isSome_some]
      omega
    · omega

theorem complete_fits {s : Shared} {o : Observed} {p : Prepared} {budget : ℤ} {r : Opened}
    (hp : prepare s o = .ok p) (hr : complete s budget p = .ok r) : Fits s budget r := by
  obtain ⟨q, hq⟩ := prepare_eq_ok hp
  obtain ⟨hle, hgiven⟩ := prepare_ioDepth hp
  have hh := complete_eq_ok hq.ioDepth_pos hr
  have hcut : r.ioDepth ≤ p.ioDepth := hh.ioDepth ▸ min_le_left _ _
  refine ⟨hh.ioDepth_pos, hcut.trans hle, hh.chunkSize ▸ hq.chunkSize_pos, ?_, (complete_cases hr).2.1,
    fun n hn => tensor_le_finalize hh.bufferSize hn, fun d hd => ?_⟩
  · rw [hh.chunkSize]
    exact windowSize_le_finalize (fits_holds hq hh) hh.bufferSize
  · have hpos := hh.ioDepth_pos
    have hd' := hgiven d hd
    rw [hh.chunkSize]
    rw [hh.ioDepth] at hpos ⊢
    omega

/-- What a rank opens its files with fits the tensors, the window and the
budget, and the loader takes it as it is. -/
theorem sizes_fit {s : Shared} {o : Observed} {p : Prepared} {budget : ℤ} {r : Opened}
    (hs : s.overlapShare = overlapShare) (hp : prepare s o = .ok p) (hr : complete s budget p = .ok r) :
    Fits s budget r ∧ recommendedBufferSizeForTensors s ≠ .error .noRecommendedSize ∧
      (∀ (hR : 0 < r.chunkSize) (hD : 0 < r.ioDepth), (initBuffer s.pageSize s.worldSize r.chunkSize r.ioDepth
        r.bufferSize s.pageSize_pos s.worldSize_pos hR hD).effectiveBufferSize = r.bufferSize) ∧
      ∀ offs, tensorSizes offs = s.tensorSizes → layoutOf s r offs ≠ some (.error .bufferTooSmall) := by
  have hf := complete_fits hp hr
  have hkeeps := effectiveBufferSize_initBuffer s.pageSize_pos s.worldSize_pos hf.chunkSize_pos hf.ioDepth_pos
    hf.window_le
  refine ⟨hf, recommendedBufferSizeForTensors_ne hs, fun _ _ => hkeeps, fun offs ho => ?_⟩
  unfold layoutOf
  rw [dif_pos ⟨hf.chunkSize_pos, hf.ioDepth_pos⟩]
  intro he
  refine computeLayout_ne_bufferTooSmall (fun n hn => ?_) (Option.some.inj he)
  have hn := hf.tensor_le n (ho ▸ hn)
  unfold Geometry.bufferSize
  rw [hkeeps]
  omega

/-- Two tensors, and a depth of 64 asked for. -/
def askedForMore : Shared where
  files := [true]
  config := ⟨none, none, none, some 64, none⟩
  threshold := 9 / 10
  worldSize := 2
  pageSize := 4096
  tensorSizes := [4096, 8192]
  usable n := n
  overlapShare := overlapShare
  worldSize_pos := Nat.two_pos
  pageSize_pos := page_pos

/-- With a budget of 100 MB the depth is cut to 23. -/
theorem sizes_fit_askedForMore : Fits askedForMore 100000000 ⟨2097152, 23, 96468992⟩ :=
  (@sizes_fit askedForMore (withCpus 64) _ 100000000 ⟨2097152, 23, 96468992⟩ rfl rfl (by decide +kernel)).1

end Frontend
end Siphon
