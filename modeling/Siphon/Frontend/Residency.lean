/-
# Probes of the page cache

`page_cache_resident_ratio` (`siphon/_impl.py`) and `resident_ratio`
(`stloader/src/cache.rs`) map windows of a file, spread over it by a fixed
step, and count with `mincore` the pages of them that are resident. The window
and the step are computed in nearly the same words, the loop is the same.

The kernel maps a file from whole pages on only, so a step that is not a
multiple of the page ends the loop at its second window. The windows are
spread over the file exactly if it has at most 64 MiB, or a 64th of it is a
whole number of pages, or the first window has so many pages that the loop
ends with it (`probes_cover_iff`).

`mincore` is a parameter: the resident pages among those of a mapping, or its
failure. `mmap` fails at an offset that is not a multiple of the page, and for
no other reason.

Key definitions: `probeFrom`, `Covers`.
Key theorems: `probeFrom_covers`, `probeStep_eq`, `probes_cover_iff`.
-/
import Mathlib.Algebra.Order.Ring.Rat
import Siphon.Lib.Rounding

namespace Siphon
namespace Residency

open Rounding

/-! ### The loop -/

def probeWindowBytes : ℕ := 2 ^ 20
def maxProbePages : ℕ := 16384
def maxProbeWindows : ℕ := 64

/-- What a probe has done: the offsets it has passed to `mmap`, whether the
last mapping failed, and the pages it has counted. -/
structure Probe where
  offsets : List ℕ
  mapFailed : Bool
  resident : ℕ
  total : ℕ
  deriving DecidableEq, Repr

/-- `resident / total`, or `-1` if nothing was counted. -/
def Probe.ratio (r : Probe) : ℚ := if r.total = 0 then -1 else r.resident / r.total

section Loop

variable (page : ℕ) (mincore : ℕ → ℕ → Option ℕ)

/-- A window that was mapped. -/
def inspect (offset npages : ℕ) (r : Probe) : Probe :=
  match mincore offset npages with
  | some resident => ⟨r.offsets ++ [offset], r.mapFailed, r.resident + resident, r.total + npages⟩
  | none => { r with offsets := r.offsets ++ [offset] }

/-- The loop, from an offset on. The first argument bounds the iterations and
starts at the size of the file. -/
def probeFrom (size window step : ℕ) : ℕ → ℕ → Probe → Probe
  | 0, _, r => r
  | n + 1, offset, r =>
    if offset < size ∧ r.total < maxProbePages then
      let length := min window (size - offset)
      let length := length - length % page
      if length = 0 then r
      else if ¬ page ∣ offset then { r with offsets := r.offsets ++ [offset], mapFailed := true }
      else probeFrom size window step n (offset + step) (inspect mincore offset (length / page) r)
    else r

/-- The loop, from the beginning of the file on. -/
def probe (size window step : ℕ) : Probe := probeFrom page mincore size window step size 0 ⟨[], false, 0, 0⟩

/-- The windows of `page_cache_resident_ratio`. -/
def pageCacheProbe (size : ℕ) : Probe :=
  let window := max page (min probeWindowBytes size)
  let windows := max 1 (min maxProbeWindows (divCeil size window))
  let step := max window (size / windows)
  probe page mincore size window step

/-- `page_cache_resident_ratio`, of a file with a size. -/
def pageCacheResidentRatio (size : ℕ) : ℚ := if size = 0 then -1 else (pageCacheProbe page mincore size).ratio

/-- `usize::clamp` -/
def clamp (n low high : ℕ) : ℕ := if n < low then low else if high < n then high else n

/-- The windows of `resident_ratio`. -/
def residentProbe (size : ℕ) : Probe :=
  let window := max (min probeWindowBytes size) page
  let nwin := clamp (divCeil size window) 1 maxProbeWindows
  let step := max window (size / nwin)
  probe page mincore size window step

/-- `resident_ratio`, of a file with a size. -/
def residentRatio (size : ℕ) : ℚ := if size = 0 then -1 else (residentProbe page mincore size).ratio

end Loop

/-! ### What a probe should see -/

/-- The step between two windows, by the size of the file. -/
def probeStep (size : ℕ) : ℕ := if size ≤ 2 ^ 20 then size else if size ≤ 2 ^ 26 then 2 ^ 20 else size / 64

/-- The windows are mapped where pages start, no mapping fails, and behind the
last window is less than a step and a page, if the loop has not ended for the
pages it has counted. -/
structure Covers (page size : ℕ) (r : Probe) : Prop where
  aligned : ∀ o ∈ r.offsets, page ∣ o
  mapped : r.mapFailed = false
  spread : maxProbePages ≤ r.total ∨ ∃ o, r.offsets.getLast? = some o ∧ size < o + probeStep size + page

/-- The windows come out as they should: the file is small, or the step is a
whole number of pages, or the pages of the first window are enough. -/
def WellSpread (page : ℕ) (mincore : ℕ → ℕ → Option ℕ) (size : ℕ) : Prop :=
  size ≤ 2 ^ 26 ∨ page ∣ size / 64 ∨ (page ≤ 64 ∧ (mincore 0 (2 ^ 20 / page)).isSome)

/-! ### Windows and steps -/

section Step

variable {page size : ℕ}

theorem window_eq (hdvd : page ∣ 2 ^ 20) (hsize : page ≤ size) :
    max page (min probeWindowBytes size) = min (2 ^ 20) size := by
  have hle : page ≤ 2 ^ 20 := Nat.le_of_dvd (by decide) hdvd
  unfold probeWindowBytes
  omega

theorem clamp_eq (n : ℕ) : clamp n 1 maxProbeWindows = max 1 (min maxProbeWindows n) := by
  unfold clamp maxProbeWindows
  split_ifs <;> omega

theorem divCeil_spec {n w : ℕ} (hw : 0 < w) : n ≤ divCeil n w * w ∧ divCeil n w * w < n + w :=
  ⟨le_roundUp hw n, roundUp_lt hw n⟩

theorem probeStep_eq (hpos : 0 < size) :
    max (min (2 ^ 20) size) (size / max 1 (min maxProbeWindows (divCeil size (min (2 ^ 20) size)))) =
      probeStep size := by
  obtain ⟨h1, h2⟩ := @divCeil_spec size (min (2 ^ 20) size) (by omega)
  generalize divCeil size (min (2 ^ 20) size) = c at *
  unfold probeStep maxProbeWindows
  by_cases hsmall : size ≤ 2 ^ 20
  · rw [if_pos hsmall]
    rw [min_eq_right hsmall] at h1 h2 ⊢
    have hc : c = 1 := by
      have hlt : c * size < 2 * size := by omega
      have hc2 : c < 2 := Nat.lt_of_mul_lt_mul_right hlt
      have hc0 : c ≠ 0 := by
        rintro rfl
        omega
      omega
    simp [hc]
  · rw [if_neg hsmall]
    rw [min_eq_left (not_le.mp hsmall).le] at h1 h2 ⊢
    by_cases hmid : size ≤ 2 ^ 26
    · rw [if_pos hmid]
      have hdiv : size / c ≤ 2 ^ 20 := Nat.div_le_of_le_mul h1
      have hc : max 1 (min 64 c) = c := by omega
      rw [hc, max_eq_left hdiv]
    · rw [if_neg hmid]
      have hc : max 1 (min 64 c) = 64 := by omega
      rw [hc]
      omega

/-- Both functions probe with the same window and step. -/
theorem pageCacheProbe_eq (mincore : ℕ → ℕ → Option ℕ) (hp : 0 < page) (hdvd : page ∣ 2 ^ 20) (hsize : page ≤ size) :
    pageCacheProbe page mincore size = probe page mincore size (min (2 ^ 20) size) (probeStep size) := by
  unfold pageCacheProbe
  dsimp only
  rw [window_eq hdvd hsize, probeStep_eq (by omega)]

theorem residentProbe_eq (mincore : ℕ → ℕ → Option ℕ) (hp : 0 < page) (hdvd : page ∣ 2 ^ 20) (hsize : page ≤ size) :
    residentProbe page mincore size = probe page mincore size (min (2 ^ 20) size) (probeStep size) := by
  unfold residentProbe
  dsimp only
  rw [max_comm, window_eq hdvd hsize, clamp_eq, probeStep_eq (by omega)]

theorem probeStep_pos (hpos : 0 < size) : 0 < probeStep size := by
  unfold probeStep
  split_ifs <;> omega

end Step

/-! ### The loop -/

section Run

variable {page size window : ℕ} {mincore : ℕ → ℕ → Option ℕ}

@[simp]
theorem offsets_inspect (offset npages : ℕ) (r : Probe) :
    (inspect mincore offset npages r).offsets = r.offsets ++ [offset] := by
  unfold inspect
  split <;> rfl

@[simp]
theorem mapFailed_inspect (offset npages : ℕ) (r : Probe) :
    (inspect mincore offset npages r).mapFailed = r.mapFailed := by
  unfold inspect
  split <;> rfl

/-- A window of at least a page has whole pages. -/
theorem length_eq_zero_iff {n : ℕ} (hp : 0 < page) : n - n % page = 0 ↔ n < page := by
  have hmod := Nat.mod_lt n hp
  constructor
  · omega
  · intro h
    rw [Nat.mod_eq_of_lt h, Nat.sub_self]

/-- The loop has a window to map at an offset. -/
structure HasWindow (page size window offset : ℕ) (r : Probe) : Prop where
  lt : offset < size
  total : r.total < maxProbePages
  page_le : page ≤ min window (size - offset)

theorem probeFrom_mapped {step n offset : ℕ} {r : Probe} (hp : 0 < page) (h : HasWindow page size window offset r)
    (ho : page ∣ offset) : probeFrom page mincore size window step (n + 1) offset r =
      probeFrom page mincore size window step n (offset + step) (inspect mincore offset
        ((min window (size - offset) - min window (size - offset) % page) / page) r) := by
  rw [probeFrom, if_pos ⟨h.lt, h.total⟩]
  dsimp only
  rw [if_neg fun h0 => absurd h.page_le (not_le.mpr ((length_eq_zero_iff hp).mp h0)), if_neg (not_not.mpr ho)]

theorem probeFrom_unaligned {step n offset : ℕ} {r : Probe} (hp : 0 < page) (h : HasWindow page size window offset r)
    (ho : ¬ page ∣ offset) : probeFrom page mincore size window step (n + 1) offset r =
      { r with offsets := r.offsets ++ [offset], mapFailed := true } := by
  rw [probeFrom, if_pos ⟨h.lt, h.total⟩]
  dsimp only
  rw [if_neg fun h0 => absurd h.page_le (not_le.mpr ((length_eq_zero_iff hp).mp h0)), if_pos ho]

/-- Without a window the loop ends. -/
theorem probeFrom_ended {step n offset : ℕ} {r : Probe} (hp : 0 < page) (h : ¬ HasWindow page size window offset r) :
    probeFrom page mincore size window step n offset r = r := by
  cases n with
  | zero => rfl
  | succ n =>
    rw [probeFrom]
    by_cases hc : offset < size ∧ r.total < maxProbePages
    · rw [if_pos hc]
      dsimp only
      rw [if_pos ((length_eq_zero_iff hp).mpr (not_le.mp fun hle => h ⟨hc.1, hc.2, hle⟩))]
    · rw [if_neg hc]

/-- What a run has done when it comes to an offset. -/
structure Spread (page step offset : ℕ) (r : Probe) : Prop where
  aligned : ∀ o ∈ r.offsets, page ∣ o
  mapped : r.mapFailed = false
  last : ∃ o, r.offsets.getLast? = some o ∧ o + step = offset

theorem Spread.inspect {step offset npages : ℕ} {r : Probe} (ha : ∀ o ∈ r.offsets, page ∣ o)
    (hm : r.mapFailed = false) (ho : page ∣ offset) :
    Spread page step (offset + step) (inspect mincore offset npages r) where
  aligned := by
    intro o h
    rw [offsets_inspect] at h
    rcases List.mem_append.mp h with h | h
    · exact ha o h
    · rwa [List.mem_singleton.mp h]
  mapped := by rw [mapFailed_inspect, hm]
  last := ⟨offset, by simp, rfl⟩

/-- A run whose offsets are multiples of the page ends behind the last window
of the file, or with enough pages. -/
theorem probeFrom_covers (hp : 0 < page) (hw : page ≤ window) (hstep : 0 < probeStep size)
    (hs : page ∣ probeStep size ∨ size ≤ probeStep size) : ∀ (n offset : ℕ) (r : Probe), size ≤ offset + n →
    (page ∣ offset ∨ size ≤ offset) → Spread page (probeStep size) offset r →
    Covers page size (probeFrom page mincore size window (probeStep size) n offset r) := by
  intro n
  induction n with
  | zero =>
    intro offset r hn _ hr
    obtain ⟨o, ho, hlast⟩ := hr.last
    exact ⟨hr.aligned, hr.mapped, .inr ⟨o, ho, by omega⟩⟩
  | succ n ih =>
    intro offset r hn ho hr
    by_cases h : HasWindow page size window offset r
    · have ho : page ∣ offset := ho.resolve_right (by have := h.lt; omega)
      rw [probeFrom_mapped hp h ho]
      refine ih _ _ (by omega) ?_ (Spread.inspect hr.aligned hr.mapped ho)
      rcases hs with hs | hs
      · exact .inl (Nat.dvd_add ho hs)
      · exact .inr (by omega)
    · rw [probeFrom_ended hp h]
      obtain ⟨o, hlast, hoff⟩ := hr.last
      refine ⟨hr.aligned, hr.mapped, ?_⟩
      by_cases ht : maxProbePages ≤ r.total
      · exact .inl ht
      · refine .inr ⟨o, hlast, ?_⟩
        by_contra hge
        exact h ⟨by omega, by omega, by omega⟩

/-- The pages of a whole window. -/
def windowPages (page : ℕ) : ℕ := 2 ^ 20 / page

theorem maxProbePages_le_iff (hp : 0 < page) : maxProbePages ≤ windowPages page ↔ page ≤ 64 := by
  unfold maxProbePages windowPages
  rw [Nat.le_div_iff_mul_le hp]
  omega

/-- What is counted of the first window of a file that is larger. -/
theorem total_inspect (npages : ℕ) : (inspect mincore 0 npages ⟨[], false, 0, 0⟩).total =
    if (mincore 0 npages).isSome then npages else 0 := by
  unfold inspect
  cases mincore 0 npages with
  | none => rfl
  | some resident => simp

/-- The run, from the second window on. -/
theorem probe_eq (hp : 0 < page) (hdvd : page ∣ 2 ^ 20) (hsize : page ≤ size) : ∃ n npages,
    size = n + 1 ∧ (2 ^ 20 ≤ size → npages = windowPages page) ∧
    probe page mincore size (min (2 ^ 20) size) (probeStep size) =
      probeFrom page mincore size (min (2 ^ 20) size) (probeStep size) n (probeStep size)
        (inspect mincore 0 npages ⟨[], false, 0, 0⟩) := by
  obtain ⟨n, hn⟩ : ∃ n, size = n + 1 := ⟨size - 1, by omega⟩
  have hle : page ≤ 2 ^ 20 := Nat.le_of_dvd (by decide) hdvd
  have hwindow : HasWindow page size (min (2 ^ 20) size) 0 ⟨[], false, 0, 0⟩ :=
    ⟨by omega, by decide, by omega⟩
  have hrun := @probeFrom_mapped page size (min (2 ^ 20) size) mincore (probeStep size) n 0 _ hp hwindow
    (Nat.dvd_zero page)
  rw [Nat.zero_add, ← hn] at hrun
  refine ⟨n, (min (min (2 ^ 20) size) (size - 0) - min (min (2 ^ 20) size) (size - 0) % page) / page, hn,
    fun hbig => ?_, hrun⟩
  have hmin : min (min (2 ^ 20) size) (size - 0) = 2 ^ 20 := by omega
  rw [hmin, Nat.mod_eq_zero_of_dvd hdvd]
  rfl

theorem probe_covers_iff (hp : 0 < page) (hdvd : page ∣ 2 ^ 20) (hsize : page ≤ size) :
    Covers page size (probe page mincore size (min (2 ^ 20) size) (probeStep size)) ↔
      WellSpread page mincore size := by
  have hle : page ≤ 2 ^ 20 := Nat.le_of_dvd (by decide) hdvd
  have hstep : 0 < probeStep size := probeStep_pos (by omega)
  obtain ⟨n, npages, hn, hpages, hrun⟩ := @probe_eq page size mincore hp hdvd hsize
  rw [hrun]
  have hfirst : Spread page (probeStep size) (probeStep size) (inspect mincore 0 npages ⟨[], false, 0, 0⟩) := by
    have h := @Spread.inspect page mincore (probeStep size) 0 npages ⟨[], false, 0, 0⟩ (by simp) rfl (Nat.dvd_zero page)
    rwa [Nat.zero_add] at h
  by_cases hs : page ∣ probeStep size ∨ size ≤ probeStep size
  · have hspread : WellSpread page mincore size := by
      unfold WellSpread
      by_cases hbig : size ≤ 2 ^ 26
      · exact .inl hbig
      · have hq : probeStep size = size / 64 := by
          unfold probeStep
          rw [if_neg (by omega), if_neg hbig]
        rw [hq] at hs
        exact .inr (.inl (hs.resolve_right (by omega)))
    refine iff_of_true (probeFrom_covers hp (by omega) hstep hs n _ _ (by omega) ?_ hfirst) hspread
    exact hs
  · -- the step is a 64th of a large file, and not a whole number of pages
    push Not at hs
    have hbig : 2 ^ 26 < size := by
      by_contra hsmall
      unfold probeStep at hs
      split_ifs at hs with h1 h2
      · omega
      · exact hs.1 hdvd
      · exact hsmall (not_le.mp h2)
    have hq : probeStep size = size / 64 := by
      unfold probeStep
      rw [if_neg (by omega), if_neg (by omega)]
    have hnp : npages = windowPages page := hpages (by omega)
    have htotal := @total_inspect mincore npages
    rw [hnp] at htotal ⊢
    by_cases hfull : page ≤ 64 ∧ (mincore 0 (windowPages page)).isSome
    · rw [if_pos hfull.2] at htotal
      have hcap : maxProbePages ≤ windowPages page := (maxProbePages_le_iff hp).mpr hfull.1
      refine iff_of_true ?_ (.inr (.inr hfull))
      rw [probeFrom_ended hp fun h => by have := h.total; omega]
      exact ⟨(hnp ▸ hfirst).aligned, (hnp ▸ hfirst).mapped, .inl (by rw [htotal]; exact hcap)⟩
    · have hroom : (inspect mincore 0 (windowPages page) ⟨[], false, 0, 0⟩).total < maxProbePages := by
        rw [htotal]
        split_ifs with hsome
        · have hlarge : ¬ page ≤ 64 := fun h => hfull ⟨h, hsome⟩
          exact not_le.mp fun h => hlarge ((maxProbePages_le_iff hp).mp h)
        · decide
      refine iff_of_false (fun hc => ?_) ?_
      · obtain ⟨m, rfl⟩ : ∃ m, n = m + 1 := ⟨n - 1, by omega⟩
        have hwindow : HasWindow page size (min (2 ^ 20) size) (probeStep size)
            (inspect mincore 0 (windowPages page) ⟨[], false, 0, 0⟩) :=
          ⟨by omega, hroom, by rw [hq]; omega⟩
        rw [probeFrom_unaligned hp hwindow hs.1] at hc
        exact hs.1 (hc.aligned _ (by simp))
      · rintro (h | h | h)
        · omega
        · exact hs.1 (hq ▸ h)
        · exact hfull h

end Run

/-- Both probes see windows from all over the file under one condition. -/
theorem probes_cover_iff {page size : ℕ} (mincore : ℕ → ℕ → Option ℕ) (hp : 0 < page) (hdvd : page ∣ 2 ^ 20)
    (hsize : page ≤ size) :
    (Covers page size (pageCacheProbe page mincore size) ↔ WellSpread page mincore size) ∧
      (Covers page size (residentProbe page mincore size) ↔ WellSpread page mincore size) := by
  rw [pageCacheProbe_eq mincore hp hdvd hsize, residentProbe_eq mincore hp hdvd hsize]
  exact ⟨probe_covers_iff hp hdvd hsize, probe_covers_iff hp hdvd hsize⟩

/-- A file of 100 MiB, of which a 64th is 400 pages. -/
theorem probes_cover_iff_hundredMiB :
    Covers 4096 (100 * 2 ^ 20) (pageCacheProbe 4096 (fun _ npages => some npages) (100 * 2 ^ 20)) :=
  (probes_cover_iff _ (by decide) (by decide) (by decide)).1.mpr (.inr (.inl (by decide)))

/-- Of a file of a gigabyte the probes see the first MiB. -/
theorem gigabyte_not_covered : ¬ ∀ (page size : ℕ) (mincore : ℕ → ℕ → Option ℕ), 0 < page → page ∣ 2 ^ 20 →
    page ≤ size → Covers page size (pageCacheProbe page mincore size) ∧
      Covers page size (residentProbe page mincore size) := by
  intro h
  have hc := (h 4096 1000000000 (fun _ npages => some npages) (by decide) (by decide) (by decide)).1
  rw [pageCacheProbe_eq _ (by decide) (by decide) (by decide)] at hc
  rcases (probe_covers_iff (by decide) (by decide) (by decide)).mp hc with hsmall | hdvd | hpage
  · exact absurd hsmall (by decide)
  · exact absurd hdvd (by decide)
  · exact absurd hpage.1 (by decide)

end Residency
end Siphon
