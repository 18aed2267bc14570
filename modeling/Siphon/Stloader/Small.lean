/-
# Reading a small range

`read_small_range` rounds the range outward to blocks, fills an aligned buffer
by reads that may each be short, and returns the bytes of the range when as
many have come as lie before its end. The reads stop at the end of the
file at the earliest, so what has come is the window up to there
(`fillWindow_spec`), and the bytes after the range do not matter. A window or
a block for which the buffer has no layout makes it panic, before it reads.

The file is the bytes behind the descriptor. Each `pread` is a parameter, by
the number of bytes that came before it: an error, or how many bytes it reads.

Key definitions: `fillWindow`, `readSmallRange`, `Schedule`.
Key theorem: `readSmallRange_eq_ok_iff`.
-/
import Mathlib.Data.List.GetD
import Siphon.Stloader.Reader

namespace Siphon
namespace Stloader

open U64 Rounding

/-- Why a small range is not read: the panic of `AlignedBuf::new`, the error of
a `pread`, or a file that ends too early. -/
inductive SmallReadError where
  | invalidLayout
  | os (errno : ℕ)
  | unexpectedEof (path : String) (len offset got : ℕ)
  deriving DecidableEq, Repr

def SmallReadError.message : SmallReadError → Option String
  | invalidLayout => some "invalid aligned layout"
  | os _ => none
  | unexpectedEof path len offset got =>
    some (path ++ ": wanted " ++ toString len ++ " bytes at " ++ toString offset ++ ", got " ++ toString got)

/-- The buffer after `n` bytes of the file were read to its byte `done`. -/
def readInto (file : List UInt8) (a₀ done n : ℕ) (buf : ℕ → UInt8) : ℕ → UInt8 :=
  fun p => if done ≤ p ∧ p < done + n then file.getD (a₀ + p) 0 else buf p

/-- The loop of `pread`: the buffer and the number of bytes that came. -/
def fillWindow (file : List UInt8) (a₀ total : ℕ) (pread : ℕ → Except ℕ ℕ) (buf : ℕ → UInt8) (done : ℕ) :
    Except SmallReadError ((ℕ → UInt8) × ℕ) :=
  if done < total then
    match pread done with
    | .error errno => .error (.os errno)
    | .ok 0 => .ok (buf, done)
    | .ok (n + 1) => fillWindow file a₀ total pread (readInto file a₀ done (n + 1) buf) (done + (n + 1))
  else .ok (buf, done)
termination_by total - done

/-- `read_small_range`; `uninit` is what the buffer holds before. -/
def readSmallRange (path : String) (file : List UInt8) (pread : ℕ → Except ℕ ℕ) (uninit : ℕ → UInt8)
    (offset len block : ℕ) : Except SmallReadError (List UInt8) := do
  let a₀ := floorTo offset (max block 1)
  let pad := offset - a₀
  let total := ceilTo (pad + len) (max block 1)
  if alignedBuf total (max block 1) = false then .error .invalidLayout
  let (buf, done) ← fillWindow file a₀ total pread uninit 0
  if done < pad + len then .error (.unexpectedEof path len offset (done - pad))
  else .ok ((List.range len).map fun i => buf (pad + i))

/-- Reads that are short at will: of what is asked for and left in the file
each reads a part, and none reads nothing before the end of the file. -/
structure Schedule (file : List UInt8) (a₀ total : ℕ) (pread : ℕ → Except ℕ ℕ) : Prop where
  short : ∀ done < total, a₀ + done < file.length →
    ∃ n, pread done = .ok n ∧ 0 < n ∧ n ≤ total - done ∧ n ≤ file.length - (a₀ + done)
  ended : ∀ done < total, file.length ≤ a₀ + done → pread done = .ok 0

section Fill

variable {file : List UInt8} {a₀ total : ℕ} {pread : ℕ → Except ℕ ℕ}

/-- The first bytes of the buffer are those of the window. -/
def Filled (file : List UInt8) (a₀ done : ℕ) (buf : ℕ → UInt8) : Prop := ∀ p < done, buf p = file.getD (a₀ + p) 0

theorem Filled.readInto {done : ℕ} {buf : ℕ → UInt8} (h : Filled file a₀ done buf) (n : ℕ) :
    Filled file a₀ (done + n) (readInto file a₀ done n buf) := by
  intro p hp
  unfold Stloader.readInto
  split_ifs with hnew
  · rfl
  · exact h p (by omega)

/-- The reads bring the window up to its end or the end of the file. -/
theorem fillWindow_spec (hs : Schedule file a₀ total pread) (buf : ℕ → UInt8) (done : ℕ)
    (hdone : done ≤ min total (file.length - a₀)) (hbuf : Filled file a₀ done buf) :
    ∃ buf', fillWindow file a₀ total pread buf done = .ok (buf', min total (file.length - a₀)) ∧
      Filled file a₀ (min total (file.length - a₀)) buf' := by
  induction buf, done using fillWindow.induct file a₀ total pread with
  | case1 buf done hlt errno herr =>
    -- the schedule has no errors
    rcases Nat.lt_or_ge (a₀ + done) file.length with hin | hend
    · obtain ⟨n, hn, -⟩ := hs.short done hlt hin
      rw [herr] at hn
      cases hn
    · have := hs.ended done hlt hend
      rw [herr] at this
      cases this
  | case2 buf done hlt hzero =>
    have hend : file.length ≤ a₀ + done := by
      by_contra hin
      obtain ⟨n, hn, hpos, -⟩ := hs.short done hlt (not_le.mp hin)
      rw [hzero] at hn
      obtain rfl := Except.ok.inj hn
      exact Nat.lt_irrefl 0 hpos
    have hall : done = min total (file.length - a₀) := by omega
    refine ⟨buf, ?_, hall ▸ hbuf⟩
    rw [fillWindow, if_pos hlt, hzero, ← hall]
  | case3 buf done hlt n hread ih =>
    have hin : a₀ + done < file.length := by
      by_contra hend
      have := hs.ended done hlt (not_lt.mp hend)
      rw [hread] at this
      cases this
    obtain ⟨m, hm, -, hm1, hm2⟩ := hs.short done hlt hin
    rw [hread] at hm
    obtain rfl := Except.ok.inj hm
    rw [fillWindow, if_pos hlt, hread]
    exact ih (by omega) (hbuf.readInto (n + 1))
  | case4 buf done hlt =>
    have hall : done = min total (file.length - a₀) := by omega
    refine ⟨buf, ?_, hall ▸ hbuf⟩
    rw [fillWindow, if_neg hlt, ← hall]

end Fill

/-- The bytes of a list from one on, by their places. -/
theorem map_getD_range {file : List UInt8} {offset len : ℕ} (h : offset + len ≤ file.length) :
    ((List.range len).map fun i => file.getD (offset + i) 0) = (file.drop offset).take len := by
  apply List.ext_getElem
  · rw [List.length_map, List.length_range, List.length_take, List.length_drop]
    omega
  · intro i h1 h2
    rw [List.length_map, List.length_range] at h1
    rw [List.getElem_map, List.getElem_range, List.getElem_take, List.getElem_drop,
      List.getD_eq_getElem _ _ (by omega)]

/-- The length of the window of a small range. -/
def windowLen (offset len block : ℕ) : ℕ := roundUp (offset - roundDown offset block + len) block

/-- Without a layout for the buffer nothing is read. -/
theorem readSmallRange_of_invalid (path : String) (file : List UInt8) (pread : ℕ → Except ℕ ℕ) (uninit : ℕ → UInt8)
    {offset len block : ℕ} (hb : 1 ≤ block) (hmax : windowLen offset len block ≤ maxValue)
    (h : alignedBuf (windowLen offset len block) block = false) :
    readSmallRange path file pread uninit offset len block = .error .invalidLayout := by
  unfold readSmallRange
  rw [max_eq_left hb]
  dsimp only
  rw [floorTo_eq hb, ceilTo_eq hb hmax, ← windowLen, if_pos h]
  rfl

/-- With one, what the reads brought is enough or not. -/
theorem readSmallRange_of_valid (path : String) (file : List UInt8) (pread : ℕ → Except ℕ ℕ) (uninit : ℕ → UInt8)
    {offset len block : ℕ} (hb : 1 ≤ block) (hmax : windowLen offset len block ≤ maxValue)
    (h : alignedBuf (windowLen offset len block) block = true)
    (hs : Schedule file (roundDown offset block) (windowLen offset len block) pread) :
    ∃ buf, Filled file (roundDown offset block)
        (min (windowLen offset len block) (file.length - roundDown offset block)) buf ∧
      readSmallRange path file pread uninit offset len block =
        if min (windowLen offset len block) (file.length - roundDown offset block) <
            offset - roundDown offset block + len then
          .error (.unexpectedEof path len offset
            (min (windowLen offset len block) (file.length - roundDown offset block) -
              (offset - roundDown offset block)))
        else .ok ((List.range len).map fun i => buf (offset - roundDown offset block + i)) := by
  have hempty : Filled file (roundDown offset block) 0 uninit := fun p hp => absurd hp (Nat.not_lt_zero p)
  obtain ⟨buf, hfill, hbuf⟩ := fillWindow_spec hs uninit 0 (Nat.zero_le _) hempty
  refine ⟨buf, hbuf, ?_⟩
  have hvalid : ¬ alignedBuf (windowLen offset len block) block = false := by rw [h]; exact Bool.noConfusion
  unfold readSmallRange
  rw [max_eq_left hb]
  dsimp only
  rw [floorTo_eq hb, ceilTo_eq hb hmax, ← windowLen, if_neg hvalid, hfill]
  rfl

/-- **A small range is read exactly when the buffer has a layout and the range
lies in the file, and then its bytes are returned.** Without a layout the read
panics. -/
theorem readSmallRange_eq_ok_iff (path : String) (file : List UInt8) (pread : ℕ → Except ℕ ℕ) (uninit : ℕ → UInt8)
    {offset len block : ℕ} (hlen : 1 ≤ len) (hb : 1 ≤ block) (hmax : windowLen offset len block ≤ maxValue)
    (hs : Schedule file (roundDown offset block) (windowLen offset len block) pread) :
    (∀ v, readSmallRange path file pread uninit offset len block = .ok v ↔
      alignedBuf (windowLen offset len block) block = true ∧ offset + len ≤ file.length ∧
        v = (file.drop offset).take len) ∧
    (readSmallRange path file pread uninit offset len block = .error .invalidLayout ↔
      alignedBuf (windowLen offset len block) block = false) := by
  have hdown := roundDown_le offset block
  have hup : offset - roundDown offset block + len ≤ windowLen offset len block := le_roundUp hb _
  cases hvalid : alignedBuf (windowLen offset len block) block with
  | false =>
    rw [readSmallRange_of_invalid path file pread uninit hb hmax hvalid]
    simp
  | true =>
    obtain ⟨buf, hbuf, hrun⟩ := readSmallRange_of_valid path file pread uninit hb hmax hvalid hs
    rw [hrun]
    by_cases hin : offset + len ≤ file.length
    · have hall : (List.range len).map (fun i => buf (offset - roundDown offset block + i)) =
          (file.drop offset).take len := by
        rw [← map_getD_range hin]
        apply List.map_congr_left
        intro i hi
        have := List.mem_range.mp hi
        have hplace : roundDown offset block + (offset - roundDown offset block + i) = offset + i := by omega
        rw [hbuf _ (by omega), hplace]
      rw [if_neg (by omega), hall]
      simp [hin, eq_comm]
    · rw [if_pos (by omega)]
      simp [hin]

/-- A file of one byte, read when it is asked for. -/
def oneByte (done : ℕ) : Except ℕ ℕ := .ok (1 - done)

/-- A block of `2 ^ 63` bytes has no buffer. -/
theorem readSmallRange_no_layout :
    ¬ ∀ (path : String) (file : List UInt8) (pread : ℕ → Except ℕ ℕ) (uninit : ℕ → UInt8) (offset len block : ℕ),
      1 ≤ len → 1 ≤ block → windowLen offset len block ≤ maxValue →
      Schedule file (roundDown offset block) (windowLen offset len block) pread →
      ∀ v, readSmallRange path file pread uninit offset len block = .ok v ↔
        offset + len ≤ file.length ∧ v = (file.drop offset).take len := by
  intro h
  have hs : Schedule [7] (roundDown 0 (2 ^ 63)) (windowLen 0 1 (2 ^ 63)) oneByte := by
    constructor
    · intro done _ hin
      have hzero : done = 0 := by simpa [roundDown] using hin
      subst hzero
      exact ⟨1, rfl, by decide, by decide, by decide⟩
    · intro done _ hend
      have hpos : 1 ≤ done := by simpa [roundDown] using hend
      exact congrArg Except.ok (Nat.sub_eq_zero_of_le hpos)
  have hmax : windowLen 0 1 (2 ^ 63) ≤ maxValue := by decide +kernel
  have hok := (h "shard" [7] oneByte (fun _ => 0) 0 1 (2 ^ 63) le_rfl (by decide) hmax hs [7]).mpr (by decide)
  rw [readSmallRange_of_invalid "shard" [7] oneByte _ (by decide) hmax (by decide +kernel)] at hok
  cases hok

/-- The bytes `1` to `10`. -/
def tenBytes : List UInt8 := (List.range 10).map fun i => UInt8.ofNat (i + 1)

/-- Three bytes of them at a time, from byte 4 on, of a window of 8. -/
def threeAtATime (done : ℕ) : Except ℕ ℕ := .ok (min 3 (min (8 - done) (10 - (4 + done))))

theorem schedule_threeAtATime : Schedule tenBytes 4 8 threeAtATime where
  short done hdone hin := by
    have hin : 4 + done < 10 := hin
    refine ⟨_, rfl, by omega, by omega, ?_⟩
    show _ ≤ 10 - (4 + done)
    omega
  ended done _ hend := by
    have hend : 10 ≤ 4 + done := hend
    have hzero : min 3 (min (8 - done) (10 - (4 + done))) = 0 := by omega
    exact congrArg Except.ok hzero

/-- The last read of the window is short. -/
theorem readSmallRange_eq_ok_iff_tenBytes :
    readSmallRange "shard" tenBytes threeAtATime (fun _ => 0) 5 4 4 = .ok [6, 7, 8, 9] := by
  have hs : Schedule tenBytes (roundDown 5 4) (windowLen 5 4 4) threeAtATime := schedule_threeAtATime
  apply ((readSmallRange_eq_ok_iff "shard" tenBytes threeAtATime _ (by decide) (by decide) (by decide) hs).1 _).mpr
  decide +kernel

end Stloader
end Siphon
