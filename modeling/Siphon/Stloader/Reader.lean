/-
# The requests of a read

`read_files` cuts each planned range into chunks and hands them to the kernel.
A range of a plan is made of whole blocks and a chunk is too, so every cut
falls on a block and the length of a chunk is rounded up to itself; the
requests tile the range if the cast of the length to 32 bits keeps it, which
is so exactly if the first chunk is shorter than 4 GiB.

Key definitions: `ReadConfig.chunk`, `alignedBuf`, `expandRange`, `jobs`, `RequestsTile`.
Key theorems: `planShardPanicking_aligned`, `tiles_covers`, `requests_tile_iff`.
-/
import Siphon.Stloader.Total

namespace Siphon
namespace Stloader

open U64 Rounding

/-! ### Configuration and jobs -/

structure ReadConfig where
  depth : ℕ
  chunkBytes : ℕ
  direct : Bool
  block : ℕ
  deriving DecidableEq, Repr

instance : Inhabited ReadConfig := ⟨{ depth := 32, chunkBytes := 2 ^ 20, direct := true, block := 4096 }⟩

/-- `block` of `read_files` -/
def ReadConfig.blockSize (cfg : ReadConfig) : ℕ := max cfg.block 1

/-- `chunk` of `read_files`: the length of a buffer -/
def ReadConfig.chunk (cfg : ReadConfig) : ℕ := ceilTo (max (max cfg.chunkBytes cfg.block) 1) cfg.blockSize

/-- `isize::MAX` -/
def isizeMax : ℕ := 2 ^ 63 - 1

/-- `Layout::from_size_align`: the size, rounded up to the alignment, is no more
than `isize::MAX`. -/
def validLayout (size align : ℕ) : Bool := roundUp size align ≤ isizeMax

/-- Whether `AlignedBuf::new` has a layout for a buffer; it panics otherwise. An
alignment above `2 ^ 63` has no power of two to be rounded up to in 64 bits,
and no valid layout here. -/
def alignedBuf (len align : ℕ) : Bool := validLayout (max len 1) (max align 64).nextPowerOfTwo

/-- Why a plan is refused. -/
inductive PlanRefusal where
  | shard (fi files : ℕ)
  | zeroLength (offset : ℕ)
  deriving DecidableEq, Repr

def PlanRefusal.message : PlanRefusal → String
  | shard fi files => "plan references shard " ++ toString fi ++ " but only " ++ toString files ++ " files given"
  | zeroLength offset => "plan contains a zero-length range at offset " ++ toString offset

/-- The check of one range against the number of files. -/
def refuseRange (files : ℕ) (p : ℕ × Range) : Option PlanRefusal :=
  if files ≤ p.1 then some (.shard p.1 files)
  else if p.2.len = 0 then some (.zeroLength p.2.offset)
  else none

/-- The first range that is refused. -/
def refusePlan (files : ℕ) (plan : List (ℕ × Range)) : Option PlanRefusal := plan.findSome? (refuseRange files)

/-- One read: the file, where it starts and how long it is. -/
structure Job where
  file : ℕ
  offset : ℕ
  len : ℕ
  deriving DecidableEq, Repr

/-- `len as u32` -/
def asU32 (n : ℕ) : ℕ := n % 2 ^ 32

/-- The offset and the length that the kernel is given. -/
def Job.request (j : Job) : ℕ × ℕ := (j.offset, asU32 j.len)

theorem ceilTo_pos {x b : ℕ} (hx : 0 < x) : 0 < ceilTo x b := by
  have hb : 0 < max b 1 := by omega
  have hle := le_roundUp hb x
  unfold ceilTo saturatingMul
  exact lt_min (hx.trans_le hle) (by decide)

theorem ReadConfig.chunk_pos (cfg : ReadConfig) : 0 < cfg.chunk := ceilTo_pos (by omega)

/-- The loop over one range, from `off` on. -/
def expandRange (cfg : ReadConfig) (fi stop off : ℕ) : List Job :=
  if off < stop then
    ⟨fi, off, ceilTo (min cfg.chunk (stop - off)) cfg.blockSize⟩ ::
      expandRange cfg fi stop (off + min cfg.chunk (stop - off))
  else []
termination_by stop - off
decreasing_by
  have := cfg.chunk_pos
  omega

/-- The jobs of one range. -/
def rangeJobs (cfg : ReadConfig) (p : ℕ × Range) : List Job :=
  expandRange cfg p.1 (p.2.offset + p.2.len) p.2.offset

/-- `jobs` of `read_files` -/
def jobs (cfg : ReadConfig) (plan : List (ℕ × Range)) : List Job := plan.flatMap (rangeJobs cfg)

/-! ### Tilings -/

/-- Requests of whole blocks, none longer than a buffer, one behind the other
from `pos` to `stop`. -/
def Tiles (block chunk : ℕ) : ℕ → ℕ → List (ℕ × ℕ) → Prop
  | pos, stop, [] => pos = stop
  | pos, stop, (o, n) :: rs => o = pos ∧ block ∣ o ∧ block ∣ o + n ∧ n ≤ chunk ∧ Tiles block chunk (o + n) stop rs

theorem Tiles.le {block chunk stop : ℕ} : ∀ {rs : List (ℕ × ℕ)} {pos : ℕ}, Tiles block chunk pos stop rs → pos ≤ stop
  | [], _, h => Nat.le_of_eq h
  | (o, n) :: rs, pos, h => by
    obtain ⟨ho, -, -, -, h⟩ := h
    calc pos = o := ho.symm
      _ ≤ o + n := Nat.le_add_right o n
      _ ≤ stop := h.le

/-- A tiling reads what lies between its ends, and each byte once. -/
theorem tiles_covers {block chunk stop : ℕ} (x : ℕ) : ∀ {rs : List (ℕ × ℕ)} {pos : ℕ},
    Tiles block chunk pos stop rs →
      rs.countP (fun q => q.1 ≤ x ∧ x < q.1 + q.2) = if pos ≤ x ∧ x < stop then 1 else 0
  | [], pos, h => by
    have hpos : pos = stop := h
    rw [if_neg (by omega)]
    rfl
  | (o, n) :: rs, pos, h => by
    obtain ⟨rfl, -, -, -, h⟩ := h
    have hle := h.le
    rw [List.countP_cons, tiles_covers x h]
    dsimp only
    by_cases h1 : o ≤ x ∧ x < o + n
    · have hrest : ¬ (o + n ≤ x ∧ x < stop) := by omega
      have hall : o ≤ x ∧ x < stop := by omega
      rw [if_neg hrest, if_pos (decide_eq_true h1), if_pos hall]
    · have hrest : (o + n ≤ x ∧ x < stop) ↔ (o ≤ x ∧ x < stop) := by omega
      have hfirst : ¬ decide (o ≤ x ∧ x < o + n) = true := by simpa using h1
      rw [if_neg hfirst, if_congr hrest rfl rfl, Nat.add_zero]

/-- The requests of each range tile it. -/
def RequestsTile (cfg : ReadConfig) (plan : List (ℕ × Range)) : Prop :=
  ∀ p ∈ plan, Tiles cfg.block cfg.chunk p.2.offset (p.2.offset + p.2.len) ((rangeJobs cfg p).map Job.request)

/-! ### The ranges of a plan -/

/-- Whole blocks inside the file's, at least one. -/
structure Range.Aligned (block fileCeil : ℕ) (r : Range) : Prop where
  nonempty : 0 < r.len
  dvd_offset : block ∣ r.offset
  dvd_len : block ∣ r.len
  inside : r.offset + r.len ≤ fileCeil

section Aligned

variable {dataStart block maxGap fileCeil : ℕ} {out out' : List Range} {t : TensorInfo}

/-- The clamped blocks of any tensor are blocks: where the rounding saturates,
the end of the file is taken. -/
theorem dvd_clamped (hb : 0 < block) (hdvd : block ∣ fileCeil) (hmax : fileCeil ≤ maxValue) {a : ℕ × ℕ}
    (h : clampedPanicking dataStart block fileCeil t = some a) : block ∣ a.1 ∧ block ∣ a.2 ∧ a.2 ≤ fileCeil := by
  unfold clampedPanicking at h
  obtain ⟨⟨s, e⟩, -, h⟩ := Option.bind_eq_some_iff.mp h
  obtain ⟨f, hf, h⟩ := Option.bind_eq_some_iff.mp h
  obtain rfl := Option.some.inj h
  have hfloor : block ∣ f := by
    unfold floorToPanicking at hf
    rw [max_eq_left hb] at hf
    rw [checkedMul_eq_some hf]
    exact dvd_mul_left block (s / block)
  refine ⟨?_, ?_, min_le_right _ _⟩
  · rcases min_choice f fileCeil with hm | hm
    · exact hm.symm ▸ hfloor
    · exact hm.symm ▸ hdvd
  · dsimp only
    rcases Nat.lt_or_ge maxValue (roundUp e block) with hsat | hfit
    · have hceil : ceilTo e block = maxValue := by
        unfold ceilTo saturatingMul
        rw [max_eq_left hb]
        exact min_eq_right hsat.le
      rw [hceil, min_eq_right hmax]
      exact hdvd
    · rw [ceilTo_eq hb hfit]
      rcases min_choice (roundUp e block) fileCeil with hm | hm
      · exact hm.symm ▸ dvd_roundUp e block
      · exact hm.symm ▸ hdvd

theorem Range.Aligned.push (hout : ∀ r ∈ out, r.Aligned block fileCeil) {a₀ a₁ : ℕ} (h0 : block ∣ a₀)
    (h1 : block ∣ a₁) (hlt : a₀ < a₁) (hle : a₁ ≤ fileCeil) :
    ∀ r ∈ out ++ [⟨a₀, a₁ - a₀⟩], r.Aligned block fileCeil := by
  intro r hr
  rcases List.mem_append.mp hr with hr | hr
  · exact hout r hr
  · rw [List.mem_singleton.mp hr]
    exact ⟨Nat.sub_pos_of_lt hlt, h0, Nat.dvd_sub h1 h0, by dsimp only; omega⟩

/-- One tensor, of any header. -/
theorem planTensorPanicking_aligned (hb : 0 < block) (hdvd : block ∣ fileCeil) (hmax : fileCeil ≤ maxValue)
    (hout : ∀ r ∈ out, r.Aligned block fileCeil)
    (h : planTensorPanicking dataStart block maxGap fileCeil out t = some out') :
    ∀ r ∈ out', r.Aligned block fileCeil := by
  unfold planTensorPanicking at h
  obtain ⟨n, -, h⟩ := Option.bind_eq_some_iff.mp h
  split_ifs at h
  · exact Option.some.inj h ▸ hout
  · obtain ⟨⟨a₀, a₁⟩, ha, h⟩ := Option.bind_eq_some_iff.mp h
    obtain ⟨h0, h1, hle⟩ := dvd_clamped hb hdvd hmax ha
    dsimp only at h h0 h1 hle
    split_ifs at h with hempty
    · exact Option.some.inj h ▸ hout
    · have hpush := Range.Aligned.push hout h0 h1 (not_le.mp hempty) hle
      rw [checkedSub_of_le (not_le.mp hempty).le] at h
      cases hlast : out.getLast? with
      | none =>
        rw [hlast] at h
        exact Option.some.inj h ▸ hpush
      | some last =>
        rw [hlast] at h
        dsimp only at h
        split_ifs at h
        · obtain ⟨len, hlen, h⟩ := Option.bind_eq_some_iff.mp h
          have hl := hout last (List.mem_of_getLast? hlast)
          have hin := hl.inside
          have hpos := hl.nonempty
          have hstop : last.stop = last.offset + last.len := saturatingAdd_of_le (hin.trans hmax)
          rw [hstop, checkedSub_of_le (by omega)] at hlen
          obtain rfl := Option.some.inj hlen
          rw [← Option.some.inj h]
          have hdvd' : block ∣ max (last.offset + last.len) a₁ := by
            rcases max_choice (last.offset + last.len) a₁ with hm | hm
            · exact hm.symm ▸ Nat.dvd_add hl.dvd_offset hl.dvd_len
            · exact hm.symm ▸ h1
          have hdrop : ∀ r ∈ out.dropLast, r.Aligned block fileCeil :=
            fun r hr => hout r (List.dropLast_subset out hr)
          exact Range.Aligned.push hdrop hl.dvd_offset hdvd' (by omega) (max_le hin hle)
        · exact Option.some.inj h ▸ hpush

/-- The ranges of every plan are whole blocks, whatever the header says. -/
theorem planShardPanicking_aligned {hd : ShardHeader} {plan : List Range} (hb : 1 ≤ block)
    (hmax : roundUp hd.fileSize block ≤ maxValue) (h : planShardPanicking hd block maxGap = some plan) :
    ∀ r ∈ plan, r.Aligned block (roundUp hd.fileSize block) := by
  unfold planShardPanicking at h
  rw [max_eq_left hb, ceilTo_eq hb hmax] at h
  have hfold : ∀ (ts : List TensorInfo) (out : List Range),
      (∀ r ∈ out, r.Aligned block (roundUp hd.fileSize block)) →
      ts.foldlM (planTensorPanicking hd.dataStart block maxGap (roundUp hd.fileSize block)) out = some plan →
      ∀ r ∈ plan, r.Aligned block (roundUp hd.fileSize block) := by
    intro ts
    induction ts with
    | nil =>
      intro out hout h
      exact Option.some.inj h ▸ hout
    | cons t ts ih =>
      intro out hout h
      rw [List.foldlM_cons] at h
      obtain ⟨out', h1, h2⟩ := Option.bind_eq_some_iff.mp h
      exact ih out' (planTensorPanicking_aligned hb (dvd_roundUp _ _) hmax hout h1) h2
  exact hfold hd.tensors [] (fun _ hr => absurd hr List.not_mem_nil) h

end Aligned

/-! ### The requests tile -/

section Requests

variable {cfg : ReadConfig} {fi stop : ℕ}

theorem dvd_chunk (hb : 1 ≤ cfg.block)
    (hchunk : roundUp (max (max cfg.chunkBytes cfg.block) 1) cfg.block ≤ maxValue) : cfg.block ∣ cfg.chunk := by
  unfold ReadConfig.chunk ReadConfig.blockSize
  rw [max_eq_left hb, ceilTo_eq hb hchunk]
  exact dvd_roundUp _ _

/-- The rest of a range is whole blocks, and so is the next chunk of it: its
length is rounded up to itself. -/
theorem ceilTo_want (hb : 1 ≤ cfg.block) (hdvd : cfg.block ∣ cfg.chunk) {rest : ℕ} (hrest : cfg.block ∣ rest)
    (hmax : rest ≤ maxValue) :
    cfg.block ∣ min cfg.chunk rest ∧ ceilTo (min cfg.chunk rest) cfg.blockSize = min cfg.chunk rest := by
  have hwant : cfg.block ∣ min cfg.chunk rest := by
    rcases min_choice cfg.chunk rest with hm | hm
    · exact hm.symm ▸ hdvd
    · exact hm.symm ▸ hrest
  have hround := roundUp_of_dvd hb hwant
  refine ⟨hwant, ?_⟩
  unfold ReadConfig.blockSize
  rw [max_eq_left hb, ceilTo_eq hb (hround.trans_le ((min_le_right _ _).trans hmax)), hround]

theorem expandRange_of_lt {off : ℕ} (h : off < stop) : expandRange cfg fi stop off =
    ⟨fi, off, ceilTo (min cfg.chunk (stop - off)) cfg.blockSize⟩ ::
      expandRange cfg fi stop (off + min cfg.chunk (stop - off)) := by
  rw [expandRange, if_pos h]

/-- While the lengths keep their values as 32 bits, the requests tile the rest
of the range. -/
theorem expandRange_tiles (hb : 1 ≤ cfg.block) (hdvd : cfg.block ∣ cfg.chunk) (hstop : cfg.block ∣ stop)
    (hmax : stop ≤ maxValue) (off : ℕ) (hoff : cfg.block ∣ off) (hle : off ≤ stop)
    (hfit : min cfg.chunk (stop - off) < 2 ^ 32) :
    Tiles cfg.block cfg.chunk off stop ((expandRange cfg fi stop off).map Job.request) := by
  induction off using expandRange.induct cfg stop with
  | case1 off hlt ih =>
    have hrest : cfg.block ∣ stop - off := Nat.dvd_sub hstop hoff
    obtain ⟨hwant, hceil⟩ := ceilTo_want hb hdvd hrest ((Nat.sub_le _ _).trans hmax)
    have hlen : asU32 (min cfg.chunk (stop - off)) = min cfg.chunk (stop - off) := Nat.mod_eq_of_lt hfit
    have hnext : cfg.block ∣ off + min cfg.chunk (stop - off) := Nat.dvd_add hoff hwant
    rw [expandRange_of_lt hlt, List.map_cons, Job.request, hceil, hlen]
    exact ⟨rfl, hoff, hnext, min_le_left _ _, ih hnext (by omega) (by omega)⟩
  | case2 off hlt =>
    rw [expandRange, if_neg hlt]
    exact Nat.le_antisymm hle (not_lt.mp hlt)

/-- The first request tells: cut short, it does not reach the second. -/
theorem lt_of_expandRange_tiles (hb : 1 ≤ cfg.block) (hdvd : cfg.block ∣ cfg.chunk) {off : ℕ} (hlt : off < stop)
    (hrest : cfg.block ∣ stop - off) (hmax : stop ≤ maxValue)
    (h : Tiles cfg.block cfg.chunk off stop ((expandRange cfg fi stop off).map Job.request)) :
    min cfg.chunk (stop - off) < 2 ^ 32 := by
  obtain ⟨-, hceil⟩ := ceilTo_want hb hdvd hrest ((Nat.sub_le _ _).trans hmax)
  rw [expandRange_of_lt hlt, List.map_cons, Job.request, hceil] at h
  obtain ⟨-, -, -, -, h⟩ := h
  by_contra hge
  have hcut : asU32 (min cfg.chunk (stop - off)) < min cfg.chunk (stop - off) :=
    (Nat.mod_lt _ (by decide)).trans_le (not_lt.mp hge)
  by_cases hmore : off + min cfg.chunk (stop - off) < stop
  · rw [expandRange_of_lt hmore, List.map_cons] at h
    have hstart : off + min cfg.chunk (stop - off) = off + asU32 (min cfg.chunk (stop - off)) := h.1
    omega
  · rw [expandRange, if_neg hmore] at h
    have hend : off + asU32 (min cfg.chunk (stop - off)) = stop := h
    omega

/-- One range of a plan. -/
theorem rangeJobs_tiles_iff (hb : 1 ≤ cfg.block) (hdvd : cfg.block ∣ cfg.chunk) {fileCeil : ℕ}
    (hmax : fileCeil ≤ maxValue) {r : Range} (hr : r.Aligned cfg.block fileCeil) :
    Tiles cfg.block cfg.chunk r.offset (r.offset + r.len) ((rangeJobs cfg (fi, r)).map Job.request) ↔
      min cfg.chunk r.len < 2 ^ 32 := by
  obtain ⟨hpos, hoff, hlen, hin⟩ := hr
  have hsub : r.offset + r.len - r.offset = r.len := Nat.add_sub_cancel_left _ _
  have hmax' : r.offset + r.len ≤ maxValue := hin.trans hmax
  constructor
  · intro h
    have hlt := lt_of_expandRange_tiles hb hdvd (Nat.lt_add_of_pos_right hpos) (hsub.symm ▸ hlen) hmax' h
    rwa [hsub] at hlt
  · intro h
    apply expandRange_tiles hb hdvd (Nat.dvd_add hoff hlen) hmax' r.offset hoff (Nat.le_add_right _ _)
    rwa [hsub]

end Requests

/-- A shard with one tensor of 4 GiB behind a header of one block. -/
def largeShard : ShardHeader where
  path := "model.safetensors"
  fileSize := 4096 + 2 ^ 32
  headerLen := 4088
  dataStart := 4096
  metadata := none
  tensors := [{ name := "w", dtype := .u8, shape := [2 ^ 32], start := 0, stop := 2 ^ 32 }]

/-- One read of 4 GiB at a time. -/
def largeConfig : ReadConfig where
  depth := 1
  chunkBytes := 2 ^ 32
  direct := true
  block := 4096

theorem planShardPanicking_large : planShardPanicking largeShard 4096 0 = some [⟨4096, 2 ^ 32⟩] := by decide +kernel

end Stloader
end Siphon
