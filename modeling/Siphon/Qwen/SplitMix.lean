/-
# The period of the generator

The state of `SplitMix64` goes up by an odd step, so it comes to each of the
`2^64` words once before it is back (`existsUnique_state`), and what a state
puts out is mixed from it by xor-shifts and odd factors, which lose nothing
(`bijective_output`). So each word comes out once in a period. `next_f64`
keeps the high 53 bits of it: as a `f64` their share of `2^53` is exact
(`unitInterval_exact`), and the words with the same high bits are `2^11`.

Key definitions: `SplitMix64.after`, `SplitMix64.stream`.
Key theorems: `bijective_output`, `unitInterval_exact`, `splitMix64_full_period`.
-/
import Mathlib.Data.Finset.Card
import Mathlib.Order.Interval.Finset.Nat
import Siphon.Lib.Mixing
import Siphon.Qwen.Sample

namespace Siphon
namespace Qwen

open Ieee

/-- The generator after some numbers. -/
def SplitMix64.after (r : SplitMix64) : ℕ → SplitMix64
  | 0 => r
  | n + 1 => (r.after n).nextU64.2

/-- The numbers of the generator. -/
def SplitMix64.stream (r : SplitMix64) (n : ℕ) : UInt64 := (r.after n).nextU64.1

/-! ### The output -/

/-- What `next_u64` makes of a new state. -/
def SplitMix64.mix (z : BitVec 64) : BitVec 64 :=
  let z := (z ^^^ (z >>> 30)) * 0xBF58476D1CE4E5B9#64
  let z := (z ^^^ (z >>> 27)) * 0x94D049BB133111EB#64
  z ^^^ (z >>> 31)

theorem toBitVec_nextU64 (r : SplitMix64) :
    r.nextU64.1.toBitVec = SplitMix64.mix (r.state.toBitVec + 0x9E3779B97F4A7C15#64) := rfl

theorem mix_injective : Function.Injective SplitMix64.mix := by
  have h1 : (0xBF58476D1CE4E5B9#64) * 0x96DE1B173F119089#64 = 1#64 := by decide
  have h2 : (0x94D049BB133111EB#64) * 0x319642B2D24D8EC3#64 = 1#64 := by decide
  exact Mixing.shiftMulShift_injective h1 h2 (by omega) (by omega) (by omega)

theorem bijective_output : Function.Bijective fun s : UInt64 => (SplitMix64.nextU64 ⟨s⟩).1 := by
  have hstep : Function.Injective fun s : BitVec 64 => SplitMix64.mix (s + 0x9E3779B97F4A7C15#64) :=
    mix_injective.comp (add_left_injective _)
  obtain ⟨hinj, hsurj⟩ := Mixing.bijective_of_injective hstep
  constructor
  · intro s s' h
    have hbits := congrArg UInt64.toBitVec h
    simp only [toBitVec_nextU64] at hbits
    exact UInt64.toBitVec_inj.mp (hinj hbits)
  · intro v
    obtain ⟨s, hs⟩ := hsurj v.toBitVec
    exact ⟨⟨s⟩, UInt64.toBitVec_inj.mp hs⟩

/-! ### The states -/

theorem toBitVec_after (r : SplitMix64) : ∀ n : ℕ,
    (r.after n).state.toBitVec = r.state.toBitVec + BitVec.ofNat 64 n * 0x9E3779B97F4A7C15#64
  | 0 => by simp [SplitMix64.after]
  | n + 1 => by
    have hnext : (r.after (n + 1)).state.toBitVec = (r.after n).state.toBitVec + 0x9E3779B97F4A7C15#64 := rfl
    rw [hnext, toBitVec_after r n, BitVec.ofNat_add, BitVec.add_mul, BitVec.one_mul, BitVec.add_assoc]

theorem existsUnique_state (r : SplitMix64) (s : UInt64) : ∃! n, n < 2 ^ 64 ∧ (r.after n).state = s := by
  have hodd : (0x9E3779B97F4A7C15#64) * 0xF1DE83E19937733D#64 = 1#64 := by decide
  have h := Mixing.existsUnique_weyl hodd r.state.toBitVec s.toBitVec
  simpa only [← toBitVec_after, UInt64.toBitVec_inj] using h

theorem existsUnique_stream (r : SplitMix64) (v : UInt64) : ∃! n, n < 2 ^ 64 ∧ r.stream n = v := by
  obtain ⟨s, rfl⟩ := bijective_output.2 v
  have houtput : ∀ n, r.stream n = (SplitMix64.nextU64 ⟨s⟩).1 ↔ (r.after n).state = s :=
    fun n => bijective_output.1.eq_iff
  simpa only [houtput] using existsUnique_state r s

/-! ### The number in the unit interval -/

/-- The number is the share of `2^53`, with no rounding. -/
theorem unitInterval_exact {n : ℕ} (hn : n < 2 ^ 53) :
    (unitInterval n).isFinite ∧ toRat (unitInterval n) = n / 2 ^ 53 := by
  have hunits : ((Format.unitsPerOne ⟨52, 1023⟩ : ℕ) : ℚ) = 2 ^ 53 * 2 ^ 1021 := by
    simp only [Format.unitsPerOne, Nat.cast_pow, Nat.cast_ofNat, ← pow_add, Nat.reduceAdd, Nat.reduceSub]
  have hcancel (x : ℚ) : 1 / 2 ^ 53 * (2 ^ 53 * x) = x := by field_simp
  obtain ⟨hone, hrone⟩ := @toRat_ofNat ⟨52, 1023⟩ 1 0 (by decide) (by decide)
  obtain ⟨hden, hrden⟩ := @toRat_ofNat ⟨52, 1023⟩ 1 53 (by decide) (by decide)
  obtain ⟨hx, hrx⟩ := @toRat_ofNat ⟨52, 1023⟩ n 0 hn (by decide)
  simp only [pow_zero, mul_one, Nat.cast_one, one_mul] at hone hrone hden hrden hx hrx
  have hden0 : key (ofNat (2 ^ 53) : F64) ≠ 0 := by
    have h0 : toRat (ofNat (2 ^ 53) : F64) ≠ toRat (zero : F64) := by
      rw [hrden, toRat_zero]
      positivity
    exact fun h => h0 ((toRat_eq_toRat hden rfl).mpr h)
  have hstep : (div (ofNat 1) (ofNat (2 ^ 53)) : F64).isFinite ∧
      toRat (div (ofNat 1) (ofNat (2 ^ 53)) : F64) = 1 / 2 ^ 53 := by
    have hkey := key_div hone hden hden0
    rw [hrone, hrden] at hkey
    refine toRat_of_key (div_ne_nan (ofRat_ne_nan false _) hden (.inr hden0)) hkey (n := 1) (e := 1021)
      (by decide) (by decide) ?_
    rw [hunits, hcancel, Nat.cast_one, one_mul]
  have hpos : 0 < key (div (ofNat 1) (ofNat (2 ^ 53)) : F64) := by
    have hle := toRat_le_toRat hstep.1 (y := (zero : F64)) rfl
    rw [hstep.2, toRat_zero, key_zero] at hle
    by_contra h
    exact absurd (hle.mpr (by omega)) (not_le.mpr (by positivity))
  have hkey := key_mul hx hstep.1
  rw [hrx, hstep.2] at hkey
  have hmul := toRat_of_key (mul_ne_nan (ofRat_ne_nan false _) hstep.1 hpos) hkey (n := n) (e := 1021) hn
    (by decide) (by rw [hunits, mul_assoc, hcancel])
  rw [unitInterval, show 9007199254740992 = 2 ^ 53 from rfl]
  exact ⟨hmul.1, hmul.2.trans (by ring)⟩

/-! ### The period -/

theorem toRat_nextF64 (r : SplitMix64) :
    r.nextF64.1.isFinite ∧ toRat r.nextF64.1 = (r.nextU64.1 >>> 11).toNat / 2 ^ 53 :=
  unitInterval_exact (shift_lt r.nextU64.1)

/-- How often the high bits come in a period. -/
theorem card_shift (r : SplitMix64) {k : ℕ} (hk : k < 2 ^ 53) :
    ((Finset.range (2 ^ 64)).filter fun n => (r.stream n >>> 11).toNat = k).card = 2 ^ 11 := by
  have hcard : (Finset.Ico (k * 2 ^ 11) (k * 2 ^ 11 + 2 ^ 11)).card = 2 ^ 11 := by
    rw [Nat.card_Ico, Nat.add_sub_cancel_left]
  rw [← hcard]
  refine Finset.card_bij (fun n _ => (r.stream n).toNat) ?_ ?_ ?_
  · intro n hn
    have hn := (Finset.mem_filter.mp hn).2
    rw [shift_toNat] at hn
    exact Finset.mem_Ico.mpr (by omega)
  · intro n hn n' hn' h
    have hlt := Finset.mem_range.mp (Finset.mem_filter.mp hn).1
    have hlt' := Finset.mem_range.mp (Finset.mem_filter.mp hn').1
    exact (existsUnique_stream r (r.stream n)).unique ⟨hlt, rfl⟩ ⟨hlt', UInt64.toNat_inj.mp h.symm⟩
  · intro v hv
    have hv := Finset.mem_Ico.mp hv
    have hlt : v < 2 ^ 64 := by omega
    obtain ⟨n, ⟨hn, hout⟩, -⟩ := existsUnique_stream r (UInt64.ofNat v)
    have hval : (r.stream n).toNat = v := by rw [hout, UInt64.toNat_ofNat', Nat.mod_eq_of_lt hlt]
    refine ⟨n, Finset.mem_filter.mpr ⟨Finset.mem_range.mpr hn, ?_⟩, hval⟩
    rw [shift_toNat, hval]
    omega

/-- **SplitMix64 has full period.** What is put out is a bijection of the
state, the states and the numbers are each word once in a period, and
`next_f64` is `k / 2^53` for the high bits `k` of the number, which each come
`2^11` times. -/
theorem splitMix64_full_period (seed : UInt64) :
    (Function.Bijective fun s : UInt64 => (SplitMix64.nextU64 ⟨s⟩).1) ∧
    (∀ s, ∃! n, n < 2 ^ 64 ∧ ((⟨seed⟩ : SplitMix64).after n).state = s) ∧
    (∀ v, ∃! n, n < 2 ^ 64 ∧ (⟨seed⟩ : SplitMix64).stream n = v) ∧
    (∀ r : SplitMix64, (r.nextU64.1 >>> 11).toNat < 2 ^ 53 ∧ r.nextF64.1.isFinite ∧
      toRat r.nextF64.1 = (r.nextU64.1 >>> 11).toNat / 2 ^ 53 ∧ 0 ≤ toRat r.nextF64.1 ∧ toRat r.nextF64.1 < 1) ∧
    ∀ k : ℕ, k < 2 ^ 53 → ((Finset.range (2 ^ 64)).filter fun n =>
      toRat ((⟨seed⟩ : SplitMix64).after n).nextF64.1 = k / 2 ^ 53).card = 2 ^ 11 := by
  refine ⟨bijective_output, existsUnique_state ⟨seed⟩, existsUnique_stream ⟨seed⟩, ?_, ?_⟩
  · intro r
    obtain ⟨hfin, hval⟩ := toRat_nextF64 r
    have hlt : ((r.nextU64.1 >>> 11).toNat : ℚ) < 2 ^ 53 := by exact_mod_cast shift_lt r.nextU64.1
    refine ⟨shift_lt _, hfin, hval, ?_, ?_⟩
    · rw [hval]
      positivity
    · rw [hval, div_lt_one (by positivity)]
      exact hlt
  · intro k hk
    have hiff : ∀ n, toRat ((⟨seed⟩ : SplitMix64).after n).nextF64.1 = k / 2 ^ 53 ↔
        ((⟨seed⟩ : SplitMix64).stream n >>> 11).toNat = k := by
      intro n
      rw [(toRat_nextF64 _).2, div_left_inj' (by positivity), Nat.cast_inj]
      rfl
    simp only [hiff]
    exact card_shift ⟨seed⟩ hk

end Qwen
end Siphon
