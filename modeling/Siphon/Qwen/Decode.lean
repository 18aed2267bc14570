/-
# Decoding weights

`Dtype::decode` of `gdn/src/safetensors.rs` widens the elements of a tensor to
`f32`. Of `F32` it keeps the bits, and of `BF16` it shifts them to their
place. `f16_to_f32` builds the bits of a half anew: an exponent for the other
bias, and a loop that normalizes the fraction of a subnormal. That loop starts
from an exponent that is lower by ten than it should be, so a subnormal half
is read as its value divided by 1024. All other halves are exact
(`decode_exact_iff`).

Key definitions: `f16ToF32`, `Dtype.decode`, `Dtype.Exact`.
Key theorems: `f16ToF32_exact`, `f16ToF32_subnormal`, `decode_exact_iff`.
-/
import Mathlib.Data.Nat.Bitwise
import Siphon.Lib.Widening
import Siphon.Stloader.Header

namespace Siphon
namespace Qwen
namespace Safetensors

open Ieee Stloader

/-- `Dtype` -/
inductive Dtype where
  | f32 | f16 | bf16
  deriving DecidableEq, Repr

namespace Dtype

def parse : String → Option Dtype
  | "F32" => some f32
  | "F16" => some f16
  | "BF16" => some bf16
  | _ => none

/-- Bytes of one element. -/
def size : Dtype → ℕ
  | f32 => 4
  | f16 | bf16 => 2

def asStr : Dtype → String
  | f32 => "F32"
  | f16 => "F16"
  | bf16 => "BF16"

end Dtype

/-- `while f & 0x400 == 0`, which a fraction of ten bits ends after ten shifts. -/
def normalise : ℕ → ℕ → ℕ → ℕ × ℕ
  | 0, e, f => (e, f)
  | n + 1, e, f => if f &&& 0x400 = 0 then normalise n (e - 1) (f <<< 1) else (e, f)

/-- `f16_to_f32`, the bits of the one from the bits of the other -/
def f16ToF32 (h : ℕ) : ℕ :=
  let sign := h >>> 15
  let exp := (h >>> 10) &&& 0x1f
  let frac := h &&& 0x3ff
  if exp = 0 then
    if frac = 0 then sign <<< 31
    else
      let (e, f) := normalise 10 (127 - 15 - 10) frac
      (sign <<< 31) ||| (((e + 1) <<< 23) ||| ((f &&& 0x3ff) <<< 13))
  else if exp = 0x1f then (sign <<< 31) ||| ((0xff <<< 23) ||| (frac <<< 13))
  else (sign <<< 31) ||| (((exp + 127 - 15) <<< 23) ||| (frac <<< 13))

namespace Dtype

/-- The bytes of the element `i`. -/
def slice (d : Dtype) (bytes : List UInt8) (i : ℕ) : List UInt8 := (bytes.drop (i * d.size)).take d.size

/-- The bits that an element is read as. -/
def decodeElement : Dtype → List UInt8 → ℕ
  | f32, b => fromLeBytes b
  | bf16, b => fromLeBytes b <<< 16
  | f16, b => f16ToF32 (fromLeBytes b)

end Dtype

/-- The error of `decode`. -/
inductive DecodeError where
  | length (dtype : Dtype) (n : ℕ)

def DecodeError.message : DecodeError → String
  | length d n => d.asStr ++ ": " ++ toString n ++ " bytes is not a multiple of the " ++ toString d.size ++
      "-byte element size"

/-- `Dtype::decode`, each `f32` by its bits -/
def Dtype.decode (d : Dtype) (bytes : List UInt8) : Except DecodeError (List ℕ) :=
  if bytes.length % d.size ≠ 0 then .error (.length d bytes.length)
  else .ok ((List.range (bytes.length / d.size)).map fun i => d.decodeElement (d.slice bytes i))

/-! ### Halves -/

/-- `binary16` -/
abbrev Half := Ieee ⟨10, 15⟩

/-- `bfloat16` -/
abbrev Brain := Ieee ⟨7, 127⟩

/-- A nonzero half below the normal ones. -/
def Subnormal (h : ℕ) : Prop := (h >>> 10) &&& 0x1f = 0 ∧ h &&& 0x3ff ≠ 0

instance (h : ℕ) : Decidable (Subnormal h) := inferInstanceAs (Decidable (_ ∧ _))

theorem and_bit_eq_zero_iff {f : ℕ} (h : f < 2 ^ 11) : f &&& 0x400 = 0 ↔ f < 2 ^ 10 := by
  rw [show 0x400 = 2 ^ 10 from rfl, Nat.and_two_pow]
  obtain hlt | hge := Nat.lt_or_ge f (2 ^ 10)
  · rw [Nat.testBit_lt_two_pow hlt]
    simpa using hlt
  · rw [Nat.testBit_of_two_pow_le_and_two_pow_add_one_gt hge h]
    simpa using hge

/-- The fraction is shifted until its leading bit has its place, and the
exponent counts the shifts. -/
theorem normalise_spec : ∀ (n e : ℕ) {f : ℕ}, f < 2 ^ 11 → 2 ^ 10 ≤ f * 2 ^ n →
    ∃ k ≤ n, normalise n e f = (e - k, f * 2 ^ k) ∧ 2 ^ 10 ≤ f * 2 ^ k ∧ f * 2 ^ k < 2 ^ 11
  | 0, e, f, hlt, hge => ⟨0, Nat.le_refl 0, by rw [normalise, Nat.sub_zero, Nat.pow_zero, Nat.mul_one], hge,
      by rwa [Nat.pow_zero, Nat.mul_one]⟩
  | n + 1, e, f, hlt, hge => by
    rw [normalise]
    split_ifs with hbit
    · have hsmall := (and_bit_eq_zero_iff hlt).mp hbit
      have hshift : f <<< 1 = f * 2 := Nat.shiftLeft_eq f 1
      have hge' : 2 ^ 10 ≤ f <<< 1 * 2 ^ n := by
        rw [hshift, Nat.mul_assoc, ← Nat.pow_succ']
        exact hge
      obtain ⟨k, hk, hnorm, h1, h2⟩ := normalise_spec n (e - 1) (by omega) hge'
      rw [hshift, Nat.mul_assoc, ← Nat.pow_succ'] at h1 h2
      refine ⟨k + 1, Nat.succ_le_succ hk, ?_, h1, h2⟩
      rw [hnorm, hshift, Nat.mul_assoc, ← Nat.pow_succ', Nat.sub_sub, Nat.add_comm 1]
    · have hlarge := Nat.le_of_not_lt (mt (and_bit_eq_zero_iff hlt).mpr hbit)
      exact ⟨0, Nat.zero_le _, by rw [Nat.sub_zero, Nat.pow_zero, Nat.mul_one], by rwa [Nat.pow_zero, Nat.mul_one],
        by rwa [Nat.pow_zero, Nat.mul_one]⟩

/-- A sign, an exponent and a fraction in their places. -/
theorem or_fields (s : ℕ) {e f : ℕ} (he : e < 2 ^ 8) (hf : f < 2 ^ 23) :
    (s <<< 31) ||| ((e <<< 23) ||| f) = s * 2 ^ 31 + (e * 2 ^ 23 + f) := by
  have hlow : e * 2 ^ 23 + f < 2 ^ 31 := by omega
  rw [← Nat.shiftLeft_add_eq_or_of_lt hf, Nat.shiftLeft_eq e, ← Nat.shiftLeft_add_eq_or_of_lt hlow, Nat.shiftLeft_eq]

/-- The fields of a half. -/
theorem half_fields {h : ℕ} (hh : h < 2 ^ 16) : ∃ s x r, s ≤ 1 ∧ x < 2 ^ 5 ∧ r < 2 ^ 10 ∧
    h = s * 2 ^ 15 + (x * 2 ^ 10 + r) ∧ h >>> 15 = s ∧ (h >>> 10) &&& 0x1f = x ∧ h &&& 0x3ff = r := by
  refine ⟨h / 2 ^ 15, h / 2 ^ 10 % 2 ^ 5, h % 2 ^ 10, by omega, by omega, by omega, by omega,
    Nat.shiftRight_eq_div_pow h 15, ?_, Nat.and_two_pow_sub_one_eq_mod h 10⟩
  rw [Nat.shiftRight_eq_div_pow]
  exact Nat.and_two_pow_sub_one_eq_mod _ 5

theorem signBit_half : (⟨10, 15⟩ : Format).signBit = 2 ^ 15 := by decide

theorem signBit_brain : (⟨7, 127⟩ : Format).signBit = 2 ^ 15 := by decide

theorem signBit_f32 : (⟨23, 127⟩ : Format).signBit = 2 ^ 31 := by decide

theorem magnitudes_half : (⟨10, 15⟩ : Format).magnitudes = 31 * 2 ^ 10 := by decide

theorem magnitudes_brain : (⟨7, 127⟩ : Format).magnitudes = 255 * 2 ^ 7 := by decide

theorem magnitudes_f32 : (⟨23, 127⟩ : Format).magnitudes = 255 * 2 ^ 23 := by decide

/-- What a half and the `f32` built of it stand for. -/
theorem sameValue_half {s low rest : ℕ} (hs : s ≤ 1) (hlow : low < 2 ^ 15) (hrest : rest < 2 ^ 31) :
    SameValue (stored (s * 2 ^ 15 + low) : Half) (stored (s * 2 ^ 31 + rest) : F32) ↔
      SameValue (ofBits (decide (s = 1)) low : Half) (ofBits (decide (s = 1)) rest : F32) := by
  have hhalf := @stored_split ⟨10, 15⟩ s low hs (signBit_half ▸ hlow)
  have hf32 := @stored_split ⟨23, 127⟩ s rest hs (signBit_f32 ▸ hrest)
  rw [signBit_half] at hhalf
  rw [signBit_f32] at hf32
  rw [hhalf, hf32]

theorem unitsPerOne_half : (⟨23, 127⟩ : Format).unitsPerOne = (⟨10, 15⟩ : Format).unitsPerOne * 2 ^ 125 := by
  decide

theorem unitsPerOne_brain : (⟨23, 127⟩ : Format).unitsPerOne = (⟨7, 127⟩ : Format).unitsPerOne * 2 ^ 16 := by
  decide

/-- Two finite magnitudes. -/
theorem sameValue_half_finite {s : Bool} {low rest : ℕ} (hlow : low < 31 * 2 ^ 10) (hrest : rest < 255 * 2 ^ 23) :
    SameValue (ofBits s low : Half) (ofBits s rest : F32) ↔ units 23 rest = units 10 low * 2 ^ 125 := by
  rw [ofBits_of_lt (magnitudes_half ▸ hlow), ofBits_of_lt (magnitudes_f32 ▸ hrest)]
  exact sameValue_finite unitsPerOne_half

set_option maxRecDepth 4000 in
/-- A half that is not subnormal is read as its value. -/
theorem f16ToF32_exact {h : ℕ} (hh : h < 2 ^ 16) (hn : ¬ Subnormal h) :
    SameValue (stored h : Half) (stored (f16ToF32 h) : F32) := by
  obtain ⟨s, x, r, hs, hx, hr, hbits, hsign, hexp, hfrac⟩ := half_fields hh
  have hlow : x * 2 ^ 10 + r < 2 ^ 15 := by omega
  unfold Subnormal at hn
  unfold f16ToF32
  simp only [hsign, hexp, hfrac] at hn ⊢
  clear hsign hexp hfrac
  rw [hbits]
  split_ifs with hx0 hr0 hx1
  · rw [Nat.shiftLeft_eq, ← Nat.add_zero (s * 2 ^ 31), sameValue_half hs hlow (by decide), hx0, hr0,
      sameValue_half_finite (by decide) (by decide)]
    rfl
  · exact absurd ⟨hx0, hr0⟩ hn
  · have hrest : 0xff * 2 ^ 23 + r * 2 ^ 13 < 2 ^ 31 := by omega
    rw [or_fields s (by decide) (by omega), Nat.shiftLeft_eq r 13, sameValue_half hs hlow hrest, hx1]
    -- infinity, or any fraction at the same place
    obtain rfl | hr0 := Nat.eq_zero_or_pos r
    · rw [Nat.zero_mul, Nat.add_zero, Nat.add_zero, ← magnitudes_half, ← magnitudes_f32, ofBits_infinite,
        ofBits_infinite]
      exact rfl
    · rw [ofBits_of_gt (by rw [magnitudes_half]; omega), ofBits_of_gt (by rw [magnitudes_f32]; omega)]
      exact trivial
  · have hwide : (x + 112) * 2 ^ 23 + r * 2 ^ 13 = (x * 2 ^ 10 + r) * 2 ^ 13 + 112 * 2 ^ (10 + 13) := by omega
    have hrest : (x + 112) * 2 ^ 23 + r * 2 ^ 13 < 255 * 2 ^ 23 := by omega
    have hfinite : x * 2 ^ 10 + r < 31 * 2 ^ 10 := by omega
    rw [Nat.add_sub_assoc (by decide), or_fields s (by omega) (by omega), Nat.shiftLeft_eq r 13,
      sameValue_half hs hlow (hrest.trans (by decide)), sameValue_half_finite hfinite hrest, hwide]
    exact units_widen 13 (.inl (by omega))

/-- The units of a fraction that was shifted `k` times: its exponent is ten
too low. -/
theorem units_normalised {r k f : ℕ} (hk : k ≤ 10) (hf : r * 2 ^ k = f) (h1 : 2 ^ 10 ≤ f) (h2 : f < 2 ^ 11) :
    units 23 ((102 - k + 1) * 2 ^ 23 + (f - 2 ^ 10) * 2 ^ 13) = r * 2 ^ 115 := by
  have hwide : (102 - k + 1) * 2 ^ 23 + (f - 2 ^ 10) * 2 ^ 13 = f * 2 ^ 13 + (102 - k) * 2 ^ (10 + 13) := by omega
  have hexp : k + (13 + (102 - k)) = 115 := by omega
  rw [hwide]
  calc units 23 (f * 2 ^ 13 + (102 - k) * 2 ^ (10 + 13)) = units 10 f * 2 ^ (13 + (102 - k)) :=
        units_widen 13 (.inl h1)
    _ = r * 2 ^ k * 2 ^ (13 + (102 - k)) := by rw [units_of_lt h2, hf]
    _ = r * 2 ^ 115 := by rw [Nat.mul_assoc, ← Nat.pow_add, hexp]

/-- A subnormal half is read as another number, for its exponent. -/
theorem f16ToF32_subnormal {h : ℕ} (hh : h < 2 ^ 16) (hn : Subnormal h) :
    ¬ SameValue (stored h : Half) (stored (f16ToF32 h) : F32) := by
  obtain ⟨s, x, r, hs, -, hr, hbits, hsign, hexp, hfrac⟩ := half_fields hh
  unfold Subnormal at hn
  unfold f16ToF32
  simp only [hsign, hexp, hfrac] at hn ⊢
  obtain ⟨rfl, hr0⟩ := hn
  rw [if_pos rfl, if_neg hr0, hbits, Nat.zero_mul, Nat.zero_add]
  clear hsign hexp hfrac hbits hh h
  obtain ⟨k, hk, hnorm, h1, h2⟩ := @normalise_spec 10 (127 - 15 - 10) r (by omega) (by omega)
  obtain ⟨f, hf⟩ : ∃ f, r * 2 ^ k = f := ⟨_, rfl⟩
  rw [hf] at hnorm h1 h2
  have hfrac : f &&& 0x3ff = f - 2 ^ 10 := by
    rw [show (0x3ff : ℕ) = 2 ^ 10 - 1 from rfl, Nat.and_two_pow_sub_one_eq_mod]
    omega
  have hunits := units_normalised hk hf h1 h2
  have hrest : (102 - k + 1) * 2 ^ 23 + (f - 2 ^ 10) * 2 ^ 13 < 255 * 2 ^ 23 := by omega
  have hexp8 : 102 - k + 1 < 2 ^ 8 := by omega
  have hfrac23 : (f - 2 ^ 10) * 2 ^ 13 < 2 ^ 23 :=
    calc (f - 2 ^ 10) * 2 ^ 13 < 2 ^ 10 * 2 ^ 13 :=
          Nat.mul_lt_mul_of_pos_right (Nat.sub_lt_left_of_lt_add h1 h2) (Nat.two_pow_pos 13)
      _ = 2 ^ 23 := by norm_num
  have hlow : r < 2 ^ 15 := hr.trans (by decide)
  have hfinite : r < 31 * 2 ^ 10 := hr.trans (by decide)
  rw [hnorm]
  dsimp only
  rw [hfrac, Nat.shiftLeft_eq _ 13, or_fields s hexp8 hfrac23, sameValue_half hs hlow (hrest.trans (by decide)),
    sameValue_half_finite hfinite hrest, hunits, units_of_lt (hr.trans (by decide))]
  intro heq
  have hpow := Nat.pow_right_injective (Nat.le_refl 2) (Nat.eq_of_mul_eq_mul_left (Nat.pos_of_ne_zero hr0) heq)
  exact absurd hpow (by decide)

/-! ### All elements -/

theorem fromLeBytes_lt : ∀ bs : List UInt8, fromLeBytes bs < 256 ^ bs.length
  | [] => Nat.one_pos
  | b :: bs => by
    have ih := fromLeBytes_lt bs
    have hb := b.toNat_lt
    show b.toNat + 256 * fromLeBytes bs < 256 ^ (bs.length + 1)
    rw [Nat.pow_succ]
    omega

/-- An element is read as its value; of an `F32` as its bits. -/
def Dtype.Exact : Dtype → ℕ → ℕ → Prop
  | f32, src, bits => bits = src
  | f16, src, bits => SameValue (stored src : Half) (stored bits : F32)
  | bf16, src, bits => SameValue (stored src : Brain) (stored bits : F32)

set_option maxRecDepth 4000 in
/-- A `BF16` is the upper half of an `f32`. -/
theorem brain_exact {n : ℕ} (hn : n < 2 ^ 16) : SameValue (stored n : Brain) (stored (n <<< 16) : F32) := by
  have hs : n / 2 ^ 15 ≤ 1 := by omega
  have hbits : n = n / 2 ^ 15 * 2 ^ 15 + n % 2 ^ 15 := by omega
  have hwide : n <<< 16 = n / 2 ^ 15 * 2 ^ 31 + n % 2 ^ 15 * 2 ^ 16 := by
    rw [Nat.shiftLeft_eq]
    omega
  have hbrain := @stored_split ⟨7, 127⟩ (n / 2 ^ 15) (n % 2 ^ 15) hs (by rw [signBit_brain]; omega)
  have hf32 := @stored_split ⟨23, 127⟩ (n / 2 ^ 15) (n % 2 ^ 15 * 2 ^ 16) hs (by rw [signBit_f32]; omega)
  rw [signBit_brain, ← hbits] at hbrain
  rw [signBit_f32, ← hwide] at hf32
  rw [hbrain, hf32]
  generalize n % 2 ^ 15 = low
  obtain hlt | rfl | hgt := Nat.lt_trichotomy low (255 * 2 ^ 7)
  · rw [ofBits_of_lt (magnitudes_brain ▸ hlt), ofBits_of_lt (by rw [magnitudes_f32]; omega)]
    have hunits : units 23 (low * 2 ^ 16) = units 7 low * 2 ^ 16 := by
      simpa only [Nat.zero_mul, Nat.add_zero] using @units_widen 7 low 0 16 (.inr rfl)
    rwa [sameValue_finite unitsPerOne_brain]
  · have htop : 255 * 2 ^ 7 * 2 ^ 16 = 255 * 2 ^ 23 := by norm_num
    have hbrain := @ofBits_infinite ⟨7, 127⟩ (decide (n / 2 ^ 15 = 1))
    have hf32 := @ofBits_infinite ⟨23, 127⟩ (decide (n / 2 ^ 15 = 1))
    rw [magnitudes_brain] at hbrain
    rw [magnitudes_f32] at hf32
    rw [htop, hbrain, hf32]
    exact rfl
  · rw [ofBits_of_gt (magnitudes_brain ▸ hgt), ofBits_of_gt (by rw [magnitudes_f32]; omega)]
    exact trivial

/-- One element is exact, unless it is a subnormal half. -/
theorem decodeElement_exact_iff (d : Dtype) {b : List UInt8} (hb : b.length = d.size) :
    d.Exact (fromLeBytes b) (d.decodeElement b) ↔ ¬ (d = .f16 ∧ Subnormal (fromLeBytes b)) := by
  have hlt := fromLeBytes_lt b
  cases d with
  | f32 => exact ⟨fun _ h => absurd h.1 (by decide), fun _ => rfl⟩
  | f16 =>
    rw [hb] at hlt
    constructor
    · exact fun hexact hsub => f16ToF32_subnormal hlt hsub.2 hexact
    · exact fun hsub => f16ToF32_exact hlt fun h => hsub ⟨rfl, h⟩
  | bf16 =>
    rw [hb] at hlt
    exact ⟨fun _ h => absurd h.1 (by decide), fun _ => brain_exact hlt⟩

/-- Whole elements are decoded, each to one value. -/
theorem decode_eq_ok {d : Dtype} {bytes : List UInt8} (h : d.size ∣ bytes.length) :
    d.decode bytes = .ok ((List.range (bytes.length / d.size)).map fun i => d.decodeElement (d.slice bytes i)) :=
  if_neg (not_not.mpr (Nat.mod_eq_zero_of_dvd h))

theorem length_slice {d : Dtype} {bytes : List UInt8} {i : ℕ} (h : i < bytes.length / d.size) :
    (d.slice bytes i).length = d.size := by
  have hle : (i + 1) * d.size ≤ bytes.length :=
    (Nat.mul_le_mul_right _ (Nat.succ_le_of_lt h)).trans (Nat.div_mul_le_self _ _)
  rw [Nat.add_mul] at hle
  unfold Dtype.slice
  rw [List.length_take, List.length_drop]
  omega

/-- **When decoding is exact.** Bytes of whole elements are decoded to one
`f32` for each, and all of them are exact exactly if none is a subnormal half. -/
theorem decode_exact_iff (d : Dtype) (bytes : List UInt8) (h : d.size ∣ bytes.length) :
    ∃ out, d.decode bytes = .ok out ∧ out.length = bytes.length / d.size ∧
      ((∀ i bits, out[i]? = some bits → d.Exact (fromLeBytes (d.slice bytes i)) bits) ↔
        ¬ (d = .f16 ∧ ∃ i < bytes.length / d.size, Subnormal (fromLeBytes (d.slice bytes i)))) := by
  refine ⟨_, decode_eq_ok h, by rw [List.length_map, List.length_range], ?_⟩
  have hget : ∀ i bits, ((List.range (bytes.length / d.size)).map fun i => d.decodeElement (d.slice bytes i))[i]? =
      some bits ↔ i < bytes.length / d.size ∧ d.decodeElement (d.slice bytes i) = bits := by
    intro i bits
    rw [List.getElem?_map, Option.map_eq_some_iff]
    simp only [List.getElem?_eq_some_iff, List.length_range, List.getElem_range]
    constructor
    · rintro ⟨_, ⟨hi, rfl⟩, hbits⟩
      exact ⟨hi, hbits⟩
    · exact fun ⟨hi, hbits⟩ => ⟨i, ⟨hi, rfl⟩, hbits⟩
  simp only [hget]
  constructor
  · rintro hexact ⟨hd, i, hi, hsub⟩
    exact (decodeElement_exact_iff d (length_slice hi)).mp (hexact i _ ⟨hi, rfl⟩) ⟨hd, hsub⟩
  · rintro hnone i bits ⟨hi, rfl⟩
    exact (decodeElement_exact_iff d (length_slice hi)).mpr fun hsub => hnone ⟨hsub.1, i, hi, hsub.2⟩

/-- One and minus infinity, as halves. -/
theorem decode_exact_iff_one : ∃ out, Dtype.f16.decode [0x00, 0x3c, 0x00, 0xfc] = .ok out ∧
    ∀ i bits, out[i]? = some bits → Dtype.f16.Exact (fromLeBytes (Dtype.f16.slice [0x00, 0x3c, 0x00, 0xfc] i)) bits := by
  obtain ⟨out, hout, -, hexact⟩ := decode_exact_iff .f16 [0x00, 0x3c, 0x00, 0xfc] (by decide)
  refine ⟨out, hout, hexact.mpr ?_⟩
  rintro ⟨-, hsub⟩
  exact absurd hsub (by decide)

/-- The least half is read as a number that is no half. -/
theorem subnormal_not_decoded : ¬ ∀ (d : Dtype) (bytes : List UInt8), d.size ∣ bytes.length →
    ∃ out, d.decode bytes = .ok out ∧ out.length = bytes.length / d.size ∧
      ∀ i bits, out[i]? = some bits → d.Exact (fromLeBytes (d.slice bytes i)) bits := by
  intro h
  obtain ⟨out, hout, -, hexact⟩ := h .f16 [0x01, 0x00] (by decide)
  obtain rfl : out = [f16ToF32 1] := (Except.ok.inj hout).symm
  exact f16ToF32_subnormal (by decide) (by decide) (hexact 0 _ rfl)

end Safetensors
end Qwen
end Siphon
