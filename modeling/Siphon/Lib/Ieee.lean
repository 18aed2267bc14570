/-
# Binary floating point

A number of a binary interchange format by its sign and the bits below it,
which count the magnitudes in increasing order; its arithmetic, exact over the
rationals and then rounded to the nearest number, ties to the even one; and
the order, in which `nan` is related to nothing and the two zeros are equal.

Every finite magnitude is a whole number of units, a unit being the least
subnormal number. What is proved is that rounding keeps the order
(`roundKey_mono`), and with it the operations that are monotone over the
rationals (`add_le_add_left`, `mul_le_mul_right`, `div_le_div_right`,
`convert_le_convert`), that a difference is zero between equal numbers only
(`abs_sub_feq_zero`), and that a factor below one by enough gives no more of a
whole number than there is (`toRat_mul_ofNat_le`).

Key definitions: `Ieee`, `Ieee.key`, `Ieee.ofRat`.
Key theorems: `Ieee.nearestBits_mono`, `Ieee.roundKey_mono`.
-/
import Mathlib.Algebra.Order.Floor.Semiring
import Mathlib.Data.Rat.Floor
import Mathlib.Tactic.Linarith
import Mathlib.Tactic.Positivity
import Mathlib.Tactic.FieldSimp
import Mathlib.Tactic.Ring

namespace Ieee

/-- A format: the bits of the significand below the leading one, and the bias
of the exponents. -/
structure Format where
  mantissa : ℕ
  bias : ℕ

/-- How many finite magnitudes there are: the bits of infinity. -/
def Format.magnitudes (f : Format) : ℕ := (2 * f.bias + 1) * 2 ^ f.mantissa

/-- How many units make one. -/
def Format.unitsPerOne (f : Format) : ℕ := 2 ^ (f.bias - 1 + f.mantissa)

end Ieee

/-- A number of the format. -/
inductive Ieee (f : Ieee.Format) where
  | finite (neg : Bool) (bits : Fin f.magnitudes)
  | infinite (neg : Bool)
  | nan
  deriving DecidableEq

namespace Ieee

/-- `f32` -/
abbrev F32 := Ieee ⟨23, 127⟩

/-- `f64` -/
abbrev F64 := Ieee ⟨52, 1023⟩

/-! ### Magnitudes in units -/

section Units

/-- The units of a magnitude with `m` bits below the leading one. -/
def units (m bits : ℕ) : ℕ := (bits - (bits / 2 ^ m - 1) * 2 ^ m) * 2 ^ (bits / 2 ^ m - 1)

/-- The whole number nearest to `x`, the even one of two. -/
def roundHalfEven (x : ℚ) : ℕ :=
  if x - ⌊x⌋₊ < 1 / 2 ∨ (x - ⌊x⌋₊ = 1 / 2 ∧ ⌊x⌋₊ % 2 = 0) then ⌊x⌋₊ else ⌊x⌋₊ + 1

/-- How many of the last bits of `x` units fall away. -/
def dropped (m : ℕ) (x : ℚ) : ℕ := Nat.log2 ⌊x⌋₊ - m

/-- The magnitude nearest to `x` units, without a bound. -/
def nearestBits (m : ℕ) (x : ℚ) : ℕ :=
  dropped m x * 2 ^ m + roundHalfEven (x / 2 ^ dropped m x)

theorem units_mono (m : ℕ) {a b : ℕ} (h : a < b) : units m a < units m b := by
  have hm : 0 < 2 ^ m := Nat.two_pow_pos m
  have ha := Nat.div_add_mod a (2 ^ m)
  have hb := Nat.div_add_mod b (2 ^ m)
  have hal := Nat.mod_lt a hm
  have hd : a / 2 ^ m ≤ b / 2 ^ m := Nat.div_le_div_right h.le
  unfold units
  generalize a / 2 ^ m = i at *
  generalize b / 2 ^ m = j at *
  rw [Nat.mul_comm] at ha hb
  rcases eq_or_lt_of_le (Nat.sub_le_sub_right hd 1) with he | hlt
  · rw [he]
    have hj : (j - 1) * 2 ^ m ≤ a := by
      calc (j - 1) * 2 ^ m = (i - 1) * 2 ^ m := by rw [he]
        _ ≤ i * 2 ^ m := Nat.mul_le_mul_right _ (Nat.sub_le _ _)
        _ ≤ a := by omega
    exact Nat.mul_lt_mul_of_pos_right (by omega) (Nat.two_pow_pos _)
  · -- the greater one has the leading one, in a higher binade
    have hlow : a - (i - 1) * 2 ^ m < 2 * 2 ^ m := by
      rcases Nat.eq_zero_or_pos i with rfl | hi
      · omega
      · have : i * 2 ^ m = (i - 1) * 2 ^ m + 2 ^ m := by
          rw [← Nat.succ_mul, Nat.succ_eq_add_one, Nat.sub_add_cancel hi]
        omega
    have hhigh : 2 ^ m ≤ b - (j - 1) * 2 ^ m := by
      have : j * 2 ^ m = (j - 1) * 2 ^ m + 2 ^ m := by
        rw [← Nat.succ_mul, Nat.succ_eq_add_one, Nat.sub_add_cancel (by omega)]
      omega
    calc (a - (i - 1) * 2 ^ m) * 2 ^ (i - 1) < 2 * 2 ^ m * 2 ^ (i - 1) :=
          Nat.mul_lt_mul_of_pos_right hlow (Nat.two_pow_pos _)
      _ = 2 ^ m * 2 ^ (i - 1 + 1) := by rw [Nat.pow_succ]; ring
      _ ≤ 2 ^ m * 2 ^ (j - 1) := Nat.mul_le_mul_left _ (Nat.pow_le_pow_right two_pos hlt)
      _ ≤ (b - (j - 1) * 2 ^ m) * 2 ^ (j - 1) := Nat.mul_le_mul_right _ hhigh

theorem units_le (m : ℕ) {a b : ℕ} : units m a ≤ units m b ↔ a ≤ b := by
  constructor
  · intro h
    by_contra hc
    exact absurd (units_mono m (not_le.mp hc)) (not_lt.mpr h)
  · intro h
    rcases eq_or_lt_of_le h with rfl | hl
    · exact le_refl _
    · exact (units_mono m hl).le

@[simp]
theorem units_zero (m : ℕ) : units m 0 = 0 := by simp [units]

/-! ### The nearest magnitude -/

theorem floor_le_roundHalfEven (x : ℚ) : ⌊x⌋₊ ≤ roundHalfEven x := by
  unfold roundHalfEven
  split <;> omega

theorem roundHalfEven_le_floor (x : ℚ) : roundHalfEven x ≤ ⌊x⌋₊ + 1 := by
  unfold roundHalfEven
  split <;> omega

theorem roundHalfEven_mono {x y : ℚ} (h : x ≤ y) : roundHalfEven x ≤ roundHalfEven y := by
  rcases eq_or_lt_of_le (Nat.floor_mono h) with he | hl
  · unfold roundHalfEven
    rw [he]
    split
    · split <;> omega
    · rename_i hx
      rw [if_neg]
      · rintro (hy | ⟨hy, hev⟩)
        · exact hx (.inl (by linarith))
        · rcases eq_or_lt_of_le h with rfl | hlt
          · exact hx (.inr ⟨hy, hev⟩)
          · exact hx (.inl (by linarith))
  · calc roundHalfEven x ≤ ⌊x⌋₊ + 1 := roundHalfEven_le_floor x
      _ ≤ ⌊y⌋₊ := hl
      _ ≤ roundHalfEven y := floor_le_roundHalfEven y

@[simp]
theorem roundHalfEven_natCast (n : ℕ) : roundHalfEven n = n := by
  unfold roundHalfEven
  rw [Nat.floor_natCast]
  simp

theorem roundHalfEven_le {x : ℚ} {n : ℕ} (h : x ≤ n) : roundHalfEven x ≤ n := by
  simpa using roundHalfEven_mono h

theorem le_roundHalfEven {x : ℚ} {n : ℕ} (h : (n : ℚ) ≤ x) : n ≤ roundHalfEven x := by
  simpa using roundHalfEven_mono h

theorem div_pow_dropped_lt (m : ℕ) (x : ℚ) : x / 2 ^ dropped m x < 2 ^ (m + 1) := by
  have hx : x < (2 ^ (Nat.log2 ⌊x⌋₊ + 1) : ℕ) := by
    calc x < ⌊x⌋₊ + 1 := Nat.lt_floor_add_one x
      _ ≤ (2 ^ (Nat.log2 ⌊x⌋₊ + 1) : ℕ) := by exact_mod_cast Nat.lt_log2_self
  rw [div_lt_iff₀ (by positivity), ← pow_add]
  refine lt_of_lt_of_le hx ?_
  push_cast
  refine pow_le_pow_right₀ (by norm_num) ?_
  unfold dropped
  omega

theorem le_div_pow_dropped {m : ℕ} {x : ℚ} (h : 0 < dropped m x) : (2 : ℚ) ^ m ≤ x / 2 ^ dropped m x := by
  have hf : ⌊x⌋₊ ≠ 0 := by
    intro h0
    simp [dropped, h0] at h
  have hx : ((2 ^ Nat.log2 ⌊x⌋₊ : ℕ) : ℚ) ≤ x := by
    have h1 : ((2 ^ Nat.log2 ⌊x⌋₊ : ℕ) : ℚ) ≤ ⌊x⌋₊ := by exact_mod_cast Nat.log2_self_le hf
    exact h1.trans ((Nat.le_floor_iff' hf).mp (le_refl _))
  rw [le_div_iff₀ (by positivity), ← pow_add]
  refine le_trans (le_of_eq ?_) hx
  push_cast
  congr 1
  unfold dropped at h ⊢
  omega

theorem dropped_mono (m : ℕ) {x y : ℚ} (h : x ≤ y) : dropped m x ≤ dropped m y := by
  refine Nat.sub_le_sub_right ?_ m
  have hf : ⌊x⌋₊ ≤ ⌊y⌋₊ := Nat.floor_mono h
  rcases Nat.eq_zero_or_pos ⌊x⌋₊ with h0 | h0
  · rw [h0, Nat.log2_zero]
    exact Nat.zero_le _
  · exact (Nat.le_log2 (by omega)).mpr ((Nat.log2_self_le (by omega)).trans hf)

/-- Rounding keeps the order. -/
theorem nearestBits_mono (m : ℕ) {x y : ℚ} (h : x ≤ y) : nearestBits m x ≤ nearestBits m y := by
  rcases eq_or_lt_of_le (dropped_mono m h) with he | hl
  · unfold nearestBits
    rw [he]
    exact Nat.add_le_add_left (roundHalfEven_mono (by gcongr)) _
  · have hx : roundHalfEven (x / 2 ^ dropped m x) ≤ 2 ^ (m + 1) :=
      roundHalfEven_le (by exact_mod_cast (div_pow_dropped_lt m x).le)
    have hy : 2 ^ m ≤ roundHalfEven (y / 2 ^ dropped m y) :=
      le_roundHalfEven (by exact_mod_cast le_div_pow_dropped (by omega))
    calc nearestBits m x ≤ dropped m x * 2 ^ m + 2 ^ (m + 1) := Nat.add_le_add_left hx _
      _ = (dropped m x + 1) * 2 ^ m + 2 ^ m := by ring
      _ ≤ dropped m y * 2 ^ m + roundHalfEven (y / 2 ^ dropped m y) :=
        Nat.add_le_add (Nat.mul_le_mul_right _ hl) hy

@[simp]
theorem nearestBits_zero (m : ℕ) : nearestBits m 0 = 0 := by
  have h := roundHalfEven_natCast 0
  simp only [Nat.cast_zero] at h
  simp [nearestBits, dropped, h]

theorem one_le_nearestBits (m : ℕ) {x : ℚ} (h : 1 ≤ x) : 1 ≤ nearestBits m x := by
  have h1 : nearestBits m 1 = 1 := by
    have h := roundHalfEven_natCast 1
    simp only [Nat.cast_one] at h
    have hl : Nat.log2 1 = 0 := by decide
    simp [nearestBits, dropped, h, hl]
  calc 1 = nearestBits m 1 := h1.symm
    _ ≤ nearestBits m x := nearestBits_mono m h

end Units

/-! ### Numbers and their order -/

section Order

variable {f : Format}

/-- Where a number stands in the order; the two zeros stand together. -/
def key : Ieee f → ℤ
  | finite false b => b.val
  | finite true b => -b.val
  | infinite false => f.magnitudes
  | infinite true => -f.magnitudes
  | nan => 0

/-- `<` -/
instance : LT (Ieee f) := ⟨fun x y => x ≠ nan ∧ y ≠ nan ∧ key x < key y⟩

/-- `<=` -/
instance : LE (Ieee f) := ⟨fun x y => x ≠ nan ∧ y ≠ nan ∧ key x ≤ key y⟩

instance (x y : Ieee f) : Decidable (x < y) := inferInstanceAs (Decidable (_ ∧ _ ∧ _))

instance (x y : Ieee f) : Decidable (x ≤ y) := inferInstanceAs (Decidable (_ ∧ _ ∧ _))

/-- `==` -/
def Feq (x y : Ieee f) : Prop := x ≠ nan ∧ y ≠ nan ∧ key x = key y

instance (x y : Ieee f) : Decidable (Feq x y) := inferInstanceAs (Decidable (_ ∧ _ ∧ _))

/-- `is_finite` -/
def isFinite : Ieee f → Bool
  | finite _ _ => true
  | _ => false

/-- The number with a sign and the bits below it. -/
def ofBits (neg : Bool) (bits : ℕ) : Ieee f :=
  if h : bits < f.magnitudes then finite neg ⟨bits, h⟩
  else if bits = f.magnitudes then infinite neg else nan

/-- The positive zero. -/
def zero : Ieee f := finite false ⟨0, by unfold Format.magnitudes; positivity⟩

theorem lt_def {x y : Ieee f} : x < y ↔ x ≠ nan ∧ y ≠ nan ∧ key x < key y := Iff.rfl

@[simp]
theorem key_zero : key (zero : Ieee f) = 0 := rfl

theorem zero_ne_nan : (zero : Ieee f) ≠ nan := nofun

theorem ne_nan_of_isFinite {x : Ieee f} (h : x.isFinite) : x ≠ nan := by
  rintro rfl
  cases h

theorem le_self {x : Ieee f} (h : x ≠ nan) : x ≤ x := ⟨h, h, Int.le_refl _⟩

theorem le_of_lt' {x y : Ieee f} (h : x < y) : x ≤ y := ⟨h.1, h.2.1, h.2.2.le⟩

theorem le_chain {x y z : Ieee f} (h : x ≤ y) (h' : y ≤ z) : x ≤ z := ⟨h.1, h'.2.1, h.2.2.trans h'.2.2⟩

theorem lt_of_lt_of_le' {x y z : Ieee f} (h : x < y) (h' : y ≤ z) : x < z :=
  ⟨h.1, h'.2.1, h.2.2.trans_le h'.2.2⟩

theorem lt_of_le_of_lt' {x y z : Ieee f} (h : x ≤ y) (h' : y < z) : x < z :=
  ⟨h.1, h'.2.1, h.2.2.trans_lt h'.2.2⟩

theorem not_lt_of_le {x y : Ieee f} (h : x ≤ y) : ¬ y < x := fun h' => absurd h.2.2 (not_le.mpr h'.2.2)

theorem le_of_not_lt' {x y : Ieee f} (hx : x ≠ nan) (hy : y ≠ nan) (h : ¬ y < x) : x ≤ y :=
  ⟨hx, hy, not_lt.mp fun hk => h ⟨hy, hx, hk⟩⟩

theorem key_le (x : Ieee f) : key x ≤ f.magnitudes := by
  cases x with
  | finite neg b => cases neg <;> simp only [key] <;> omega
  | infinite neg => cases neg <;> simp only [key] <;> omega
  | nan => simp only [key]; omega

theorem neg_le_key (x : Ieee f) : -(f.magnitudes : ℤ) ≤ key x := by
  cases x with
  | finite neg b => cases neg <;> simp only [key] <;> omega
  | infinite neg => cases neg <;> simp only [key] <;> omega
  | nan => simp only [key]; omega

end Order

/-! ### Values and rounding -/

section Values

variable {f : Format}

theorem unitsPerOne_pos : (0 : ℚ) < f.unitsPerOne := by
  unfold Format.unitsPerOne
  positivity

/-- The value of a finite number. -/
def toRat : Ieee f → ℚ
  | finite false b => units f.mantissa b / f.unitsPerOne
  | finite true b => -(units f.mantissa b / f.unitsPerOne)
  | _ => 0

/-- The number nearest to a magnitude, with a sign. -/
def ofRat (neg : Bool) (q : ℚ) : Ieee f :=
  if h : nearestBits f.mantissa (|q| * f.unitsPerOne) < f.magnitudes then finite neg ⟨_, h⟩
  else infinite neg

/-- The magnitude nearest to `q`, or infinity. -/
def magnitude (f : Format) (q : ℚ) : ℕ := min (nearestBits f.mantissa (|q| * f.unitsPerOne)) f.magnitudes

/-- Where the number nearest to `q` stands. -/
def roundKey (f : Format) (q : ℚ) : ℤ := if q < 0 then -magnitude f q else magnitude f q

theorem magnitude_mono {p q : ℚ} (h : |p| ≤ |q|) : magnitude f p ≤ magnitude f q :=
  min_le_min_right _ (nearestBits_mono f.mantissa (mul_le_mul_of_nonneg_right h unitsPerOne_pos.le))

theorem roundKey_mono {p q : ℚ} (h : p ≤ q) : roundKey f p ≤ roundKey f q := by
  unfold roundKey
  by_cases hp : p < 0
  · rw [if_pos hp]
    by_cases hq : q < 0
    · rw [if_pos hq]
      have : magnitude f q ≤ magnitude f p :=
        magnitude_mono (by rw [abs_of_neg hp, abs_of_neg hq]; linarith)
      omega
    · rw [if_neg hq]
      omega
  · have h0 : 0 ≤ p := not_lt.mp hp
    rw [if_neg hp, if_neg (not_lt.mpr (h0.trans h))]
    have : magnitude f p ≤ magnitude f q :=
      magnitude_mono (by rw [abs_of_nonneg h0, abs_of_nonneg (h0.trans h)]; exact h)
    omega

@[simp]
theorem roundKey_zero : roundKey f 0 = 0 := by simp [roundKey, magnitude]

theorem key_ofRat {neg : Bool} {q : ℚ} (h : q ≠ 0 → neg = decide (q < 0)) :
    key (ofRat neg q : Ieee f) = roundKey f q := by
  by_cases hq : q = 0
  · subst hq
    have hpos : 0 < f.magnitudes := by unfold Format.magnitudes; positivity
    cases neg <;> simp [ofRat, key, hpos]
  · rw [h hq]
    unfold ofRat roundKey magnitude
    by_cases hb : nearestBits f.mantissa (|q| * f.unitsPerOne) < f.magnitudes
    · rw [dif_pos hb]
      by_cases hn : q < 0 <;> simp only [hn, decide_true, decide_false, if_true, if_false, key] <;> omega
    · rw [dif_neg hb]
      by_cases hn : q < 0 <;> simp only [hn, decide_true, decide_false, if_true, if_false, key] <;> omega

theorem ofRat_ne_nan (neg : Bool) (q : ℚ) : (ofRat neg q : Ieee f) ≠ nan := by
  unfold ofRat
  split <;> nofun

theorem toRat_le_toRat {x y : Ieee f} (hx : x.isFinite) (hy : y.isFinite) :
    toRat x ≤ toRat y ↔ key x ≤ key y := by
  have hu := unitsPerOne_pos (f := f)
  have hpos : ∀ b : ℕ, (0 : ℚ) ≤ units f.mantissa b / f.unitsPerOne := fun b => by positivity
  have hle : ∀ a b : ℕ,
      (units f.mantissa a : ℚ) / f.unitsPerOne ≤ units f.mantissa b / f.unitsPerOne ↔ a ≤ b := by
    intro a b
    rw [div_le_div_iff_of_pos_right hu, Nat.cast_le, units_le]
  have hzero : ∀ a : ℕ, (units f.mantissa a : ℚ) / f.unitsPerOne ≤ 0 ↔ a ≤ 0 := by
    intro a
    simpa using hle a 0
  cases x with
  | nan => cases hx
  | infinite n => cases hx
  | finite n a =>
    cases y with
    | nan => cases hy
    | infinite n' => cases hy
    | finite n' b =>
      cases n <;> cases n' <;> simp only [toRat, key]
      · rw [hle]
        omega
      · have h1 := hpos b
        have h2 := hpos a
        constructor
        · intro h
          have := (hzero a).mp (by linarith)
          have := (hzero b).mp (by linarith)
          omega
        · intro h
          have := (hzero a).mpr (by omega)
          have := (hzero b).mpr (by omega)
          linarith
      · have h1 := hpos b
        have h2 := hpos a
        exact ⟨fun _ => by omega, fun _ => by linarith⟩
      · rw [neg_le_neg_iff, hle]
        omega

theorem toRat_eq_toRat {x y : Ieee f} (hx : x.isFinite) (hy : y.isFinite) :
    toRat x = toRat y ↔ key x = key y := by
  rw [le_antisymm_iff, toRat_le_toRat hx hy, toRat_le_toRat hy hx, ← le_antisymm_iff]

@[simp]
theorem toRat_zero : toRat (zero : Ieee f) = 0 := by simp [toRat, zero]

end Values

/-! ### Arithmetic -/

section Arithmetic

variable {f : Format}

/-- `-x` -/
def neg : Ieee f → Ieee f
  | finite n b => finite (!n) b
  | infinite n => infinite (!n)
  | nan => nan

/-- `abs` -/
def abs : Ieee f → Ieee f
  | finite _ b => finite false b
  | infinite _ => infinite false
  | nan => nan

/-- `x + y` -/
def add : Ieee f → Ieee f → Ieee f
  | finite n a, finite n' b =>
    let q := toRat (finite n a) + toRat (finite n' b)
    ofRat (if q = 0 then n && n' else decide (q < 0)) q
  | infinite n, infinite n' => if n = n' then infinite n else nan
  | infinite n, finite _ _ => infinite n
  | finite _ _, infinite n => infinite n
  | nan, _ => nan
  | _, nan => nan

/-- `x - y` -/
def sub (x y : Ieee f) : Ieee f := add x (neg y)

/-- `x * y` -/
def mul : Ieee f → Ieee f → Ieee f
  | finite n a, finite n' b => ofRat (n ^^ n') (toRat (finite n a) * toRat (finite n' b))
  | infinite n, infinite n' => infinite (n ^^ n')
  | infinite n, finite n' b => if b.val = 0 then nan else infinite (n ^^ n')
  | finite n a, infinite n' => if a.val = 0 then nan else infinite (n ^^ n')
  | nan, _ => nan
  | _, nan => nan

/-- `x / y` -/
def div : Ieee f → Ieee f → Ieee f
  | finite n a, finite n' b =>
    if b.val = 0 then if a.val = 0 then nan else infinite (n ^^ n')
    else ofRat (n ^^ n') (toRat (finite n a) / toRat (finite n' b))
  | infinite _, infinite _ => nan
  | infinite n, finite n' _ => infinite (n ^^ n')
  | finite n _, infinite n' => finite (n ^^ n') ⟨0, by unfold Format.magnitudes; positivity⟩
  | nan, _ => nan
  | _, nan => nan

/-- `x.max(y)`: of a number and `nan` the number -/
def max (x y : Ieee f) : Ieee f :=
  if x = nan then y else if y = nan then x else if x < y then y else x

/-- `x as` the other format -/
def convert (g : Format) : Ieee f → Ieee g
  | finite n a => ofRat n (toRat (finite n a))
  | infinite n => infinite n
  | nan => nan

/-- `n as` the format -/
def ofNat (n : ℕ) : Ieee f := ofRat false n

theorem toRat_finite (n : Bool) (a : Fin f.magnitudes) :
    toRat (finite n a) = (if n then -1 else 1) * ((units f.mantissa a : ℚ) / f.unitsPerOne) := by
  cases n <;> simp [toRat]

theorem units_pos {a : ℕ} (m : ℕ) (h : a ≠ 0) : 0 < units m a := by
  simpa using units_mono m (Nat.pos_of_ne_zero h)

theorem toRat_finite_pos {a : Fin f.magnitudes} (h : a.val ≠ 0) :
    (0 : ℚ) < (units f.mantissa a : ℚ) / f.unitsPerOne :=
  div_pos (by exact_mod_cast units_pos f.mantissa h) unitsPerOne_pos

theorem key_add {x y : Ieee f} (hx : x.isFinite) (hy : y.isFinite) :
    key (add x y) = roundKey f (toRat x + toRat y) := by
  cases x with
  | nan => cases hx
  | infinite n => cases hx
  | finite n a =>
    cases y with
    | nan => cases hy
    | infinite n' => cases hy
    | finite n' b => exact key_ofRat fun h => if_neg h

theorem key_mul {x y : Ieee f} (hx : x.isFinite) (hy : y.isFinite) :
    key (mul x y) = roundKey f (toRat x * toRat y) := by
  cases x with
  | nan => cases hx
  | infinite n => cases hx
  | finite n a =>
    cases y with
    | nan => cases hy
    | infinite n' => cases hy
    | finite n' b =>
      refine key_ofRat fun h => ?_
      rw [toRat_finite, toRat_finite] at h ⊢
      have hpos : (0 : ℚ) < units f.mantissa a / f.unitsPerOne * (units f.mantissa b / f.unitsPerOne) := by
        refine lt_of_le_of_ne (by positivity) fun h0 => h ?_
        rw [mul_mul_mul_comm, ← h0, mul_zero]
      cases n <;> cases n' <;> simp [hpos.le, hpos]

theorem key_div {x y : Ieee f} (hx : x.isFinite) (hy : y.isFinite) (h0 : key y ≠ 0) :
    key (div x y) = roundKey f (toRat x / toRat y) := by
  cases x with
  | nan => cases hx
  | infinite n => cases hx
  | finite n a =>
    cases y with
    | nan => cases hy
    | infinite n' => cases hy
    | finite n' b =>
      have hb : b.val ≠ 0 := by
        intro hb
        cases n' <;> simp [key, hb] at h0
      have hdiv : div (finite n a) (finite n' b) = ofRat (n ^^ n') (toRat (finite n a) / toRat (finite n' b)) :=
        if_neg hb
      rw [hdiv]
      refine key_ofRat fun h => ?_
      rw [toRat_finite, toRat_finite] at h ⊢
      have hbpos := toRat_finite_pos hb
      have hapos : (0 : ℚ) < units f.mantissa a / f.unitsPerOne := by
        refine lt_of_le_of_ne (by positivity) fun h0 => h ?_
        rw [← h0, mul_zero, zero_div]
      have hpos := div_pos hapos hbpos
      cases n <;> cases n' <;> simp [div_neg, neg_div, hpos.le, hpos]

/-! ### Monotone operations -/

/-- What is rounded is at most the infinity of a sign, and at least the other. -/
theorem le_infinite {x : Ieee f} (h : x ≠ nan) : x ≤ infinite false := ⟨h, nofun, key_le x⟩

theorem infinite_le {x : Ieee f} (h : x ≠ nan) : infinite true ≤ x := ⟨nofun, h, neg_le_key x⟩

theorem add_ne_nan {x y : Ieee f} (hx : x.isFinite) (hy : y ≠ nan) : add x y ≠ nan := by
  cases x with
  | nan => cases hx
  | infinite n => cases hx
  | finite n a =>
    cases y with
    | nan => exact absurd rfl hy
    | infinite n' => nofun
    | finite n' b => exact ofRat_ne_nan _ _

/-- Of two numbers in order, one that is not finite is the infinity on its side. -/
theorem finite_or_infinite_of_le {x y : Ieee f} (h : x ≤ y) :
    x = infinite true ∨ y = infinite false ∨ (x.isFinite ∧ y.isFinite) := by
  obtain ⟨hx, hy, hk⟩ := h
  have hb : ∀ b : Fin f.magnitudes, (b.val : ℤ) < f.magnitudes := fun b => by exact_mod_cast b.isLt
  cases x with
  | nan => exact absurd rfl hx
  | infinite n =>
    cases n with
    | true => exact .inl rfl
    | false =>
      cases y with
      | nan => exact absurd rfl hy
      | infinite n' =>
        cases n' with
        | false => exact .inr (.inl rfl)
        | true =>
          have hpos : 0 < f.magnitudes := by unfold Format.magnitudes; positivity
          simp only [key] at hk
          omega
      | finite n' b =>
        have := hb b
        cases n' <;> simp only [key] at hk <;> omega
  | finite n a =>
    cases y with
    | nan => exact absurd rfl hy
    | finite n' b => exact .inr (.inr ⟨rfl, rfl⟩)
    | infinite n' =>
      cases n' with
      | false => exact .inr (.inl rfl)
      | true =>
        have := hb a
        cases n <;> simp only [key] at hk <;> omega

theorem add_le_add_left {x y c : Ieee f} (hc : c.isFinite) (h : x ≤ y) : add c x ≤ add c y := by
  have hx := add_ne_nan hc h.1
  have hy := add_ne_nan hc h.2.1
  obtain ⟨n, a, rfl⟩ : ∃ n a, c = finite n a := by
    cases c with
    | finite n a => exact ⟨n, a, rfl⟩
    | infinite n => cases hc
    | nan => cases hc
  rcases finite_or_infinite_of_le h with rfl | rfl | ⟨hxf, hyf⟩
  · exact infinite_le hy
  · exact le_infinite hx
  · refine ⟨hx, hy, ?_⟩
    rw [key_add rfl hxf, key_add rfl hyf]
    exact roundKey_mono (add_le_add (le_refl _) ((toRat_le_toRat hxf hyf).mpr h.2.2))

theorem toRat_pos {c : Ieee f} (hc : c.isFinite) (h0 : 0 < key c) : 0 < toRat c := by
  rw [← not_le, ← toRat_zero (f := f), toRat_le_toRat hc rfl, key_zero]
  omega

theorem mul_ne_nan {x c : Ieee f} (hx : x ≠ nan) (hc : c.isFinite) (h0 : 0 < key c) : mul x c ≠ nan := by
  cases c with
  | nan => cases hc
  | infinite n => cases hc
  | finite n b =>
    have hb : b.val ≠ 0 := by
      intro hb
      cases n <;> simp [key, hb] at h0
    cases x with
    | nan => exact absurd rfl hx
    | infinite n' =>
      rw [show mul (infinite n') (finite n b) = infinite (n' ^^ n) from if_neg hb]
      nofun
    | finite n' a => exact ofRat_ne_nan _ _

theorem mul_infinite {n : Bool} {c : Ieee f} (hc : c.isFinite) (h0 : 0 < key c) :
    mul (infinite n) c = infinite n := by
  cases c with
  | nan => cases hc
  | infinite n => cases hc
  | finite n' b =>
    cases n' with
    | true => simp only [key] at h0; omega
    | false =>
      have hb : b.val ≠ 0 := by
        intro hb
        simp [key, hb] at h0
      rw [show mul (infinite n) (finite false b) = infinite (n ^^ false) from if_neg hb, Bool.xor_false]

theorem mul_le_mul_right {x y c : Ieee f} (hc : c.isFinite) (h0 : 0 < key c) (h : x ≤ y) : mul x c ≤ mul y c := by
  have hx := mul_ne_nan h.1 hc h0
  have hy := mul_ne_nan h.2.1 hc h0
  rcases finite_or_infinite_of_le h with rfl | rfl | ⟨hxf, hyf⟩
  · rw [mul_infinite hc h0]
    exact infinite_le hy
  · rw [mul_infinite hc h0]
    exact le_infinite hx
  · refine ⟨hx, hy, ?_⟩
    rw [key_mul hxf hc, key_mul hyf hc]
    exact roundKey_mono
      (mul_le_mul_of_nonneg_right ((toRat_le_toRat hxf hyf).mpr h.2.2) (toRat_pos hc h0).le)

theorem div_ne_nan {x c : Ieee f} (hx : x ≠ nan) (hc : c.isFinite) (h0 : key x ≠ 0 ∨ key c ≠ 0) :
    div x c ≠ nan := by
  have hkey : ∀ {n : Bool} {b : Fin f.magnitudes}, key (finite n b) ≠ 0 → b.val ≠ 0 := by
    intro n b h hb
    cases n <;> simp [key, hb] at h
  cases c with
  | nan => cases hc
  | infinite n => cases hc
  | finite n b =>
    cases x with
    | nan => exact absurd rfl hx
    | infinite n' => nofun
    | finite n' a =>
      unfold div
      dsimp only
      by_cases hb : b.val = 0
      · have ha : a.val ≠ 0 := hkey (h0.resolve_right fun h => hkey h hb)
        rw [if_pos hb, if_neg ha]
        nofun
      · rw [if_neg hb]
        exact ofRat_ne_nan _ _

theorem div_infinite {n : Bool} {c : Ieee f} (hc : c.isFinite) (h0 : 0 < key c) :
    div (infinite n) c = infinite n := by
  cases c with
  | nan => cases hc
  | infinite n => cases hc
  | finite n' b =>
    cases n' with
    | true => simp only [key] at h0; omega
    | false => rw [show div (infinite n) (finite false b) = infinite (n ^^ false) from rfl, Bool.xor_false]

theorem key_zero_div {c : Ieee f} (h : zero < c) : key (div zero c) = 0 := by
  cases c with
  | nan => exact absurd rfl h.2.1
  | infinite n => cases n <;> rfl
  | finite n b =>
    rw [key_div rfl rfl (Int.ne_of_gt h.2.2), toRat_zero, zero_div, roundKey_zero]

theorem div_le_div_right {x y c : Ieee f} (hc : c.isFinite) (h0 : 0 < key c) (h : x ≤ y) : div x c ≤ div y c := by
  have hx := div_ne_nan h.1 hc (.inr h0.ne')
  have hy := div_ne_nan h.2.1 hc (.inr h0.ne')
  rcases finite_or_infinite_of_le h with rfl | rfl | ⟨hxf, hyf⟩
  · rw [div_infinite hc h0]
    exact infinite_le hy
  · rw [div_infinite hc h0]
    exact le_infinite hx
  · refine ⟨hx, hy, ?_⟩
    rw [key_div hxf hc h0.ne', key_div hyf hc h0.ne']
    exact roundKey_mono (div_le_div_of_nonneg_right ((toRat_le_toRat hxf hyf).mpr h.2.2) (toRat_pos hc h0).le)

theorem convert_ne_nan (g : Format) {x : Ieee f} (h : x ≠ nan) : convert g x ≠ nan := by
  cases x with
  | nan => exact absurd rfl h
  | infinite n => nofun
  | finite n a => exact ofRat_ne_nan _ _

theorem key_convert (g : Format) {x : Ieee f} (h : x.isFinite) : key (convert g x) = roundKey g (toRat x) := by
  cases x with
  | nan => cases h
  | infinite n => cases h
  | finite n a =>
    refine key_ofRat fun h => ?_
    rw [toRat_finite] at h ⊢
    have hpos : (0 : ℚ) < units f.mantissa a / f.unitsPerOne := by
      refine lt_of_le_of_ne (by positivity) fun h0 => h ?_
      rw [← h0, mul_zero]
    cases n <;> simp [hpos.le, hpos]

theorem convert_le_convert (g : Format) {x y : Ieee f} (h : x ≤ y) : convert g x ≤ convert g y := by
  have hx := convert_ne_nan g h.1
  have hy := convert_ne_nan g h.2.1
  rcases finite_or_infinite_of_le h with rfl | rfl | ⟨hxf, hyf⟩
  · exact infinite_le hy
  · exact le_infinite hx
  · refine ⟨hx, hy, ?_⟩
    rw [key_convert g hxf, key_convert g hyf]
    exact roundKey_mono ((toRat_le_toRat hxf hyf).mpr h.2.2)

theorem ofNat_le_ofNat {m n : ℕ} (h : m ≤ n) : (ofNat m : Ieee f) ≤ ofNat n := by
  refine ⟨ofRat_ne_nan _ _, ofRat_ne_nan _ _, ?_⟩
  have hk : ∀ k : ℕ, key (ofNat k : Ieee f) = roundKey f k :=
    fun k => key_ofRat fun _ => by simp
  rw [hk, hk]
  exact roundKey_mono (by exact_mod_cast h)

/-! ### Differences -/

theorem isFinite_neg {x : Ieee f} : (neg x).isFinite = x.isFinite := by
  cases x <;> rfl

theorem toRat_neg (x : Ieee f) : toRat (neg x) = -toRat x := by
  cases x with
  | nan => simp [neg, toRat]
  | infinite n => simp [neg, toRat]
  | finite n a => cases n <;> simp [neg, toRat]

theorem abs_ne_nan {x : Ieee f} (h : x ≠ nan) : abs x ≠ nan := by
  cases x with
  | nan => exact absurd rfl h
  | infinite n => nofun
  | finite n a => nofun

theorem key_abs (x : Ieee f) : key (abs x) = |key x| := by
  cases x with
  | nan => rfl
  | infinite n => cases n <;> simp [abs, key]
  | finite n a => cases n <;> simp [abs, key]

theorem isFinite_abs {x : Ieee f} : (abs x).isFinite = x.isFinite := by
  cases x <;> rfl

theorem sub_ne_nan {x y : Ieee f} (hx : x.isFinite) (hy : y.isFinite) : sub x y ≠ nan :=
  add_ne_nan hx (ne_nan_of_isFinite (isFinite_neg.trans hy))

/-- The value of a number, in units. -/
theorem toRat_eq_units {x : Ieee f} (h : x.isFinite) : ∃ z : ℤ, toRat x = z / f.unitsPerOne := by
  cases x with
  | nan => cases h
  | infinite n => cases h
  | finite n a =>
    cases n with
    | false => exact ⟨units f.mantissa a, by simp [toRat]⟩
    | true => exact ⟨-units f.mantissa a, by simp [toRat, neg_div]⟩

/-- A whole number of units is not rounded to zero. -/
theorem roundKey_eq_zero {z : ℤ} (h : roundKey f (z / f.unitsPerOne) = 0) : z = 0 := by
  by_contra hz
  have hu := unitsPerOne_pos (f := f)
  have hone : (1 : ℚ) ≤ |(z : ℚ) / f.unitsPerOne| * f.unitsPerOne := by
    rw [abs_div, abs_of_pos hu, div_mul_cancel₀ _ hu.ne', ← Int.cast_abs]
    exact_mod_cast Int.one_le_abs hz
  have hb := one_le_nearestBits f.mantissa hone
  have hpos : 0 < f.magnitudes := by unfold Format.magnitudes; positivity
  unfold roundKey magnitude at h
  split at h <;> omega

/-- A difference is zero between equal numbers only. -/
theorem abs_sub_feq_zero {x y : Ieee f} (hx : x.isFinite) (hy : y.isFinite) :
    Feq (abs (sub x y)) zero ↔ Feq x y := by
  have hny : (neg y).isFinite := isFinite_neg.trans hy
  have hkey : key (abs (sub x y)) = 0 ↔ key x = key y := by
    rw [key_abs, abs_eq_zero, sub, key_add hx hny, toRat_neg, ← toRat_eq_toRat hx hy, ← sub_eq_add_neg]
    constructor
    · intro h
      obtain ⟨i, hi⟩ := toRat_eq_units hx
      obtain ⟨j, hj⟩ := toRat_eq_units hy
      rw [hi, hj, ← sub_div, ← Int.cast_sub] at h
      rw [hi, hj, sub_eq_zero.mp (roundKey_eq_zero h)]
    · intro h
      rw [h, sub_self, roundKey_zero]
  unfold Feq
  rw [key_zero, hkey]
  exact ⟨fun h => ⟨ne_nan_of_isFinite hx, ne_nan_of_isFinite hy, h.2.2⟩,
    fun h => ⟨abs_ne_nan (sub_ne_nan hx hy), zero_ne_nan, h.2.2⟩⟩

/-! ### A share of a whole number -/

/-- A whole number of units that a magnitude has is not rounded. -/
theorem nearestBits_units (m b : ℕ) : nearestBits m (units m b) = b := by
  have hm : 0 < 2 ^ m := Nat.two_pow_pos m
  have hb := Nat.div_add_mod b (2 ^ m)
  have hmod := Nat.mod_lt b hm
  unfold nearestBits dropped
  rw [Nat.floor_natCast]
  unfold units
  generalize b / 2 ^ m = i at *
  rcases Nat.eq_zero_or_pos i with rfl | hi
  · -- a subnormal magnitude is its own number of units
    have hb2 : b < 2 ^ m := by omega
    have hlog : Nat.log2 b - m = 0 := by
      rcases Nat.eq_zero_or_pos b with rfl | h0
      · simp
      · have := (Nat.log2_lt h0.ne').mpr hb2
        omega
    simp [hlog]
  · obtain ⟨e, rfl⟩ : ∃ e, i = e + 1 := ⟨i - 1, by omega⟩
    rw [Nat.add_sub_cancel]
    have hsplit : b = e * 2 ^ m + (2 ^ m + b % 2 ^ m) := by
      rw [← Nat.add_assoc, ← Nat.succ_mul, Nat.succ_eq_add_one, Nat.mul_comm]
      exact hb.symm
    have hsig : b - e * 2 ^ m = 2 ^ m + b % 2 ^ m := by omega
    rw [hsig]
    generalize b % 2 ^ m = r at *
    have hlog : Nat.log2 ((2 ^ m + r) * 2 ^ e) = m + e := by
      have hne : (2 ^ m + r) * 2 ^ e ≠ 0 := (Nat.mul_pos (by omega) (Nat.two_pow_pos e)).ne'
      apply le_antisymm
      · apply Nat.lt_succ_iff.mp
        rw [Nat.log2_lt hne]
        calc (2 ^ m + r) * 2 ^ e < 2 * 2 ^ m * 2 ^ e := Nat.mul_lt_mul_of_pos_right (by omega) (Nat.two_pow_pos e)
          _ = 2 ^ (m + e + 1) := by ring
      · rw [Nat.le_log2 hne, Nat.pow_add]
        exact Nat.mul_le_mul_right _ (Nat.le_add_right _ _)
    rw [hlog, Nat.add_sub_cancel_left]
    push_cast
    rw [mul_div_cancel_right₀ _ (by positivity)]
    have hround := roundHalfEven_natCast (2 ^ m + r)
    push_cast at hround
    rw [hround]
    exact hsplit.symm

/-- The units of a normal magnitude. -/
theorem units_normal (m e : ℕ) {r : ℕ} (hr : r < 2 ^ m) :
    units m (e * 2 ^ m + (2 ^ m + r)) = (2 ^ m + r) * 2 ^ e := by
  have hm : 0 < 2 ^ m := Nat.two_pow_pos m
  have hdiv : (e * 2 ^ m + (2 ^ m + r)) / 2 ^ m = e + 1 := by
    rw [← Nat.add_assoc, ← Nat.succ_mul, Nat.succ_eq_add_one, Nat.mul_comm, Nat.mul_add_div hm,
      Nat.div_eq_of_lt hr, Nat.add_zero]
  unfold units
  rw [hdiv, Nat.add_sub_cancel, Nat.add_sub_cancel_left]

/-- The neighbour below a normal magnitude is not far from it. -/
theorem units_pred {m b : ℕ} (h : 2 ^ m ≤ b) : units m b * (2 ^ m - 1) ≤ units m (b - 1) * 2 ^ m := by
  have hm : 0 < 2 ^ m := Nat.two_pow_pos m
  obtain ⟨e, r, hr, rfl⟩ : ∃ e r, r < 2 ^ m ∧ b = e * 2 ^ m + (2 ^ m + r) := by
    obtain ⟨e, he⟩ : ∃ e, b / 2 ^ m = e + 1 := ⟨b / 2 ^ m - 1, by have := Nat.div_pos h hm; omega⟩
    refine ⟨e, b % 2 ^ m, Nat.mod_lt b hm, ?_⟩
    rw [← Nat.add_assoc, ← Nat.succ_mul, Nat.succ_eq_add_one, ← he, Nat.mul_comm]
    exact (Nat.div_add_mod b (2 ^ m)).symm
  have hpred : (2 ^ m + r - 1) * 2 ^ e ≤ units m (e * 2 ^ m + (2 ^ m + r) - 1) := by
    rcases Nat.eq_zero_or_pos r with rfl | h0
    · -- the first magnitude of a binade comes behind the last of the one below
      cases e with
      | zero =>
        have hlt : 0 * 2 ^ m + (2 ^ m + 0) - 1 < 2 ^ m := by omega
        unfold units
        rw [Nat.div_eq_of_lt hlt]
        simp
      | succ e =>
        have hlast : (e + 1) * 2 ^ m + (2 ^ m + 0) - 1 = e * 2 ^ m + (2 ^ m + (2 ^ m - 1)) := by
          rw [Nat.succ_mul]
          omega
        rw [hlast, units_normal m e (by omega)]
        calc (2 ^ m + 0 - 1) * 2 ^ (e + 1) = 2 * (2 ^ m - 1) * 2 ^ e := by rw [Nat.add_zero, Nat.pow_succ]; ring
          _ ≤ (2 ^ m + (2 ^ m - 1)) * 2 ^ e := Nat.mul_le_mul_right _ (by omega)
    · have hsub : e * 2 ^ m + (2 ^ m + r) - 1 = e * 2 ^ m + (2 ^ m + (r - 1)) := by omega
      rw [hsub, units_normal m e (by omega), Nat.add_sub_assoc h0]
  rw [units_normal m e hr]
  refine le_trans ?_ (Nat.mul_le_mul_right _ hpred)
  calc (2 ^ m + r) * 2 ^ e * (2 ^ m - 1) = (2 ^ m + r) * (2 ^ m - 1) * 2 ^ e := by ring
    _ ≤ (2 ^ m + r - 1) * 2 ^ m * 2 ^ e := by
      refine Nat.mul_le_mul_right _ ?_
      rw [Nat.mul_sub, Nat.sub_mul, Nat.mul_one, Nat.one_mul]
      omega
    _ = (2 ^ m + r - 1) * 2 ^ e * 2 ^ m := by ring

/-- A magnitude is rounded to itself. -/
theorem roundKey_units {b : ℕ} (h : b < f.magnitudes) : roundKey f (units f.mantissa b / f.unitsPerOne) = b := by
  have hu := unitsPerOne_pos (f := f)
  have hpos : (0 : ℚ) ≤ units f.mantissa b / f.unitsPerOne := by positivity
  unfold roundKey magnitude
  rw [if_neg (not_lt.mpr hpos), abs_of_nonneg hpos, div_mul_cancel₀ _ hu.ne', nearestBits_units,
    min_eq_left h.le]

/-- A number of at most so many digits and a power of two are the units of a magnitude. -/
theorem exists_units (m : ℕ) : ∀ (e : ℕ) {n : ℕ}, n < 2 ^ (m + 1) → ∃ b < (e + 2) * 2 ^ m, units m b = n * 2 ^ e
  | 0, n, hn => by
    rw [Nat.pow_succ] at hn
    refine ⟨n, by omega, ?_⟩
    by_cases h : n < 2 ^ m
    · simp [units, Nat.div_eq_of_lt h]
    · have hnormal := units_normal m 0 (r := n - 2 ^ m) (by omega)
      have hsum : 0 * 2 ^ m + (2 ^ m + (n - 2 ^ m)) = n := by omega
      rw [hsum] at hnormal
      rw [hnormal]
      congr 1
      omega
  | e + 1, n, hn => by
    by_cases h : n < 2 ^ m
    · obtain ⟨b, hb, hu⟩ := exists_units m e (n := 2 * n) (by rw [Nat.pow_succ]; omega)
      refine ⟨b, hb.trans_le (Nat.mul_le_mul_right _ (by omega)), ?_⟩
      rw [hu, Nat.pow_succ]
      ring
    · rw [Nat.pow_succ] at hn
      have hnormal := units_normal m (e + 1) (r := n - 2 ^ m) (by omega)
      have hsum : 2 ^ m + (n - 2 ^ m) = n := by omega
      rw [hsum] at hnormal
      refine ⟨_, ?_, hnormal⟩
      rw [Nat.add_mul (e + 1) 2]
      omega

/-- What is rounded from a value that needs no rounding has this value. -/
theorem toRat_of_key {x : Ieee f} (hx : x ≠ nan) {q : ℚ} (h : key x = roundKey f q) {n e : ℕ}
    (hn : n < 2 ^ (f.mantissa + 1)) (he : e + 2 ≤ 2 * f.bias + 1) (hq : q * f.unitsPerOne = n * 2 ^ e) :
    x.isFinite ∧ toRat x = q := by
  obtain ⟨b, hb, hu⟩ := exists_units f.mantissa e hn
  have hlt : b < f.magnitudes := hb.trans_le (Nat.mul_le_mul_right _ he)
  have hval : q = (units f.mantissa b : ℚ) / f.unitsPerOne := by
    rw [eq_div_iff unitsPerOne_pos.ne', hq, hu]
    push_cast
    rfl
  rw [hval, roundKey_units hlt] at h
  have hfin : x.isFinite := by
    rcases x with ⟨n, a⟩ | n | -
    · rfl
    · cases n <;> simp [key] at h <;> omega
    · exact absurd rfl hx
  have hkey : key x = key (finite false ⟨b, hlt⟩ : Ieee f) := h
  rw [(toRat_eq_toRat hfin rfl).mpr hkey, hval]
  exact ⟨hfin, rfl⟩

/-- A whole number of at most so many digits, times a power of two. -/
theorem toRat_ofNat {n k : ℕ} (hn : n < 2 ^ (f.mantissa + 1)) (hk : k + (f.bias - 1 + f.mantissa) + 2 ≤ 2 * f.bias + 1) :
    (ofNat (n * 2 ^ k) : Ieee f).isFinite ∧ toRat (ofNat (n * 2 ^ k) : Ieee f) = n * 2 ^ k := by
  have hkey : key (ofNat (n * 2 ^ k) : Ieee f) = roundKey f (n * 2 ^ k : ℕ) := key_ofRat fun _ => by simp
  have hq : ((n * 2 ^ k : ℕ) : ℚ) * f.unitsPerOne = n * 2 ^ (k + (f.bias - 1 + f.mantissa)) := by
    unfold Format.unitsPerOne
    push_cast
    ring
  obtain ⟨hfin, hval⟩ := toRat_of_key (ofRat_ne_nan false _) hkey hn hk hq
  refine ⟨hfin, hval.trans ?_⟩
  push_cast
  rfl

theorem toRat_mul_eq_zero {x c : Ieee f} (h : ¬ (mul x c).isFinite) : toRat (mul x c) = 0 := by
  cases hm : mul x c with
  | finite n a => exact absurd (by rw [hm]; rfl) h
  | infinite n => rfl
  | nan => rfl

theorem isFinite_mul_infinite {neg : Bool} {c : Ieee f} (hc : c.isFinite) :
    (mul (infinite neg) c).isFinite = false := by
  cases c with
  | nan => cases hc
  | infinite n => cases hc
  | finite n b =>
    show (if b.val = 0 then (nan : Ieee f) else infinite (neg ^^ n)).isFinite = false
    split <;> rfl

/-- A factor below one by enough keeps the share of a whole number below it:
the number is rounded up by less than the distance to the magnitude below,
and the factor makes up for that distance. -/
theorem toRat_mul_ofNat_le {c : Ieee f} (hc : c.isFinite)
    (h1 : toRat c * 2 ^ f.mantissa ≤ 2 ^ f.mantissa - 1) (n : ℕ) : toRat (mul (ofNat n) c) ≤ n := by
  have hu := unitsPerOne_pos (f := f)
  have hpow : (0 : ℚ) < 2 ^ f.mantissa := by positivity
  have hn0 : (0 : ℚ) ≤ n := by positivity
  by_cases hm : (mul (ofNat n) c).isFinite
  swap
  · rw [toRat_mul_eq_zero hm]
    exact hn0
  obtain ⟨k, hk⟩ : ∃ k, k = nearestBits f.mantissa (n * f.unitsPerOne) := ⟨_, rfl⟩
  have hon : (ofNat n : Ieee f) = if h : k < f.magnitudes then finite false ⟨k, h⟩ else infinite false := by
    subst hk
    unfold ofNat ofRat
    rw [abs_of_nonneg hn0]
  by_cases hlt : k < f.magnitudes
  swap
  · rw [hon, dif_neg hlt, isFinite_mul_infinite hc] at hm
    cases hm
  rw [dif_pos hlt] at hon
  have hpred : k - 1 < f.magnitudes := lt_of_le_of_lt (Nat.sub_le k 1) hlt
  have hkey : key (mul (ofNat n) c) ≤ key (finite false ⟨k - 1, hpred⟩ : Ieee f) := by
    rw [hon, key_mul rfl hc]
    show roundKey f (units f.mantissa k / f.unitsPerOne * toRat c) ≤ ((k - 1 : ℕ) : ℤ)
    rw [← roundKey_units hpred]
    apply roundKey_mono
    rw [div_mul_eq_mul_div]
    refine div_le_div_of_nonneg_right ?_ hu.le
    rcases Nat.eq_zero_or_pos n with rfl | hn
    · have hk0 : k = 0 := by simpa using hk
      simp [hk0]
    · have hnormal : 2 ^ f.mantissa ≤ k := by
        have hone : units f.mantissa (2 ^ f.mantissa) = 2 ^ f.mantissa := by
          simpa using units_normal f.mantissa 0 (Nat.two_pow_pos f.mantissa)
        have hbig : (2 : ℚ) ^ f.mantissa ≤ n * f.unitsPerOne := by
          have hn1 : (1 : ℚ) ≤ n := by exact_mod_cast hn
          calc (2 : ℚ) ^ f.mantissa ≤ 2 ^ (f.bias - 1 + f.mantissa) :=
                pow_le_pow_right₀ (by norm_num) (Nat.le_add_left _ _)
            _ = 1 * f.unitsPerOne := by unfold Format.unitsPerOne; push_cast; ring
            _ ≤ n * f.unitsPerOne := mul_le_mul_of_nonneg_right hn1 hu.le
        calc 2 ^ f.mantissa = nearestBits f.mantissa (units f.mantissa (2 ^ f.mantissa)) := (nearestBits_units _ _).symm
          _ ≤ k := by
            rw [hk, hone]
            exact nearestBits_mono f.mantissa (by exact_mod_cast hbig)
      have hup : (units f.mantissa k : ℚ) * (2 ^ f.mantissa - 1) ≤ units f.mantissa (k - 1) * 2 ^ f.mantissa := by
        have h := units_pred hnormal
        have hone : 1 ≤ 2 ^ f.mantissa := Nat.one_le_two_pow
        have hcast : ((units f.mantissa k * (2 ^ f.mantissa - 1) : ℕ) : ℚ) ≤
            (units f.mantissa (k - 1) * 2 ^ f.mantissa : ℕ) := by
          exact_mod_cast h
        push_cast [Nat.cast_sub hone] at hcast
        exact hcast
      have hk0 : (0 : ℚ) ≤ units f.mantissa k := by positivity
      have hle : (units f.mantissa k : ℚ) * toRat c * 2 ^ f.mantissa ≤ units f.mantissa (k - 1) * 2 ^ f.mantissa := by
        calc (units f.mantissa k : ℚ) * toRat c * 2 ^ f.mantissa = units f.mantissa k * (toRat c * 2 ^ f.mantissa) := by ring
          _ ≤ units f.mantissa k * (2 ^ f.mantissa - 1) := mul_le_mul_of_nonneg_left h1 hk0
          _ ≤ units f.mantissa (k - 1) * 2 ^ f.mantissa := hup
      exact le_of_mul_le_mul_right hle hpow
  have hle : toRat (mul (ofNat n) c) ≤ units f.mantissa (k - 1) / f.unitsPerOne :=
    (toRat_le_toRat hm rfl).mpr hkey
  refine hle.trans ?_
  rw [div_le_iff₀ hu]
  by_contra hc'
  have hback := nearestBits_mono f.mantissa (not_le.mp hc').le
  rw [← hk, nearestBits_units] at hback
  have hk0 : k = 0 := by omega
  subst hk0
  rw [Nat.zero_sub, units_zero, Nat.cast_zero] at hc'
  exact hc' (by positivity)

/-! ### The greater one -/

theorem le_max_left {x y : Ieee f} (hx : x ≠ nan) (hy : y ≠ nan) : x ≤ max x y := by
  unfold max
  rw [if_neg hx, if_neg hy]
  by_cases h : x < y
  · rw [if_pos h]
    exact le_of_lt' h
  · rw [if_neg h]
    exact le_self hx

theorem isFinite_max {x y : Ieee f} (hx : x.isFinite) (hy : y.isFinite) : (max x y).isFinite := by
  unfold max
  split
  · exact hy
  · split
    · exact hx
    · split
      · exact hy
      · exact hx

end Arithmetic

/-! ### The first greatest entry -/

section Greatest

variable {f : Format}

/-- The loop for the greatest entry: `i` entries are behind it, the greatest
of them is `v`, at `best`. -/
def argmaxFrom : List (Ieee f) → ℕ → ℕ → Ieee f → ℕ
  | [], _, best, _ => best
  | x :: xs, i, best, v => if v < x then argmaxFrom xs (i + 1) i x else argmaxFrom xs (i + 1) best v

/-- Where the greatest entry first stands. -/
def argmax : List (Ieee f) → ℕ
  | [] => 0
  | x :: xs => argmaxFrom (x :: xs) 0 0 x

theorem argmaxFrom_lt : ∀ (xs : List (Ieee f)) (i best : ℕ) (v : Ieee f), best < i →
    argmaxFrom xs i best v < i + xs.length
  | [], _, _, _, h => h
  | x :: xs, i, best, v, h => by
    rw [argmaxFrom, List.length_cons]
    split
    · have := argmaxFrom_lt xs (i + 1) i x (Nat.lt_succ_self i)
      omega
    · have := argmaxFrom_lt xs (i + 1) best v (Nat.lt_succ_of_lt h)
      omega

theorem argmax_lt {l : List (Ieee f)} (h : l ≠ []) : argmax l < l.length := by
  cases l with
  | nil => exact absurd rfl h
  | cons x xs =>
    have := argmaxFrom_lt xs (0 + 1) 0 x Nat.one_pos
    rw [argmax, argmaxFrom, ite_self, List.length_cons]
    omega

/-- The entry at `i` is at least every entry, and greater than those before it. -/
def IsFirstMax (l : List (Ieee f)) (i : ℕ) : Prop :=
  ∃ v, l[i]? = some v ∧ (∀ x ∈ l, x ≤ v) ∧ ∀ x ∈ l.take i, x < v

theorem IsFirstMax.lt_length {l : List (Ieee f)} {i : ℕ} (h : IsFirstMax l i) : i < l.length := by
  obtain ⟨v, hv, -⟩ := h
  exact (List.getElem?_eq_some_iff.mp hv).1

theorem IsFirstMax.ne_nan {l : List (Ieee f)} {i : ℕ} (h : IsFirstMax l i) : ∀ x ∈ l, x ≠ nan := by
  obtain ⟨v, -, hle, -⟩ := h
  exact fun x hx => (hle x hx).1

theorem IsFirstMax.unique {l : List (Ieee f)} {i j : ℕ} (hi : IsFirstMax l i) (hj : IsFirstMax l j) : i = j := by
  have hnot : ∀ {i j : ℕ}, IsFirstMax l i → IsFirstMax l j → ¬ i < j := by
    rintro i j ⟨v, hv, hle, -⟩ ⟨w, hw, -, hlt⟩ hij
    have hvw : v < w := by
      refine hlt v (List.mem_of_getElem? (i := i) ?_)
      rw [List.getElem?_take_of_lt hij]
      exact hv
    exact not_lt_of_le (hle w (List.mem_of_getElem? hw)) hvw
  rcases lt_trichotomy i j with h | h | h
  · exact absurd h (hnot hi hj)
  · exact h
  · exact absurd h (hnot hj hi)

/-- What the loop keeps: the best so far is the first greatest of the entries behind it. -/
theorem isFirstMax_argmaxFrom : ∀ {xs done : List (Ieee f)} {best : ℕ} {v : Ieee f}, done[best]? = some v →
    IsFirstMax done best → (∀ x ∈ xs, x ≠ nan) → IsFirstMax (done ++ xs) (argmaxFrom xs done.length best v)
  | [], done, best, v, _, h, _ => by
    rw [List.append_nil]
    exact h
  | x :: xs, done, best, v, hv, h, hn => by
    have happ : done ++ x :: xs = done ++ [x] ++ xs := by rw [List.append_assoc, List.singleton_append]
    have hlen : done.length + 1 = (done ++ [x]).length := by rw [List.length_append, List.length_singleton]
    have hx : x ≠ nan := hn x (List.mem_cons_self ..)
    have hn' : ∀ y ∈ xs, y ≠ nan := fun y hy => hn y (List.mem_cons_of_mem _ hy)
    obtain ⟨w, hw, hle, hlt⟩ := h
    obtain rfl : v = w := Option.some.inj (hv.symm.trans hw)
    have hb : best < done.length := (List.getElem?_eq_some_iff.mp hv).1
    rw [happ]
    by_cases hc : v < x
    · have hlast : (done ++ [x])[done.length]? = some x := by simp
      rw [argmaxFrom, if_pos hc, hlen]
      refine isFirstMax_argmaxFrom hlast ⟨x, hlast, ?_, ?_⟩ hn'
      · intro y hy
        rcases List.mem_append.mp hy with hy | hy
        · exact le_chain (hle y hy) (le_of_lt' hc)
        · rw [List.mem_singleton.mp hy]
          exact le_self hx
      · intro y hy
        rw [List.take_left' rfl] at hy
        exact lt_of_le_of_lt' (hle y hy) hc
    · have hkeep : (done ++ [x])[best]? = some v := by rw [List.getElem?_append_left hb, hv]
      rw [argmaxFrom, if_neg hc, hlen]
      refine isFirstMax_argmaxFrom hkeep ⟨v, hkeep, ?_, ?_⟩ hn'
      · intro y hy
        rcases List.mem_append.mp hy with hy | hy
        · exact hle y hy
        · rw [List.mem_singleton.mp hy]
          exact le_of_not_lt' hx (hle v (List.mem_of_getElem? hv)).1 hc
      · rw [List.take_append_of_le_length hb.le]
        exact hlt

theorem isFirstMax_argmax {l : List (Ieee f)} (h0 : l ≠ []) (hn : ∀ x ∈ l, x ≠ nan) :
    IsFirstMax l (argmax l) := by
  cases l with
  | nil => exact absurd rfl h0
  | cons x xs =>
    have hx : x ≠ nan := hn x (List.mem_cons_self ..)
    have hirr : ¬ x < x := not_lt_of_le (le_self hx)
    rw [argmax, argmaxFrom, if_neg hirr]
    refine @isFirstMax_argmaxFrom f xs [x] 0 x rfl ⟨x, rfl, ?_, nofun⟩ fun y hy => hn y (List.mem_cons_of_mem _ hy)
    intro y hy
    rw [List.mem_singleton.mp hy]
    exact le_self hx

end Greatest

end Ieee
