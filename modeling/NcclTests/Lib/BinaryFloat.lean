import Mathlib

/-!
# Binary floating-point values as exact rationals

A format is a pair of field widths with the usual bias. `Format.value` decodes
the three fields of a number; `Format.scaled` is an integer multiple of the unit
in the last place at a given exponent. The two meet in `Format.value_normalize`:
an integer significand that fits in `mantissaBits + 1` bits can be shifted up to
its leading bit without changing the value.

`Format.IsNormalOrZero` are the values a correctly rounded operation returns
unchanged. Sums of integer multiples of one unit stay there as long as the
integer does (`Format.isNormalOrZero_intScaled`).
-/

namespace BinaryFloat

/-- Widths of the exponent and of the mantissa field. -/
structure Format where
  exponentBits : Nat
  mantissaBits : Nat
  deriving DecidableEq, Repr

namespace Format

variable (F : Format)

def bias : Int := 2 ^ (F.exponentBits - 1) - 1

/-- The weight of the last mantissa bit at exponent field `exp`. -/
def ulp (exp : Int) : ℚ := 2 ^ (exp - F.bias - F.mantissaBits)

/-- `significand` units in the last place at exponent field `exp`. -/
def scaled (sign significand : Nat) (exp : Int) : ℚ :=
  (-1) ^ sign * significand * F.ulp exp

/-- The number with the given sign, exponent field and mantissa field. -/
def value (sign exp mant : Nat) : ℚ :=
  if exp = 0 then F.scaled sign mant 1 else F.scaled sign (2 ^ F.mantissaBits + mant) exp

/-- A finite number with an implicit leading one. -/
def IsNormal (v : ℚ) : Prop :=
  ∃ sign exp mant : Nat, sign < 2 ∧ 1 ≤ exp ∧ exp ≤ 2 ^ F.exponentBits - 2 ∧
    mant < 2 ^ F.mantissaBits ∧ v = F.value sign exp mant

/-- Zero, or a finite number with an implicit leading one. -/
def IsNormalOrZero (v : ℚ) : Prop := v = 0 ∨ F.IsNormal v

variable {F}

theorem ulp_add (exp : Int) (k : Nat) : F.ulp (exp + k) = F.ulp exp * 2 ^ k := by
  have two : (2 : ℚ) ≠ 0 := by norm_num
  rw [ulp, ulp, ← zpow_natCast, ← zpow_add₀ two]
  congr 1
  ring

/-- Shifting the significand up is the same as raising the exponent. -/
theorem scaled_mul_two_pow (sign significand k : Nat) (exp : Int) :
    F.scaled sign (significand * 2 ^ k) exp = F.scaled sign significand (exp + k) := by
  rw [scaled, scaled, ulp_add]
  push_cast
  ring

@[simp] theorem scaled_zero (sign : Nat) (exp : Int) : F.scaled sign 0 exp = 0 := by
  simp [scaled]

@[simp] theorem value_zero (sign : Nat) : F.value sign 0 0 = 0 := by
  simp [value]

/-- The distance from the leading bit of `significand` to the implicit one. -/
def normalShift (F : Format) (significand : Nat) : Nat := F.mantissaBits - significand.log2

theorem two_pow_le_normalized {significand : Nat} (pos : significand ≠ 0)
    (fits : significand < 2 ^ (F.mantissaBits + 1)) :
    2 ^ F.mantissaBits ≤ significand * 2 ^ F.normalShift significand := by
  have top : significand.log2 < F.mantissaBits + 1 := (Nat.log2_lt pos).2 fits
  calc 2 ^ F.mantissaBits
      = 2 ^ significand.log2 * 2 ^ F.normalShift significand := by
        rw [← pow_add]
        congr 1
        unfold normalShift
        omega
    _ ≤ significand * 2 ^ F.normalShift significand :=
        Nat.mul_le_mul_right _ (Nat.log2_self_le pos)

theorem normalized_lt {significand : Nat} (pos : significand ≠ 0)
    (fits : significand < 2 ^ (F.mantissaBits + 1)) :
    significand * 2 ^ F.normalShift significand < 2 ^ (F.mantissaBits + 1) := by
  have top : significand.log2 < F.mantissaBits + 1 := (Nat.log2_lt pos).2 fits
  calc significand * 2 ^ F.normalShift significand
      < 2 ^ (significand.log2 + 1) * 2 ^ F.normalShift significand :=
        Nat.mul_lt_mul_of_pos_right Nat.lt_log2_self (by positivity)
    _ = 2 ^ (F.mantissaBits + 1) := by
        rw [← pow_add]
        congr 1
        unfold normalShift
        omega

/-- Moving the leading bit of the significand onto the implicit one keeps the
value, provided the exponent field stays positive. -/
theorem value_normalize {sign significand : Nat} {exp : Nat} (pos : significand ≠ 0)
    (fits : significand < 2 ^ (F.mantissaBits + 1))
    (room : F.normalShift significand < exp) :
    F.value sign (exp - F.normalShift significand)
        (significand * 2 ^ F.normalShift significand - 2 ^ F.mantissaBits) =
      F.scaled sign significand exp := by
  have low := two_pow_le_normalized pos fits
  rw [value, if_neg (by omega), Nat.add_sub_cancel' low, scaled_mul_two_pow]
  congr 1
  omega

theorem isNormalOrZero_value {sign exp mant : Nat} (hs : sign < 2) (low : 1 ≤ exp)
    (high : exp ≤ 2 ^ F.exponentBits - 2) (hm : mant < 2 ^ F.mantissaBits) :
    F.IsNormalOrZero (F.value sign exp mant) :=
  Or.inr ⟨sign, exp, mant, hs, low, high, hm, rfl⟩

theorem isNormalOrZero_scaled {sign significand exp : Nat} (hs : sign < 2)
    (fits : significand < 2 ^ (F.mantissaBits + 1)) (low : F.mantissaBits < exp)
    (high : exp ≤ 2 ^ F.exponentBits - 2) :
    F.IsNormalOrZero (F.scaled sign significand exp) := by
  rcases Nat.eq_zero_or_pos significand with rfl | pos
  · exact Or.inl (by simp)
  have shift : F.normalShift significand ≤ F.mantissaBits := Nat.sub_le _ _
  rw [← value_normalize (by omega) fits (by omega)]
  refine isNormalOrZero_value hs (by omega) (by omega) ?_
  have below := normalized_lt (by omega) fits
  have low := two_pow_le_normalized (F := F) (by omega) fits
  rw [pow_succ] at below
  omega

/-- An integer number of units whose absolute value fits in the significand is
a value of the format. -/
theorem isNormalOrZero_intScaled {z : Int} {exp : Nat}
    (fits : z.natAbs < 2 ^ (F.mantissaBits + 1)) (low : F.mantissaBits < exp)
    (high : exp ≤ 2 ^ F.exponentBits - 2) :
    F.IsNormalOrZero (z * F.ulp exp) := by
  rcases Int.natAbs_eq z with plus | minus
  · have sum : F.IsNormalOrZero (F.scaled 0 z.natAbs exp) :=
      isNormalOrZero_scaled (by omega) fits low high
    rw [plus]
    simpa [scaled] using sum
  · have sum : F.IsNormalOrZero (F.scaled 1 z.natAbs exp) :=
      isNormalOrZero_scaled (by omega) fits low high
    rw [minus]
    simpa [scaled] using sum

theorem IsNormalOrZero.neg_one_pow_mul {v : ℚ} (h : F.IsNormalOrZero v) (k : Nat) :
    F.IsNormalOrZero ((-1) ^ k * v) := by
  rcases h with rfl | ⟨sign, exp, mant, hs, low, high, hm, rfl⟩
  · exact Or.inl (by simp)
  refine Or.inr ⟨(sign + k) % 2, exp, mant, by omega, low, high, hm, ?_⟩
  rw [value, value, if_neg (by omega), if_neg (by omega), scaled, scaled, ← mul_assoc,
    ← mul_assoc, ← pow_add, Nat.add_comm k, neg_one_pow_eq_pow_mod_two (n := sign + k)]

/-! ## One pattern for each number -/

theorem ulp_pos (exp : Int) : 0 < F.ulp exp := by
  rw [ulp]
  positivity

theorem ulp_mono {exp exp' : Int} (le : exp ≤ exp') : F.ulp exp ≤ F.ulp exp' := by
  rw [ulp, ulp]
  exact zpow_le_zpow_right₀ (by norm_num) (by omega)

theorem abs_value {sign exp mant : Nat} (normal : 1 ≤ exp) :
    |F.value sign exp mant| = (2 ^ F.mantissaBits + mant : Nat) * F.ulp exp := by
  rw [value, if_neg (by omega), scaled, abs_mul, abs_mul, abs_neg_one_pow, one_mul, Nat.abs_cast,
    abs_of_pos (ulp_pos _)]

theorem value_pos_iff {sign exp mant : Nat} (hs : sign < 2) (normal : 1 ≤ exp) :
    0 < F.value sign exp mant ↔ sign = 0 := by
  have size : 0 < ((2 ^ F.mantissaBits + mant : Nat) : ℚ) * F.ulp exp := by
    have := ulp_pos (F := F) exp
    positivity
  rw [value, if_neg (by omega), scaled, mul_assoc]
  have either : sign = 0 ∨ sign = 1 := by omega
  rcases either with rfl | rfl
  · rw [pow_zero, one_mul]
    exact iff_of_true size rfl
  · rw [pow_one, neg_one_mul]
    exact iff_of_false (by linarith) Nat.one_ne_zero

/-- Of two normal numbers the one with the smaller exponent field is closer to zero. -/
theorem abs_value_lt {sign sign' exp exp' mant mant' : Nat} (normal : 1 ≤ exp)
    (less : exp < exp') (hm : mant < 2 ^ F.mantissaBits) :
    |F.value sign exp mant| < |F.value sign' exp' mant'| := by
  rw [abs_value normal, abs_value (by omega)]
  have next : F.ulp (exp + 1) = F.ulp exp * 2 := by
    have := ulp_add (F := F) exp 1
    rwa [pow_one] at this
  calc ((2 ^ F.mantissaBits + mant : Nat) : ℚ) * F.ulp exp
      < (2 ^ F.mantissaBits + 2 ^ F.mantissaBits : Nat) * F.ulp exp := by
        refine mul_lt_mul_of_pos_right ?_ (ulp_pos _)
        exact_mod_cast Nat.add_lt_add_left hm _
    _ = (2 ^ F.mantissaBits : Nat) * F.ulp (exp + 1) := by
        rw [next]
        push_cast
        ring
    _ ≤ (2 ^ F.mantissaBits + mant' : Nat) * F.ulp exp' := by
        refine mul_le_mul ?_ (ulp_mono (by omega)) (ulp_pos _).le (Nat.cast_nonneg _)
        exact_mod_cast Nat.le_add_right _ _

/-- **Normal numbers have one sign, exponent field and mantissa field.** -/
theorem value_inj {sign sign' exp exp' mant mant' : Nat} (hs : sign < 2) (hs' : sign' < 2)
    (normal : 1 ≤ exp) (normal' : 1 ≤ exp') (hm : mant < 2 ^ F.mantissaBits)
    (hm' : mant' < 2 ^ F.mantissaBits)
    (same : F.value sign exp mant = F.value sign' exp' mant') :
    sign = sign' ∧ exp = exp' ∧ mant = mant' := by
  have signs : sign = 0 ↔ sign' = 0 := by
    rw [← @value_pos_iff F sign exp mant hs normal, same, value_pos_iff hs' normal']
  have sizes := congrArg abs same
  rcases Nat.lt_trichotomy exp exp' with less | rfl | more
  · exact absurd sizes (abs_value_lt normal less hm).ne
  · refine ⟨by omega, rfl, ?_⟩
    rw [abs_value normal, abs_value normal'] at sizes
    have units := mul_right_cancel₀ (ulp_pos _).ne' sizes
    have : 2 ^ F.mantissaBits + mant = 2 ^ F.mantissaBits + mant' := by exact_mod_cast units
    omega
  · exact absurd sizes (abs_value_lt normal' more hm').ne'

/-- A normal number in a format with a larger bias and more mantissa bits. -/
theorem value_widen {G : Format} {sign exp mant shift k : Nat} (normal : 1 ≤ exp)
    (bias_ : G.bias = F.bias + shift) (bits : G.mantissaBits = F.mantissaBits + k) :
    G.value sign (exp + shift) (mant * 2 ^ k) = F.value sign exp mant := by
  have weight : F.ulp exp = G.ulp (exp + shift : Nat) * 2 ^ k := by
    rw [← ulp_add, ulp, ulp, bias_, bits]
    congr 1
    push_cast
    ring
  rw [value, value, if_neg (by omega), if_neg (by omega), scaled, scaled, weight, bits]
  push_cast
  ring

/-! ## Products -/

/-- The significand as a number in `[1, 2)`. -/
def significand (F : Format) (mant : Nat) : ℚ := (2 ^ F.mantissaBits + mant) / 2 ^ F.mantissaBits

@[simp] theorem significand_zero : F.significand 0 = 1 := by
  rw [significand, Nat.cast_zero, add_zero, div_self (by positivity)]

/-- A number whose unbiased exponent is the natural number `x`. -/
theorem value_add_bias {sign x bias mant : Nat} (bias_ : (bias : Int) = F.bias) (pos : 0 < bias) :
    F.value sign (x + bias) mant = (-1) ^ sign * 2 ^ x * F.significand mant := by
  have two : (2 : ℚ) ≠ 0 := by norm_num
  rw [value, if_neg (by omega), scaled, ulp, significand, ← bias_]
  have exponent : ((x + bias : Nat) : Int) - bias - F.mantissaBits = x - F.mantissaBits := by
    push_cast
    ring
  rw [exponent, zpow_sub₀ two, zpow_natCast, zpow_natCast]
  push_cast
  ring

end Format

end BinaryFloat
