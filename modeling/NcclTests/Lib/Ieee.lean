import Mathlib
import NcclTests.Lib.BinaryFloat

/-!
# Rounded floating-point arithmetic

The operations of a binary format on numbers, infinities and NaN. A finite result
is the exact rational one rounded to the nearest number of the format, ties to
even (`Format.nearest`); a result too large for the format is an infinity. The sign
of a zero is not kept.

Conversions to integers truncate, and are undefined where the truncated number
does not fit.
-/

namespace BinaryFloat

/-! ## Rounding to an integer -/

/-- The nearest integer, ties to the even one. -/
def roundHalfEven (q : ℚ) : Int :=
  if q - ⌊q⌋ < 1 / 2 then ⌊q⌋
  else if 1 / 2 < q - ⌊q⌋ then ⌊q⌋ + 1
  else if ⌊q⌋ % 2 = 0 then ⌊q⌋ else ⌊q⌋ + 1

/-- The nearest integer, ties away from zero. -/
def roundHalfAway (q : ℚ) : Int := if 0 ≤ q then ⌊q + 1 / 2⌋ else -⌊-q + 1 / 2⌋

/-- The integer part. -/
def truncate (q : ℚ) : Int := if 0 ≤ q then ⌊q⌋ else -⌊-q⌋

theorem floor_le_roundHalfEven (q : ℚ) : ⌊q⌋ ≤ roundHalfEven q := by
  unfold roundHalfEven
  split_ifs <;> omega

theorem roundHalfEven_le (q : ℚ) : roundHalfEven q ≤ ⌊q⌋ + 1 := by
  unfold roundHalfEven
  split_ifs <;> omega

@[simp] theorem roundHalfEven_intCast (z : Int) : roundHalfEven z = z := by
  simp [roundHalfEven]

theorem roundHalfEven_mono {p q : ℚ} (le : p ≤ q) : roundHalfEven p ≤ roundHalfEven q := by
  rcases (Int.floor_le_floor le).lt_or_eq with apart | same
  · calc roundHalfEven p ≤ ⌊p⌋ + 1 := roundHalfEven_le p
      _ ≤ ⌊q⌋ := apart
      _ ≤ roundHalfEven q := floor_le_roundHalfEven q
  -- in one unit interval only the fractional parts matter
  · have fractions : p - ⌊p⌋ ≤ q - ⌊q⌋ := by
      rw [same]
      exact sub_le_sub_right le _
    unfold roundHalfEven
    rw [same] at fractions ⊢
    split_ifs <;> first | omega | (exfalso; linarith)

theorem roundHalfAway_nonneg {q : ℚ} (nonneg : 0 ≤ q) : 0 ≤ roundHalfAway q := by
  rw [roundHalfAway, if_pos nonneg]
  exact Int.floor_nonneg.2 (by linarith)

theorem roundHalfAway_nonpos {q : ℚ} (nonpos : q ≤ 0) : roundHalfAway q ≤ 0 := by
  rcases nonpos.lt_or_eq with neg | rfl
  · rw [roundHalfAway, if_neg (not_le.2 neg)]
    have : 0 ≤ ⌊-q + 1 / 2⌋ := Int.floor_nonneg.2 (by linarith)
    omega
  · norm_num [roundHalfAway]

theorem roundHalfAway_mono_of_nonneg {p q : ℚ} (nonneg : 0 ≤ p) (le : p ≤ q) :
    roundHalfAway p ≤ roundHalfAway q := by
  rw [roundHalfAway, roundHalfAway, if_pos nonneg, if_pos (nonneg.trans le)]
  exact Int.floor_le_floor (by linarith)

@[simp] theorem roundHalfAway_natCast (n : Nat) : roundHalfAway n = n := by
  rw [roundHalfAway, if_pos (Nat.cast_nonneg n)]
  have : ⌊(n : ℚ) + 1 / 2⌋ = n := by
    rw [Int.floor_eq_iff]
    constructor <;> push_cast <;> linarith
  exact this

@[simp] theorem truncate_intCast (z : Int) : truncate z = z := by
  unfold truncate
  split_ifs
  · exact Int.floor_intCast z
  · rw [← Int.cast_neg, Int.floor_intCast, neg_neg]

/-! ## Rounding to a format -/

namespace Format

variable (F : Format)

/-- The exponent of the last significand bit of the numbers of `F` around `q`. -/
def lastBit (q : ℚ) : Int := max (Int.log 2 |q|) (1 - F.bias) - F.mantissaBits

/-- The number nearest to `q` with the precision of `F` and no upper bound. -/
def nearest (q : ℚ) : ℚ := roundHalfEven (q / 2 ^ F.lastBit q) * 2 ^ F.lastBit q

/-- `q` with the lowest `k` bits of its significand put to zero. -/
def clearLow (k : Nat) (q : ℚ) : ℚ :=
  truncate (q / 2 ^ (F.lastBit q + k)) * 2 ^ (F.lastBit q + k)

variable {F}

@[simp] theorem nearest_zero : F.nearest 0 = 0 := by
  have zero : roundHalfEven (0 : ℚ) = 0 := by exact_mod_cast roundHalfEven_intCast 0
  simp [nearest, zero]

theorem nearest_nonneg {q : ℚ} (nonneg : 0 ≤ q) : 0 ≤ F.nearest q := by
  have unit : (0 : ℚ) < 2 ^ F.lastBit q := zpow_pos (by norm_num) _
  have rounded : (0 : Int) ≤ roundHalfEven (q / 2 ^ F.lastBit q) :=
    (Int.floor_nonneg.2 (div_nonneg nonneg unit.le)).trans (floor_le_roundHalfEven _)
  exact mul_nonneg (by exact_mod_cast rounded) unit.le

theorem nearest_nonpos {q : ℚ} (nonpos : q ≤ 0) : F.nearest q ≤ 0 := by
  have unit : (0 : ℚ) < 2 ^ F.lastBit q := zpow_pos (by norm_num) _
  have rounded : roundHalfEven (q / 2 ^ F.lastBit q) ≤ ((0 : Int) : Int) := by
    have below := roundHalfEven_mono (div_nonpos_of_nonpos_of_nonneg nonpos unit.le)
    rwa [← Int.cast_zero, roundHalfEven_intCast] at below
  exact mul_nonpos_of_nonpos_of_nonneg (by exact_mod_cast rounded) unit.le

theorem lastBit_mono {p q : ℚ} (pos : 0 < p) (le : p ≤ q) : F.lastBit p ≤ F.lastBit q := by
  have logs : Int.log 2 |p| ≤ Int.log 2 |q| := by
    rw [abs_of_pos pos, abs_of_pos (pos.trans_le le)]
    exact Int.log_mono_right pos le
  unfold lastBit
  omega

/-- Rounding keeps the order: within one binade because the unit is the same, across
two because the power of two between them is a number of both. -/
theorem nearest_mono_of_nonneg {p q : ℚ} (nonneg : 0 ≤ p) (le : p ≤ q) :
    F.nearest p ≤ F.nearest q := by
  rcases nonneg.eq_or_lt with rfl | pos
  · rw [nearest_zero]
    exact nearest_nonneg le
  have two : (2 : ℚ) ≠ 0 := by norm_num
  have unit (e : Int) : (0 : ℚ) < 2 ^ e := zpow_pos (by norm_num) _
  rcases (lastBit_mono (F := F) pos le).eq_or_lt with same | apart
  · rw [nearest, nearest, ← same]
    refine mul_le_mul_of_nonneg_right ?_ (unit _).le
    exact_mod_cast roundHalfEven_mono (div_le_div_of_nonneg_right le (unit _).le)
  set top : Int := F.lastBit q + F.mantissaBits with top_
  have top_log : top = Int.log 2 |q| := by
    have := lastBit_mono (F := F) pos le
    unfold lastBit at apart top_
    omega
  have p_below : p < 2 ^ top := by
    have lt := Int.lt_zpow_succ_log_self (b := 2) (by norm_num) |p|
    rw [abs_of_pos pos] at lt
    refine lt.trans_le ?_
    have exponents : Int.log 2 p + 1 ≤ top := by
      have : Int.log 2 |p| ≤ F.lastBit p + F.mantissaBits := by
        unfold lastBit
        omega
      rw [abs_of_pos pos] at this
      omega
    exact zpow_le_zpow_right₀ (by norm_num) exponents
  have q_above : (2 : ℚ) ^ top ≤ q := by
    rw [top_log, abs_of_pos (pos.trans_le le)]
    exact_mod_cast Int.zpow_log_le_self (by norm_num) (pos.trans_le le)
  -- a power of two is a whole number of units on either side
  have whole (e : Int) (low : e ≤ top) : ∃ n : Nat, (2 : ℚ) ^ top = (n : Int) * 2 ^ e := by
    obtain ⟨d, hd⟩ := Int.eq_ofNat_of_zero_le (sub_nonneg.2 low)
    refine ⟨2 ^ d, ?_⟩
    have : top = d + e := by omega
    rw [this, zpow_add₀ two, zpow_natCast]
    push_cast
    rfl
  obtain ⟨n, hn⟩ := whole (F.lastBit p) (by omega)
  obtain ⟨k, hk⟩ := whole (F.lastBit q) (by omega)
  calc F.nearest p ≤ (n : Int) * 2 ^ F.lastBit p := by
        refine mul_le_mul_of_nonneg_right ?_ (unit _).le
        have : p / 2 ^ F.lastBit p ≤ (n : Int) := by
          rw [div_le_iff₀ (unit _), ← hn]
          exact p_below.le
        have rounded := roundHalfEven_mono this
        rw [roundHalfEven_intCast] at rounded
        exact_mod_cast rounded
    _ = (k : Int) * 2 ^ F.lastBit q := by rw [← hn, hk]
    _ ≤ F.nearest q := by
        refine mul_le_mul_of_nonneg_right ?_ (unit _).le
        have : ((k : Int) : ℚ) ≤ q / 2 ^ F.lastBit q := by
          rw [le_div_iff₀ (unit _), ← hk]
          exact q_above
        have rounded := roundHalfEven_mono this
        rw [roundHalfEven_intCast] at rounded
        exact_mod_cast rounded

theorem log_lt_of_lt_zpow {q : ℚ} (pos : 0 < q) {e : Int} (lt : q < 2 ^ e) : Int.log 2 |q| < e := by
  rw [abs_of_pos pos]
  exact (Int.lt_zpow_iff_log_lt (by norm_num) pos).1 (by exact_mod_cast lt)

/-- A number of the format: a significand that fits and a unit that is not too small. -/
theorem nearest_scaled {n : Nat} {e : Int} (fits : n < 2 ^ (F.mantissaBits + 1))
    (low : 1 - F.bias - F.mantissaBits ≤ e) : F.nearest (n * 2 ^ e) = n * 2 ^ e := by
  rcases Nat.eq_zero_or_pos n with rfl | pos
  · rw [Nat.cast_zero, zero_mul, nearest_zero]
  have two : (2 : ℚ) ≠ 0 := by norm_num
  have unit (z : Int) : (0 : ℚ) < 2 ^ z := zpow_pos (by norm_num) z
  have below : (n : ℚ) * 2 ^ e < 2 ^ ((F.mantissaBits : Int) + 1 + e) := by
    rw [zpow_add₀ two]
    refine mul_lt_mul_of_pos_right ?_ (unit e)
    exact_mod_cast fits
  set last : Int := F.lastBit (n * 2 ^ e) with last_
  have short : last ≤ e := by
    have := log_lt_of_lt_zpow (mul_pos (Nat.cast_pos.2 pos) (unit e)) below
    unfold lastBit at last_
    omega
  obtain ⟨d, hd⟩ := Int.eq_ofNat_of_zero_le (sub_nonneg.2 short)
  have units : ((n * 2 ^ d : Nat) : Int) * (2 : ℚ) ^ last = n * 2 ^ e := by
    have exponents : e = d + last := by omega
    rw [exponents, zpow_add₀ two, zpow_natCast]
    push_cast
    ring
  rw [nearest, ← last_, ← units, mul_div_cancel_right₀ _ (unit last).ne', roundHalfEven_intCast]

/-- Rounding in the binade of units `2 ^ e`. -/
theorem nearest_of_log {q : ℚ} {e : Int} (low : 2 ^ (e + F.mantissaBits) ≤ q)
    (high : q < 2 ^ (e + F.mantissaBits + 1)) (normal : 1 - F.bias ≤ e + F.mantissaBits) :
    F.nearest q = roundHalfEven (q / 2 ^ e) * 2 ^ e := by
  have pos : 0 < q := (zpow_pos (by norm_num) _).trans_le low
  have above : e + F.mantissaBits ≤ Int.log 2 |q| := by
    rw [abs_of_pos pos]
    exact (Int.zpow_le_iff_le_log (by norm_num) pos).1 (by exact_mod_cast low)
  have below := log_lt_of_lt_zpow pos high
  have last : F.lastBit q = e := by
    unfold lastBit
    omega
  rw [nearest, last]

/-- What is rounded is a number of the format. -/
theorem exists_nearest_eq {q : ℚ} (nonneg : 0 ≤ q) : ∃ (n : Nat) (e : Int),
    n < 2 ^ (F.mantissaBits + 1) ∧ 1 - F.bias - F.mantissaBits ≤ e ∧ F.nearest q = n * 2 ^ e := by
  rcases nonneg.eq_or_lt with rfl | pos
  · exact ⟨0, _, by positivity, le_rfl, by rw [nearest_zero, Nat.cast_zero, zero_mul]⟩
  have two : (2 : ℚ) ≠ 0 := by norm_num
  have unit (z : Int) : (0 : ℚ) < 2 ^ z := zpow_pos (by norm_num) z
  set last : Int := F.lastBit q with last_
  have low : 1 - F.bias - F.mantissaBits ≤ last := by
    rw [last_, lastBit]
    omega
  have log_le : Int.log 2 q ≤ last + F.mantissaBits := by
    rw [last_, lastBit, abs_of_pos pos]
    omega
  have quotient_le : q / 2 ^ last ≤ ((2 ^ (F.mantissaBits + 1) : Nat) : Int) := by
    rw [div_le_iff₀ (unit last)]
    calc q ≤ 2 ^ (Int.log 2 q + 1) := by
          exact_mod_cast (Int.lt_zpow_succ_log_self (b := 2) (by norm_num) q).le
      _ ≤ 2 ^ (((F.mantissaBits + 1 : Nat) : Int) + last) :=
        zpow_le_zpow_right₀ (by norm_num) (by push_cast; omega)
      _ = ((2 ^ (F.mantissaBits + 1) : Nat) : Int) * 2 ^ last := by
        rw [zpow_add₀ two, zpow_natCast]
        push_cast
        rfl
  have rounded_le := roundHalfEven_mono quotient_le
  rw [roundHalfEven_intCast] at rounded_le
  have rounded_nonneg : (0 : Int) ≤ roundHalfEven (q / 2 ^ last) :=
    (Int.floor_nonneg.2 (div_nonneg nonneg (unit last).le)).trans (floor_le_roundHalfEven _)
  obtain ⟨n, hn⟩ := Int.eq_ofNat_of_zero_le rounded_nonneg
  have value : F.nearest q = n * 2 ^ last := by
    rw [nearest, ← last_, hn]
    rfl
  rw [hn] at rounded_le
  rcases (Int.ofNat_le.1 rounded_le).lt_or_eq with less | rfl
  · exact ⟨n, last, less, low, value⟩
  -- it is rounded up to the next binade
  · refine ⟨2 ^ F.mantissaBits, last + 1, Nat.pow_lt_pow_right Nat.one_lt_two (Nat.lt_succ_self _),
      by omega, ?_⟩
    rw [value, zpow_add₀ two, zpow_one]
    push_cast
    ring

/-- A power of two is multiplied without rounding. -/
theorem nearest_mul_two_pow {q : ℚ} (nonneg : 0 ≤ q) (k : Nat) :
    F.nearest (F.nearest q * 2 ^ k) = F.nearest q * 2 ^ k := by
  obtain ⟨n, e, fits, low, value⟩ := exists_nearest_eq (F := F) nonneg
  have scaled : F.nearest q * 2 ^ k = n * 2 ^ (e + k) := by
    rw [value, mul_assoc, ← zpow_natCast, ← zpow_add₀ (by norm_num)]
  rw [scaled, nearest_scaled fits (by omega)]

theorem clearLow_nonneg {q : ℚ} (nonneg : 0 ≤ q) (k : Nat) : 0 ≤ F.clearLow k q := by
  have quotient : 0 ≤ q / 2 ^ (F.lastBit q + k) := by positivity
  have whole : (0 : ℚ) ≤ ⌊q / 2 ^ (F.lastBit q + k)⌋ := by
    exact_mod_cast Int.floor_nonneg.2 quotient
  rw [clearLow, truncate, if_pos quotient]
  positivity

/-- What is left of a significand is one. -/
theorem nearest_clearLow {q : ℚ} (nonneg : 0 ≤ q) (k : Nat) :
    F.nearest (F.clearLow k q) = F.clearLow k q := by
  rcases nonneg.eq_or_lt with rfl | pos
  · have zero : F.clearLow k 0 = 0 := by simp [clearLow, truncate]
    rw [zero, nearest_zero]
  have two : (2 : ℚ) ≠ 0 := by norm_num
  have unit (z : Int) : (0 : ℚ) < 2 ^ z := zpow_pos (by norm_num) z
  set last : Int := F.lastBit q with last_
  have low : 1 - F.bias - F.mantissaBits ≤ last := by
    rw [last_, lastBit]
    omega
  have log_le : Int.log 2 q ≤ last + F.mantissaBits := by
    rw [last_, lastBit, abs_of_pos pos]
    omega
  have quotient : 0 ≤ q / 2 ^ (last + k) := (div_pos pos (unit _)).le
  obtain ⟨n, hn⟩ := Int.eq_ofNat_of_zero_le (Int.floor_nonneg.2 quotient)
  have units : (2 : ℚ) ^ (last + k) = 2 ^ k * 2 ^ last := by
    rw [add_comm, zpow_add₀ two, zpow_natCast]
  have value : F.clearLow k q = ((n * 2 ^ k : Nat) : ℚ) * 2 ^ last := by
    rw [clearLow, ← last_, truncate, if_pos quotient, hn, units]
    push_cast
    ring
  have fits : n * 2 ^ k < 2 ^ (F.mantissaBits + 1) := by
    have floor_le : (n : ℚ) * 2 ^ (last + k) ≤ q := by
      rw [← le_div_iff₀ (unit _)]
      have := Int.floor_le (q / 2 ^ (last + k))
      rwa [hn] at this
    have less : (n : ℚ) * 2 ^ (last + k) < 2 ^ ((F.mantissaBits + 1 : Nat) : Int) * 2 ^ last := by
      calc (n : ℚ) * 2 ^ (last + k) ≤ q := floor_le
        _ < 2 ^ (Int.log 2 q + 1) := by
          exact_mod_cast Int.lt_zpow_succ_log_self (b := 2) (by norm_num) q
        _ ≤ 2 ^ (((F.mantissaBits + 1 : Nat) : Int) + last) :=
          zpow_le_zpow_right₀ (by norm_num) (by push_cast; omega)
        _ = 2 ^ ((F.mantissaBits + 1 : Nat) : Int) * 2 ^ last := zpow_add₀ two _ _
    rw [units, ← mul_assoc, mul_lt_mul_iff_left₀ (unit last)] at less
    exact_mod_cast less
  rw [value, nearest_scaled fits low]

theorem nearest_le {p q : ℚ} (nonneg : 0 ≤ p) (le : p ≤ q) (exact_ : F.nearest q = q) :
    F.nearest p ≤ q := (nearest_mono_of_nonneg nonneg le).trans_eq exact_

theorem le_nearest {p q : ℚ} (nonneg : 0 ≤ p) (le : p ≤ q) (exact_ : F.nearest p = p) :
    p ≤ F.nearest q := exact_.symm.trans_le (nearest_mono_of_nonneg nonneg le)

/-- A natural number that fits in the significand is not rounded. -/
theorem nearest_natCast {n : Nat} (normal : 1 - F.bias ≤ 0)
    (fits : n < 2 ^ (F.mantissaBits + 1)) : F.nearest n = n := by
  have scaled : F.nearest (n * 2 ^ (0 : Int)) = n * 2 ^ (0 : Int) := nearest_scaled fits (by omega)
  rwa [zpow_zero, mul_one] at scaled

end Format

/-! ## Values and operations -/

/-- A number, an infinity with its sign, or a NaN. -/
inductive Value
  | nan
  | infinity (negative : Bool)
  | finite (q : ℚ)
  deriving DecidableEq

namespace Value

/-- `q` rounded to the format. -/
def ofRat (F : Format) (q : ℚ) : Value :=
  if |F.nearest q| < 2 ^ (F.bias + 1) then finite (F.nearest q) else infinity (q < 0)

def mul (F : Format) : Value → Value → Value
  | nan, _ => nan
  | _, nan => nan
  | infinity s, infinity t => infinity (s != t)
  | infinity s, finite q => if q = 0 then nan else infinity (s != decide (q < 0))
  | finite q, infinity s => if q = 0 then nan else infinity (s != decide (q < 0))
  | finite p, finite q => ofRat F (p * q)

/-- `1.0 / x`. -/
def inv (F : Format) : Value → Value
  | nan => nan
  | infinity _ => finite 0
  | finite q => if q = 0 then infinity false else ofRat F (1 / q)

def div (F : Format) : Value → Value → Value
  | nan, _ => nan
  | _, nan => nan
  | infinity _, infinity _ => nan
  | infinity s, finite q => infinity (s != decide (q < 0))
  | finite _, infinity _ => finite 0
  | finite p, finite q =>
    if q = 0 then if p = 0 then nan else infinity (p < 0) else ofRat F (p / q)

def add (F : Format) : Value → Value → Value
  | nan, _ => nan
  | _, nan => nan
  | infinity s, infinity t => if s = t then infinity s else nan
  | infinity s, finite _ => infinity s
  | finite _, infinity t => infinity t
  | finite p, finite q => ofRat F (p + q)

def sub (F : Format) : Value → Value → Value
  | nan, _ => nan
  | _, nan => nan
  | infinity s, infinity t => if s = t then nan else infinity s
  | infinity s, finite _ => infinity s
  | finite _, infinity t => infinity !t
  | finite p, finite q => ofRat F (p - q)

/-- The square root. It is cut after more bits than a number of `F` has, and half of the last
bit stands for what is cut off, so that it rounds as the root itself does. -/
def sqrt (F : Format) : Value → Value
  | nan => nan
  | infinity negative => if negative then nan else infinity false
  | finite q =>
    if q < 0 then nan
    else
      let bits := F.bias.toNat + 2 * F.mantissaBits
      let root := Nat.sqrt ⌊q * 4 ^ bits⌋₊
      ofRat F ((if (root : ℚ) ^ 2 = q * 4 ^ bits then (root : ℚ) else root + 1 / 2) / 2 ^ bits)

def neg : Value → Value
  | nan => nan
  | infinity s => infinity !s
  | finite q => finite (-q)

/-- `x < y`, false when either is a NaN. -/
def lt : Value → Value → Bool
  | nan, _ => false
  | _, nan => false
  | infinity s, infinity t => s && !t
  | infinity s, finite _ => s
  | finite _, infinity t => !t
  | finite p, finite q => p < q

/-- `x <= y`, false when either is a NaN. -/
def le : Value → Value → Bool
  | nan, _ => false
  | _, nan => false
  | infinity s, infinity t => s || !t
  | infinity s, finite _ => s
  | finite _, infinity t => !t
  | finite p, finite q => p ≤ q

/-- Conversion to another format. -/
def convert (F : Format) : Value → Value
  | finite q => ofRat F q
  | v => v

/-- Rounding to an integer, ties away from zero, as `round` and `roundf` do. -/
def round : Value → Value
  | finite q => finite (roundHalfAway q)
  | v => v

/-- Conversion to an integer type with values from `low` up to `high`. -/
def toIntegral (low high : Int) : Value → Option Int
  | finite q => if low ≤ truncate q ∧ truncate q ≤ high then some (truncate q) else none
  | _ => none

/-- Conversion to `int`. -/
def toInt (v : Value) : Option Int := v.toIntegral (-2 ^ 31) (2 ^ 31 - 1)

/-- Conversion to `size_t`. -/
def toSizeT (v : Value) : Option UInt64 := (v.toIntegral 0 (2 ^ 64 - 1)).map UInt64.ofInt

theorem toInt_eq_some {v : Value} {z : Int} (defined : v.toInt = some z) :
    ∃ q, v = finite q ∧ z = truncate q ∧ -2 ^ 31 ≤ z ∧ z ≤ 2 ^ 31 - 1 := by
  cases v with
  | nan => simp [toInt, toIntegral] at defined
  | infinity s => simp [toInt, toIntegral] at defined
  | finite q =>
    simp only [toInt, toIntegral] at defined
    split at defined
    · next fits =>
      obtain rfl := Option.some.inj defined
      exact ⟨q, rfl, rfl, fits⟩
    · cases defined

theorem toInt_round_eq_some {v : Value} {z : Int} (defined : v.round.toInt = some z) :
    ∃ q, v = finite q ∧ z = roundHalfAway q ∧ -2 ^ 31 ≤ z ∧ z ≤ 2 ^ 31 - 1 := by
  obtain ⟨r, rounded, rfl, low, high⟩ := toInt_eq_some defined
  cases v with
  | nan => cases rounded
  | infinity s => cases rounded
  | finite q =>
    obtain rfl : ((roundHalfAway q : Int) : ℚ) = r := by simpa [round] using rounded
    refine ⟨q, rfl, ?_, low, high⟩
    rw [truncate_intCast]

theorem toSizeT_of_lt {q : ℚ} (nonneg : 0 ≤ q) (less : q < 2 ^ 64) :
    ∃ n, (finite q).toSizeT = some n ∧ n.toNat = ⌊q⌋₊ := by
  have whole : truncate q = ⌊q⌋₊ := by
    rw [truncate, if_pos nonneg, Int.natCast_floor_eq_floor nonneg]
  have below : ⌊q⌋₊ < 2 ^ 64 := (Nat.floor_lt nonneg).2 (by exact_mod_cast less)
  refine ⟨UInt64.ofNat ⌊q⌋₊, ?_, ?_⟩
  · rw [toSizeT, toIntegral, whole, if_pos (by omega), Option.map_some, UInt64.ofInt]
    have small : ((⌊q⌋₊ : Int) % 2 ^ 64).toNat = ⌊q⌋₊ := by omega
    rw [small]
  · rw [UInt64.toNat_ofNat']
    omega

theorem toSizeT_finite {q : ℚ} (nonneg : 0 ≤ q) (fits : q ≤ 2 ^ 64 - 1) :
    ∃ n, (finite q).toSizeT = some n ∧ n.toNat = ⌊q⌋₊ :=
  toSizeT_of_lt nonneg (by linarith)

theorem ofRat_zero (F : Format) : ofRat F 0 = finite 0 := by
  rw [ofRat, Format.nearest_zero, abs_zero, if_pos (zpow_pos two_pos _)]

theorem ofRat_of_nonneg {F : Format} {q : ℚ} (nonneg : 0 ≤ q) :
    ofRat F q = finite (F.nearest q) ∨ ofRat F q = infinity false := by
  unfold ofRat
  split
  · exact .inl rfl
  · exact .inr (congrArg infinity (decide_eq_false (not_lt.2 nonneg)))

/-- Below a number of the format there is no overflow. -/
theorem ofRat_of_le {F : Format} {q bound : ℚ} (nonneg : 0 ≤ q) (le : q ≤ bound)
    (exact_ : F.nearest bound = bound) (range : bound < 2 ^ (F.bias + 1)) :
    ofRat F q = finite (F.nearest q) := by
  rw [ofRat, if_pos]
  rw [abs_of_nonneg (Format.nearest_nonneg nonneg)]
  exact (Format.nearest_le nonneg le exact_).trans_lt range

theorem ofRat_natCast {F : Format} {n : Nat} (normal : 1 - F.bias ≤ 0)
    (wide : F.mantissaBits ≤ F.bias) (fits : n < 2 ^ (F.mantissaBits + 1)) :
    ofRat F n = finite n := by
  have exact_ : F.nearest n = n := Format.nearest_natCast normal fits
  have range : (n : ℚ) < 2 ^ (F.bias + 1) := by
    calc (n : ℚ) < 2 ^ (F.mantissaBits + 1) := by exact_mod_cast fits
      _ = 2 ^ ((F.mantissaBits : Int) + 1) := by norm_cast
      _ ≤ 2 ^ (F.bias + 1) := zpow_le_zpow_right₀ (by norm_num) (by omega)
  rw [ofRat_of_le (Nat.cast_nonneg n) le_rfl exact_ range, exact_]

theorem ofRat_eq_finite {F : Format} {q r : ℚ} (finite_ : ofRat F q = finite r) :
    r = F.nearest q ∧ |F.nearest q| < 2 ^ (F.bias + 1) := by
  unfold ofRat at finite_
  split at finite_
  · next fits => exact ⟨(finite.inj finite_).symm, fits⟩
  · cases finite_

end Value

/-- The format of `float`. -/
def binary32 : Format := ⟨8, 23⟩

/-- The format of `double`. -/
def binary64 : Format := ⟨11, 52⟩

theorem nearest_natCast_double {n : Nat} (fits : n < 2 ^ 53) : binary64.nearest n = n :=
  Format.nearest_natCast (by decide) fits

/-- The format of `long double` on x86. -/
def extended : Format := ⟨15, 63⟩

end BinaryFloat
