import Mathlib
import NcclTests.Lib.Ieee

/-!
# Distance-weighted bytes

The `double` formula of `AlltoAllvGetPeerBytesDistanceWeighted` and the numbers it gives. The
two shares are at most the total, and so is their mean before rounding. With two ranks the
whole total goes to the other rank, and from `2 ^ 64 - 1024` bytes on it is rounded to `2 ^ 64`.
-/

namespace NcclTests.Collective

open BinaryFloat

/-- Conversion of an integer to `double`. -/
def toDouble (n : Nat) : Value := .ofRat binary64 n

/-- `bytes` in `AlltoAllvGetPeerBytesDistanceWeighted`, for more than one rank. -/
def weightedBytes (spread : Value) (i j nranks totalBytes : Nat) : Value :=
  let distance := (j + nranks - i) % nranks
  let sumDistances := nranks * (nranks - 1) / 2
  let uniform := (toDouble totalBytes).div binary64 (toDouble nranks)
  let dist := ((toDouble distance).mul binary64 (toDouble totalBytes)).div binary64
    (toDouble sumDistances)
  (((Value.finite 1).sub binary64 spread).mul binary64 uniform).add binary64
    (spread.mul binary64 dist)

/-! ## Doubles -/

section Doubles

variable {q : ℚ}

/-- A significand of 53 bits. -/
theorem nearest_eq_self (n : Nat) (e : Int) (same : q = n * 2 ^ e) (fits : n < 2 ^ 53)
    (low : -1074 ≤ e) : binary64.nearest q = q := by
  rw [same]
  exact Format.nearest_scaled fits ((by decide : (1 : Int) - binary64.bias - 52 ≤ -1074).trans low)

theorem ofRat_double (nonneg : 0 ≤ q) (le : q ≤ 2 ^ 100) :
    Value.ofRat binary64 q = .finite (binary64.nearest q) := by
  refine Value.ofRat_of_le nonneg le (nearest_eq_self 1 100 ?_ (by norm_num) (by norm_num)) ?_
  · norm_num
  · have exponent : (100 : Int) < binary64.bias + 1 := by decide
    exact_mod_cast zpow_lt_zpow_right₀ (by norm_num : (1 : ℚ) < 2) exponent

theorem div_double {p q : ℚ} (pos : 0 < q) (nonneg : 0 ≤ p) (le : p / q ≤ 2 ^ 100) :
    (Value.finite p).div binary64 (.finite q) = .finite (binary64.nearest (p / q)) := by
  rw [Value.div, if_neg pos.ne']
  exact ofRat_double (div_nonneg nonneg pos.le) le

theorem nearest_one : binary64.nearest 1 = 1 := by
  exact_mod_cast nearest_natCast_double (by norm_num : 1 < 2 ^ 53)

/-- The doubles from one half up to one. -/
theorem exists_of_half_le (double : binary64.nearest q = q) (low : 1 / 2 ≤ q) (high : q < 1) :
    ∃ k : Nat, 2 ^ 52 ≤ k ∧ k < 2 ^ 53 ∧ q = k * 2 ^ (-53 : Int) := by
  have rounded : binary64.nearest q =
      roundHalfEven (q / 2 ^ (-53 : Int)) * 2 ^ (-53 : Int) := by
    refine Format.nearest_of_log ?_ ?_ (by decide)
    · refine le_trans ?_ low
      norm_num [binary64]
    · refine high.trans_le ?_
      norm_num [binary64]
  rw [double] at rounded
  generalize roundHalfEven (q / 2 ^ (-53 : Int)) = z at rounded
  have bounds : 2 ^ 52 ≤ z ∧ z < 2 ^ 53 := by
    rw [rounded] at low high
    norm_num at low high
    have below : (z : ℚ) < 2 ^ 53 := by linarith
    have above : (2 : ℚ) ^ 52 ≤ z := by linarith
    exact ⟨by exact_mod_cast above, by exact_mod_cast below⟩
  obtain ⟨k, rfl⟩ := Int.eq_ofNat_of_zero_le (by omega : 0 ≤ z)
  exact ⟨k, by omega, by omega, rounded⟩

end Doubles

/-! ## The mean of two shares -/

/-- `(1.0 - spread) * uniform + spread * dist`. -/
def mean (s u d : ℚ) : ℚ :=
  binary64.nearest (binary64.nearest (binary64.nearest (1 - s) * u) + binary64.nearest (s * d))

section Mean

variable {s u d a b c : ℚ}

theorem complement_mul_nonneg (high : s ≤ 1) (hu : 0 ≤ u) : 0 ≤ binary64.nearest (1 - s) * u :=
  mul_nonneg (Format.nearest_nonneg (sub_nonneg.2 high)) hu

theorem mean_nonneg (low : 0 ≤ s) (high : s ≤ 1) (hu : 0 ≤ u) (hd : 0 ≤ d) : 0 ≤ mean s u d := by
  refine Format.nearest_nonneg (add_nonneg ?_ ?_)
  · exact Format.nearest_nonneg (complement_mul_nonneg high hu)
  · exact Format.nearest_nonneg (mul_nonneg low hd)

theorem mean_le_of_rounded (low : 0 ≤ s) (high : s ≤ 1) (hu : 0 ≤ u) (hd : 0 ≤ d)
    (first : binary64.nearest (binary64.nearest (1 - s) * u) ≤ a)
    (second : binary64.nearest (s * d) ≤ b) (sum : a + b ≤ c)
    (double : binary64.nearest c = c) : mean s u d ≤ c := by
  refine Format.nearest_le (add_nonneg ?_ ?_) ((add_le_add first second).trans sum) double
  · exact Format.nearest_nonneg (complement_mul_nonneg high hu)
  · exact Format.nearest_nonneg (mul_nonneg low hd)

/-- A bound by doubles is a bound after rounding. -/
theorem mean_le (low : 0 ≤ s) (high : s ≤ 1) (hu : 0 ≤ u) (hd : 0 ≤ d)
    (first : binary64.nearest (1 - s) * u ≤ a) (double_a : binary64.nearest a = a)
    (second : s * d ≤ b) (double_b : binary64.nearest b = b)
    (sum : a + b ≤ c) (double_c : binary64.nearest c = c) : mean s u d ≤ c := by
  exact mean_le_of_rounded low high hu hd
    (Format.nearest_le (complement_mul_nonneg high hu) first double_a)
    (Format.nearest_le (mul_nonneg low hd) second double_b) sum double_c

/-- The mean as the operations on `double` give it. -/
theorem mean_value (low : 0 ≤ s) (high : s ≤ 1) (hu : 0 ≤ u) (hd : 0 ≤ d) (uniform : u ≤ 2 ^ 63)
    (dist : d ≤ 2 ^ 95) :
    (((Value.finite 1).sub binary64 (.finite s)).mul binary64 (.finite u)).add binary64
      ((Value.finite s).mul binary64 (.finite d)) = .finite (mean s u d) := by
  have rest : (Value.finite 1).sub binary64 (.finite s) = .finite (binary64.nearest (1 - s)) :=
    ofRat_double (sub_nonneg.2 high) (by linarith)
  have part_nonneg := complement_mul_nonneg high hu
  have rest_le : binary64.nearest (1 - s) ≤ 1 :=
    Format.nearest_le (sub_nonneg.2 high) (sub_le_self 1 low) nearest_one
  have part_le : binary64.nearest (1 - s) * u ≤ 2 ^ 63 :=
    (mul_le_of_le_one_left hu rest_le).trans uniform
  have first : (Value.finite (binary64.nearest (1 - s))).mul binary64 (.finite u) =
      .finite (binary64.nearest (binary64.nearest (1 - s) * u)) :=
    ofRat_double part_nonneg (part_le.trans (by norm_num))
  have first_le : binary64.nearest (binary64.nearest (1 - s) * u) ≤ 2 ^ 63 :=
    Format.nearest_le part_nonneg part_le
      (nearest_eq_self 1 63 (by norm_num) (by norm_num) (by norm_num))
  have other_le : s * d ≤ 2 ^ 95 := (mul_le_of_le_one_left hd high).trans dist
  have second : (Value.finite s).mul binary64 (.finite d) =
      .finite (binary64.nearest (s * d)) :=
    ofRat_double (mul_nonneg low hd) (other_le.trans (by norm_num))
  have second_le : binary64.nearest (s * d) ≤ 2 ^ 95 :=
    Format.nearest_le (mul_nonneg low hd) other_le
      (nearest_eq_self 1 95 (by norm_num) (by norm_num) (by norm_num))
  rw [rest, first, second]
  refine ofRat_double (add_nonneg ?_ ?_) ((add_le_add first_le second_le).trans (by norm_num))
  · exact Format.nearest_nonneg part_nonneg
  · exact Format.nearest_nonneg (mul_nonneg low hd)

theorem mul_le_of_complement (high : s ≤ 1) (hu : 0 ≤ u) {r v : ℚ} (complement : 1 - s ≤ r)
    (double : binary64.nearest r = r) (le : r * u ≤ v) : binary64.nearest (1 - s) * u ≤ v :=
  (mul_le_mul_of_nonneg_right
    (Format.nearest_le (sub_nonneg.2 high) complement double) hu).trans le

/-- With three ranks or more, both shares are well below the total. -/
theorem mean_le_of_shares (low : 0 ≤ s) (high : s ≤ 1) (hu : 0 ≤ u) (hd : 0 ≤ d)
    (uniform : u ≤ 3 * 2 ^ 61) (dist : d ≤ 3 * 2 ^ 62) : mean s u d ≤ 15 * 2 ^ 60 := by
  have double : binary64.nearest (15 * 2 ^ 60) = 15 * 2 ^ 60 :=
    nearest_eq_self 15 60 (by norm_num) (by norm_num) (by norm_num)
  rcases le_total s (1 / 2) with small | large
  · have both : binary64.nearest (3 * 2 ^ 61) = 3 * 2 ^ 61 :=
      nearest_eq_self 3 61 (by norm_num) (by norm_num) (by norm_num)
    refine mean_le low high hu hd ?_ both ?_ both (by norm_num) double
    · exact mul_le_of_complement high hu (sub_le_self 1 low) nearest_one (by linarith)
    · nlinarith
  · refine mean_le low high hu hd ?_
      (nearest_eq_self 3 60 rfl (by norm_num) (by norm_num)) (b := 3 * 2 ^ 62) ?_
      (nearest_eq_self 3 62 (by norm_num) (by norm_num) (by norm_num)) ?_ double
    · refine mul_le_of_complement high hu (r := 1 / 2) (by linarith) ?_ ?_
      · exact nearest_eq_self 1 (-1) (by norm_num) (by norm_num) (by norm_num)
      · norm_num
        linarith
    · nlinarith
    · norm_num

/-- With two ranks the other one gets all of it; the last double below one still halves. -/
theorem mean_le_of_lt (double : binary64.nearest s = s) (low : 0 ≤ s)
    (less : s < 1 - 2 ^ (-53 : Int)) (hu : 0 ≤ u) (hd : 0 ≤ d) (uniform : u ≤ 2 ^ 63)
    (dist : d ≤ 2 ^ 64) : mean s u d ≤ 2 ^ 64 - 2 ^ 11 := by
  have high : s ≤ 1 := less.le.trans (by norm_num)
  have top : binary64.nearest (2 ^ 64 - 2 ^ 11) = 2 ^ 64 - 2 ^ 11 :=
    nearest_eq_self (2 ^ 53 - 1) 11 (by norm_num) (by norm_num) (by norm_num)
  have half : binary64.nearest (2 ^ 63) = 2 ^ 63 :=
    nearest_eq_self 1 63 (by norm_num) (by norm_num) (by norm_num)
  rcases le_or_gt s (1 / 4) with small | large
  · refine mean_le low high hu hd (a := 2 ^ 63) ?_ half (b := 2 ^ 62) ?_
      (nearest_eq_self 1 62 (by norm_num) (by norm_num) (by norm_num)) (by norm_num) top
    · exact mul_le_of_complement high hu (sub_le_self 1 low) nearest_one (by linarith)
    · nlinarith
  rcases lt_or_ge s (1 / 2) with middle | large
  · refine mean_le low high hu hd (a := 3 * 2 ^ 61) ?_
      (nearest_eq_self 3 61 (by norm_num) (by norm_num) (by norm_num)) (b := 2 ^ 63) ?_ half
      (by norm_num) top
    · refine mul_le_of_complement high hu (r := 3 / 4) (by linarith) ?_ (by linarith)
      exact nearest_eq_self 3 (-2) (by norm_num) (by norm_num) (by norm_num)
    · nlinarith
  obtain ⟨k, most, fits, rfl⟩ := exists_of_half_le double large (less.trans (by norm_num))
  have k_le : k + 2 ≤ 2 ^ 53 := by
    by_contra more
    obtain rfl : k = 2 ^ 53 - 1 := by omega
    norm_num at less
  obtain ⟨m, complement⟩ := Nat.exists_eq_add_of_le fits.le
  have total : (2 : ℚ) ^ 53 = k + m := by exact_mod_cast complement
  have k_le_ : (k : ℚ) + 2 ≤ 2 ^ 53 := by exact_mod_cast k_le
  refine mean_le low high hu hd (a := m * 2 ^ 10) ?_
    (nearest_eq_self m 10 (by norm_num) (by omega) (by norm_num)) (b := k * 2 ^ 11) ?_
    (nearest_eq_self k 11 (by norm_num) fits (by norm_num)) (by linarith) top
  · refine mul_le_of_complement high hu (r := m * 2 ^ (-53 : Int)) ?_
      (nearest_eq_self m (-53) rfl (by omega) (by norm_num)) ?_
    · norm_num
      linarith
    · have scaled := mul_le_mul_of_nonneg_left uniform (Nat.cast_nonneg (α := ℚ) m)
      norm_num at scaled ⊢
      linarith
  · have scaled := mul_le_mul_of_nonneg_left dist (Nat.cast_nonneg (α := ℚ) k)
    norm_num at scaled ⊢
    linarith

/-! ### The doubles from `1 - 2 ^ (-53)` on -/

theorem eq_of_le (double : binary64.nearest s = s) (high : s ≤ 1) (le : 1 - 2 ^ (-53 : Int) ≤ s) :
    s = 1 - 2 ^ (-53 : Int) ∨ s = 1 := by
  rcases high.lt_or_eq with less | same
  · obtain ⟨k, most, fits, rfl⟩ := exists_of_half_le double (le_trans (by norm_num) le) less
    have last : k = 2 ^ 53 - 1 := by
      by_contra other
      have k_le : (k : ℚ) + 2 ≤ 2 ^ 53 := by
        have : k + 2 ≤ 2 ^ 53 := by omega
        exact_mod_cast this
      norm_num at le
      linarith
    rw [last]
    norm_num
  · exact .inr same

/-- Rounding below `2 ^ 64`. -/
theorem nearest_binade {q : ℚ} (low : 2 ^ 63 ≤ q) (high : q < 2 ^ 64) :
    binary64.nearest q = roundHalfEven (q / 2 ^ 11) * 2 ^ 11 := by
  have rounded : binary64.nearest q = roundHalfEven (q / 2 ^ (11 : Int)) * 2 ^ (11 : Int) := by
    refine Format.nearest_of_log ?_ ?_ (by decide)
    · refine le_trans ?_ low
      norm_num [binary64]
    · refine high.trans_le ?_
      norm_num [binary64]
  exact_mod_cast rounded

/-- The number in the middle of the last two doubles up to `2 ^ 64`. -/
theorem nearest_tie : binary64.nearest (2 ^ 64 - 2 ^ 10) = 2 ^ 64 := by
  have whole : ⌊((2 : ℚ) ^ 64 - 2 ^ 10) / 2 ^ 11⌋ = 2 ^ 53 - 1 := by
    rw [Int.floor_eq_iff]
    norm_num
  rw [nearest_binade (by norm_num) (by norm_num), roundHalfEven, whole]
  norm_num

/-- What is left of it, and the part it leaves. -/
theorem nearest_complement : binary64.nearest (1 - (1 - 2 ^ (-53 : Int))) = 2 ^ (-53 : Int) := by
  rw [sub_sub_cancel]
  exact nearest_eq_self 1 (-53) (by norm_num) (by norm_num) (by norm_num)

theorem mean_le_of_le (spread : s = 1 - 2 ^ (-53 : Int) ∨ s = 1) (hu : 0 ≤ u) (hd : 0 ≤ d)
    (uniform : u ≤ 2 ^ 63) (dist : d ≤ 2 ^ 64 - 2 ^ 11) : mean s u d ≤ 2 ^ 64 - 2 ^ 11 := by
  have top : binary64.nearest (2 ^ 64 - 2 ^ 11) = 2 ^ 64 - 2 ^ 11 :=
    nearest_eq_self (2 ^ 53 - 1) 11 (by norm_num) (by norm_num) (by norm_num)
  rcases spread with rfl | rfl
  · refine mean_le_of_rounded (by norm_num) (by norm_num) hu hd (a := 2 ^ 10)
      (b := 2 ^ 64 - 2 ^ 12) ?_ ?_ (by norm_num) top
    · rw [nearest_complement]
      refine Format.nearest_le (by positivity) ?_
        (nearest_eq_self 1 10 (by norm_num) (by norm_num) (by norm_num))
      norm_num
      linarith
    -- the product of the largest two is just above a double
    · have whole : ⌊((2 : ℚ) ^ 64 - 2 ^ 12 + 2 ^ (-42 : Int)) / 2 ^ 11⌋ = 2 ^ 53 - 2 := by
        rw [Int.floor_eq_iff]
        norm_num
      have product : binary64.nearest (2 ^ 64 - 2 ^ 12 + 2 ^ (-42 : Int)) = 2 ^ 64 - 2 ^ 12 := by
        rw [nearest_binade (by norm_num) (by norm_num), roundHalfEven, whole]
        norm_num
      refine (Format.nearest_mono_of_nonneg ?_ ?_).trans_eq product
      · exact mul_nonneg (by norm_num) hd
      · norm_num
        linarith
  · refine mean_le zero_le_one le_rfl hu hd (a := 0) ?_ Format.nearest_zero
      (b := 2 ^ 64 - 2 ^ 11) (by linarith) top (by norm_num) top
    rw [sub_self, Format.nearest_zero, zero_mul]

theorem mean_top (spread : s = 1 - 2 ^ (-53 : Int) ∨ s = 1) :
    mean s (2 ^ 63) (2 ^ 64) = 2 ^ 64 := by
  have full : binary64.nearest (2 ^ 64) = 2 ^ 64 :=
    nearest_eq_self 1 64 (by norm_num) (by norm_num) (by norm_num)
  rcases spread with rfl | rfl
  · have first : binary64.nearest (2 ^ (-53 : Int) * 2 ^ 63) = 2 ^ 10 := by
      have exact_ : binary64.nearest (2 ^ 10) = 2 ^ 10 :=
        nearest_eq_self 1 10 (by norm_num) (by norm_num) (by norm_num)
      have same : (2 : ℚ) ^ (-53 : Int) * 2 ^ 63 = 2 ^ 10 := by norm_num
      rw [same, exact_]
    have second : binary64.nearest ((1 - 2 ^ (-53 : Int)) * 2 ^ 64) = 2 ^ 64 - 2 ^ 11 := by
      have same : ((1 : ℚ) - 2 ^ (-53 : Int)) * 2 ^ 64 = 2 ^ 64 - 2 ^ 11 := by norm_num
      rw [same]
      exact nearest_eq_self (2 ^ 53 - 1) 11 (by norm_num) (by norm_num) (by norm_num)
    have sum : (2 : ℚ) ^ 10 + (2 ^ 64 - 2 ^ 11) = 2 ^ 64 - 2 ^ 10 := by norm_num
    rw [mean, nearest_complement, first, second, sum, nearest_tie]
  · rw [mean, sub_self, Format.nearest_zero, zero_mul, Format.nearest_zero, one_mul, zero_add, full,
      full]

end Mean

/-! ## The shares -/

section Shares

variable {total nranks d : Nat}

theorem nearest_total_nonneg : 0 ≤ binary64.nearest total :=
  Format.nearest_nonneg (Nat.cast_nonneg total)

theorem nearest_total_le (size : total < 2 ^ 64) : binary64.nearest total ≤ 2 ^ 64 := by
  refine Format.nearest_le (Nat.cast_nonneg total) ?_
    (nearest_eq_self 1 64 (by norm_num) (by norm_num) (by norm_num))
  exact_mod_cast size.le

/-- Totals from here on are rounded up to `2 ^ 64`. -/
theorem nearest_total_eq (size : total < 2 ^ 64) (large : 2 ^ 64 - 1024 ≤ total) :
    binary64.nearest total = 2 ^ 64 := by
  refine le_antisymm (nearest_total_le size) ?_
  have low : (2 : ℚ) ^ 64 - 2 ^ 10 ≤ total := by
    have cast : ((2 ^ 64 - 1024 : Nat) : ℚ) ≤ total := by exact_mod_cast large
    norm_num at cast ⊢
    exact cast
  exact nearest_tie.symm.trans_le (Format.nearest_mono_of_nonneg (by norm_num) low)

theorem nearest_total_lt (less : total < 2 ^ 64 - 1024) :
    binary64.nearest total ≤ 2 ^ 64 - 2 ^ 11 := by
  have high : (total : ℚ) ≤ 2 ^ 64 - 1025 := by
    have cast : (total : ℚ) ≤ (2 ^ 64 - 1025 : Nat) := by
      have : total ≤ 2 ^ 64 - 1025 := by omega
      exact_mod_cast this
    norm_num at cast ⊢
    exact cast
  have whole : ⌊((2 : ℚ) ^ 64 - 1025) / 2 ^ 11⌋ = 2 ^ 53 - 1 := by
    rw [Int.floor_eq_iff]
    norm_num
  have below : binary64.nearest (2 ^ 64 - 1025) = 2 ^ 64 - 2 ^ 11 := by
    rw [nearest_binade (by norm_num) (by norm_num), roundHalfEven, whole]
    norm_num
  exact (Format.nearest_mono_of_nonneg (Nat.cast_nonneg total) high).trans_eq below

/-- `uniform`. -/
def uniformShare (nranks total : Nat) : ℚ := binary64.nearest (binary64.nearest total / nranks)

/-- `dist`, for a distance `d`. -/
def distShare (d nranks total : Nat) : ℚ :=
  binary64.nearest (binary64.nearest (d * binary64.nearest total) /
    binary64.nearest (nranks * (nranks - 1) / 2 : Nat))

theorem uniformShare_nonneg : 0 ≤ uniformShare nranks total :=
  Format.nearest_nonneg (div_nonneg nearest_total_nonneg (Nat.cast_nonneg _))

theorem one_le_nearest_sum (some_ : 1 < nranks) :
    1 ≤ binary64.nearest (nranks * (nranks - 1) / 2 : Nat) := by
  have pairs : 1 ≤ nranks * (nranks - 1) / 2 := by
    have factors : 2 * 1 ≤ nranks * (nranks - 1) := Nat.mul_le_mul some_ (by omega)
    omega
  exact Format.le_nearest zero_le_one (by exact_mod_cast pairs) nearest_one

/-- The product before the division by the sum of the distances. -/
theorem nearest_product_nonneg : 0 ≤ binary64.nearest (d * binary64.nearest total) :=
  Format.nearest_nonneg (mul_nonneg (Nat.cast_nonneg d) nearest_total_nonneg)

theorem nearest_product_le (size : total < 2 ^ 64) (few : d < 2 ^ 31) :
    binary64.nearest (d * binary64.nearest total) ≤ d * 2 ^ 64 := by
  refine Format.nearest_le (mul_nonneg (Nat.cast_nonneg d) nearest_total_nonneg) ?_
    (nearest_eq_self d 64 (by norm_num) (by omega) (by norm_num))
  exact mul_le_mul_of_nonneg_left (nearest_total_le size) (Nat.cast_nonneg d)

theorem distShare_nonneg : 0 ≤ distShare d nranks total :=
  Format.nearest_nonneg (div_nonneg nearest_product_nonneg
    (Format.nearest_nonneg (Nat.cast_nonneg _)))

theorem uniformShare_le {bound : ℚ} (le : binary64.nearest total / nranks ≤ bound)
    (double : binary64.nearest bound = bound) : uniformShare nranks total ≤ bound :=
  Format.nearest_le (div_nonneg nearest_total_nonneg (Nat.cast_nonneg _)) le double

/-- No share is larger than this, which is far from overflow. -/
theorem shares_le (some_ : 1 < nranks) (size : total < 2 ^ 64) (few : d < 2 ^ 31) :
    uniformShare nranks total ≤ 2 ^ 63 ∧ distShare d nranks total ≤ d * 2 ^ 64 := by
  have t_le := nearest_total_le size
  have ranks : (2 : ℚ) ≤ nranks := by exact_mod_cast some_
  have sum := one_le_nearest_sum some_
  constructor
  · refine uniformShare_le ?_ (nearest_eq_self 1 63 (by norm_num) (by norm_num) (by norm_num))
    rw [div_le_iff₀ (by linarith)]
    linarith
  · refine Format.nearest_le (div_nonneg nearest_product_nonneg (zero_le_one.trans sum)) ?_
      (nearest_eq_self d 64 (by norm_num) (by omega) (by norm_num))
    exact (div_le_self nearest_product_nonneg sum).trans (nearest_product_le size few)

theorem toDouble_total (size : total < 2 ^ 64) :
    toDouble total = .finite (binary64.nearest total) := by
  have cast : (total : ℚ) ≤ 2 ^ 64 := by exact_mod_cast size.le
  exact ofRat_double (Nat.cast_nonneg total) (cast.trans (by norm_num))

theorem toDouble_of_lt {n : Nat} (few : n < 2 ^ 31) : toDouble n = .finite n :=
  Value.ofRat_natCast (by decide) (by decide) (few.trans (by decide))

theorem uniform_value (some_ : 1 < nranks) (few : nranks < 2 ^ 31) (size : total < 2 ^ 64) :
    (toDouble total).div binary64 (toDouble nranks) = .finite (uniformShare nranks total) := by
  have pos : (0 : ℚ) < nranks := by exact_mod_cast Nat.zero_lt_of_lt some_
  have ranks : (1 : ℚ) ≤ nranks := by exact_mod_cast some_.le
  have t_le := nearest_total_le size
  rw [toDouble_total size, toDouble_of_lt few]
  refine div_double pos nearest_total_nonneg ?_
  exact (div_le_self nearest_total_nonneg ranks).trans (t_le.trans (by norm_num))

theorem dist_value (some_ : 1 < nranks) (few : nranks < 2 ^ 31) (less : d < 2 ^ 31)
    (size : total < 2 ^ 64) :
    ((toDouble d).mul binary64 (toDouble total)).div binary64
      (toDouble (nranks * (nranks - 1) / 2)) = .finite (distShare d nranks total) := by
  have d_le : (d : ℚ) ≤ 2 ^ 31 := by exact_mod_cast less.le
  have t_le := nearest_total_le size
  have sum := one_le_nearest_sum some_
  have sum_ : toDouble (nranks * (nranks - 1) / 2) =
      .finite (binary64.nearest (nranks * (nranks - 1) / 2 : Nat)) := by
    refine ofRat_double (Nat.cast_nonneg _) ?_
    have pairs : nranks * (nranks - 1) / 2 ≤ 2 ^ 100 :=
      (Nat.div_le_self _ 2).trans ((Nat.mul_le_mul few.le
        ((Nat.sub_le nranks 1).trans few.le)).trans (by norm_num))
    exact_mod_cast pairs
  have product : (Value.finite (d : ℚ)).mul binary64 (.finite (binary64.nearest total)) =
      .finite (binary64.nearest (d * binary64.nearest total)) := by
    refine ofRat_double (mul_nonneg (Nat.cast_nonneg d) nearest_total_nonneg) ?_
    calc (d : ℚ) * binary64.nearest total ≤ 2 ^ 31 * 2 ^ 64 :=
          mul_le_mul d_le t_le nearest_total_nonneg (by norm_num)
      _ ≤ 2 ^ 100 := by norm_num
  rw [toDouble_of_lt less, toDouble_total size, sum_, product]
  refine div_double (zero_lt_one.trans_le sum) nearest_product_nonneg
    ((div_le_self nearest_product_nonneg sum).trans ((nearest_product_le size less).trans ?_))
  linarith

/-- The bytes are the mean of the shares. -/
theorem weightedBytes_eq {s : ℚ} (low : 0 ≤ s) (high : s ≤ 1) {i j : Nat} (some_ : 1 < nranks)
    (few : nranks < 2 ^ 31) (size : total < 2 ^ 64) :
    weightedBytes (.finite s) i j nranks total = .finite (mean s (uniformShare nranks total)
      (distShare ((j + nranks - i) % nranks) nranks total)) := by
  have less : (j + nranks - i) % nranks < 2 ^ 31 := (Nat.mod_lt _ (by omega)).trans few
  obtain ⟨uniform_le, dist_le⟩ := shares_le some_ size less
  have far : (((j + nranks - i) % nranks : Nat) : ℚ) * 2 ^ 64 ≤ 2 ^ 95 := by
    have cast : (((j + nranks - i) % nranks : Nat) : ℚ) ≤ 2 ^ 31 := by exact_mod_cast less.le
    linarith
  unfold weightedBytes
  dsimp only
  rw [uniform_value some_ few size, dist_value some_ few less size]
  exact mean_value low high uniformShare_nonneg distShare_nonneg uniform_le (dist_le.trans far)

/-! ## What is converted -/

/-- A value that a conversion to `size_t` is defined for, up to `SIZE_MAX`. -/
def InSizeT (v : Value) : Prop := ∃ q, v = .finite q ∧ 0 ≤ q ∧ q ≤ 2 ^ 64 - 1

theorem not_inSizeT_nan : ¬ InSizeT .nan := by
  intro ⟨q, same, _⟩
  cases same

/-- With three ranks or more neither share is close to the whole. -/
theorem shares_le_of_three (three : 2 < nranks) (few : nranks < 2 ^ 31) (size : total < 2 ^ 64)
    (less : d < nranks) :
    uniformShare nranks total ≤ 3 * 2 ^ 61 ∧ distShare d nranks total ≤ 3 * 2 ^ 62 := by
  have t_le := nearest_total_le size
  have ranks : (3 : ℚ) ≤ nranks := by exact_mod_cast three
  constructor
  · refine uniformShare_le ?_ (nearest_eq_self 3 61 (by norm_num) (by norm_num) (by norm_num))
    rw [div_le_iff₀ (by linarith)]
    linarith
  -- four thirds of the largest distance are at most the sum
  · set k := (4 * (nranks - 1) + 2) / 3 with k_
    have k_le : k ≤ nranks * (nranks - 1) / 2 := by
      rcases Nat.lt_or_eq_of_le three with four | rfl
      · have factor := Nat.mul_le_mul_right (nranks - 1) four
        omega
      · exact le_rfl
    have k_exact : binary64.nearest k = k := nearest_natCast_double (by omega)
    have sum : (k : ℚ) ≤ binary64.nearest (nranks * (nranks - 1) / 2 : Nat) :=
      Format.le_nearest (Nat.cast_nonneg k) (by exact_mod_cast k_le) k_exact
    have product := nearest_product_le size (less.trans few)
    have distance : (4 : ℚ) * d ≤ 3 * k := by
      have : 4 * d ≤ 3 * k := by omega
      exact_mod_cast this
    have sum_pos := zero_lt_one.trans_le (one_le_nearest_sum (by omega : 1 < nranks))
    refine Format.nearest_le (div_nonneg nearest_product_nonneg sum_pos.le) ?_
      (nearest_eq_self 3 62 (by norm_num) (by norm_num) (by norm_num))
    rw [div_le_iff₀ sum_pos]
    linarith

theorem distShare_zero : distShare 0 nranks total = 0 := by
  rw [distShare, Nat.cast_zero, zero_mul, Format.nearest_zero, zero_div, Format.nearest_zero]

/-- Two ranks have one distance. -/
theorem distShare_one_two :
    distShare 1 2 total = binary64.nearest (binary64.nearest (binary64.nearest total)) := by
  have sum : ((2 * (2 - 1) / 2 : Nat) : ℚ) = 1 := by norm_num
  rw [distShare, sum, nearest_one, div_one, one_mul]

theorem distShare_one_two_le {bound : ℚ} (le : binary64.nearest total ≤ bound)
    (double : binary64.nearest bound = bound) : distShare 1 2 total ≤ bound := by
  rw [distShare_one_two]
  exact Format.nearest_le (Format.nearest_nonneg nearest_total_nonneg)
    (Format.nearest_le nearest_total_nonneg le double) double

/-- The mean for the other one of two ranks. -/
theorem mean_le_iff_of_two {s : ℚ} (double : binary64.nearest s = s) (low : 0 ≤ s) (high : s ≤ 1)
    (size : total < 2 ^ 64) :
    mean s (uniformShare 2 total) (distShare 1 2 total) ≤ 2 ^ 64 - 1 ↔
      ¬ (2 ^ 64 - 1024 ≤ total ∧ 1 - 2 ^ (-53 : Int) ≤ s) := by
  obtain ⟨uniform, dist⟩ := shares_le (d := 1) one_lt_two size (by norm_num)
  rw [Nat.cast_one, one_mul] at dist
  have top : binary64.nearest (2 ^ 64 - 2 ^ 11) = 2 ^ 64 - 2 ^ 11 :=
    nearest_eq_self (2 ^ 53 - 1) 11 (by norm_num) (by norm_num) (by norm_num)
  have below : (2 : ℚ) ^ 64 - 2 ^ 11 ≤ 2 ^ 64 - 1 := by norm_num
  rcases lt_or_ge s (1 - 2 ^ (-53 : Int)) with less | most
  · refine iff_of_true (le_trans ?_ below) fun bad => absurd bad.2 (not_le.2 less)
    exact mean_le_of_lt double low less uniformShare_nonneg distShare_nonneg uniform dist
  have spread := eq_of_le double high most
  rcases Nat.lt_or_ge total (2 ^ 64 - 1024) with small | large
  · refine iff_of_true (le_trans ?_ below) fun bad => absurd bad.1 (not_le.2 small)
    exact mean_le_of_le spread uniformShare_nonneg distShare_nonneg uniform
      (distShare_one_two_le (nearest_total_lt small) top)
  · have full : binary64.nearest (2 ^ 64) = 2 ^ 64 :=
      nearest_eq_self 1 64 (by norm_num) (by norm_num) (by norm_num)
    have half : uniformShare 2 total = 2 ^ 63 := by
      have two : (2 : ℚ) ^ 64 / (2 : Nat) = 2 ^ 63 := by norm_num
      rw [uniformShare, nearest_total_eq size large, two]
      exact nearest_eq_self 1 63 (by norm_num) (by norm_num) (by norm_num)
    have whole : distShare 1 2 total = 2 ^ 64 := by
      rw [distShare_one_two, nearest_total_eq size large, full, full]
    rw [half, whole, mean_top spread]
    exact iff_of_false (by norm_num) fun fine => fine ⟨large, most⟩

/-- **What the formula gives fits, but for two ranks, one to the other**: then the whole total
is given, and it must neither round to `2 ^ 64` nor have almost all of the weight. -/
theorem weightedBytes_inSizeT_iff {s : ℚ} (double : binary64.nearest s = s) (low : 0 ≤ s)
    (high : s ≤ 1) {i j : Nat} (some_ : 1 < nranks) (few : nranks < 2 ^ 31) (hi : i < nranks)
    (hj : j < nranks) (size : total < 2 ^ 64) :
    InSizeT (weightedBytes (.finite s) i j nranks total) ↔
      ¬ (nranks = 2 ∧ i ≠ j ∧ 2 ^ 64 - 1024 ≤ total ∧ 1 - 2 ^ (-53 : Int) ≤ s) := by
  rw [weightedBytes_eq low high some_ few size]
  have fits : InSizeT (.finite (mean s (uniformShare nranks total)
      (distShare ((j + nranks - i) % nranks) nranks total))) ↔
      mean s (uniformShare nranks total) (distShare ((j + nranks - i) % nranks) nranks total) ≤
        2 ^ 64 - 1 :=
    ⟨fun ⟨_, same, _, le⟩ => (Value.finite.inj same).trans_le le,
      fun le => ⟨_, rfl, mean_nonneg low high uniformShare_nonneg distShare_nonneg, le⟩⟩
  have d_lt : (j + nranks - i) % nranks < nranks := Nat.mod_lt _ (by omega)
  rw [fits]
  rcases Nat.lt_or_ge 2 nranks with three | two
  · obtain ⟨uniform, dist⟩ := shares_le_of_three three few size d_lt
    refine iff_of_true (le_trans (mean_le_of_shares low high uniformShare_nonneg distShare_nonneg
      uniform dist) ?_) fun bad => three.ne' bad.1
    norm_num
  obtain rfl : nranks = 2 := by omega
  by_cases same : i = j
  · have zero : (j + 2 - i) % 2 = 0 := by omega
    rw [zero, distShare_zero]
    have bound : (2 : ℚ) ^ 63 ≤ 2 ^ 64 - 1 := by norm_num
    refine iff_of_true (le_trans ?_ bound) fun bad => bad.2.1 same
    have uniform := (shares_le (d := 0) some_ size (by norm_num)).1
    have half : binary64.nearest (2 ^ 63) = 2 ^ 63 :=
      nearest_eq_self 1 63 (by norm_num) (by norm_num) (by norm_num)
    refine mean_le low high uniformShare_nonneg le_rfl ?_ half (mul_zero s).le Format.nearest_zero
      (add_zero _).le half
    refine mul_le_of_complement high uniformShare_nonneg (sub_le_self 1 low) nearest_one ?_
    rwa [one_mul]
  · have one : (j + 2 - i) % 2 = 1 := by omega
    rw [one, mean_le_iff_of_two double low high size]
    simp only [ne_eq, same, not_false_iff, true_and]

end Shares

end NcclTests.Collective
