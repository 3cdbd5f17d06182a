import Mathlib
import NcclTests.Lib.Ieee

/-!
# The order of the numbers

Without the NaN, the values of a format are in linear order, infinities included, and `<` and `<=`
are that order. Rounding keeps it, and so does a product with a positive constant.
-/

namespace BinaryFloat

/-! ## Rounding -/

theorem roundHalfEven_neg (q : ℚ) : roundHalfEven (-q) = -roundHalfEven q := by
  by_cases whole : (⌊q⌋ : ℚ) = q
  · have same : ⌊-q⌋ = -⌊q⌋ := by
      rw [← whole, ← Int.cast_neg, Int.floor_intCast, Int.floor_intCast]
    simp [roundHalfEven, same, whole]
  have floor : ⌊-q⌋ = -⌊q⌋ - 1 := by
    have above : (⌊q⌋ : ℚ) < q := lt_of_le_of_ne (Int.floor_le q) whole
    have below := Int.lt_floor_add_one q
    rw [Int.floor_eq_iff]
    push_cast
    constructor <;> linarith
  have part : -q - (⌊-q⌋ : ℚ) = 1 - (q - ⌊q⌋) := by
    rw [floor]
    push_cast
    ring
  rw [roundHalfEven, roundHalfEven, part, floor]
  rcases lt_trichotomy (q - (⌊q⌋ : ℚ)) (1 / 2) with less | tie | greater
  · rw [if_neg (by linarith), if_pos (by linarith), if_pos less]
    ring
  · rw [tie, if_neg (by norm_num), if_neg (by norm_num), if_neg (lt_irrefl (1 / 2 : ℚ)),
      if_neg (lt_irrefl (1 / 2 : ℚ))]
    split_ifs <;> omega
  · rw [if_pos (by linarith), if_neg (by linarith), if_pos (by linarith)]
    ring

namespace Format

variable {F : Format}

theorem nearest_neg (q : ℚ) : F.nearest (-q) = -F.nearest q := by
  rw [nearest, nearest, lastBit, lastBit, abs_neg, neg_div, roundHalfEven_neg]
  push_cast
  ring

theorem nearest_mono {p q : ℚ} (le : p ≤ q) : F.nearest p ≤ F.nearest q := by
  rcases le_total 0 p with low | low
  · exact nearest_mono_of_nonneg low le
  rcases le_total 0 q with high | high
  · exact (nearest_nonpos low).trans (nearest_nonneg high)
  · have mono := nearest_mono_of_nonneg (F := F) (neg_nonneg.2 high) (neg_le_neg le)
    rwa [nearest_neg, nearest_neg, neg_le_neg_iff] at mono

end Format

namespace Value

/-! ## The order -/

attribute [local simp] Value.le

theorem le_ofRat {F : Format} {p q : ℚ} (le : p ≤ q) : (ofRat F p).le (ofRat F q) := by
  have mono := Format.nearest_mono (F := F) le
  rw [ofRat, ofRat]
  split_ifs with fits fits' fits'
  · exact decide_eq_true mono
  · have high : ¬q < 0 := by
      intro negative
      have nonpos := Format.nearest_nonpos (F := F) negative.le
      rw [abs_of_nonpos nonpos] at fits'
      rw [abs_of_nonpos (mono.trans nonpos)] at fits
      linarith
    simp [high]
  · have low : p < 0 := by
      by_contra nonneg
      have nonneg := Format.nearest_nonneg (F := F) (not_lt.1 nonneg)
      rw [abs_of_nonneg nonneg] at fits
      rw [abs_of_nonneg (nonneg.trans mono)] at fits'
      linarith
    simp [low]
  · by_cases negative : q < 0
    · simp [le.trans_lt negative]
    · simp [negative]

theorem le_refl_iff {v : Value} : v.le v ↔ v ≠ nan := by
  rcases v with _ | s | q <;> simp

theorem le_trans_of_le {v w x : Value} (first : v.le w) (second : w.le x) : v.le x := by
  rcases v with _ | s | p <;> rcases w with _ | t | q <;> rcases x with _ | u | r <;>
    simp_all
  · grind
  · exact first.trans second

theorem eq_of_le_of_le {v w : Value} (first : v.le w) (second : w.le v) : v = w := by
  rcases v with _ | s | p <;> rcases w with _ | t | q <;> simp_all
  · grind
  · exact le_antisymm first second

theorem le_or_le {v w : Value} (number : v ≠ nan) (number' : w ≠ nan) : v.le w ∨ w.le v := by
  rcases v with _ | s | p <;> rcases w with _ | t | q <;> simp_all
  · grind
  · exact le_total p q

theorem infinity_le {v : Value} (number : v ≠ nan) : (infinity true).le v := by
  rcases v with _ | s | q
  · exact absurd rfl number
  · rfl
  · rfl

theorem le_infinity {v : Value} (number : v ≠ nan) : v.le (infinity false) := by
  rcases v with _ | s | q
  · exact absurd rfl number
  · cases s <;> rfl
  · rfl

theorem lt_iff_le_not_le {v w : Value} (number : v ≠ nan) (number' : w ≠ nan) :
    v.lt w ↔ v.le w ∧ ¬w.le v := by
  rcases v with _ | s | p <;> rcases w with _ | t | q <;> simp_all [Value.lt]
  · grind
  · exact fun less => less.le

/-- A value that is a number or an infinity. -/
abbrev Number := {v : Value // v ≠ nan}

namespace Number

instance : LinearOrder Number where
  le a b := a.1.le b.1
  lt a b := a.1.lt b.1
  le_refl a := le_refl_iff.2 a.2
  le_trans _ _ _ := le_trans_of_le
  le_antisymm _ _ first second := Subtype.ext (eq_of_le_of_le first second)
  le_total a b := le_or_le a.2 b.2
  lt_iff_le_not_ge a b := lt_iff_le_not_le a.2 b.2
  toDecidableLE a b := inferInstanceAs (Decidable (_ = true))

end Number

/-! ## Functions that keep the order -/

theorem ofRat_ne_nan (F : Format) (q : ℚ) : ofRat F q ≠ nan := by
  rw [ofRat]
  split_ifs <;> exact Value.noConfusion

/-- It is enough to keep it among the numbers. -/
theorem le_map {g : Value → Value} (infinities : ∀ s, g (infinity s) = infinity s)
    (numbers : ∀ q, g (finite q) ≠ nan)
    (mono : ∀ p q, p ≤ q → (g (finite p)).le (g (finite q))) {v w : Value} (le : v.le w) :
    (g v).le (g w) := by
  rcases v with _ | s | p <;> rcases w with _ | t | q
  case infinity.infinity => rwa [infinities, infinities]
  case infinity.finite =>
    obtain rfl : s = true := le
    rw [infinities]
    exact infinity_le (numbers q)
  case finite.infinity =>
    obtain rfl : t = false := by simpa using le
    rw [infinities]
    exact le_infinity (numbers p)
  case finite.finite => exact mono p q (of_decide_eq_true le)
  all_goals exact absurd le Bool.noConfusion

/-- The product with a positive constant. -/
theorem le_mul_finite {F : Format} {c : ℚ} (pos : 0 < c) {v w : Value} (le : v.le w) :
    (v.mul F (finite c)).le (w.mul F (finite c)) := by
  apply le_map (g := fun v => v.mul F (finite c)) _ (fun q => ofRat_ne_nan F (q * c)) _ le
  · intro s
    simp [mul, pos.ne', pos.le.not_gt]
  · intro p q le
    exact le_ofRat (mul_le_mul_of_nonneg_right le pos.le)

end Value

end BinaryFloat
