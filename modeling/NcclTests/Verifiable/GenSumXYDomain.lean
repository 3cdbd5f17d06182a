import Mathlib
import NcclTests.Verifiable.GenInOutFloat

/-!
# Where the sum generator is defined

`genSumXY` means to use one partition if there are more ranks than the total, but
tests for it behind an unsigned subtraction that wraps around: it then makes as
many partitions as ranks, and their sum, itself modulo 2³¹, mostly exceeds the
total. The draw that is to avoid a total wraps around one value too early.
-/

namespace NcclTests.Verifiable

open Staircase

/-! ## The calls of the float generators -/

/-- The `y_max` that the float generators pass; only the first comes with a total to avoid. -/
def Passed (T : FloatLayout) (yMax : Nat) (avoidY : Bool) : Prop :=
  yMax = 2 ^ (T.mantissaBits + 1) - 1 ∨
    avoidY = false ∧ (yMax = 2 ^ T.mantissaBits - 1 ∨ yMax = 2 ^ (T.mantissaBits - 1) - 1 ∨
      yMax = 2 ^ (T.exponentBits - 1) - 1)

/-- The total to avoid is itself from the range. -/
def Incoming (yMax y : Nat) (avoidY : Bool) : Prop :=
  avoidY = true → (yMax + 1) / 2 ≤ y ∧ y ≤ yMax

theorem Passed.pos {T : FloatLayout} {yMax : Nat} {avoidY : Bool}
    (passed : Passed T yMax avoidY) : 0 < yMax := by
  rcases passed with rfl | ⟨-, rfl | rfl | rfl⟩ <;> cases T <;> decide

theorem Passed.wide {T : FloatLayout} {yMax : Nat} {avoidY : Bool}
    (passed : Passed T yMax avoidY) (avoid : avoidY = true) : 2 ≤ yMax := by
  subst avoid
  rcases passed with rfl | ⟨absurd_, -⟩
  · cases T <;> decide
  · exact absurd absurd_ (by decide)

/-- The ranges are those of 32-bit numbers, or they begin far above all ranks. -/
theorem Passed.small {T : FloatLayout} {yMax : Nat} {avoidY : Bool}
    (passed : Passed T yMax avoidY) :
    yMax < 2 ^ 31 ∨ 2 ^ 32 ≤ yMax ∧ yMax < 2 ^ 62 := by
  rcases passed with rfl | ⟨-, rfl | rfl | rfl⟩ <;> cases T <;> decide

theorem Passed.room {w : Nat} (width : w = 32 ∨ w = 64) {T : FloatLayout} {yMax : BitVec w}
    {avoidY : Bool} (passed : Passed T yMax.toNat avoidY) : 2 * yMax.toNat + 1 < 2 ^ w := by
  have fits := yMax.isLt
  have small := passed.small
  rcases width with rfl | rfl <;> omega

/-! ## The totals that can be drawn -/

/-- Scaling reaches every number below the range. -/
theorem draw_surjective {n v w : Nat} (less : v < n) (le : n ≤ 2 ^ w) :
    ∃ r < 2 ^ w, r * n / 2 ^ w = v := by
  have some_ : 0 < n := Nat.zero_lt_of_lt less
  have whole := Nat.div_add_mod' (v * 2 ^ w + (n - 1)) n
  have rest := Nat.mod_lt (v * 2 ^ w + (n - 1)) some_
  refine ⟨(v * 2 ^ w + (n - 1)) / n, ?_, ?_⟩
  · rw [Nat.div_lt_iff_lt_mul some_]
    have next := Nat.mul_le_mul_right (2 ^ w) less
    rw [Nat.succ_mul] at next
    rw [Nat.mul_comm (2 ^ w)]
    omega
  · refine Nat.div_eq_of_lt_le ?_ ?_
    · omega
    · rw [Nat.succ_mul]
      omega

section Drawn

variable {w : Nat} (width : w = 32 ∨ w = 64) {yMax : BitVec w} {avoidY : Bool}
  (room : 2 * yMax.toNat + 1 < 2 ^ w) (wide : avoidY = true → 2 ≤ yMax.toNat)
include width room wide

/-- The totals are from the upper half of the range; one that avoids another is never the
least. -/
theorem genSumY_range (rng : BitVec 64) {y : BitVec w}
    (incoming : Incoming yMax.toNat y.toNat avoidY) :
    (yMax.toNat + 1) / 2 + avoidY.toNat ≤ (genSumY rng yMax y avoidY).toNat ∧
      (genSumY rng yMax y avoidY).toNat ≤ yMax.toNat := by
  cases avoidY with
  | false => exact genSumY_bounds width rng (by omega) y
  | true =>
    obtain ⟨low, high⟩ := incoming rfl
    exact genSumY_avoid_bounds width rng room (wide rfl) low high

/-- Every other total is drawn from some state of the generator. -/
theorem genSumY_surjective {v : Nat} (low : (yMax.toNat + 1) / 2 + avoidY.toNat ≤ v)
    (high : v ≤ yMax.toNat) :
    ∃ (rng : BitVec 64) (y : BitVec w), Incoming yMax.toNat y.toNat avoidY ∧
      (genSumY rng yMax y avoidY).toNat = v := by
  have bits : ∀ r < 2 ^ w, (BitVec.ofNat 64 r).toNat % 2 ^ w = r := by
    intro r less
    rw [BitVec.toNat_ofNat]
    rcases width with rfl | rfl <;> omega
  cases avoidY with
  | false =>
    rw [Bool.toNat_false, Nat.add_zero] at low
    have less : v - (yMax.toNat + 1) / 2 < yMax.toNat / 2 + 1 := by omega
    obtain ⟨r, fits, drawn⟩ := draw_surjective (w := w) less (by omega)
    refine ⟨BitVec.ofNat 64 r, 0, fun avoid => absurd avoid (by decide), ?_⟩
    rw [genSumY_false_toNat width _ (by omega), bits r fits, drawn]
    omega
  | true =>
    rw [Bool.toNat_true] at low
    have some_ := wide rfl
    have less : v - (yMax.toNat + 1) / 2 - 1 < yMax.toNat / 2 := by omega
    obtain ⟨r, fits, drawn⟩ := draw_surjective (w := w) less (by omega)
    have least : (BitVec.ofNat w ((yMax.toNat + 1) / 2)).toNat = (yMax.toNat + 1) / 2 := by
      rw [BitVec.toNat_ofNat, Nat.mod_eq_of_lt (by omega)]
    refine ⟨BitVec.ofNat 64 r, BitVec.ofNat w ((yMax.toNat + 1) / 2), fun _ => ?_, ?_⟩
    · omega
    · rw [genSumY_true_toNat width _ room some_ (by omega) (by omega), bits r fits, drawn, least]
      dsimp only
      rw [if_neg (by omega)]
      omega

end Drawn

/-! ## Avoiding a total -/

section Avoid

variable (T : FloatLayout) (rng : BitVec 64) (y : UintMant T)

/-- The total that `genSumXY` returns is from the range and other than the one passed in. -/
def AvoidsTotal : Prop :=
  ∀ rankN, 0 < rankN → rankN < 2 ^ 31 → ∀ rankMe < rankN, ∀ out,
    genSumXY rankN rankMe rng (maxMant T) y true = some out →
      2 ^ T.mantissaBits ≤ out.y.toNat ∧ out.y.toNat ≤ 2 ^ (T.mantissaBits + 1) - 1 ∧ out.y ≠ y

variable {T rng y}

theorem maxMant_halves (T : FloatLayout) :
    ((maxMant T).toNat + 1) / 2 = 2 ^ T.mantissaBits ∧
      (maxMant T).toNat / 2 = 2 ^ T.mantissaBits - 1 ∧
      (maxMant T).toNat = 2 * 2 ^ T.mantissaBits - 1 ∧ 4 ≤ 2 ^ T.mantissaBits := by
  rw [FloatLayout.maxMant_toNat]
  cases T <;> decide

/-- The ranks do not matter, and a single rank divides by nothing but ones. -/
theorem avoidsTotal_iff_genSumY (low : 2 ^ T.mantissaBits ≤ y.toNat)
    (high : y.toNat ≤ 2 ^ (T.mantissaBits + 1) - 1) :
    AvoidsTotal T rng y ↔ genSumY rng (maxMant T) y true ≠ y := by
  obtain ⟨least, half, most, wide⟩ := maxMant_halves T
  have width := uintmant_width T
  have top := FloatLayout.maxMant_toNat T
  have range := @genSumY_avoid_bounds _ width rng (maxMant T) y (maxMant_room T) (maxMant_wide T)
    (least ▸ low) (top ▸ high)
  rw [least] at range
  constructor
  · intro avoids
    have ok : NoWrap (uintmantBits T) 1 (maxMant T) (genSumY rng (maxMant T) y true) :=
      ⟨width, by decide, by decide, by omega, range.2, mant_small T le_rfl⟩
    obtain ⟨x, done, -⟩ := genSumXY_spec ok 0
    exact (avoids 1 (by decide) (by decide) 0 (by decide) _ done).2.2
  · rintro other rankN - - rankMe - out done
    rw [(genSumXY_total done).1, ← top]
    exact ⟨range.1.le, range.2, other⟩

/-- **When the excluded total is avoided**: if it is the least one, which no draw wraps around
to, or if the draw is not the largest one, with which wrapping around by half the range
comes back to it.

`low` and `high` say that the excluded total has the leading bit of a mantissa, as all totals have.
A draw counts up from the excluded total and wraps around by half of `yMax`, rounded down, but the
range has one total more than that. -/
theorem genSumXY_avoids_iff (T : FloatLayout) (rng : BitVec 64) (y : UintMant T)
    (low : 2 ^ T.mantissaBits ≤ y.toNat) (high : y.toNat ≤ 2 ^ (T.mantissaBits + 1) - 1) :
    AvoidsTotal T rng y ↔ y.toNat = 2 ^ T.mantissaBits ∨
      rng.toNat % 2 ^ uintmantBits T * (2 ^ T.mantissaBits - 1) <
        (2 ^ T.mantissaBits - 2) * 2 ^ uintmantBits T := by
  obtain ⟨least, half, most, wide⟩ := maxMant_halves T
  have width := uintmant_width T
  have top := FloatLayout.maxMant_toNat T
  have draw := drawBelow_lt width rng (maxMant T / 2)
    (by rw [BitVec.toNat_udiv, uint_two_toNat width]; omega)
  rw [drawBelow_toNat width, BitVec.toNat_udiv, uint_two_toNat width, half] at draw
  have total := @genSumY_true_toNat _ width rng (maxMant T) y (maxMant_room T) (maxMant_wide T)
    (least ▸ low) (top ▸ high)
  rw [half] at total
  rw [avoidsTotal_iff_genSumY low high, ← Nat.div_lt_iff_lt_mul (Nat.two_pow_pos _), Ne,
    ← BitVec.toNat_inj, total]
  generalize rng.toNat % 2 ^ uintmantBits T * (2 ^ T.mantissaBits - 1) / 2 ^ uintmantBits T = d
    at draw ⊢
  dsimp only
  split <;> omega

/-- A draw from the middle. -/
theorem genSumXY_avoids_iff_float : AvoidsTotal .float 0x80000000 (0xC00000 : BitVec 32) :=
  (genSumXY_avoids_iff .float 0x80000000 (0xC00000 : BitVec 32) (by decide) (by decide)).2
    (by decide)

/-- The largest draw of a `__nv_fp8_e5m2`, where seven comes back. -/
theorem genSumXY_returns_seven :
    genSumXY 1 0 0xFFFFFFFF (maxMant .fp8E5m2) 7 true = some ⟨7, 7, mixBits 0xFFFFFFFF⟩ ∧
      ¬ AvoidsTotal .fp8E5m2 0xFFFFFFFF (7 : BitVec 32) := by
  have done : genSumXY 1 0 0xFFFFFFFF (maxMant .fp8E5m2) 7 true =
      some ⟨7, 7, mixBits 0xFFFFFFFF⟩ := by decide
  exact ⟨done, fun avoids => (avoids 1 (by decide) (by decide) 0 (by decide) _ done).2.2 rfl⟩

end Avoid

/-! ## More ranks than the total -/

/-- The sum of as many partitions as ranks, which is computed modulo 2³². -/
def crowdedSum (rankN : Nat) : Nat := triangle rankN % 2 ^ 31

theorem ne_zero_of_toNat_pos {w : Nat} {x : BitVec w} (pos : 0 < x.toNat) : x ≠ 0 := by
  rintro rfl
  exact absurd pos (by simp)

theorem contribution_none {w : Nat} {s : BitVec 32} (zero : s.toNat = 0) (r rn : BitVec 32)
    (y pn pSum : BitVec w) : contribution r rn s y pn pSum = none := by
  obtain rfl : s = 0 := BitVec.eq_of_toNat_eq zero
  rfl

section Crowded

variable {w rankN : Nat} {y : BitVec w} (width : w = 32 ∨ w = 64) (two : 2 ≤ rankN)
  (int_ : rankN < 2 ^ 31)
include width two int_

/-- `2*(y/rn) - 1` wraps around and every rank is a partition. -/
theorem partitionCount_crowded (crowded : y.toNat < rankN) :
    partitionCount (BitVec.ofNat 32 rankN) y = some ((BitVec.ofNat 32 rankN).setWidth w) := by
  have same := ofNat_rank_toNat int_
  have wide := setWidth_rank_toNat width int_
  have many : BitVec.ofNat 32 rankN ≠ 1 := by
    intro one
    rw [one] at same
    exact absurd same (by change ¬ 1 = rankN; omega)
  obtain ⟨quotient, divided, none_⟩ :=
    checkedDiv_eq (a := y) (b := (BitVec.ofNat 32 rankN).setWidth w) (by omega)
  rw [wide, Nat.div_eq_of_lt crowded] at none_
  obtain rfl : quotient = 0 := BitVec.eq_of_toNat_eq none_
  have wraps : (2 * 0 - 1 : BitVec w).toNat = 2 ^ w - 1 := by
    rcases width with rfl | rfl <;> rfl
  have nonzero : (2 * 0 - 1 : BitVec w) ≠ 0 := by
    rcases width with rfl | rfl <;> decide
  have less : (BitVec.ofNat 32 rankN).setWidth w < 2 * 0 - 1 := by
    rw [BitVec.lt_def, wide, wraps]
    rcases width with rfl | rfl <;> omega
  simp only [partitionCount, if_neg many, divided, Option.pure_def, Option.bind_eq_bind,
    Option.bind_some, if_neg nonzero, if_pos less]

theorem partitionSum_crowded {yMax : BitVec w} (small : yMax.toNat < 2 ^ 31) :
    (partitionSum yMax ((BitVec.ofNat 32 rankN).setWidth w)).toNat = crowdedSum rankN := by
  have wide := setWidth_rank_toNat width int_
  have twice := two_mul_triangle rankN
  have limit : (~~~(0 : BitVec 32) >>> 1).toNat = 2 ^ 31 - 1 := by decide
  have next : (((BitVec.ofNat 32 rankN).setWidth w + 1).setWidth 32).toNat = rankN + 1 := by
    rw [setWidth_toNat_of_lt, BitVec.toNat_add, wide, uint_one_toNat width, Nat.mod_eq_of_lt]
    · rcases width with rfl | rfl <;> omega
    · rw [BitVec.toNat_add, wide, uint_one_toNat width, Nat.mod_eq_of_lt] <;>
        rcases width with rfl | rfl <;> omega
  have fits : ∀ x : BitVec 32, (x.setWidth w).toNat = x.toNat := by
    intro x
    have less := x.isLt
    rw [setWidth_toNat_of_lt]
    rcases width with rfl | rfl <;> omega
  rw [partitionSum, limit, if_pos (by omega), fits, BitVec.toNat_udiv, BitVec.toNat_mul, next,
    setWidth_toNat_of_lt (by omega), wide, ← twice, crowdedSum]
  change 2 * triangle rankN % 2 ^ 32 / 2 = _
  omega

/-- A partition has its one rank if the sum does not exceed the total, and none otherwise. -/
theorem ranksPerPartition_crowded {pSum : BitVec w} (sum : pSum.toNat = crowdedSum rankN) :
    ∃ s, ranksPerPartition (BitVec.ofNat 32 rankN) y ((BitVec.ofNat 32 rankN).setWidth w) pSum =
        some s ∧ s.toNat = if crowdedSum rankN ≤ y.toNat then 1 else 0 := by
  have wide := setWidth_rank_toNat width int_
  have some_ : 0 < crowdedSum rankN := triangle_mod_two_pow_pos (by omega) int_
  obtain ⟨overshoot, divided, overshootEq⟩ := checkedDiv_eq (a := y) (b := pSum) (by omega)
  obtain ⟨intended, divided', intendedEq⟩ :=
    checkedDiv_eq (a := (BitVec.ofNat 32 rankN).setWidth w)
      (b := (BitVec.ofNat 32 rankN).setWidth w) (by omega)
  rw [wide, Nat.div_self (by omega)] at intendedEq
  rw [sum] at overshootEq
  have least : (if overshoot < intended then overshoot else intended).toNat =
      if crowdedSum rankN ≤ y.toNat then 1 else 0 := by
    by_cases under : crowdedSum rankN ≤ y.toNat
    · have quotient := Nat.div_pos under some_
      rw [if_neg (by rw [BitVec.lt_def]; omega), if_pos under, intendedEq]
    · rw [Nat.div_eq_of_lt (Nat.lt_of_not_le under)] at overshootEq
      rw [if_pos (by rw [BitVec.lt_def]; omega), if_neg under, overshootEq]
  refine ⟨_, by
    simp only [ranksPerPartition, divided, divided', Option.pure_def, Option.bind_eq_bind,
      Option.bind_some]
    rfl, ?_⟩
  rw [setWidth_toNat_of_lt, least]
  rw [least]
  split <;> decide

/-- Every rank contributes its own partition index plus one, and the last one what is missing
to the total from the wrong sum. -/
theorem contribution_crowded {pSum : BitVec w} {s : BitVec 32} (one : s.toNat = 1)
    (sum : pSum.toNat = crowdedSum rankN) (under : crowdedSum rankN ≤ y.toNat)
    (crowded : y.toNat < rankN) {rankMe : Nat} (mem : rankMe < rankN) :
    ∃ x, contribution (BitVec.ofNat 32 rankMe) (BitVec.ofNat 32 rankN) s y
        ((BitVec.ofNat 32 rankN).setWidth w) pSum = some x ∧
      x.toNat = 1 + rankMe + if rankMe = rankN - 1 then y.toNat - crowdedSum rankN else 0 := by
  have wide := setWidth_rank_toNat width int_
  have me := ofNat_rank_toNat (mem.trans int_)
  have meWide : ∀ {v : BitVec 32}, v.toNat = rankMe → (v.setWidth w).toNat = rankMe := by
    intro v same
    rw [setWidth_toNat_of_lt, same]
    rcases width with rfl | rfl <;> omega
  obtain ⟨group, divided, groupEq⟩ :=
    checkedDiv_eq (a := BitVec.ofNat 32 rankMe) (b := s) (by omega)
  rw [me, one, Nat.div_one] at groupEq
  have low : group.setWidth w < (BitVec.ofNat 32 rankN).setWidth w := by
    rw [BitVec.lt_def, wide, meWide groupEq]
    exact mem
  have unit : (1 : BitVec 32).toNat = 1 := rfl
  have step : ((1 + group).setWidth w).toNat = 1 + rankMe := by
    rw [setWidth_toNat_of_lt, BitVec.toNat_add, unit, groupEq, Nat.mod_eq_of_lt (by omega)]
    rw [BitVec.toNat_add, unit, groupEq, Nat.mod_eq_of_lt (by omega)]
    rcases width with rfl | rfl <;> omega
  have lastToNat : (BitVec.ofNat 32 rankN - 1).toNat = rankN - 1 := by
    rw [BitVec.toNat_sub_of_le, ofNat_rank_toNat int_, unit]
    rw [BitVec.le_def, ofNat_rank_toNat int_, unit]
    omega
  have last : BitVec.ofNat 32 rankMe = BitVec.ofNat 32 rankN - 1 ↔ rankMe = rankN - 1 := by
    rw [← BitVec.toNat_inj, me, lastToNat]
  obtain rfl : s = 1 := BitVec.eq_of_toNat_eq one
  have product : ((1 : BitVec 32).setWidth w * pSum).toNat = crowdedSum rankN := by
    have unitWide : ((1 : BitVec 32).setWidth w).toNat = 1 := by
      rcases width with rfl | rfl <;> rfl
    rw [BitVec.toNat_mul, unitWide, Nat.one_mul, Nat.mod_eq_of_lt pSum.isLt, sum]
  have rest : (if BitVec.ofNat 32 rankMe = BitVec.ofNat 32 rankN - 1 then
      y - (1 : BitVec 32).setWidth w * pSum else 0).toNat =
      if rankMe = rankN - 1 then y.toNat - crowdedSum rankN else 0 := by
    by_cases isLast : rankMe = rankN - 1
    · rw [if_pos (last.2 isLast), if_pos isLast,
        BitVec.toNat_sub_of_le (by rw [BitVec.le_def, product]; exact under), product]
    · rw [if_neg fun same => isLast (last.1 same), if_neg isLast]
      exact BitVec.toNat_zero
  refine ⟨_, by
    simp only [contribution, divided, Option.pure_def, Option.bind_eq_bind, Option.bind_some,
      if_pos low]
    rfl, ?_⟩
  rw [BitVec.toNat_add, step, rest, Nat.mod_eq_of_lt]
  have room : 2 ^ 32 ≤ 2 ^ w := by rcases width with rfl | rfl <;> decide
  split <;> omega

end Crowded

/-! ## Splitting the total -/

/-- All ranks agree about the total and the state left behind, and, if a partition has any
ranks, the contributions add up to the total, without a sum that wraps around on the way. -/
structure SplitsTotal {w : Nat} (rankN : Nat) (rng : BitVec 64) (yMax y : BitVec w)
    (avoidY : Bool) : Prop where
  same : ∀ r r' out out', genSumXY rankN r rng yMax y avoidY = some out →
    genSumXY rankN r' rng yMax y avoidY = some out' → out.y = out'.y ∧ out.rng = out'.rng
  range : avoidY = false → ∀ r out, genSumXY rankN r rng yMax y avoidY = some out →
    (yMax.toNat + 1) / 2 ≤ out.y.toNat ∧ out.y.toNat ≤ yMax.toNat
  sum : ∃ pn s, partitionCount (BitVec.ofNat 32 rankN) (genSumY rng yMax y avoidY) = some pn ∧
    ranksPerPartition (BitVec.ofNat 32 rankN) (genSumY rng yMax y avoidY) pn
      (partitionSum yMax pn) = some s ∧
    (s ≠ 0 → ∃ x : Nat → BitVec w,
      (∀ r < rankN, genSumXY rankN r rng yMax y avoidY =
        some ⟨x r, genSumY rng yMax y avoidY, mixBits rng⟩) ∧
      (partitionSum yMax pn).toNat = triangle pn.toNat ∧ s.toNat * pn.toNat ≤ rankN ∧
      s.toNat * triangle pn.toNat ≤ (genSumY rng yMax y avoidY).toNat ∧
      ∑ r ∈ Finset.range rankN, (x r).toNat = (genSumY rng yMax y avoidY).toNat)

section Totals

variable {w rankN : Nat} (width : w = 32 ∨ w = 64) {T : FloatLayout} {yMax y : BitVec w}
  {avoidY : Bool} (passed : Passed T yMax.toNat avoidY) (some_ : 0 < rankN)
  (int_ : rankN < 2 ^ 31) (rng : BitVec 64) (incoming : Incoming yMax.toNat y.toNat avoidY)
include width passed some_ int_ incoming

omit some_ int_ in
theorem total_range :
    (yMax.toNat + 1) / 2 + avoidY.toNat ≤ (genSumY rng yMax y avoidY).toNat ∧
      (genSumY rng yMax y avoidY).toNat ≤ yMax.toNat :=
  genSumY_range width (passed.room width) passed.wide rng incoming

/-- If the ranks exceed the total, the totals are those of 32-bit numbers. -/
theorem small_of_crowded (crowded : (genSumY rng yMax y avoidY).toNat < rankN) :
    yMax.toNat < 2 ^ 31 ∧ 2 ≤ rankN := by
  have range := total_range width passed rng incoming
  have pos := passed.pos
  have small := passed.small
  omega

theorem noWrap_of_le (enough : rankN ≤ (genSumY rng yMax y avoidY).toNat) :
    NoWrap w rankN yMax (genSumY rng yMax y avoidY) := by
  have fits := yMax.isLt
  refine ⟨width, some_, int_, enough,
    (total_range width passed rng incoming).2, ?_⟩
  rcases passed.small with low | high
  · exact .inl low
  · refine .inr ⟨?_, high.2⟩
    rcases width with rfl | rfl
    · omega
    · rfl

/-- A total of at least one for each rank is split. -/
theorem splitsTotal_of_le (enough : rankN ≤ (genSumY rng yMax y avoidY).toNat) :
    SplitsTotal rankN rng yMax y avoidY := by
  have ok := noWrap_of_le width passed some_ int_ rng incoming enough
  obtain ⟨pn, counted, count⟩ := ok.partitionCount_eq
  obtain ⟨s, sized, size⟩ := ok.ranksPerPartition_eq count
  choose x given share using genSumXY_spec ok
  constructor
  case same =>
    intro r r' out out' done done'
    obtain ⟨total, state⟩ := genSumXY_total done
    obtain ⟨total', state'⟩ := genSumXY_total done'
    exact ⟨total.trans total'.symm, state.trans state'.symm⟩
  case range =>
    intro plain r out done
    rw [(genSumXY_total done).1]
    have range := total_range width passed rng incoming
    omega
  case sum =>
    refine ⟨pn, s, counted, sized, fun _ => ⟨x, fun r _ => given r, ?_, ?_, ?_, ?_⟩⟩
    · rw [ok.partitionSum_toNat count, count]
    · rw [count, size]
      exact members_mul_groups_le _ _
    · rw [count, size]
      exact members_mul_triangle_le _ _
    · rw [Finset.sum_congr rfl fun r mem => share r (Finset.mem_range.1 mem)]
      exact sum_split some_ enough

/-- If the ranks exceed the total, a partition has no rank at all or the contributions exceed
the total. -/
theorem splitsTotal_crowded_iff (crowded : (genSumY rng yMax y avoidY).toNat < rankN) :
    SplitsTotal rankN rng yMax y avoidY ↔
      (genSumY rng yMax y avoidY).toNat < crowdedSum rankN := by
  obtain ⟨small, two⟩ := small_of_crowded width passed some_ int_ rng incoming crowded
  have counted := partitionCount_crowded width two int_ crowded
  have summed := partitionSum_crowded width two int_ small
  obtain ⟨s, sized, size⟩ :=
    ranksPerPartition_crowded (y := genSumY rng yMax y avoidY) width two int_ summed
  constructor
  · intro splits
    by_contra under
    rw [Nat.not_lt] at under
    rw [if_pos under] at size
    obtain ⟨pn, s', counted', sized', adds⟩ := splits.sum
    obtain rfl : _ = pn := Option.some.inj (counted.symm.trans counted')
    obtain rfl : s = s' := Option.some.inj (sized.symm.trans sized')
    obtain ⟨x, given, -, -, -, total⟩ := adds (by
      rintro rfl
      exact absurd size (by decide))
    have shares : ∀ r ∈ Finset.range rankN, (x r).toNat = 1 + r +
        if r = rankN - 1 then (genSumY rng yMax y avoidY).toNat - crowdedSum rankN else 0 := by
      intro r mem
      obtain ⟨x', contributed, value⟩ :=
        contribution_crowded width two int_ size summed under crowded (Finset.mem_range.1 mem)
      have done := given r (Finset.mem_range.1 mem)
      simp only [genSumXY, counted, sized, contributed, Option.pure_def, Option.bind_eq_bind,
        Option.bind_some, Option.some.injEq, SumXY.mk.injEq, and_true] at done
      rw [← done, value]
    have last : rankN - 1 ∈ Finset.range rankN := Finset.mem_range.2 (by omega)
    rw [Finset.sum_congr rfl shares, Finset.sum_add_distrib, sum_succ, Finset.sum_ite_eq' _ _ _,
      if_pos last] at total
    have many := le_triangle rankN
    omega
  · intro exceeds
    rw [if_neg (Nat.not_le_of_lt exceeds)] at size
    have fails : ∀ r, genSumXY rankN r rng yMax y avoidY = none := by
      intro r
      simp only [genSumXY, counted, sized, contribution_none size, Option.pure_def,
        Option.bind_eq_bind, Option.bind_some, Option.bind_none]
    constructor
    case same =>
      intro r r' out out' done
      rw [fails r] at done
      cases done
    case range =>
      intro plain r out done
      rw [fails r] at done
      cases done
    case sum =>
      exact ⟨_, s, counted, sized, fun some_ => absurd (BitVec.eq_of_toNat_eq size) some_⟩

end Totals

/-- **When the split is right**: for every draw if and only if no total can be drawn that is
below the number of ranks but not below the sum of as many partitions modulo `2 ^ 31`.

`passed` says that `yMax` and `avoidY` are those of one of the calls in the generators, and
`Incoming` that the total to be avoided is one of theirs. A total of `rankN` or more is split into
partitions that it covers. A smaller one is split into `rankN` of them, whose sum is the triangular
number, computed in 32 bits: where that wraps around to the total or less, every rank gets a share,
and the shares add up to more than the total. -/
theorem genSumXY_splits_iff {w : Nat} (width : w = 32 ∨ w = 64) (T : FloatLayout)
    (yMax : BitVec w) (avoidY : Bool) (passed : Passed T yMax.toNat avoidY) (rankN : Nat)
    (some_ : 0 < rankN) (int_ : rankN < 2 ^ 31) :
    (∀ (rng : BitVec 64) (y : BitVec w), Incoming yMax.toNat y.toNat avoidY →
      SplitsTotal rankN rng yMax y avoidY) ↔
      rankN ≤ (yMax.toNat + 1) / 2 + avoidY.toNat ∨
        rankN ≤ rankN * (rankN + 1) / 2 % 2 ^ 31 ∨
        yMax.toNat < rankN * (rankN + 1) / 2 % 2 ^ 31 := by
  change _ ↔ _ ∨ rankN ≤ crowdedSum rankN ∨ yMax.toNat < crowdedSum rankN
  constructor
  · intro splits
    by_contra fails
    have pos := passed.pos
    have wide := passed.wide
    have least : (yMax.toNat + 1) / 2 + avoidY.toNat ≤ yMax.toNat := by
      cases avoidY with
      | false =>
        rw [Bool.toNat_false]
        omega
      | true =>
        have := wide rfl
        rw [Bool.toNat_true]
        omega
    obtain ⟨rng, y, incoming, drawn⟩ := genSumY_surjective width (passed.room width) passed.wide
      (v := max ((yMax.toNat + 1) / 2 + avoidY.toNat) (crowdedSum rankN)) (by omega) (by omega)
    have crowded : (genSumY rng yMax y avoidY).toNat < rankN := by omega
    have below := (splitsTotal_crowded_iff width passed some_ int_ rng incoming crowded).1
      (splits rng y incoming)
    omega
  · intro condition rng y incoming
    have range := total_range width passed rng incoming
    rcases Nat.lt_or_ge (genSumY rng yMax y avoidY).toNat rankN with crowded | enough
    · refine (splitsTotal_crowded_iff width passed some_ int_ rng incoming crowded).2 ?_
      omega
    · exact splitsTotal_of_le width passed some_ int_ rng incoming enough

/-- A thousand ranks split the exponent totals of products of halves. -/
theorem genSumXY_splits_iff_half : SplitsTotal 1000 0x123456789 (15 : BitVec 32) 0 false :=
  (genSumXY_splits_iff (.inl rfl) .half (15 : BitVec 32) false (by unfold Passed; decide) 1000
    (by decide) (by decide)).2 (by decide) 0x123456789 0 (fun avoid => absurd avoid (by decide))

/-- 861991 partitions seem to add up to 1932, which a total of 2047 exceeds. -/
theorem genSumXY_exceeds_half : ¬ SplitsTotal 861991 0xFFFFFFFF (2047 : BitVec 32) 0 false := by
  have passed : Passed .half (2047 : BitVec 32).toNat false := by
    unfold Passed
    decide
  have incoming : Incoming (2047 : BitVec 32).toNat (0 : BitVec 32).toNat false :=
    fun avoid => absurd avoid (by decide)
  intro splits
  have below := (splitsTotal_crowded_iff (.inl rfl) passed (by decide) (by decide) 0xFFFFFFFF
    incoming (by decide)).1 splits
  exact absurd below (by decide)

/-! ## The divisors -/

/-- No divisor is zero, and one partition is used if the ranks exceed the total. -/
structure DividesSafely {w : Nat} (rankN : Nat) (rng : BitVec 64) (yMax y : BitVec w)
    (avoidY : Bool) : Prop where
  ranks : BitVec.ofNat 32 rankN ≠ 0
  divisors : ∃ pn s, partitionCount (BitVec.ofNat 32 rankN) (genSumY rng yMax y avoidY) = some pn ∧
    pn ≠ 0 ∧ partitionSum yMax pn ≠ 0 ∧
    ranksPerPartition (BitVec.ofNat 32 rankN) (genSumY rng yMax y avoidY) pn
      (partitionSum yMax pn) = some s ∧ s ≠ 0
  fallback : (genSumY rng yMax y avoidY).toNat < rankN →
    partitionCount (BitVec.ofNat 32 rankN) (genSumY rng yMax y avoidY) = some 1

/-- The calls of the three float generators. -/
inductive GenCall
  | sumSameSign | sumEvens | sumOdds | preMulSumEvens | preMulSumOdds | prod
  deriving DecidableEq, Repr

namespace GenCall

/-- The width of `Uint`. -/
def width (call : GenCall) (T : FloatLayout) : Nat :=
  match call with
  | prod => 32
  | _ => uintmantBits T

def yMax (call : GenCall) (T : FloatLayout) : BitVec (call.width T) :=
  match call with
  | sumSameSign | sumEvens | sumOdds => maxMant T
  | preMulSumEvens => maxMant T >>> 1
  | preMulSumOdds => maxMant T >>> 2
  | prod => maxExp T

/-- The ranks of the group that splits the total. -/
def ranks (call : GenCall) (rankN : Nat) : Nat :=
  match call with
  | sumSameSign | prod => rankN
  | sumEvens | preMulSumEvens => (rankN + 1) / 2
  | sumOdds | preMulSumOdds => rankN / 2

def avoidY : GenCall → Bool
  | sumOdds => true
  | _ => false

theorem width_eq (call : GenCall) (T : FloatLayout) : call.width T = 32 ∨ call.width T = 64 := by
  cases call
  case prod => exact .inl rfl
  all_goals exact uintmant_width T

theorem passed (call : GenCall) (T : FloatLayout) :
    Passed T (call.yMax T).toNat call.avoidY := by
  unfold Passed
  cases call <;> cases T <;> decide

end GenCall

/-- **When nothing is divided by zero**: a call divides safely for every draw if and only if its
group of ranks is at most as large as the least total that it can draw.

A total below the number of ranks makes `2 * (y / rankN) - 1` wrap around to the largest word, which
is then cut to `rankN` partitions; the total does not cover their sum, and the width of a partition,
by which the rank is divided, becomes zero. The least total is the middle of the range, or the next
one where a total is to be avoided. -/
theorem genSumXY_dividesSafely_iff (call : GenCall) (T : FloatLayout) (rankN : Nat)
    (two : 2 ≤ rankN) (int_ : rankN < 2 ^ 31) :
    (∀ (rng : BitVec 64) (y : BitVec (call.width T)),
      Incoming (call.yMax T).toNat y.toNat call.avoidY →
        DividesSafely (call.ranks rankN) rng (call.yMax T) y call.avoidY) ↔
      call.ranks rankN ≤ ((call.yMax T).toNat + 1) / 2 + call.avoidY.toNat := by
  have width := call.width_eq T
  have passed := call.passed T
  have pos := passed.pos
  have some_ : 0 < call.ranks rankN := by
    cases call <;> simp only [GenCall.ranks] <;> omega
  have few : call.ranks rankN < 2 ^ 31 := by
    cases call <;> simp only [GenCall.ranks] <;> omega
  constructor
  · intro safe
    by_contra many
    have least : ((call.yMax T).toNat + 1) / 2 + call.avoidY.toNat ≤ (call.yMax T).toNat := by
      rcases h : call.avoidY with _ | _
      · rw [Bool.toNat_false]
        omega
      · have wide := passed.wide h
        rw [Bool.toNat_true]
        omega
    obtain ⟨rng, y, incoming, drawn⟩ :=
      genSumY_surjective width (passed.room width) passed.wide le_rfl least
    have crowded : (genSumY rng (call.yMax T) y call.avoidY).toNat < call.ranks rankN := by omega
    obtain ⟨-, several⟩ := small_of_crowded width passed some_ few rng incoming crowded
    -- there are as many partitions as ranks, and not one
    have counted := partitionCount_crowded width several few crowded
    rw [(safe rng y incoming).fallback crowded, Option.some.injEq, ← BitVec.toNat_inj,
      setWidth_rank_toNat width few, uint_one_toNat width] at counted
    omega
  · intro enough rng y incoming
    have range := total_range width passed rng incoming
    have le := enough.trans range.1
    have ok := noWrap_of_le width passed some_ few rng incoming le
    obtain ⟨pn, counted, count⟩ := ok.partitionCount_eq
    obtain ⟨s, sized, size⟩ := ok.ranksPerPartition_eq count
    have sum := ok.partitionSum_toNat count
    have positive := groups_pos some_ le
    have triangle_pos : 0 < triangle (groups (call.ranks rankN)
        (genSumY rng (call.yMax T) y call.avoidY).toNat) := triangle_mono positive
    have ranks := members_pos some_ le
    constructor
    case ranks =>
      refine ne_zero_of_toNat_pos ?_
      rw [ofNat_rank_toNat few]
      exact some_
    case divisors =>
      exact ⟨pn, s, counted, ne_zero_of_toNat_pos (by omega), ne_zero_of_toNat_pos (by omega),
        sized, ne_zero_of_toNat_pos (by omega)⟩
    case fallback => exact fun crowded => absurd le (Nat.not_le_of_lt crowded)

/-- Eight ranks split the exponent totals of products of halves. -/
theorem genSumXY_dividesSafely_iff_half :
    DividesSafely 8 0 (GenCall.prod.yMax .half) 0 GenCall.prod.avoidY :=
  (genSumXY_dividesSafely_iff .prod .half 8 (by decide) (by decide)).2 (by decide) 0 0
    (fun avoid => absurd avoid (by decide))

/-- Sixteen ranks exceed every exponent total of a half: the product divides by zero. -/
theorem genInOutFloatProd_half_divides_by_zero :
    genInOutFloatProd .half true 16 0 0 0 = none ∧
      ¬ DividesSafely 16 0 (GenCall.prod.yMax .half) 0 GenCall.prod.avoidY := by
  refine ⟨by decide, fun safe => ?_⟩
  obtain ⟨pn, s, counted, -, -, sized, nonzero⟩ := safe.divisors
  have count : partitionCount (BitVec.ofNat 32 16)
      (genSumY 0 (GenCall.prod.yMax .half) 0 GenCall.prod.avoidY) = some 16 := by decide
  obtain rfl : _ = pn := Option.some.inj (count.symm.trans counted)
  have size : ranksPerPartition (BitVec.ofNat 32 16)
      (genSumY 0 (GenCall.prod.yMax .half) 0 GenCall.prod.avoidY) 16
      (partitionSum (GenCall.prod.yMax .half) 16) = some 0 := by decide
  exact nonzero (Option.some.inj (sized.symm.trans size))

end NcclTests.Verifiable
