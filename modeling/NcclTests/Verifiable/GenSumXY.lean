import Mathlib
import NcclTests.Lib.Staircase
import NcclTests.Verifiable.Random

/-!
# The sum generator

`genSumXY` of `verifiable/verifiable.cu` draws a total `y` and splits it among
the ranks. `Uint` of the source is a bit vector of 32 or 64 bits. Division by
zero has no value in the source, so every division that can meet a zero divisor
returns an option, and `genSumXY` fails when one does.

`genSumXY_spec` is the bridge to the arithmetic of `Staircase`: when the total
is at least the number of ranks nothing fails, nothing wraps and rank `r` gets
its share of the split.
-/

namespace NcclTests.Verifiable

open Staircase

/-- `Uint` division, undefined at divisor zero. -/
def checkedDiv {w : Nat} (a b : BitVec w) : Option (BitVec w) :=
  if b = 0 then none else some (a / b)

/-- Pick `y` as a random value in `[yMax / 2, yMax]`, other than the given `y`
when `avoidY` asks for it. -/
def genSumY {w : Nat} (rng : BitVec 64) (yMax y : BitVec w) (avoidY : Bool) : BitVec w :=
  let yMin := (yMax + 1) / 2
  let range := yMax / 2 + (if avoidY then 0 else 1)
  let d : BitVec w :=
    if w > 32 then (umul64hi rng (range.setWidth 64)).setWidth w
    else (umul32hi (rng.setWidth 32) (range.setWidth 32)).setWidth w
  let y1 := (if avoidY then y + 1 else yMin) + d
  y1 - (if avoidY && (y1 < yMin || yMax < y1) then yMax / 2 else 0)

/-- The values `genSumXY` leaves in its reference parameters. -/
structure SumXY (w : Nat) where
  x : BitVec w
  y : BitVec w
  rng : BitVec 64
  deriving DecidableEq

/-- How many partitions the ranks are cut into. -/
def partitionCount {w : Nat} (rn : BitVec 32) (y : BitVec w) : Option (BitVec w) := do
  let pn : BitVec w ←
    if rn = 1 then pure 1
    else do
      let quotient ← checkedDiv y (rn.setWidth w)
      pure (2 * quotient - 1)
  let pn := if pn = 0 then 1 else pn
  pure (if rn.setWidth w < pn then rn.setWidth w else pn)

/-- The sum of one contribution from each partition. -/
def partitionSum {w : Nat} (yMax pn : BitVec w) : BitVec w :=
  if yMax.toNat ≤ (~~~(0 : BitVec 32) >>> 1).toNat then
    (pn.setWidth 32 * (pn + 1).setWidth 32 / 2).setWidth w
  else
    (pn.setWidth 64 * (pn + 1).setWidth 64 / 2).setWidth w

/-- The number of ranks per partition: as intended, or fewer to prevent
overshooting the total. -/
def ranksPerPartition {w : Nat} (rn : BitVec 32) (y pn pSum : BitVec w) :
    Option (BitVec 32) := do
  let overshoot ← checkedDiv y pSum
  let intended ← checkedDiv (rn.setWidth w) pn
  pure ((if overshoot < intended then overshoot else intended).setWidth 32)

/-- The first `s * pn` ranks contribute their partition index plus one, the last
rank contributes the discrepancy. -/
def contribution {w : Nat} (r rn s : BitVec 32) (y pn pSum : BitVec w) :
    Option (BitVec w) := do
  let group ← checkedDiv r s
  let x : BitVec w := if group.setWidth w < pn then (1 + group).setWidth w else 0
  pure (x + (if r = rn - 1 then y - s.setWidth w * pSum else 0))

def genSumXY {w : Nat} (rankN rankMe : Nat) (rng : BitVec 64) (yMax y : BitVec w)
    (avoidY : Bool) : Option (SumXY w) := do
  let y := genSumY rng yMax y avoidY
  let rng := mixBits rng
  let r : BitVec 32 := BitVec.ofNat 32 rankMe
  let rn : BitVec 32 := BitVec.ofNat 32 rankN
  let pn ← partitionCount rn y
  let pSum := partitionSum yMax pn
  let s ← ranksPerPartition rn y pn pSum
  let x ← contribution r rn s y pn pSum
  pure ⟨x, y, rng⟩

/-- The total and the state left behind do not depend on the rank. -/
theorem genSumXY_total {w rankN rankMe : Nat} {rng : BitVec 64} {yMax y : BitVec w}
    {avoidY : Bool} {out : SumXY w} (done : genSumXY rankN rankMe rng yMax y avoidY = some out) :
    out.y = genSumY rng yMax y avoidY ∧ out.rng = mixBits rng := by
  simp only [genSumXY, Option.bind_eq_bind, Option.bind_eq_some_iff, Option.pure_def,
    Option.some.injEq] at done
  obtain ⟨pn, -, s, -, x, -, rfl⟩ := done
  exact ⟨rfl, rfl⟩

/-! ## Arithmetic without wrap-around -/

theorem checkedDiv_eq {w : Nat} {a b : BitVec w} (nonzero : b.toNat ≠ 0) :
    ∃ q, checkedDiv a b = some q ∧ q.toNat = a.toNat / b.toNat := by
  refine ⟨a / b, if_neg ?_, BitVec.toNat_udiv⟩
  intro zero
  apply nonzero
  simp [zero]

theorem setWidth_toNat_of_lt {v w : Nat} {x : BitVec v} (fits : x.toNat < 2 ^ w) :
    (x.setWidth w).toNat = x.toNat := by
  rw [BitVec.toNat_setWidth, Nat.mod_eq_of_lt fits]

theorem uint_one_toNat {w : Nat} (width : w = 32 ∨ w = 64) : (1 : BitVec w).toNat = 1 := by
  rcases width with rfl | rfl <;> rfl

theorem uint_two_toNat {w : Nat} (width : w = 32 ∨ w = 64) : (2 : BitVec w).toNat = 2 := by
  rcases width with rfl | rfl <;> rfl

/-- The draw of `genSumY` below `range`. -/
def drawBelow {w : Nat} (rng : BitVec 64) (range : BitVec w) : BitVec w :=
  if w > 32 then (umul64hi rng (range.setWidth 64)).setWidth w
  else (umul32hi (rng.setWidth 32) (range.setWidth 32)).setWidth w

/-- The bits of `Uint` from the generator, scaled to the range. -/
theorem drawBelow_toNat {w : Nat} (width : w = 32 ∨ w = 64) (rng : BitVec 64)
    (range : BitVec w) :
    (drawBelow rng range).toNat = rng.toNat % 2 ^ w * range.toNat / 2 ^ w := by
  have below : rng.toNat % 2 ^ w * range.toNat / 2 ^ w < 2 ^ w := by
    rw [Nat.div_lt_iff_lt_mul (Nat.two_pow_pos w)]
    exact Nat.mul_lt_mul'' (Nat.mod_lt _ (Nat.two_pow_pos w)) range.isLt
  rcases width with rfl | rfl
  · have narrow : ¬ (32 > 32) := by decide
    rw [drawBelow, if_neg narrow, BitVec.toNat_setWidth, umul32hi_toNat, BitVec.toNat_setWidth,
      BitVec.setWidth_eq, Nat.mod_eq_of_lt below]
  · rw [drawBelow, if_pos (by decide), BitVec.toNat_setWidth, umul64hi_toNat, BitVec.setWidth_eq,
      Nat.mod_eq_of_lt rng.isLt]
    rw [Nat.mod_eq_of_lt rng.isLt] at below
    exact Nat.mod_eq_of_lt below

theorem drawBelow_lt {w : Nat} (width : w = 32 ∨ w = 64) (rng : BitVec 64) (range : BitVec w)
    (some_ : 0 < range.toNat) : (drawBelow rng range).toNat < range.toNat := by
  rw [drawBelow_toNat width, Nat.div_lt_iff_lt_mul (Nat.two_pow_pos w), Nat.mul_comm]
  exact Nat.mul_lt_mul_of_pos_left (Nat.mod_lt _ (Nat.two_pow_pos w)) some_

/-- The total without anything to avoid. -/
theorem genSumY_false_toNat {w : Nat} (width : w = 32 ∨ w = 64) (rng : BitVec 64)
    {yMax : BitVec w} (room : yMax.toNat + 1 < 2 ^ w) (y : BitVec w) :
    (genSumY rng yMax y false).toNat =
      (yMax.toNat + 1) / 2 + rng.toNat % 2 ^ w * (yMax.toNat / 2 + 1) / 2 ^ w := by
  have one := uint_one_toNat width
  have two := uint_two_toNat width
  have low : ((yMax + 1) / 2 : BitVec w).toNat = (yMax.toNat + 1) / 2 := by
    rw [BitVec.toNat_udiv, BitVec.toNat_add, one, two, Nat.mod_eq_of_lt room]
  have range : (yMax / 2 + 1 : BitVec w).toNat = yMax.toNat / 2 + 1 := by
    rw [BitVec.toNat_add, BitVec.toNat_udiv, one, two, Nat.mod_eq_of_lt (by omega)]
  have drawn : genSumY rng yMax y false = (yMax + 1) / 2 + drawBelow rng (yMax / 2 + 1) := by
    simp [genSumY, drawBelow]
  have draw := drawBelow_lt width rng (yMax / 2 + 1) (by omega)
  rw [drawn, BitVec.toNat_add, low, Nat.mod_eq_of_lt (by omega), drawBelow_toNat width, range]

/-- The total is drawn from the upper half of the range. -/
theorem genSumY_bounds {w : Nat} (width : w = 32 ∨ w = 64) (rng : BitVec 64)
    {yMax : BitVec w} (room : yMax.toNat + 1 < 2 ^ w) (y : BitVec w) :
    (yMax.toNat + 1) / 2 ≤ (genSumY rng yMax y false).toNat ∧
      (genSumY rng yMax y false).toNat ≤ yMax.toNat := by
  have range : (yMax / 2 + 1 : BitVec w).toNat = yMax.toNat / 2 + 1 := by
    rw [BitVec.toNat_add, BitVec.toNat_udiv, uint_one_toNat width, uint_two_toNat width,
      Nat.mod_eq_of_lt (by omega)]
  have draw := drawBelow_lt width rng (yMax / 2 + 1) (by omega)
  rw [drawBelow_toNat width, range] at draw
  rw [genSumY_false_toNat width rng room]
  generalize rng.toNat % 2 ^ w * (yMax.toNat / 2 + 1) / 2 ^ w = d at draw ⊢
  omega

/-- The total that avoids another one: behind it, or wrapped around by half the range. -/
theorem genSumY_true_toNat {w : Nat} (width : w = 32 ∨ w = 64) (rng : BitVec 64)
    {yMax y : BitVec w} (room : 2 * yMax.toNat + 1 < 2 ^ w) (wide : 2 ≤ yMax.toNat)
    (low : (yMax.toNat + 1) / 2 ≤ y.toNat) (high : y.toNat ≤ yMax.toNat) :
    (genSumY rng yMax y true).toNat =
      let d := rng.toNat % 2 ^ w * (yMax.toNat / 2) / 2 ^ w
      if yMax.toNat < y.toNat + 1 + d then y.toNat + 1 + d - yMax.toNat / 2
      else y.toNat + 1 + d := by
  have one := uint_one_toNat width
  have two := uint_two_toNat width
  have least : ((yMax + 1) / 2 : BitVec w).toNat = (yMax.toNat + 1) / 2 := by
    rw [BitVec.toNat_udiv, BitVec.toNat_add, one, two, Nat.mod_eq_of_lt (by omega)]
  have half : (yMax / 2 : BitVec w).toNat = yMax.toNat / 2 := by
    rw [BitVec.toNat_udiv, two]
  have drawn : genSumY rng yMax y true = y + 1 + drawBelow rng (yMax / 2) -
      (if y + 1 + drawBelow rng (yMax / 2) < (yMax + 1) / 2 ∨
        yMax < y + 1 + drawBelow rng (yMax / 2) then yMax / 2 else 0) := by
    simp [genSumY, drawBelow]
  have below := drawBelow_lt width rng (yMax / 2) (by omega)
  have sum : (y + 1 + drawBelow rng (yMax / 2)).toNat =
      y.toNat + 1 + (drawBelow rng (yMax / 2)).toNat := by
    rw [BitVec.toNat_add, BitVec.toNat_add, one, Nat.mod_eq_of_lt (a := y.toNat + 1) (by omega),
      Nat.mod_eq_of_lt (by omega)]
  have draw := drawBelow_toNat width rng (yMax / 2)
  rw [half] at draw
  rw [drawn, ← draw]
  split
  case isTrue outside =>
    rw [BitVec.lt_def, BitVec.lt_def, least, sum] at outside
    rw [BitVec.toNat_sub_of_le (by rw [BitVec.le_def, half, sum]; omega), half, sum]
    exact (if_pos (by omega)).symm
  case isFalse inside =>
    rw [BitVec.lt_def, BitVec.lt_def, least, sum] at inside
    rw [sub_zero, sum]
    exact (if_neg (by omega)).symm

/-- A total drawn to avoid another one stays in the upper half of the range, above the least. -/
theorem genSumY_avoid_bounds {w : Nat} (width : w = 32 ∨ w = 64) (rng : BitVec 64)
    {yMax y : BitVec w} (room : 2 * yMax.toNat + 1 < 2 ^ w) (wide : 2 ≤ yMax.toNat)
    (low : (yMax.toNat + 1) / 2 ≤ y.toNat) (high : y.toNat ≤ yMax.toNat) :
    (yMax.toNat + 1) / 2 < (genSumY rng yMax y true).toNat ∧
      (genSumY rng yMax y true).toNat ≤ yMax.toNat := by
  have half : (yMax / 2 : BitVec w).toNat = yMax.toNat / 2 := by
    rw [BitVec.toNat_udiv, uint_two_toNat width]
  have draw := drawBelow_lt width rng (yMax / 2) (by omega)
  rw [drawBelow_toNat width, half] at draw
  rw [genSumY_true_toNat width rng room wide low high]
  generalize rng.toNat % 2 ^ w * (yMax.toNat / 2) / 2 ^ w = d at draw ⊢
  dsimp only
  split <;> omega

theorem ofNat_rank_toNat {rank : Nat} (int_ : rank < 2 ^ 31) :
    (BitVec.ofNat 32 rank).toNat = rank := by
  rw [BitVec.toNat_ofNat, Nat.mod_eq_of_lt (by omega)]

theorem setWidth_rank_toNat {w rank : Nat} (width : w = 32 ∨ w = 64) (int_ : rank < 2 ^ 31) :
    ((BitVec.ofNat 32 rank).setWidth w).toNat = rank := by
  have same := ofNat_rank_toNat int_
  rw [setWidth_toNat_of_lt, same]
  rcases width with rfl | rfl <;> omega

section Split

variable {w rankN : Nat} {y : BitVec w}

/-- Widths and totals for which no product of `genSumXY` wraps. -/
structure NoWrap (w rankN : Nat) (yMax y : BitVec w) : Prop where
  width : w = 32 ∨ w = 64
  ranks : 0 < rankN
  int_ : rankN < 2 ^ 31
  enough : rankN ≤ y.toNat
  le : y.toNat ≤ yMax.toNat
  small : yMax.toNat < 2 ^ 31 ∨ w = 64 ∧ yMax.toNat < 2 ^ 62

namespace NoWrap

variable {yMax : BitVec w} (ok : NoWrap w rankN yMax y)

include ok

theorem two_pow_le : 2 ^ 32 ≤ 2 ^ w := by
  rcases ok.width with rfl | rfl <;> norm_num

theorem two_mul_lt : 2 * y.toNat < 2 ^ w := by
  have le := ok.le
  rcases ok.small with low | ⟨rfl, low⟩
  · have := ok.two_pow_le
    omega
  · omega

theorem one_toNat : (1 : BitVec w).toNat = 1 := uint_one_toNat ok.width

theorem two_toNat : (2 : BitVec w).toNat = 2 := uint_two_toNat ok.width

theorem ranks_toNat : (BitVec.ofNat 32 rankN).toNat = rankN := ofNat_rank_toNat ok.int_

theorem ranks_wide_toNat : ((BitVec.ofNat 32 rankN).setWidth w).toNat = rankN :=
  setWidth_rank_toNat ok.width ok.int_

theorem partitionCount_eq : ∃ pn, partitionCount (BitVec.ofNat 32 rankN) y = some pn ∧
    pn.toNat = groups rankN y.toNat := by
  have ranks := ok.ranks
  have enough := ok.enough
  have room := ok.two_mul_lt
  have wide := ok.ranks_wide_toNat
  by_cases single : rankN = 1
  · subst single
    refine ⟨1, ?_, by rw [ok.one_toNat]; simp [groups]⟩
    have notLess : ¬ (BitVec.setWidth w 1#32 < 1) := by
      rw [BitVec.lt_def, ok.one_toNat]
      rw [wide]
      omega
    have nonzero : (1 : BitVec w) ≠ 0 := by
      rcases ok.width with rfl | rfl <;> decide
    have unit : BitVec.ofNat 32 1 = 1 := rfl
    simp only [partitionCount, unit, if_pos, Option.pure_def, Option.bind_eq_bind,
      Option.bind_some, if_neg nonzero]
    exact congrArg some (if_neg notLess)
  · have many : BitVec.ofNat 32 rankN ≠ 1 := by
      intro h
      apply single
      rw [← ok.ranks_toNat, h]
      rfl
    obtain ⟨quotient, divided, quotientEq⟩ :=
      checkedDiv_eq (a := y) (b := (BitVec.ofNat 32 rankN).setWidth w) (by rw [wide]; omega)
    rw [wide] at quotientEq
    have positive : 0 < y.toNat / rankN := Nat.div_pos enough ranks
    have bounded : rankN * (y.toNat / rankN) ≤ y.toNat := Nat.mul_div_le _ _
    have double : 2 * (y.toNat / rankN) ≤ y.toNat :=
      (Nat.mul_le_mul_right _ (by omega)).trans bounded
    have twice : (2 * quotient : BitVec w).toNat = 2 * (y.toNat / rankN) := by
      rw [BitVec.toNat_mul, ok.two_toNat, quotientEq, Nat.mod_eq_of_lt (by omega)]
    have odd : (2 * quotient - 1 : BitVec w).toNat = 2 * (y.toNat / rankN) - 1 := by
      rw [BitVec.toNat_sub_of_le (by rw [BitVec.le_def, ok.one_toNat, twice]; omega), twice,
        ok.one_toNat]
    have nonzero : (2 * quotient - 1 : BitVec w) ≠ 0 := by
      intro h
      rw [h] at odd
      simp at odd
      omega
    refine ⟨_, by
      simp only [partitionCount, if_neg many, divided, Option.pure_def, Option.bind_eq_bind,
        Option.bind_some, if_neg nonzero]
      rfl, ?_⟩
    rw [groups, if_neg single]
    split
    case isTrue less =>
      rw [BitVec.lt_def, wide, odd] at less
      rw [wide]
      omega
    case isFalse more =>
      rw [BitVec.lt_def, wide, odd] at more
      rw [odd]
      omega

theorem partitionSum_toNat {pn : BitVec w} (count : pn.toNat = groups rankN y.toNat) :
    (partitionSum yMax pn).toNat = triangle (groups rankN y.toNat) := by
  have twice := two_mul_triangle (groups rankN y.toNat)
  have under := triangle_groups_le ok.ranks ok.enough
  have width := groups_le rankN y.toNat
  have int_ := ok.int_
  have wide := ok.two_pow_le
  have le := ok.le
  have room := ok.two_mul_lt
  have next : (pn + 1).toNat = groups rankN y.toNat + 1 := by
    rw [BitVec.toNat_add, count, ok.one_toNat, Nat.mod_eq_of_lt (by omega)]
  have limit : (~~~(0 : BitVec 32) >>> 1).toNat = 2 ^ 31 - 1 := by decide
  rw [partitionSum, limit]
  split
  case isTrue low =>
    rw [setWidth_toNat_of_lt (lt_of_lt_of_le (BitVec.isLt _) wide), BitVec.toNat_udiv,
      BitVec.toNat_mul, setWidth_toNat_of_lt (by rw [count]; omega),
      setWidth_toNat_of_lt (by rw [next]; omega), next, count, ← twice,
      Nat.mod_eq_of_lt (by omega)]
    exact Nat.mul_div_cancel_left _ (by norm_num)
  case isFalse high =>
    obtain ⟨rfl, _⟩ : w = 64 ∧ yMax.toNat < 2 ^ 62 := ok.small.resolve_left (by omega)
    rw [BitVec.setWidth_eq, BitVec.toNat_udiv, BitVec.toNat_mul, BitVec.setWidth_eq,
      BitVec.setWidth_eq, next, count, ← twice, Nat.mod_eq_of_lt (by omega)]
    exact Nat.mul_div_cancel_left _ (by norm_num)

theorem ranksPerPartition_eq {pn : BitVec w} (count : pn.toNat = groups rankN y.toNat) :
    ∃ s, ranksPerPartition (BitVec.ofNat 32 rankN) y pn (partitionSum yMax pn) = some s ∧
      s.toNat = members rankN y.toNat := by
  have int_ := ok.int_
  have sum := ok.partitionSum_toNat count
  have countPos := groups_pos ok.ranks ok.enough
  have sumPos : 0 < triangle (groups rankN y.toNat) := triangle_mono countPos
  obtain ⟨overshoot, divided, overshootEq⟩ :=
    checkedDiv_eq (a := y) (b := partitionSum yMax pn) (by omega)
  obtain ⟨intended, divided', intendedEq⟩ :=
    checkedDiv_eq (a := (BitVec.ofNat 32 rankN).setWidth w) (b := pn) (by omega)
  rw [sum] at overshootEq
  rw [ok.ranks_wide_toNat, count] at intendedEq
  have least : (if overshoot < intended then overshoot else intended).toNat =
      members rankN y.toNat := by
    rw [members, ← overshootEq, ← intendedEq]
    split
    case isTrue less =>
      rw [BitVec.lt_def] at less
      omega
    case isFalse more =>
      rw [BitVec.lt_def] at more
      omega
  have few : members rankN y.toNat ≤ rankN :=
    (Nat.min_le_right _ _).trans (Nat.div_le_self _ _)
  refine ⟨_, by
    simp only [ranksPerPartition, divided, divided', Option.pure_def, Option.bind_eq_bind,
      Option.bind_some]
    rfl, ?_⟩
  rw [setWidth_toNat_of_lt (by omega), least]

theorem contribution_eq {pn : BitVec w} {s : BitVec 32}
    (count : pn.toNat = groups rankN y.toNat) (size : s.toNat = members rankN y.toNat)
    (rankMe : Nat) :
    ∃ x, contribution (BitVec.ofNat 32 rankMe) (BitVec.ofNat 32 rankN) s y pn
        (partitionSum yMax pn) = some x ∧
      (rankMe < rankN → x.toNat = split rankN y.toNat rankMe) := by
  have ranks := ok.ranks
  have int_ := ok.int_
  have wide := ok.two_pow_le
  have room := ok.two_mul_lt
  have sum := ok.partitionSum_toNat count
  have membersPos := members_pos ok.ranks ok.enough
  have under := members_mul_triangle_le rankN y.toNat
  obtain ⟨group, divided, groupEq⟩ :=
    checkedDiv_eq (a := BitVec.ofNat 32 rankMe) (b := s) (by omega)
  refine ⟨_, by
    simp only [contribution, divided, Option.pure_def, Option.bind_eq_bind, Option.bind_some]
    rfl, fun mem => ?_⟩
  have me : (BitVec.ofNat 32 rankMe).toNat = rankMe := by
    rw [BitVec.toNat_ofNat, Nat.mod_eq_of_lt (by omega)]
  rw [me, size] at groupEq
  have groupLe : rankMe / members rankN y.toNat ≤ rankMe := Nat.div_le_self _ _
  have lastToNat : (BitVec.ofNat 32 rankN - 1).toNat = rankN - 1 := by
    rw [BitVec.toNat_sub_of_le (by rw [BitVec.le_def, ok.ranks_toNat]; exact ranks),
      ok.ranks_toNat]
    rfl
  have last : BitVec.ofNat 32 rankMe = BitVec.ofNat 32 rankN - 1 ↔ rankMe = rankN - 1 := by
    rw [← BitVec.toNat_inj, me, lastToNat]
  have product : (s.setWidth w * partitionSum yMax pn).toNat =
      members rankN y.toNat * triangle (groups rankN y.toNat) := by
    rw [BitVec.toNat_mul, setWidth_toNat_of_lt (by omega), size, sum, Nat.mod_eq_of_lt (by omega)]
  have rest : (if BitVec.ofNat 32 rankMe = BitVec.ofNat 32 rankN - 1 then
      y - s.setWidth w * partitionSum yMax pn else 0).toNat =
      if rankMe = rankN - 1 then
        y.toNat - members rankN y.toNat * triangle (groups rankN y.toNat) else 0 := by
    by_cases isLast : rankMe = rankN - 1
    · rw [if_pos (last.2 isLast), if_pos isLast,
        BitVec.toNat_sub_of_le (by rw [BitVec.le_def, product]; exact under), product]
    · rw [if_neg (fun h => isLast (last.1 h)), if_neg isLast]
      exact BitVec.toNat_zero
  have groupWide : (group.setWidth w).toNat = rankMe / members rankN y.toNat := by
    rw [setWidth_toNat_of_lt (by omega), groupEq]
  have succ : (1 + group).toNat = 1 + rankMe / members rankN y.toNat := by
    have unit : (1 : BitVec 32).toNat = 1 := rfl
    rw [BitVec.toNat_add, groupEq, unit, Nat.mod_eq_of_lt (by omega)]
  have step : (if group.setWidth w < pn then (1 + group).setWidth w else 0).toNat =
      height (members rankN y.toNat) (groups rankN y.toNat) rankMe := by
    rw [height]
    by_cases low : rankMe / members rankN y.toNat < groups rankN y.toNat
    · rw [if_pos (by rw [BitVec.lt_def, groupWide, count]; exact low), if_pos low,
        setWidth_toNat_of_lt (by omega), succ]
    · rw [if_neg (by rw [BitVec.lt_def, groupWide, count]; exact low), if_neg low]
      exact BitVec.toNat_zero
  have whole : split rankN y.toNat rankMe ≤ y.toNat := split_le ok.enough mem
  rw [BitVec.toNat_add, rest, step]
  rw [split, share] at whole ⊢
  exact Nat.mod_eq_of_lt (by omega)

end NoWrap

end Split

/-- **The generator splits its total.** When the total is at least the number of
ranks nothing divides by zero, and rank `rankMe` gets its share. -/
theorem genSumXY_spec {w rankN : Nat} {rng : BitVec 64} {yMax y : BitVec w} {avoidY : Bool}
    (ok : NoWrap w rankN yMax (genSumY rng yMax y avoidY)) (rankMe : Nat) :
    ∃ x, genSumXY rankN rankMe rng yMax y avoidY =
        some ⟨x, genSumY rng yMax y avoidY, mixBits rng⟩ ∧
      (rankMe < rankN → x.toNat = split rankN (genSumY rng yMax y avoidY).toNat rankMe) := by
  obtain ⟨pn, counted, count⟩ := ok.partitionCount_eq
  obtain ⟨s, sized, size⟩ := ok.ranksPerPartition_eq count
  obtain ⟨x, given, share⟩ := ok.contribution_eq count size rankMe
  refine ⟨x, ?_, share⟩
  simp only [genSumXY, counted, sized, given, Option.pure_def, Option.bind_eq_bind,
    Option.bind_some]

end NcclTests.Verifiable
