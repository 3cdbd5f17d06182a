import Mathlib
import NcclTests.Verifiable.FloatLayout
import NcclTests.Verifiable.GenSumXY
import NcclTests.Verifiable.ShuffleRank

/-!
# The floating-point generators

The three generators of `verifiable/verifiable.cu` whose reductions are exactly
predictable. Each returns one rank's input or the expected output; a division
by zero in `genSumXY` makes it fail. The local variables of the source are
rebound under their names; only `rankN` and ranks, which are never negative, are
natural numbers, and at `rankN = 2 ^ 31 - 1` the `int` sum `rankN + 1` stands
for its exact value.

The totals that a generator draws are also given on their own, as the seed and
the index determine them for all ranks alike.
-/

namespace NcclTests.Verifiable

/-- The exponent shared by the inputs and the output of a sum. -/
def drawExp (T : FloatLayout) (rng : BitVec 64) : Nat :=
  let expLo := 1 + T.mantissaBits
  let expHi := (1 <<< T.exponentBits) - 1
  expLo + (umul32hi ((rng >>> 32).setWidth 32) (BitVec.ofNat 32 (expHi - expLo))).toNat

def genInOutFloatSum (T : FloatLayout) (inputNotOutput : Bool) (rankN rankMe : Nat)
    (seed : BitVec 64) (index : Int) (sameSign : Bool) : Option T.Bits := do
  let rng := hashOf seed (BitVec.ofInt 64 index)
  let ySign := (rng &&& 1).toNat
  let xSign := ySign
  let xyExp := drawExp T rng
  let rng := mixBits rng
  let (rankMe, rng) := shuffleRank rankN rankMe rng
  -- with mixed signs the ranks are partitioned into evens and odds
  let subrankN := if sameSign then rankN else (rankN + 1) / 2
  let subrankMe := if sameSign then rankMe else rankMe / 2
  let first ← genSumXY subrankN subrankMe rng (maxMant T) 0 false
  let (xSign, ySign, x0Mant, y0Mant) ←
    if !sameSign && rankN / 2 != 0 then do
      let second ← genSumXY (rankN / 2) (rankMe / 2) first.rng (maxMant T) first.y true
      let ySign := ySign ^^^ (if first.y < second.y then 1 else 0)
      let y0Mant := (if first.y < second.y then -1 else 1) * (first.y - second.y)
      let xSign := xSign ^^^ rankMe % 2
      pure (xSign, ySign, if rankMe % 2 = 0 then first.x else second.x, y0Mant)
    else pure (xSign, ySign, first.x, first.y)
  let ansMant := if inputNotOutput then x0Mant else y0Mant
  let ansSign := if inputNotOutput then xSign else ySign
  pure (packMant T ansSign xyExp ansMant)

def genInOutFloatPreMulSum (T : FloatLayout) (inputNotOutput : Bool) (rankN rankMe : Nat)
    (seed : BitVec 64) (index : Int) : Option T.Bits := do
  let rng := hashOf seed (BitVec.ofInt 64 index)
  let ySign := (rng &&& 1).toNat
  let yExp := drawExp T rng
  let rng := mixBits rng
  let (subrankMe0, rng) := shuffleRank ((rankN + 1) / 2) (rankMe / 2 : Nat) rng
  let (subrankMe1, rng) := shuffleRank (rankN / 2) (rankMe / 2 : Nat) rng
  -- when ncclVerifiablePremulScalar() = 1.0
  let first ← genSumXY ((rankN + 1) / 2) subrankMe0 rng (maxMant T >>> 1) 0 false
  -- when ncclVerifiablePremulScalar() = 2.0
  let (x1Mant, y1Mant) ←
    if rankN / 2 != 0 then do
      let second ← genSumXY (rankN / 2) subrankMe1 first.rng (maxMant T >>> 2) 0 false
      pure (second.x, second.y)
    else pure (0, 0)
  let xMant := if rankMe % 2 = 0 then first.x else x1Mant
  let yMant := first.y + 2 * y1Mant
  let ansMant := if inputNotOutput then xMant else yMant
  pure (packMant T ySign yExp ansMant)

/-- `ncclVerifiablePremulScalar<T>(rank_me)`, as the number it denotes. -/
def ncclVerifiablePremulScalar (rankMe : Nat) : ℚ := if rankMe % 2 = 0 then 1 else 2

/-- `max_exp` of the product generator. -/
def maxExp (T : FloatLayout) : BitVec 32 := BitVec.ofNat 32 ((1 <<< (T.exponentBits - 1)) - 1)

def genInOutFloatProd (T : FloatLayout) (inputNotOutput : Bool) (rankN rankMe : Nat)
    (seed : BitVec 64) (index : Int) : Option T.Bits := do
  let rng := hashOf seed (BitVec.ofInt 64 index)
  let (rankMe, rng) := shuffleRank rankN rankMe rng
  let ySign := rankN / 2 % 2
  let xSign := rankMe % 2
  let drawn ← genSumXY rankN rankMe rng (maxExp T) 0 false
  let xExp := drawn.x + BitVec.ofNat 32 T.exponentBias
  let yExp := drawn.y + BitVec.ofNat 32 T.exponentBias
  let mantMask : BitVec 64 := ((1 : BitVec 64) <<< T.mantissaBits) - 1
  let yMant := drawn.rng &&& mantMask
  let yMant := if yMant = 0 then 1 else yMant
  pure (makeFloat T (if inputNotOutput then xSign else ySign)
    (if inputNotOutput then xExp else yExp).toNat
    (if !inputNotOutput || rankMe = 0 then yMant else 0))

/-! ## The totals drawn -/

/-- The totals of the even and of the odd ranks of a sum. -/
def floatSumTotals (T : FloatLayout) (seed : BitVec 64) (index : Int) :
    UintMant T × UintMant T :=
  let rng := mixBits (mixBits (hashOf seed (BitVec.ofInt 64 index)))
  let y0 := genSumY rng (maxMant T) 0 false
  (y0, genSumY (mixBits rng) (maxMant T) y0 true)

/-- The totals of the even and of the odd ranks of a premultiplied sum. -/
def floatPreMulSumTotals (T : FloatLayout) (seed : BitVec 64) (index : Int) :
    UintMant T × UintMant T :=
  let rng := mixBits (mixBits (mixBits (hashOf seed (BitVec.ofInt 64 index))))
  (genSumY rng (maxMant T >>> 1) 0 false, genSumY (mixBits rng) (maxMant T >>> 2) 0 false)

/-- The exponent total of a product. -/
def floatProdTotal (T : FloatLayout) (seed : BitVec 64) (index : Int) : BitVec 32 :=
  genSumY (mixBits (hashOf seed (BitVec.ofInt 64 index))) (maxExp T) 0 false

/-! ## Ranges of what is drawn -/

theorem drawExp_bounds (T : FloatLayout) (rng : BitVec 64) :
    T.mantissaBits < drawExp T rng ∧ drawExp T rng ≤ 2 ^ T.exponentBits - 2 := by
  have width : 0 < (BitVec.ofNat 32 ((1 <<< T.exponentBits) - 1 - (1 + T.mantissaBits))).toNat ∧
      1 + T.mantissaBits +
        (BitVec.ofNat 32 ((1 <<< T.exponentBits) - 1 - (1 + T.mantissaBits))).toNat =
      2 ^ T.exponentBits - 1 := by
    cases T <;> decide
  have draw := umul32hi_lt ((rng >>> 32).setWidth 32) width.1
  rw [drawExp]
  omega

theorem uintmant_width (T : FloatLayout) : uintmantBits T = 32 ∨ uintmantBits T = 64 := by
  cases T <;> simp [uintmantBits, FloatLayout.sizeof]

theorem maxMant_room (T : FloatLayout) : 2 * (maxMant T).toNat + 1 < 2 ^ uintmantBits T := by
  rw [FloatLayout.maxMant_toNat]
  cases T <;> decide

theorem maxMant_wide (T : FloatLayout) : 2 ≤ (maxMant T).toNat := by
  rw [FloatLayout.maxMant_toNat]
  cases T <;> decide

/-- No product of `genSumXY` wraps when the range is the one of the mantissas. -/
theorem mant_small (T : FloatLayout) {yMax : UintMant T}
    (le : yMax.toNat ≤ (maxMant T).toNat) :
    yMax.toNat < 2 ^ 31 ∨ uintmantBits T = 64 ∧ yMax.toNat < 2 ^ 62 := by
  rw [FloatLayout.maxMant_toNat] at le
  cases T
  case double => exact Or.inr ⟨rfl, by simp only [FloatLayout.mantissaBits] at le; omega⟩
  all_goals exact Or.inl (by simp only [FloatLayout.mantissaBits] at le; omega)

theorem and_one_lt_two (rng : BitVec 64) : (rng &&& 1).toNat < 2 := by
  rw [BitVec.toNat_and]
  exact Nat.lt_succ_of_le Nat.and_le_right

end NcclTests.Verifiable
