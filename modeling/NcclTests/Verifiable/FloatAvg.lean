import Mathlib
import NcclTests.Lib.Ieee
import NcclTests.Verifiable.FloatLayout
import NcclTests.Verifiable.ShuffleRank

/-!
# The data of an average of floats

Two ranks contribute numbers other than zero, whose mantissas come from the state that
`shuffleRank` leaves. The output has no rank to shuffle and passes `-1`, which leaves the
same state.
-/

namespace NcclTests.Verifiable

open BinaryFloat PowTwoPerm

variable (T : FloatLayout)

/-- The mantissa of the contributor that is shuffled to `r`, from the advanced state. -/
def avgMant (rng : BitVec 64) (r : Nat) : BitVec 64 :=
  (rng * (if r ≠ 0 then 0xbeef else 1)) &&& ((1 : BitVec 64) <<< T.mantissaBits - 1)

/-- What `genInput(ReduceAvg)` casts to `T`. The seed is the state, and `index` is unused. -/
def genInputAvgInteger (rankN rankMe : Nat) (rng : BitVec 64) (_index : Int) : BitVec 64 :=
  let (r, rng) := shuffleRank rankN rankMe rng
  let m := avgMant T rng r
  if r < 2 then 1 + m else 0

/-- `m0` and `m1` of `genOutput(ReduceAvg)`. -/
def genOutputAvgMants (rankN : Nat) (rng : BitVec 64) (_index : Int) : BitVec 64 × BitVec 64 :=
  let (_, rng) := shuffleRank rankN (-1) rng
  (avgMant T rng 0, avgMant T rng 1)

/-- `TMul` of `genOutput(ReduceAvg)`. -/
def avgMulFormat : Format := if T.sizeof < 8 then binary32 else binary64

/-- The conversions of CUDA to `T` and its sum. -/
structure FloatOps where
  castTo : BitVec 64 → T.Bits
  ofTMul : Value → T.Bits
  sum : T.Bits → T.Bits → T.Bits

variable {T}

def genInputAvg (ops : FloatOps T) (rankN rankMe : Nat) (rng : BitVec 64) (index : Int) : T.Bits :=
  ops.castTo (genInputAvgInteger T rankN rankMe rng index)

def genOutputAvg (ops : FloatOps T) (rankN : Nat) (rng : BitVec 64) (index : Int) : T.Bits :=
  let (m0, m1) := genOutputAvgMants T rankN rng index
  if rankN = 1 then ops.castTo (1 + m0)
  else
    let share : Value :=
      (Value.div binary64 (.finite 1) (.finite rankN)).convert (avgMulFormat T)
    let scaled (m : BitVec 64) : T.Bits :=
      ops.ofTMul (Value.mul (avgMulFormat T) (.ofRat (avgMulFormat T) (1 + m).toNat) share)
    ops.sum (scaled m0) (scaled m1)

/-! ## The mantissas -/

theorem avgMant_lt (rng : BitVec 64) (r : Nat) : (avgMant T rng r).toNat < 2 ^ T.mantissaBits := by
  have mask : ((1 : BitVec 64) <<< T.mantissaBits - 1).toNat = 2 ^ T.mantissaBits - 1 := by
    cases T <;> decide
  rw [avgMant, BitVec.toNat_and, mask]
  have le := Nat.and_le_right (n := (rng * (if r ≠ 0 then 0xbeef else 1)).toNat)
    (m := 2 ^ T.mantissaBits - 1)
  have := Nat.two_pow_pos T.mantissaBits
  omega

/-- Adding one does not wrap. -/
theorem one_add_avgMant_toNat (rng : BitVec 64) (r : Nat) :
    (1 + avgMant T rng r).toNat = 1 + (avgMant T rng r).toNat := by
  have less : (avgMant T rng r).toNat < 2 ^ T.mantissaBits := avgMant_lt rng r
  have narrow : 2 ^ T.mantissaBits < 2 ^ 63 := by cases T <;> decide
  rw [BitVec.toNat_add]
  exact Nat.mod_eq_of_lt (by change 1 + _ < _; omega)

/-- A normal number of the layout has a bit pattern. -/
theorem exists_decode_of_isNormal {v : ℚ} (normal : T.format.IsNormal v) :
    ∃ b : T.Bits, FloatLayout.decode b = v := by
  obtain ⟨sign, exp, mant, hs, -, high, hm, rfl⟩ := normal
  have narrow : 2 ^ T.mantissaBits < 2 ^ 64 := by cases T <;> decide
  have mant_toNat : (BitVec.ofNat 64 mant).toNat = mant := by
    rw [BitVec.toNat_ofNat]
    exact Nat.mod_eq_of_lt (hm.trans narrow)
  refine ⟨makeFloat T sign exp (BitVec.ofNat 64 mant), ?_⟩
  rw [FloatLayout.decode_makeFloat hs, mant_toNat]
  · have := Nat.two_pow_pos T.exponentBits
    rw [FloatLayout.format_exponentBits] at high
    omega
  · rwa [mant_toNat]

/-- **Small integers are numbers of the layout.** -/
theorem isNormal_natCast {n : Nat} (pos : 0 < n) (le : n ≤ 2 ^ T.mantissaBits) :
    T.format.IsNormal n := by
  have one : T.format.ulp (T.exponentBias + T.mantissaBits : Nat) = 1 := by
    rw [Format.ulp, FloatLayout.format_bias, FloatLayout.format_mantissaBits]
    simp
  have range : T.format.mantissaBits < T.exponentBias + T.mantissaBits ∧
      T.exponentBias + T.mantissaBits ≤ 2 ^ T.format.exponentBits - 2 := by
    cases T <;> decide
  have fits : (n : Int).natAbs < 2 ^ (T.format.mantissaBits + 1) := by
    rw [Int.natAbs_natCast, FloatLayout.format_mantissaBits, pow_succ]
    have := Nat.two_pow_pos T.mantissaBits
    omega
  have number := Format.isNormalOrZero_intScaled fits range.1 range.2
  rw [one, mul_one, Int.cast_natCast] at number
  refine number.resolve_left ?_
  exact_mod_cast pos.ne'

/-! ## The contributors -/

/-- An integer up to `2 ^ mantissa_bits`, which is a number of the layout. -/
structure Exact (T : FloatLayout) (x : BitVec 64) : Prop where
  le : x.toNat ≤ 2 ^ T.mantissaBits
  normal : T.format.IsNormal x.toNat
  bits : ∃ b : T.Bits, FloatLayout.decode b = x.toNat

theorem exact_one_add (rng : BitVec 64) (r : Nat) : Exact T (1 + avgMant T rng r) := by
  have le : (1 + avgMant T rng r).toNat ≤ 2 ^ T.mantissaBits := by
    have less : (avgMant T rng r).toNat < 2 ^ T.mantissaBits := avgMant_lt rng r
    rw [one_add_avgMant_toNat]
    omega
  have pos : 0 < (1 + avgMant T rng r).toNat := by
    rw [one_add_avgMant_toNat]
    omega
  have normal := isNormal_natCast pos le
  exact ⟨le, normal, exists_decode_of_isNormal normal⟩

/-- A rank that the shuffle takes to `q`. -/
theorem genInputAvgInteger_of_shuffle {rankN rankMe q : Nat} {rng : BitVec 64} (index : Int)
    (shuffled : (shuffleRank rankN rankMe rng).1 = q) :
    genInputAvgInteger T rankN rankMe rng index =
      if q < 2 then 1 + avgMant T (mixBits rng) q else 0 := by
  rw [← shuffled]
  rfl

/-- **Two contributors**: for every seed, one rank's input is `1 + m0`, another's is
`1 + m1`, with the mantissas of the output, and all others' are zero. Both sums are numbers of the
layout (`Exact`), so that the average is the rounding of one exact sum.

The two ranks are those that the shuffle takes to zero and one, and the shuffle is a permutation of
at least two ranks (`two`). -/
theorem genInputAvg_contributors (T : FloatLayout) (rankN : Nat) (two : 2 ≤ rankN)
    (int_ : rankN < 2 ^ 31) (seed : BitVec 64) (index : Int) :
    ∃ i < rankN, ∃ j < rankN, i ≠ j ∧
      genInputAvgInteger T rankN i seed index = 1 + (genOutputAvgMants T rankN seed index).1 ∧
      genInputAvgInteger T rankN j seed index = 1 + (genOutputAvgMants T rankN seed index).2 ∧
      (∀ r < rankN, r ≠ i → r ≠ j → genInputAvgInteger T rankN r seed index = 0) ∧
      Exact T (1 + (genOutputAvgMants T rankN seed index).1) ∧
      Exact T (1 + (genOutputAvgMants T rankN seed index).2) := by
  have shuffle := shuffleRank_bijOn (by omega) int_ seed
  have zero_rank : 0 ∈ Below rankN := Nat.zero_lt_of_lt two
  have one_rank : 1 ∈ Below rankN := two
  obtain ⟨i, i_rank, i_shuffled⟩ := shuffle.surjOn zero_rank
  obtain ⟨j, j_rank, j_shuffled⟩ := shuffle.surjOn one_rank
  refine ⟨i, i_rank, j, j_rank, ?_, ?_, ?_, ?_, exact_one_add _ 0, exact_one_add _ 1⟩
  · rintro rfl
    exact absurd (i_shuffled.symm.trans j_shuffled) Nat.zero_ne_one
  · exact genInputAvgInteger_of_shuffle index i_shuffled
  · exact genInputAvgInteger_of_shuffle index j_shuffled
  · intro r rank not_i not_j
    rw [genInputAvgInteger_of_shuffle index rfl, if_neg]
    intro small
    have zero_or_one : (shuffleRank rankN r seed).1 = 0 ∨ (shuffleRank rankN r seed).1 = 1 := by
      omega
    rcases zero_or_one with zero | one
    · exact not_i (shuffle.injOn rank i_rank (zero.trans i_shuffled.symm))
    · exact not_j (shuffle.injOn rank j_rank (one.trans j_shuffled.symm))

theorem genInputAvg_contributors_three :
    ∃ i < 3, ∃ j < 3, i ≠ j ∧
      genInputAvgInteger .half 3 i 7 0 = 1 + (genOutputAvgMants .half 3 7 0).1 ∧
      genInputAvgInteger .half 3 j 7 0 = 1 + (genOutputAvgMants .half 3 7 0).2 ∧
      (∀ r < 3, r ≠ i → r ≠ j → genInputAvgInteger .half 3 r 7 0 = 0) ∧
      Exact .half (1 + (genOutputAvgMants .half 3 7 0).1) ∧
      Exact .half (1 + (genOutputAvgMants .half 3 7 0).2) :=
  genInputAvg_contributors .half 3 (by decide) (by decide) 7 0

end NcclTests.Verifiable
