import Mathlib
import NcclTests.Verifiable.FloatSum

/-!
# Premultiplied sums of floating-point data are exact

Even ranks enter the sum with weight one and odd ranks with weight two. Each
group splits its own total after its own shuffle, and the two totals are drawn
low enough for the weighted sum to fit in one mantissa.
-/

namespace NcclTests.Verifiable

open FloatLayout Staircase PowTwoPerm BinaryFloat

/-! ## The totals -/

section Totals

variable (T : FloatLayout) (seed : BitVec 64) (index : Int)

theorem maxMant_shift_one_toNat : (maxMant T >>> 1).toNat = 2 ^ T.mantissaBits - 1 := by
  cases T <;> decide

theorem maxMant_shift_two_toNat : (maxMant T >>> 2).toNat = 2 ^ (T.mantissaBits - 1) - 1 := by
  cases T <;> decide

theorem maxMant_shift_le (k : Nat) : (maxMant T >>> k).toNat ≤ (maxMant T).toNat := by
  rw [BitVec.toNat_ushiftRight, Nat.shiftRight_eq_div_pow]
  exact Nat.div_le_self _ _

theorem maxMant_shift_room (k : Nat) : (maxMant T >>> k).toNat + 1 < 2 ^ uintmantBits T := by
  have room := maxMant_room T
  have le := maxMant_shift_le T k
  omega

theorem floatPreMulSumTotals_fst_le :
    (floatPreMulSumTotals T seed index).1.toNat ≤ (maxMant T >>> 1).toNat :=
  (genSumY_bounds (uintmant_width T) _ (maxMant_shift_room T 1) 0).2

theorem floatPreMulSumTotals_snd_le :
    (floatPreMulSumTotals T seed index).2.toNat ≤ (maxMant T >>> 2).toNat :=
  (genSumY_bounds (uintmant_width T) _ (maxMant_shift_room T 2) 0).2

/-- Both totals together, the second one weighted, fit in the mantissa. -/
theorem floatPreMulSumTotals_le :
    (floatPreMulSumTotals T seed index).1.toNat +
      2 * (floatPreMulSumTotals T seed index).2.toNat < 2 ^ (T.mantissaBits + 1) := by
  have le0 := floatPreMulSumTotals_fst_le T seed index
  have le1 := floatPreMulSumTotals_snd_le T seed index
  have halves : 2 ^ T.mantissaBits = 2 * 2 ^ (T.mantissaBits - 1) := by
    rw [← pow_succ', Nat.sub_add_cancel T.mantissaBits_pos]
  have pos := Nat.two_pow_pos (T.mantissaBits - 1)
  rw [maxMant_shift_one_toNat] at le0
  rw [maxMant_shift_two_toNat] at le1
  rw [pow_succ]
  omega

theorem floatPreMulSumTotals_toNat :
    ((floatPreMulSumTotals T seed index).1 + 2 * (floatPreMulSumTotals T seed index).2).toNat =
      (floatPreMulSumTotals T seed index).1.toNat +
        2 * (floatPreMulSumTotals T seed index).2.toNat := by
  have fits := floatPreMulSumTotals_le T seed index
  have wide := two_pow_lt_uintmant T
  rw [BitVec.toNat_add, BitVec.toNat_mul, uint_two_toNat (uintmant_width T),
    Nat.mod_eq_of_lt (a := 2 * _) (by omega), Nat.mod_eq_of_lt (by omega)]

end Totals

/-- The ranks and the draw of one element for which a premultiplied sum is
predictable: each group of ranks is no larger than the total it splits. `rank_n + 1`,
which the source halves, is an `int`. -/
structure PreMulSumDrawn (T : FloatLayout) (rankN : Nat) (seed : BitVec 64) (index : Int) :
    Prop where
  two : 2 ≤ rankN
  int_ : rankN + 1 < 2 ^ 31
  evens : (rankN + 1) / 2 ≤ (floatPreMulSumTotals T seed index).1.toNat
  odds : rankN / 2 ≤ (floatPreMulSumTotals T seed index).2.toNat

/-! ## One element -/

/-- The place of an even rank in its group. -/
def evenSubrank (rankN : Nat) (seed : BitVec 64) (index : Int) (k : Nat) : Nat :=
  (shuffleRank ((rankN + 1) / 2) k (mixBits (hashOf seed (BitVec.ofInt 64 index)))).1

/-- The place of an odd rank in its group. -/
def oddSubrank (rankN : Nat) (seed : BitVec 64) (index : Int) (k : Nat) : Nat :=
  (shuffleRank (rankN / 2) k (mixBits (mixBits (hashOf seed (BitVec.ofInt 64 index))))).1

/-- What a rank contributes before it is weighted. -/
def preShare (T : FloatLayout) (rankN : Nat) (seed : BitVec 64) (index : Int) (r : Nat) : Nat :=
  let totals := floatPreMulSumTotals T seed index
  if r % 2 = 0 then split ((rankN + 1) / 2) totals.1.toNat (evenSubrank rankN seed index (r / 2))
  else split (rankN / 2) totals.2.toNat (oddSubrank rankN seed index (r / 2))

/-- What a rank contributes after it is weighted. -/
def weightedShare (T : FloatLayout) (rankN : Nat) (seed : BitVec 64) (index : Int) (r : Nat) :
    Nat :=
  let totals := floatPreMulSumTotals T seed index
  if r % 2 = 0 then split ((rankN + 1) / 2) totals.1.toNat (evenSubrank rankN seed index (r / 2))
  else 2 * split (rankN / 2) totals.2.toNat (oddSubrank rankN seed index (r / 2))

theorem premulScalar_mul_preShare (T : FloatLayout) (rankN : Nat) (seed : BitVec 64) (index : Int)
    (r : Nat) : ncclVerifiablePremulScalar r * preShare T rankN seed index r =
      weightedShare T rankN seed index r := by
  rw [ncclVerifiablePremulScalar, preShare, weightedShare]
  split
  · simp
  · push_cast
    ring

namespace PreMulSumDrawn

variable {T : FloatLayout} {rankN : Nat} {seed : BitVec 64} {index : Int}
  (ok : PreMulSumDrawn T rankN seed index)

include ok

theorem evens_noWrap : NoWrap (uintmantBits T) ((rankN + 1) / 2) (maxMant T >>> 1)
    (floatPreMulSumTotals T seed index).1 where
  width := uintmant_width T
  ranks := by have := ok.two; omega
  int_ := by have := ok.int_; omega
  enough := ok.evens
  le := floatPreMulSumTotals_fst_le T seed index
  small := mant_small T (maxMant_shift_le T 1)

theorem odds_noWrap : NoWrap (uintmantBits T) (rankN / 2) (maxMant T >>> 2)
    (floatPreMulSumTotals T seed index).2 where
  width := uintmant_width T
  ranks := by have := ok.two; omega
  int_ := by have := ok.int_; omega
  enough := ok.odds
  le := floatPreMulSumTotals_snd_le T seed index
  small := mant_small T (maxMant_shift_le T 2)

theorem evenSubrank_bijOn :
    Set.BijOn (evenSubrank rankN seed index) (Below ((rankN + 1) / 2)) (Below ((rankN + 1) / 2)) :=
  shuffleRank_bijOn (by have := ok.two; omega) (by have := ok.int_; omega) _

theorem oddSubrank_bijOn :
    Set.BijOn (oddSubrank rankN seed index) (Below (rankN / 2)) (Below (rankN / 2)) :=
  shuffleRank_bijOn (by have := ok.two; omega) (by have := ok.int_; omega) _

/-- Both calls of `genSumXY` succeed; what remains is one packing. -/
theorem genInOutFloatPreMulSum_eq {r : Nat} (mem : r < rankN) :
    let totals := floatPreMulSumTotals T seed index
    ∃ x : UintMant T, x.toNat = preShare T rankN seed index r ∧
      ∀ inputNotOutput, genInOutFloatPreMulSum T inputNotOutput rankN r seed index =
        some (packMant T (sumSign seed index) (drawExp T (hashOf seed (BitVec.ofInt 64 index)))
          (if inputNotOutput then x else totals.1 + 2 * totals.2)) := by
  intro totals
  have two := ok.two
  obtain ⟨x0, first, share0⟩ :=
    genSumXY_spec ok.evens_noWrap (evenSubrank rankN seed index (r / 2))
  obtain ⟨x1, second, share1⟩ :=
    genSumXY_spec ok.odds_noWrap (oddSubrank rankN seed index (r / 2))
  refine ⟨if r % 2 = 0 then x0 else x1, ?_, ?_⟩
  · rw [preShare]
    split
    case isTrue even => exact share0 (ok.evenSubrank_bijOn.mapsTo (by rw [mem_below]; omega))
    case isFalse odd => exact share1 (ok.oddSubrank_bijOn.mapsTo (by rw [mem_below]; omega))
  · intro inputNotOutput
    have mixed : (rankN / 2 != 0) = true := by simp; omega
    have even_ : genSumXY ((rankN + 1) / 2) (evenSubrank rankN seed index (r / 2))
        (mixBits (mixBits (mixBits (hashOf seed (BitVec.ofInt 64 index)))))
        (maxMant T >>> 1) 0 false = some ⟨x0, totals.1, _⟩ := first
    have odd_ : genSumXY (rankN / 2) (oddSubrank rankN seed index (r / 2))
        (mixBits (mixBits (mixBits (mixBits (hashOf seed (BitVec.ofInt 64 index))))))
        (maxMant T >>> 2) 0 false = some ⟨x1, totals.2, _⟩ := second
    simp only [genInOutFloatPreMulSum, mixed, if_true, Option.pure_def, Option.bind_eq_bind]
    change (genSumXY ((rankN + 1) / 2) (evenSubrank rankN seed index (r / 2)) _ _ _ _).bind _ = _
    rw [shuffleRank_rng, shuffleRank_rng, even_, Option.bind_some]
    change (genSumXY (rankN / 2) (oddSubrank rankN seed index (r / 2)) _ _ _ _).bind _ = _
    rw [odd_, Option.bind_some]
    rfl

theorem preShare_lt {r : Nat} (mem : r < rankN) :
    preShare T rankN seed index r < 2 ^ (T.mantissaBits + 1) := by
  have fits := floatPreMulSumTotals_le T seed index
  rw [preShare]
  split
  case isTrue even =>
    have place := ok.evenSubrank_bijOn.mapsTo (show r / 2 ∈ Below _ by rw [mem_below]; omega)
    have := split_le ok.evens place
    omega
  case isFalse odd =>
    have place := ok.oddSubrank_bijOn.mapsTo (show r / 2 ∈ Below _ by rw [mem_below]; omega)
    have := split_le ok.odds place
    omega

theorem input_decode {r : Nat} (mem : r < rankN) :
    ∃ b, genInOutFloatPreMulSum T true rankN r seed index = some b ∧
      decode b = sumUnit T seed index * preShare T rankN seed index r := by
  obtain ⟨x, share, run⟩ := ok.genInOutFloatPreMulSum_eq mem
  obtain ⟨low, high⟩ := drawExp_bounds T (hashOf seed (BitVec.ofInt 64 index))
  have fits := ok.preShare_lt mem
  rw [← share] at fits ⊢
  refine ⟨_, run true, ?_⟩
  rw [if_pos rfl, decode_packMant (sumSign_lt_two seed index) fits low (by omega), sumUnit_mul]

/-- The output is the weighted sum of the totals. -/
theorem output_decode : ∃ b,
    (∀ r < rankN, genInOutFloatPreMulSum T false rankN r seed index = some b) ∧
      decode b = sumUnit T seed index * (((floatPreMulSumTotals T seed index).1.toNat +
        2 * (floatPreMulSumTotals T seed index).2.toNat : Nat) : ℚ) := by
  obtain ⟨low, high⟩ := drawExp_bounds T (hashOf seed (BitVec.ofInt 64 index))
  have fits := floatPreMulSumTotals_le T seed index
  rw [← floatPreMulSumTotals_toNat] at fits ⊢
  refine ⟨packMant T (sumSign seed index) (drawExp T (hashOf seed (BitVec.ofInt 64 index)))
    ((floatPreMulSumTotals T seed index).1 + 2 * (floatPreMulSumTotals T seed index).2),
    fun r mem => ?_, ?_⟩
  · obtain ⟨_, _, run⟩ := ok.genInOutFloatPreMulSum_eq mem
    rw [run false, if_neg Bool.false_ne_true]
  · rw [decode_packMant (sumSign_lt_two seed index) fits low (by omega), sumUnit_mul]

/-! ## All ranks -/

/-- The weighted shares of all ranks are the two totals, the second one doubled. -/
theorem sum_weightedShare :
    ∑ r ∈ Finset.range rankN, weightedShare T rankN seed index r =
      (floatPreMulSumTotals T seed index).1.toNat +
        2 * (floatPreMulSumTotals T seed index).2.toNat := by
  have two := ok.two
  have evens := (sum_comp_bijOn ok.evenSubrank_bijOn _).trans (sum_split (by omega) ok.evens)
  have odds := (sum_comp_bijOn ok.oddSubrank_bijOn _).trans (sum_split (by omega) ok.odds)
  simp only [weightedShare]
  rw [sum_even_odd (fun k => split ((rankN + 1) / 2) _ (evenSubrank rankN seed index k))
    (fun k => 2 * split (rankN / 2) _ (oddSubrank rankN seed index k)), evens, ← Finset.mul_sum,
    odds]

/-- **Premultiplied sums of floating-point data are exact.** For an element whose drawn totals
give every rank of its half a share (`PreMulSumDrawn`), the generators succeed on every rank, the
weighted inputs add up to the output, and every weighted partial sum is a number of the layout.

The even ranks split the first total and the odd ones, whose inputs count twice, the second; the
totals are drawn small enough for their weighted sum to be a mantissa. -/
theorem genInOutFloatPreMulSum_exact :
    ∃ (inputs : Nat → T.Bits) (output : T.Bits),
      (∀ r < rankN, genInOutFloatPreMulSum T true rankN r seed index = some (inputs r)) ∧
      (∀ r < rankN, genInOutFloatPreMulSum T false rankN r seed index = some output) ∧
      ∑ r ∈ Finset.range rankN, ncclVerifiablePremulScalar r * decode (inputs r) =
        decode output ∧
      ∀ s ⊆ Finset.range rankN, T.format.IsNormalOrZero
        (∑ r ∈ s, ncclVerifiablePremulScalar r * decode (inputs r)) := by
  choose! inputs run value using fun r (mem : r < rankN) => ok.input_decode mem
  obtain ⟨output, expected, valueOut⟩ := ok.output_decode
  obtain ⟨low, high⟩ := drawExp_bounds T (hashOf seed (BitVec.ofInt 64 index))
  have values : ∀ s ⊆ Finset.range rankN,
      ∑ r ∈ s, ncclVerifiablePremulScalar r * decode (inputs r) =
        sumUnit T seed index * ((∑ r ∈ s, weightedShare T rankN seed index r : Nat) : ℚ) := by
    intro s sub
    rw [Nat.cast_sum, Finset.mul_sum]
    refine Finset.sum_congr rfl fun r mem => ?_
    rw [value r (Finset.mem_range.1 (sub mem)), ← premulScalar_mul_preShare]
    ring
  refine ⟨inputs, output, run, expected, ?_, ?_⟩
  · rw [values _ subset_rfl, ok.sum_weightedShare, valueOut]
  · intro s sub
    have less := Finset.sum_le_sum_of_subset (f := weightedShare T rankN seed index) sub
    rw [ok.sum_weightedShare] at less
    have fits := lt_of_le_of_lt less (floatPreMulSumTotals_le T seed index)
    rw [values s sub, sumUnit_mul]
    exact Format.isNormalOrZero_scaled (sumSign_lt_two seed index) fits low high

end PreMulSumDrawn

/-- Five ranks, three of them even: the first element of a float drawn from seed zero. -/
theorem genInOutFloatPreMulSum_exact_float :
    ∃ (inputs : Nat → float.Bits) (output : float.Bits),
      (∀ r < 5, genInOutFloatPreMulSum float true 5 r 0 0 = some (inputs r)) ∧
      ∑ r ∈ Finset.range 5, ncclVerifiablePremulScalar r * decode (inputs r) =
        decode output := by
  obtain ⟨inputs, output, run, _, total, _⟩ := PreMulSumDrawn.genInOutFloatPreMulSum_exact
    (⟨by decide, by decide, by decide +kernel, by decide +kernel⟩ : PreMulSumDrawn float 5 0 0)
  exact ⟨inputs, output, run, total⟩

end NcclTests.Verifiable
