import Mathlib
import NcclTests.Lib.ReduceTree
import NcclTests.Verifiable.GenInOutFloat

/-!
# Sums of floating-point data are exact

All inputs and the output of `genInOutFloatSum` are integer multiples of one
unit in the last place. Shuffled even ranks split one total and shuffled odd
ranks another one with the opposite sign, so every partial sum is a multiple
that fits in the mantissa.
-/

namespace NcclTests.Verifiable

open FloatLayout Staircase PowTwoPerm BinaryFloat

section Shares

variable (rankN : Nat) {w : Nat} (totals : BitVec w × BitVec w)

/-- What shuffled rank `q` adds when it is even. -/
def evenShare (q : Nat) : Nat :=
  if q % 2 = 0 then split ((rankN + 1) / 2) totals.1.toNat (q / 2) else 0

/-- What shuffled rank `q` subtracts when it is odd. -/
def oddShare (q : Nat) : Nat :=
  if q % 2 = 0 then 0 else split (rankN / 2) totals.2.toNat (q / 2)

variable {rankN totals}

theorem sum_evenShare (two : 2 ≤ rankN) (enough : (rankN + 1) / 2 ≤ totals.1.toNat) :
    ∑ q ∈ Finset.range rankN, evenShare rankN totals q = totals.1.toNat := by
  have pieces := sum_even_odd (split ((rankN + 1) / 2) totals.1.toNat) (fun _ => 0) rankN
  simp only [Finset.sum_const_zero, add_zero] at pieces
  exact pieces.trans (sum_split (by omega) enough)

theorem sum_oddShare (two : 2 ≤ rankN) (enough : rankN / 2 ≤ totals.2.toNat) :
    ∑ q ∈ Finset.range rankN, oddShare rankN totals q = totals.2.toNat := by
  have pieces := sum_even_odd (fun _ => 0) (split (rankN / 2) totals.2.toNat) rankN
  simp only [Finset.sum_const_zero, zero_add] at pieces
  exact pieces.trans (sum_split (by omega) enough)

theorem evenShare_le {q : Nat} (enough : (rankN + 1) / 2 ≤ totals.1.toNat) (mem : q < rankN) :
    evenShare rankN totals q ≤ totals.1.toNat := by
  rw [evenShare]
  split
  · exact split_le enough (by omega)
  · exact Nat.zero_le _

theorem oddShare_le {q : Nat} (enough : rankN / 2 ≤ totals.2.toNat) (mem : q < rankN) :
    oddShare rankN totals q ≤ totals.2.toNat := by
  rw [oddShare]
  split
  · exact Nat.zero_le _
  · exact split_le enough (by omega)

end Shares

/-- Shuffled ranks, as all ranks compute them for one element of a sum. -/
def sumRank (rankN : Nat) (seed : BitVec 64) (index : Int) (r : Nat) : Nat :=
  (shuffleRank rankN r (mixBits (hashOf seed (BitVec.ofInt 64 index)))).1

/-- The sign with which the even ranks contribute. -/
def sumSign (seed : BitVec 64) (index : Int) : Nat :=
  (hashOf seed (BitVec.ofInt 64 index) &&& 1).toNat

/-- The unit of which all values of one element of a sum are multiples. -/
def sumUnit (T : FloatLayout) (seed : BitVec 64) (index : Int) : ℚ :=
  (-1) ^ sumSign seed index * T.format.ulp (drawExp T (hashOf seed (BitVec.ofInt 64 index)))

theorem sumSign_lt_two (seed : BitVec 64) (index : Int) : sumSign seed index < 2 :=
  and_one_lt_two _

/-- Units of one element, as a scaled integer. -/
theorem sumUnit_mul (T : FloatLayout) (seed : BitVec 64) (index : Int) (n : Nat) :
    sumUnit T seed index * n = T.format.scaled (sumSign seed index) n
      (drawExp T (hashOf seed (BitVec.ofInt 64 index))) := by
  rw [sumUnit, Format.scaled]
  ring

/-- Signs combine by exclusive or. -/
theorem neg_one_pow_xor (a b : Nat) : (-1 : ℚ) ^ (a ^^^ b) = (-1) ^ a * (-1) ^ b := by
  rw [← pow_add, neg_one_pow_eq_pow_mod_two, neg_one_pow_eq_pow_mod_two (n := a + b)]
  congr 1
  rw [Nat.xor_mod_two_eq]

theorem xor_lt_two {a b : Nat} (ha : a < 2) (hb : b < 2) : a ^^^ b < 2 :=
  Nat.xor_lt_two_pow (n := 1) ha hb

/-! ## The totals -/

section Totals

variable (T : FloatLayout) (seed : BitVec 64) (index : Int)

theorem floatSumTotals_fst_le : (floatSumTotals T seed index).1.toNat ≤ (maxMant T).toNat := by
  have room := maxMant_room T
  exact (genSumY_bounds (uintmant_width T) _ (by omega) 0).2

theorem floatSumTotals_snd_le : (floatSumTotals T seed index).2.toNat ≤ (maxMant T).toNat := by
  have room := maxMant_room T
  have next : (maxMant T).toNat + 1 < 2 ^ uintmantBits T := by omega
  obtain ⟨low, high⟩ := genSumY_bounds (uintmant_width T)
    (mixBits (mixBits (hashOf seed (BitVec.ofInt 64 index)))) next 0
  exact (genSumY_avoid_bounds (uintmant_width T) _ room (maxMant_wide T) low high).2

end Totals

/-- The ranks and the draw of one element for which a sum is predictable: each
group of ranks is no larger than the total it splits. `rank_n + 1`, which the source
halves, is an `int`. -/
structure SumDrawn (T : FloatLayout) (rankN : Nat) (seed : BitVec 64) (index : Int) : Prop where
  two : 2 ≤ rankN
  int_ : rankN + 1 < 2 ^ 31
  evens : (rankN + 1) / 2 ≤ (floatSumTotals T seed index).1.toNat
  odds : rankN / 2 ≤ (floatSumTotals T seed index).2.toNat

/-! ## One element -/

/-- A packed mantissa is that many units. -/
theorem decode_packed {T : FloatLayout} {seed : BitVec 64} {index : Int} {sign : Nat}
    {x : UintMant T} (hs : sign < 2) (le : x.toNat ≤ (maxMant T).toNat) :
    decode (packMant T (sumSign seed index ^^^ sign)
      (drawExp T (hashOf seed (BitVec.ofInt 64 index))) x) =
        sumUnit T seed index * ((-1) ^ sign * x.toNat) := by
  obtain ⟨low, high⟩ := drawExp_bounds T (hashOf seed (BitVec.ofInt 64 index))
  have pos := Nat.two_pow_pos (T.mantissaBits + 1)
  rw [maxMant_toNat] at le
  rw [decode_packMant (xor_lt_two (sumSign_lt_two seed index) hs) (by omega) low (by omega),
    Format.scaled, neg_one_pow_xor, sumUnit]
  ring

namespace SumDrawn

variable {T : FloatLayout} {rankN : Nat} {seed : BitVec 64} {index : Int}
  (ok : SumDrawn T rankN seed index)

include ok

theorem rankN_lt : rankN < 2 ^ 31 := by
  have := ok.int_
  omega

theorem evens_noWrap : NoWrap (uintmantBits T) ((rankN + 1) / 2) (maxMant T)
    (floatSumTotals T seed index).1 where
  width := uintmant_width T
  ranks := by have := ok.two; omega
  int_ := by have := ok.int_; omega
  enough := ok.evens
  le := floatSumTotals_fst_le T seed index
  small := mant_small T le_rfl

theorem odds_noWrap : NoWrap (uintmantBits T) (rankN / 2) (maxMant T)
    (floatSumTotals T seed index).2 where
  width := uintmant_width T
  ranks := by have := ok.two; omega
  int_ := by have := ok.int_; omega
  enough := ok.odds
  le := floatSumTotals_snd_le T seed index
  small := mant_small T le_rfl

/-- Both calls of `genSumXY` succeed; what remains is one packing. -/
theorem genInOutFloatSum_eq {r : Nat} (mem : r < rankN) :
    let q := sumRank rankN seed index r
    let totals := floatSumTotals T seed index
    ∃ x0 x1 : UintMant T,
      (q % 2 = 0 → x0.toNat = evenShare rankN totals q) ∧
      (q % 2 = 1 → x1.toNat = oddShare rankN totals q) ∧
      ∀ inputNotOutput, genInOutFloatSum T inputNotOutput rankN r seed index false =
        some (packMant T
          (if inputNotOutput then sumSign seed index ^^^ q % 2
            else sumSign seed index ^^^ (if totals.1 < totals.2 then 1 else 0))
          (drawExp T (hashOf seed (BitVec.ofInt 64 index)))
          (if inputNotOutput then if q % 2 = 0 then x0 else x1
            else (if totals.1 < totals.2 then -1 else 1) * (totals.1 - totals.2))) := by
  intro q totals
  have two := ok.two
  have below : q < rankN := shuffleRank_lt ok.rankN_lt mem _
  obtain ⟨x0, first, share0⟩ := genSumXY_spec ok.evens_noWrap (q / 2)
  obtain ⟨x1, second, share1⟩ := genSumXY_spec ok.odds_noWrap (q / 2)
  refine ⟨x0, x1, ?_, ?_, ?_⟩
  · intro even
    rw [evenShare, if_pos even]
    exact share0 (by omega)
  · intro odd
    rw [oddShare, if_neg (by omega)]
    exact share1 (by omega)
  · intro inputNotOutput
    have mixed : (!false && rankN / 2 != 0) = true := by simp; omega
    have even_ : genSumXY ((rankN + 1) / 2) (q / 2)
        (shuffleRank rankN r (mixBits (hashOf seed (BitVec.ofInt 64 index)))).2
        (maxMant T) 0 false = some ⟨x0, totals.1,
          mixBits (mixBits (mixBits (hashOf seed (BitVec.ofInt 64 index))))⟩ := first
    have odd_ : genSumXY (rankN / 2) (q / 2)
        (mixBits (mixBits (mixBits (hashOf seed (BitVec.ofInt 64 index)))))
        (maxMant T) totals.1 true = some ⟨x1, totals.2, _⟩ := second
    simp only [genInOutFloatSum, Bool.false_eq_true, if_false, mixed, if_true, Option.pure_def,
      Option.bind_eq_bind]
    change (genSumXY ((rankN + 1) / 2) (q / 2) _ _ _ _).bind _ = _
    rw [even_, Option.bind_some]
    change (genSumXY (rankN / 2) (q / 2) _ _ _ _).bind _ = _
    rw [odd_, Option.bind_some]
    rfl

/-- An input is a share of one of the totals. -/
theorem input_decode {r : Nat} (mem : r < rankN) :
    ∃ b, genInOutFloatSum T true rankN r seed index false = some b ∧
      decode b = sumUnit T seed index *
        ((evenShare rankN (floatSumTotals T seed index) (sumRank rankN seed index r) : ℚ) -
          oddShare rankN (floatSumTotals T seed index) (sumRank rankN seed index r)) := by
  obtain ⟨x0, x1, share0, share1, run⟩ := ok.genInOutFloatSum_eq mem
  have below : sumRank rankN seed index r < rankN := shuffleRank_lt ok.rankN_lt mem _
  have le0 := floatSumTotals_fst_le T seed index
  have le1 := floatSumTotals_snd_le T seed index
  refine ⟨_, run true, ?_⟩
  rcases Nat.mod_two_eq_zero_or_one (sumRank rankN seed index r) with even | odd
  · have whole := evenShare_le ok.evens below
    have odd_ : oddShare rankN (floatSumTotals T seed index) (sumRank rankN seed index r) = 0 :=
      if_pos even
    have fits : x0.toNat ≤ (maxMant T).toNat := by
      rw [share0 even]
      exact whole.trans le0
    rw [if_pos rfl, if_pos rfl, if_pos even, decode_packed (by omega) fits, share0 even, even,
      odd_]
    simp
  · have whole := oddShare_le ok.odds below
    have even_ : evenShare rankN (floatSumTotals T seed index) (sumRank rankN seed index r) = 0 :=
      if_neg (by omega)
    have fits : x1.toNat ≤ (maxMant T).toNat := by
      rw [share1 odd]
      exact whole.trans le1
    rw [if_pos rfl, if_pos rfl, if_neg (by omega), decode_packed (by omega) fits, share1 odd, odd,
      even_]
    simp

/-- The output is the difference of the totals. -/
theorem output_decode : ∃ b,
    (∀ r < rankN, genInOutFloatSum T false rankN r seed index false = some b) ∧
      decode b = sumUnit T seed index * (((floatSumTotals T seed index).1.toNat : ℚ) -
        (floatSumTotals T seed index).2.toNat) := by
  have le0 := floatSumTotals_fst_le T seed index
  have le1 := floatSumTotals_snd_le T seed index
  refine ⟨packMant T
    (sumSign seed index ^^^
      (if (floatSumTotals T seed index).1 < (floatSumTotals T seed index).2 then 1 else 0))
    (drawExp T (hashOf seed (BitVec.ofInt 64 index)))
    ((if (floatSumTotals T seed index).1 < (floatSumTotals T seed index).2 then -1 else 1) *
      ((floatSumTotals T seed index).1 - (floatSumTotals T seed index).2)),
    fun r mem => ?_, ?_⟩
  · obtain ⟨_, _, _, _, run⟩ := ok.genInOutFloatSum_eq mem
    rw [run false, if_neg Bool.false_ne_true, if_neg Bool.false_ne_true]
  by_cases less : (floatSumTotals T seed index).1 < (floatSumTotals T seed index).2
  · have distance : (-1 * ((floatSumTotals T seed index).1 - (floatSumTotals T seed index).2) :
        UintMant T).toNat =
          (floatSumTotals T seed index).2.toNat - (floatSumTotals T seed index).1.toNat := by
      rw [neg_one_mul, neg_sub, BitVec.toNat_sub_of_le (BitVec.le_of_lt less)]
    have order := BitVec.lt_def.1 less
    rw [if_pos less, if_pos less, decode_packed one_lt_two (by omega), distance,
      Nat.cast_sub order.le]
    ring
  · have distance : (1 * ((floatSumTotals T seed index).1 - (floatSumTotals T seed index).2) :
        UintMant T).toNat =
          (floatSumTotals T seed index).1.toNat - (floatSumTotals T seed index).2.toNat := by
      rw [one_mul, BitVec.toNat_sub_of_le (BitVec.not_lt.1 less)]
    have order := BitVec.le_def.1 (BitVec.not_lt.1 less)
    rw [if_neg less, if_neg less, decode_packed two_pos (by omega), distance,
      Nat.cast_sub order]
    ring

/-! ## All ranks -/

theorem sumRank_bijOn : Set.BijOn (sumRank rankN seed index) (Below rankN) (Below rankN) :=
  shuffleRank_bijOn (by have := ok.two; omega) ok.rankN_lt _

theorem sum_evenShare_sumRank :
    ∑ r ∈ Finset.range rankN, evenShare rankN (floatSumTotals T seed index)
      (sumRank rankN seed index r) = (floatSumTotals T seed index).1.toNat :=
  (sum_comp_bijOn ok.sumRank_bijOn _).trans (sum_evenShare ok.two ok.evens)

theorem sum_oddShare_sumRank :
    ∑ r ∈ Finset.range rankN, oddShare rankN (floatSumTotals T seed index)
      (sumRank rankN seed index r) = (floatSumTotals T seed index).2.toNat :=
  (sum_comp_bijOn ok.sumRank_bijOn _).trans (sum_oddShare ok.two ok.odds)

/-- A partial sum is the unit times an integer that fits in the mantissa. -/
theorem isNormalOrZero_subsum {s : Finset Nat} (sub : s ⊆ Finset.range rankN) :
    T.format.IsNormalOrZero (∑ r ∈ s, sumUnit T seed index *
      ((evenShare rankN (floatSumTotals T seed index) (sumRank rankN seed index r) : ℚ) -
        oddShare rankN (floatSumTotals T seed index) (sumRank rankN seed index r))) := by
  obtain ⟨low, high⟩ := drawExp_bounds T (hashOf seed (BitVec.ofInt 64 index))
  have le0 := floatSumTotals_fst_le T seed index
  have le1 := floatSumTotals_snd_le T seed index
  have pos := Nat.two_pow_pos (T.mantissaBits + 1)
  rw [maxMant_toNat] at le0 le1
  have evens := Finset.sum_le_sum_of_subset (f := fun r =>
    evenShare rankN (floatSumTotals T seed index) (sumRank rankN seed index r)) sub
  have odds := Finset.sum_le_sum_of_subset (f := fun r =>
    oddShare rankN (floatSumTotals T seed index) (sumRank rankN seed index r)) sub
  rw [ok.sum_evenShare_sumRank] at evens
  rw [ok.sum_oddShare_sumRank] at odds
  have whole := Format.isNormalOrZero_intScaled (F := T.format)
    (z := (∑ r ∈ s, evenShare rankN (floatSumTotals T seed index) (sumRank rankN seed index r) :
      Nat) - (∑ r ∈ s, oddShare rankN (floatSumTotals T seed index) (sumRank rankN seed index r) :
      Nat))
    (by rw [format_mantissaBits]; omega) low high
  have signed := whole.neg_one_pow_mul (sumSign seed index)
  rw [← Finset.mul_sum, Finset.sum_sub_distrib, sumUnit]
  push_cast at signed
  convert signed using 1
  ring

/-- **Sums of floating-point data are exact.** For an element whose drawn totals give every
rank of its half a share (`SumDrawn`), the generators succeed on every rank, the inputs add up to
the output, and every partial sum is a number of the layout, so that a reduction of any shape and
order that rounds to such numbers computes the output.

All inputs are multiples of one unit (`sumUnit`): the even shuffled ranks split the first total,
the odd ones the second with the opposite sign, and a sum over any of the ranks has a mantissa
that neither total exceeds. -/
theorem genInOutFloatSum_exact :
    ∃ (inputs : Nat → T.Bits) (output : T.Bits),
      (∀ r < rankN, genInOutFloatSum T true rankN r seed index false = some (inputs r)) ∧
      (∀ r < rankN, genInOutFloatSum T false rankN r seed index false = some output) ∧
      ∑ r ∈ Finset.range rankN, decode (inputs r) = decode output ∧
      (∀ s ⊆ Finset.range rankN, T.format.IsNormalOrZero (∑ r ∈ s, decode (inputs r))) ∧
      ∀ round : ℚ → ℚ, (∀ v, T.format.IsNormalOrZero v → round v = v) →
        ∀ t : ReduceTree Nat, t.leaves.Perm (List.range rankN) →
          t.eval (fun a b => round (a + b)) (fun r => decode (inputs r)) = decode output := by
  choose! inputs run value using fun r (mem : r < rankN) => ok.input_decode mem
  obtain ⟨output, expected, valueOut⟩ := ok.output_decode
  have values : ∀ s ⊆ Finset.range rankN, ∑ r ∈ s, decode (inputs r) =
      ∑ r ∈ s, sumUnit T seed index *
        ((evenShare rankN (floatSumTotals T seed index) (sumRank rankN seed index r) : ℚ) -
          oddShare rankN (floatSumTotals T seed index) (sumRank rankN seed index r)) :=
    fun s sub => Finset.sum_congr rfl fun r mem => value r (Finset.mem_range.1 (sub mem))
  have total : ∑ r ∈ Finset.range rankN, decode (inputs r) = decode output := by
    rw [values _ subset_rfl, valueOut, ← Finset.mul_sum, Finset.sum_sub_distrib,
      ← Nat.cast_sum, ← Nat.cast_sum, ok.sum_evenShare_sumRank, ok.sum_oddShare_sumRank]
  have subsums : ∀ s ⊆ Finset.range rankN,
      T.format.IsNormalOrZero (∑ r ∈ s, decode (inputs r)) := by
    intro s sub
    rw [values s sub]
    exact ok.isNormalOrZero_subsum sub
  refine ⟨inputs, output, run, expected, total, subsums, ?_⟩
  intro round fixes t order
  rw [← total]
  have nodup : t.leaves.Nodup := order.nodup_iff.2 List.nodup_range
  have cover : t.leaves.toFinset = Finset.range rankN := by
    rw [List.toFinset_eq_of_perm _ _ order, List.toFinset_range]
  exact t.eval_round_add nodup cover fun u sub => fixes _ (subsums u sub)

end SumDrawn

/-- Four ranks summing halves: the first element drawn from seed zero. -/
theorem genInOutFloatSum_exact_half :
    ∃ (inputs : Nat → half.Bits) (output : half.Bits),
      (∀ r < 4, genInOutFloatSum half true 4 r 0 0 false = some (inputs r)) ∧
      ∑ r ∈ Finset.range 4, decode (inputs r) = decode output := by
  obtain ⟨inputs, output, run, _, total, _⟩ := SumDrawn.genInOutFloatSum_exact
    (⟨by decide, by decide, by decide +kernel, by decide +kernel⟩ : SumDrawn half 4 0 0)
  exact ⟨inputs, output, run, total⟩

end NcclTests.Verifiable
