import Mathlib
import NcclTests.Lib.ReduceTree
import NcclTests.Verifiable.FloatSum

/-!
# Products of floating-point data are exact

Every input of `genInOutFloatProd` is a power of two with a sign, except that
the rank shuffled to zero also carries the mantissa of the output. Exponents
split one total, and the odd shuffled ranks are negative.
-/

namespace NcclTests.Verifiable

open FloatLayout Staircase PowTwoPerm BinaryFloat

/-! ## The total and the mantissa -/

section Totals

variable (T : FloatLayout) (rankN : Nat) (seed : BitVec 64) (index : Int)

theorem maxExp_toNat : (maxExp T).toNat = T.exponentBias := by
  cases T <;> decide

theorem exponentBias_pos : 0 < T.exponentBias := by
  cases T <;> decide

theorem two_mul_exponentBias : 2 * T.exponentBias = 2 ^ T.exponentBits - 2 := by
  cases T <;> decide

theorem exponentBias_lt : T.exponentBias < 2 ^ 10 := by
  cases T <;> decide

theorem floatProdTotal_le : (floatProdTotal T seed index).toNat ≤ T.exponentBias := by
  have small := exponentBias_lt T
  have room : (maxExp T).toNat + 1 < 2 ^ 32 := by
    rw [maxExp_toNat]
    omega
  have bounds := genSumY_bounds (Or.inl rfl) (mixBits (hashOf seed (BitVec.ofInt 64 index))) room 0
  rw [maxExp_toNat] at bounds
  exact bounds.2

/-- Shuffled ranks, as all ranks compute them for one element of a product. -/
def prodRank (r : Nat) : Nat :=
  (shuffleRank rankN r (hashOf seed (BitVec.ofInt 64 index))).1

/-- The mantissa of the output. -/
def prodMant : BitVec 64 :=
  let yMant := mixBits (mixBits (hashOf seed (BitVec.ofInt 64 index))) &&&
    ((1 : BitVec 64) <<< T.mantissaBits - 1)
  if yMant = 0 then 1 else yMant

theorem prodMant_lt : (prodMant T seed index).toNat < 2 ^ T.mantissaBits := by
  have mask : ((1 : BitVec 64) <<< T.mantissaBits - 1).toNat = 2 ^ T.mantissaBits - 1 := by
    cases T <;> decide
  have wide : 1 < 2 ^ T.mantissaBits := Nat.one_lt_two_pow (by have := T.mantissaBits_pos; omega)
  simp only [prodMant]
  split
  · exact wide
  · rw [BitVec.toNat_and, mask, Nat.and_two_pow_sub_one_eq_mod]
    exact Nat.mod_lt _ (Nat.two_pow_pos _)

end Totals

/-- The ranks and the draw of one element for which a product is predictable:
the ranks are no more than the exponent total they split. -/
structure ProdDrawn (T : FloatLayout) (rankN : Nat) (seed : BitVec 64) (index : Int) : Prop where
  two : 2 ≤ rankN
  int_ : rankN < 2 ^ 31
  enough : rankN ≤ (floatProdTotal T seed index).toNat

/-! ## One element -/

/-- Adding the bias neither wraps nor leaves the exponent field. -/
theorem add_bias_toNat {T : FloatLayout} {x : BitVec 32} (le : x.toNat ≤ T.exponentBias) :
    (x + BitVec.ofNat 32 T.exponentBias).toNat = x.toNat + T.exponentBias := by
  have small := exponentBias_lt T
  rw [BitVec.toNat_add, BitVec.toNat_ofNat, Nat.mod_eq_of_lt (a := T.exponentBias) (by omega),
    Nat.mod_eq_of_lt (by omega)]

/-- An assembled number has its fields. -/
theorem decode_assembled {T : FloatLayout} {sign : Nat} {x : BitVec 32} {mant : BitVec 64}
    (hs : sign < 2) (le : x.toNat ≤ T.exponentBias) (hm : mant.toNat < 2 ^ T.mantissaBits) :
    decode (makeFloat T sign (x + BitVec.ofNat 32 T.exponentBias).toNat mant) =
      (-1) ^ sign * 2 ^ x.toNat * T.format.significand mant.toNat := by
  have pos := exponentBias_pos T
  have room := two_mul_exponentBias T
  rw [add_bias_toNat le, decode_makeFloat hs (by omega) hm,
    Format.value_add_bias (format_bias T).symm pos]

/-- What a rank adds to the exponent. -/
def expShare (T : FloatLayout) (rankN : Nat) (seed : BitVec 64) (index : Int) (r : Nat) : Nat :=
  split rankN (floatProdTotal T seed index).toNat (prodRank rankN seed index r)

/-- The mantissa field of a rank: only the rank shuffled to zero has one. -/
def mantShare (T : FloatLayout) (rankN : Nat) (seed : BitVec 64) (index : Int) (r : Nat) : Nat :=
  if prodRank rankN seed index r = 0 then (prodMant T seed index).toNat else 0

theorem mantShare_lt (T : FloatLayout) (rankN : Nat) (seed : BitVec 64) (index : Int) (r : Nat) :
    mantShare T rankN seed index r < 2 ^ T.mantissaBits := by
  rw [mantShare]
  split
  · exact prodMant_lt T seed index
  · exact Nat.two_pow_pos _

namespace ProdDrawn

variable {T : FloatLayout} {rankN : Nat} {seed : BitVec 64} {index : Int}
  (ok : ProdDrawn T rankN seed index)

include ok

theorem noWrap : NoWrap 32 rankN (maxExp T) (floatProdTotal T seed index) where
  width := Or.inl rfl
  ranks := by have := ok.two; omega
  int_ := ok.int_
  enough := ok.enough
  le := by rw [maxExp_toNat]; exact floatProdTotal_le T seed index
  small := Or.inl (by have := exponentBias_lt T; rw [maxExp_toNat]; omega)

theorem prodRank_lt {r : Nat} (mem : r < rankN) : prodRank rankN seed index r < rankN :=
  shuffleRank_lt ok.int_ mem _

theorem prodRank_bijOn : Set.BijOn (prodRank rankN seed index) (Below rankN) (Below rankN) :=
  shuffleRank_bijOn (by have := ok.two; omega) ok.int_ _

/-- `genSumXY` succeeds; what remains is one assembly. -/
theorem genInOutFloatProd_eq {r : Nat} (mem : r < rankN) :
    ∃ x : BitVec 32, x.toNat = expShare T rankN seed index r ∧
      ∀ inputNotOutput, genInOutFloatProd T inputNotOutput rankN r seed index =
        some (makeFloat T
          (if inputNotOutput then prodRank rankN seed index r % 2 else rankN / 2 % 2 : Nat)
          (if inputNotOutput then x + BitVec.ofNat 32 T.exponentBias
            else floatProdTotal T seed index + BitVec.ofNat 32 T.exponentBias).toNat
          (if !inputNotOutput || prodRank rankN seed index r = 0 then prodMant T seed index
            else 0)) := by
  obtain ⟨x, drawn, share⟩ := genSumXY_spec ok.noWrap (prodRank rankN seed index r)
  refine ⟨x, share (ok.prodRank_lt mem), fun inputNotOutput => ?_⟩
  have drawn_ : genSumXY rankN (prodRank rankN seed index r)
      (mixBits (hashOf seed (BitVec.ofInt 64 index))) (maxExp T) 0 false =
        some ⟨x, floatProdTotal T seed index, _⟩ := drawn
  simp only [genInOutFloatProd, Option.pure_def, Option.bind_eq_bind]
  change (genSumXY rankN (prodRank rankN seed index r) _ _ _ _).bind _ = _
  rw [shuffleRank_rng, drawn_, Option.bind_some]
  cases inputNotOutput <;> rfl

theorem input_decode {r : Nat} (mem : r < rankN) :
    ∃ b, genInOutFloatProd T true rankN r seed index = some b ∧
      decode b = (-1) ^ (prodRank rankN seed index r % 2) * 2 ^ expShare T rankN seed index r *
        T.format.significand (mantShare T rankN seed index r) := by
  obtain ⟨x, share, run⟩ := ok.genInOutFloatProd_eq mem
  have le : x.toNat ≤ T.exponentBias := by
    rw [share]
    exact (split_le ok.enough (ok.prodRank_lt mem)).trans (floatProdTotal_le T seed index)
  have mant : (if prodRank rankN seed index r = 0 then prodMant T seed index else 0).toNat =
      mantShare T rankN seed index r := by
    rw [mantShare]
    split
    · rfl
    · exact BitVec.toNat_zero
  have small := mantShare_lt T rankN seed index r
  rw [← mant] at small ⊢
  refine ⟨_, run true, ?_⟩
  simp only [if_true, Bool.not_true, Bool.false_or, decide_eq_true_eq]
  rw [decode_assembled (Nat.mod_lt _ two_pos) le small, share]

theorem output_decode : ∃ b,
    (∀ r < rankN, genInOutFloatProd T false rankN r seed index = some b) ∧
      decode b = (-1) ^ (rankN / 2 % 2) * 2 ^ (floatProdTotal T seed index).toNat *
        T.format.significand (prodMant T seed index).toNat := by
  refine ⟨makeFloat T (rankN / 2 % 2 : Nat)
    (floatProdTotal T seed index + BitVec.ofNat 32 T.exponentBias).toNat (prodMant T seed index),
    fun r mem => ?_, ?_⟩
  · obtain ⟨_, _, run⟩ := ok.genInOutFloatProd_eq mem
    rw [run false]
    simp only [Bool.false_eq_true, if_false, Bool.not_false, Bool.true_or, if_true]
  · exact decode_assembled (Nat.mod_lt _ two_pos) (floatProdTotal_le T seed index)
      (prodMant_lt T seed index)

/-! ## All ranks -/

theorem sum_expShare : ∑ r ∈ Finset.range rankN, expShare T rankN seed index r =
    (floatProdTotal T seed index).toNat :=
  (sum_comp_bijOn ok.prodRank_bijOn _).trans
    (sum_split (by have := ok.two; omega) ok.enough)

/-- Half of the shuffled ranks are odd. -/
theorem sum_prodRank_mod_two :
    ∑ r ∈ Finset.range rankN, prodRank rankN seed index r % 2 = rankN / 2 := by
  have pieces := sum_even_odd (fun _ => 0) (fun _ => 1) rankN
  have parity : ∀ q : Nat, (if q % 2 = 0 then 0 else 1) = q % 2 := by
    intro q
    split <;> omega
  simp only [parity, Finset.sum_const_zero, zero_add, Finset.sum_const, Finset.card_range,
    smul_eq_mul, mul_one] at pieces
  exact (sum_comp_bijOn ok.prodRank_bijOn _).trans pieces

/-- At most one rank carries a mantissa. -/
theorem prod_significand {s : Finset Nat} (sub : s ⊆ Finset.range rankN) :
    ∏ r ∈ s, T.format.significand (mantShare T rankN seed index r) =
      T.format.significand (if ∃ r ∈ s, prodRank rankN seed index r = 0
        then (prodMant T seed index).toNat else 0) := by
  split
  case isTrue carried =>
    obtain ⟨r, mem, zero⟩ := carried
    rw [Finset.prod_eq_single_of_mem r mem, mantShare, if_pos zero]
    intro other memOther ne
    have nonzero : prodRank rankN seed index other ≠ 0 := by
      intro zero'
      exact ne (ok.prodRank_bijOn.injOn (Finset.mem_range.1 (sub memOther))
        (Finset.mem_range.1 (sub mem)) (zero'.trans zero.symm))
    rw [mantShare, if_neg nonzero, Format.significand_zero]
  case isFalse plain =>
    rw [Format.significand_zero]
    refine Finset.prod_eq_one fun r mem => ?_
    rw [mantShare, if_neg (fun zero => plain ⟨r, mem, zero⟩), Format.significand_zero]

/-- **Products of floating-point data are exact.** For an element whose drawn total gives every
rank a share (`ProdDrawn`), the generators succeed on every rank, the inputs multiply to the
output, and every partial product is a normal number of the layout, so that a reduction of any
shape and order that leaves such numbers alone computes the output.

Partial products add exponents that split one total of at most `T.exponentBias` and count the odd
shuffled ranks for the sign; only the rank shuffled to zero brings a mantissa. -/
theorem genInOutFloatProd_exact :
    ∃ (inputs : Nat → T.Bits) (output : T.Bits),
      (∀ r < rankN, genInOutFloatProd T true rankN r seed index = some (inputs r)) ∧
      (∀ r < rankN, genInOutFloatProd T false rankN r seed index = some output) ∧
      ∏ r ∈ Finset.range rankN, decode (inputs r) = decode output ∧
      (∀ s ⊆ Finset.range rankN, T.format.IsNormal (∏ r ∈ s, decode (inputs r))) ∧
      ∀ round : ℚ → ℚ, (∀ v, T.format.IsNormal v → round v = v) →
        ∀ t : ReduceTree Nat, t.leaves.Perm (List.range rankN) →
          t.eval (fun a b => round (a * b)) (fun r => decode (inputs r)) = decode output := by
  choose! inputs run value using fun r (mem : r < rankN) => ok.input_decode mem
  obtain ⟨output, expected, valueOut⟩ := ok.output_decode
  have values : ∀ s ⊆ Finset.range rankN, ∏ r ∈ s, decode (inputs r) =
      (-1) ^ (∑ r ∈ s, prodRank rankN seed index r % 2) *
        2 ^ (∑ r ∈ s, expShare T rankN seed index r) *
        T.format.significand (if ∃ r ∈ s, prodRank rankN seed index r = 0
          then (prodMant T seed index).toNat else 0) := by
    intro s sub
    rw [← ok.prod_significand sub, ← Finset.prod_pow_eq_pow_sum, ← Finset.prod_pow_eq_pow_sum,
      ← Finset.prod_mul_distrib, ← Finset.prod_mul_distrib]
    exact Finset.prod_congr rfl fun r mem => value r (Finset.mem_range.1 (sub mem))
  have total : ∏ r ∈ Finset.range rankN, decode (inputs r) = decode output := by
    obtain ⟨first, mem, zero⟩ := ok.prodRank_bijOn.surjOn
      (show 0 ∈ Below rankN by have := ok.two; rw [mem_below]; omega)
    rw [values _ subset_rfl, if_pos ⟨first, Finset.mem_range.2 mem, zero⟩, ok.sum_expShare,
      ok.sum_prodRank_mod_two, valueOut, neg_one_pow_eq_pow_mod_two]
  have normal : ∀ s ⊆ Finset.range rankN, T.format.IsNormal (∏ r ∈ s, decode (inputs r)) := by
    intro s sub
    have less := Finset.sum_le_sum_of_subset (f := expShare T rankN seed index) sub
    rw [ok.sum_expShare] at less
    have top := floatProdTotal_le T seed index
    have pos := exponentBias_pos T
    have room := two_mul_exponentBias T
    refine ⟨(∑ r ∈ s, prodRank rankN seed index r % 2) % 2,
      ∑ r ∈ s, expShare T rankN seed index r + T.exponentBias,
      if ∃ r ∈ s, prodRank rankN seed index r = 0 then (prodMant T seed index).toNat else 0,
      Nat.mod_lt _ two_pos, by omega, by rw [format_exponentBits]; omega, ?_, ?_⟩
    · split
      · exact prodMant_lt T seed index
      · exact Nat.two_pow_pos _
    · rw [values s sub, Format.value_add_bias (format_bias T).symm pos,
        ← neg_one_pow_eq_pow_mod_two]
  refine ⟨inputs, output, run, expected, total, normal, ?_⟩
  intro round fixes t order
  rw [← total]
  have nodup : t.leaves.Nodup := order.nodup_iff.2 List.nodup_range
  have cover : t.leaves.toFinset = Finset.range rankN := by
    rw [List.toFinset_eq_of_perm _ _ order, List.toFinset_range]
  exact t.eval_round_mul nodup cover fun u sub => fixes _ (normal u sub)

end ProdDrawn

/-- Three ranks multiplying bfloat16: the first element drawn from seed zero. -/
theorem genInOutFloatProd_exact_bfloat16 :
    ∃ (inputs : Nat → bfloat16.Bits) (output : bfloat16.Bits),
      (∀ r < 3, genInOutFloatProd bfloat16 true 3 r 0 0 = some (inputs r)) ∧
      ∏ r ∈ Finset.range 3, decode (inputs r) = decode output := by
  obtain ⟨inputs, output, run, _, total, _⟩ := ProdDrawn.genInOutFloatProd_exact
    (⟨by decide, by decide, by decide +kernel⟩ : ProdDrawn bfloat16 3 0 0)
  exact ⟨inputs, output, run, total⟩

end NcclTests.Verifiable
