import Mathlib
import NcclTests.Lib.ReduceTree
import NcclTests.Verifiable.FloatLayout
import NcclTests.Verifiable.Kernels

/-!
# The generic expected values

Where an operation has no `genOutput` of its own, the expected value is a left fold over the
ranks. A reduction may combine the ranks in any other shape and order:
`genOutput_order_independent`.

The operations of integers wrap around. Those of floats that fold are the minimum and the
maximum, which some architectures leave to intrinsics of CUDA, on halves for the floats of
8 bits.
-/

namespace NcclTests.Verifiable

open BinaryFloat

/-! ## The fold -/

/-- The functor of a reduction of `T`. -/
structure Functor (T : Type) where
  preOp : T → Nat → T
  apply : T → T → T
  postOp : T → T

/-- `genOutput`, with `genInput` for a rank. -/
def genOutput {T : Type} (op : Functor T) (rankN : Nat) (genInput : Nat → T) : T :=
  let acc := op.preOp (genInput 0) 0
  let acc := (List.range' 1 (rankN - 1)).foldl
    (fun acc r => op.apply acc (op.preOp (genInput r) r)) acc
  op.postOp acc

/-- The result of combining the ranks at the leaves. -/
def reduced {T : Type} (op : Functor T) (genInput : Nat → T) (t : ReduceTree Nat) : T :=
  op.postOp (t.eval op.apply fun r => op.preOp (genInput r) r)

/-! ## Integers -/

/-- The types with `IsIntegral`. -/
inductive IntegerType
  | int8 | uint8 | int32 | uint32 | int64 | uint64
  deriving DecidableEq, Repr

namespace IntegerType

/-- `sizeof(T)`. -/
def sizeof : IntegerType → Nat
  | int8 | uint8 => 1
  | int32 | uint32 => 4
  | int64 | uint64 => 8

def signed : IntegerType → Bool
  | int8 | int32 | int64 => true
  | uint8 | uint32 | uint64 => false

abbrev Bits (T : IntegerType) : Type := BitVec (8 * T.sizeof)

variable (T : IntegerType)

/-- The number that a value of the type is. -/
def toInt (x : T.Bits) : Int := if T.signed then x.toInt else x.toNat

/-- `genInput` of an operation other than `ReduceNil`. -/
def genInput (op : RedOp) (rankMe : Nat) (seed : BitVec 64) (index : Int) : T.Bits :=
  let index : BitVec 64 := BitVec.ofInt 64 index
  let bits : BitVec 64 := BitVec.allOnes 64 >>> (64 - 8 * T.sizeof)
  let bits := bits &&& hashOf (index ^^^ index <<< 16 ^^^ BitVec.ofNat 64 rankMe) seed
  -- never zero in products
  if op = .prod ∧ bits = 0 then 1 else bits.setWidth (8 * T.sizeof)

/-- `ncclVerifiablePremulScalar<T>(rank_me)`. -/
def premulScalar (rankMe : Nat) : T.Bits := if rankMe % 2 = 0 then 1 else 2

/-- `ReduceSum` to `ReducePreMulSum`, and `ReduceAvg_Base<T, true>`. -/
def functor (op : RedOp) (rankN : Nat) : Functor T.Bits where
  preOp x rankMe :=
    match op with
    | .preMulSum => x * T.premulScalar rankMe
    | _ => x
  apply a b :=
    match op with
    | .sum | .preMulSum | .avg => a + b
    | .prod => a * b
    | .min => if T.toInt a < T.toInt b then a else b
    | .max => if T.toInt a > T.toInt b then a else b
  postOp x :=
    match op with
    | .avg => BitVec.ofInt _ ((T.toInt x).tdiv rankN)
    | _ => x

end IntegerType

/-! ## Floats -/

namespace FloatLayout

/-- The intrinsics of CUDA: `__hmin` and `__hmax`, and the conversions of the floats of 8
bits to and from `half`. -/
structure Intrinsics where
  hmin (T : FloatLayout) : T.Bits → T.Bits → T.Bits
  hmax (T : FloatLayout) : T.Bits → T.Bits → T.Bits
  toHalf (T : FloatLayout) : T.Bits → half.Bits
  ofHalf (T : FloatLayout) : half.Bits → T.Bits

/-- The common form of the overloads of `ReduceMin` and `ReduceMax`; `arch` is
`__CUDA_ARCH__`, zero on the host. -/
def pickFloat (cuda : Intrinsics) (intrinsic : (T : FloatLayout) → T.Bits → T.Bits → T.Bits)
    (before : ℚ → ℚ → Bool) (arch : Nat) (T : FloatLayout) (a b : T.Bits) : T.Bits :=
  if arch ≥ 800 ∧ T.sizeof = 2 then intrinsic T a b
  else if arch ≥ 800 ∧ T.sizeof = 1 then
    cuda.ofHalf T (intrinsic .half (cuda.toHalf T a) (cuda.toHalf T b))
  else if before (decode a) (decode b) then a
  else b

/-- `ReduceMin()(a, b)`. -/
def reduceMin (cuda : Intrinsics) (arch : Nat) (T : FloatLayout) (a b : T.Bits) : T.Bits :=
  pickFloat cuda cuda.hmin (fun x y => x < y) arch T a b

/-- `ReduceMax()(a, b)`. -/
def reduceMax (cuda : Intrinsics) (arch : Nat) (T : FloatLayout) (a b : T.Bits) : T.Bits :=
  pickFloat cuda cuda.hmax (fun x y => x > y) arch T a b

/-- `genInput(ReduceMax)`; that of `ReduceMin` calls it. -/
def genInputMax (T : FloatLayout) (rankMe : Nat) (seed : BitVec 64) (index : Int) : T.Bits :=
  let mantMask : BitVec 64 := (1 : BitVec 64) <<< T.mantissaBits - 1
  let index : BitVec 64 := BitVec.ofInt 64 index
  let rng := hashOf (index ^^^ index <<< 16 ^^^ BitVec.ofNat 64 rankMe) seed
  let sign : Nat := (rng &&& 1).toNat
  let rng := rng ^^^ rng >>> 1
  let exp : Nat := (rng &&& BitVec.ofNat 64 (1 <<< (T.exponentBits - 1) - 1)).toNat
  let exp := exp + 1 <<< (T.exponentBits - 2)
  let rng := rng ^^^ rng >>> T.exponentBits
  let mant := rng &&& mantMask
  makeFloat T sign exp mant

/-- The operations of floats without a `genOutput` of their own. -/
inductive FoldOp
  | min | max
  deriving DecidableEq, Repr

/-- `genInput` of `ReduceMin` or `ReduceMax`. -/
def genInput (T : FloatLayout) (op : FoldOp) (rankMe : Nat) (seed : BitVec 64) (index : Int) :
    T.Bits :=
  match op with
  | .min => genInputMax T rankMe seed index
  | .max => genInputMax T rankMe seed index

/-- `ReduceMin` and `ReduceMax`. -/
def functor (cuda : Intrinsics) (arch : Nat) (T : FloatLayout) (op : FoldOp) : Functor T.Bits where
  preOp x _ := x
  apply a b :=
    match op with
    | .min => reduceMin cuda arch T a b
    | .max => reduceMax cuda arch T a b
  postOp x := x

/-- What the documentation of CUDA says of the intrinsics on normal numbers; a float of 8
bits that is normal is a normal half. -/
structure Intrinsics.Documented (cuda : Intrinsics) : Prop where
  hmin : ∀ (T : FloatLayout) (a b : T.Bits), NormalBits a → NormalBits b →
    cuda.hmin T a b = if decode a < decode b then a else b
  hmax : ∀ (T : FloatLayout) (a b : T.Bits), NormalBits a → NormalBits b →
    cuda.hmax T a b = if decode a > decode b then a else b
  toHalf : ∀ T : FloatLayout, T.sizeof = 1 → ∀ a : T.Bits, NormalBits a →
    NormalBits (cuda.toHalf T a) ∧ decode (cuda.toHalf T a) = decode a
  ofHalf : ∀ T : FloatLayout, T.sizeof = 1 → ∀ a : T.Bits, NormalBits a →
    ∀ h : half.Bits, NormalBits h → decode h = decode a → cuda.ofHalf T h = a

end FloatLayout

/-! ## Any shape and order -/

/-- A fold over the ranks is the reduction along a chain. -/
theorem genOutput_eq_reduced_chain {T : Type} (op : Functor T) (rankN : Nat)
    (genInput : Nat → T) :
    genOutput op rankN genInput =
      reduced op genInput (.chain (.leaf 0) (List.range' 1 (rankN - 1))) := by
  rw [reduced, ReduceTree.eval_chain]
  rfl

theorem leaves_chain_ranks {rankN : Nat} (pos : 0 < rankN) :
    (ReduceTree.chain (.leaf 0) (List.range' 1 (rankN - 1))).leaves = List.range rankN := by
  obtain ⟨n, rfl⟩ := Nat.exists_eq_add_of_lt pos
  rw [ReduceTree.leaves_chain, Nat.zero_add, Nat.add_sub_cancel, List.range_eq_range',
    List.range'_succ]
  rfl

/-- An operation that commutes on the contributions. -/
theorem genOutput_eq_reduced {T : Type} {op : Functor T} {genInput : Nat → T} {S : Set T}
    (commutes : ReduceTree.CommutesOn op.apply S) (inside : ∀ r, op.preOp (genInput r) r ∈ S)
    {rankN : Nat} (pos : 0 < rankN) {t : ReduceTree Nat}
    (perm : t.leaves.Perm (List.range rankN)) :
    genOutput op rankN genInput = reduced op genInput t := by
  rw [genOutput_eq_reduced_chain, reduced, reduced]
  congr 1
  apply ReduceTree.eval_perm commutes inside
  rw [leaves_chain_ranks pos]
  exact perm.symm

theorem IntegerType.toInt_injective (T : IntegerType) : Function.Injective T.toInt := by
  intro x y same
  rw [toInt, toInt] at same
  split at same
  · exact BitVec.eq_of_toInt_eq same
  · exact BitVec.eq_of_toNat_eq (Int.ofNat.inj same)

/-- Wrapping arithmetic commutes, and so do the comparisons of integers. -/
theorem IntegerType.commutesOn_functor (T : IntegerType) (op : RedOp) (rankN : Nat) :
    ReduceTree.CommutesOn (T.functor op rankN).apply Set.univ := by
  have sum : ReduceTree.CommutesOn (fun a b : T.Bits => a + b) Set.univ :=
    ⟨fun _ _ _ _ => trivial, fun x _ y _ => BitVec.add_comm x y,
      fun x _ y _ z _ => BitVec.add_assoc x y z⟩
  cases op with
  | sum => exact sum
  | preMulSum => exact sum
  | avg => exact sum
  | prod =>
    exact ⟨fun _ _ _ _ => trivial, fun x _ y _ => BitVec.mul_comm x y,
      fun x _ y _ z _ => BitVec.mul_assoc x y z⟩
  | min => exact ReduceTree.commutesOn_pick T.toInt_injective.injOn
  | max =>
    have inj : Function.Injective fun x => OrderDual.toDual (T.toInt x) :=
      OrderDual.toDual.injective.comp T.toInt_injective
    exact ReduceTree.commutesOn_pick inj.injOn

namespace FloatLayout

variable {T : FloatLayout}

theorem normalBits_makeFloat {sign exp : Nat} {mant : BitVec 64} (hs : sign < 2) (low : 1 ≤ exp)
    (high : exp ≤ 2 ^ T.exponentBits - 2) (hm : mant.toNat < 2 ^ T.mantissaBits) :
    NormalBits (makeFloat T sign exp mant) := by
  have field := (fields_makeFloat hs (show exp < 2 ^ T.exponentBits by omega) hm).2.1
  rw [NormalBits, field]
  exact ⟨low, high⟩

/-- **Every input is a normal number**: the exponent field is in the middle half. -/
theorem normalBits_genInputMax (T : FloatLayout) (rankMe : Nat) (seed : BitVec 64) (index : Int) :
    NormalBits (genInputMax T rankMe seed index) := by
  have mask : (BitVec.ofNat 64 (1 <<< (T.exponentBits - 1) - 1)).toNat =
      2 ^ (T.exponentBits - 1) - 1 := by
    cases T <;> decide
  have mantMask : ((1 : BitVec 64) <<< T.mantissaBits - 1).toNat = 2 ^ T.mantissaBits - 1 := by
    cases T <;> decide
  have room : 1 ≤ 1 <<< (T.exponentBits - 2) ∧
      2 ^ (T.exponentBits - 1) - 1 + 1 <<< (T.exponentBits - 2) ≤ 2 ^ T.exponentBits - 2 := by
    cases T <;> decide
  have exp_le (rng : BitVec 64) :
      (rng &&& BitVec.ofNat 64 (1 <<< (T.exponentBits - 1) - 1)).toNat ≤
        2 ^ (T.exponentBits - 1) - 1 := by
    rw [BitVec.toNat_and, mask]
    exact Nat.and_le_right
  have mant_lt (rng : BitVec 64) :
      (rng &&& (1 : BitVec 64) <<< T.mantissaBits - 1).toNat < 2 ^ T.mantissaBits := by
    rw [BitVec.toNat_and, mantMask]
    have pos := Nat.two_pow_pos T.mantissaBits
    exact lt_of_le_of_lt Nat.and_le_right (by omega)
  have sign_lt (rng : BitVec 64) : (rng &&& 1).toNat < 2 := by
    rw [BitVec.toNat_and]
    exact lt_of_le_of_lt Nat.and_le_right (by decide)
  refine normalBits_makeFloat (sign_lt _) ?_ ?_ (mant_lt _)
  · exact room.1.trans (Nat.le_add_left _ _)
  · exact (Nat.add_le_add_right (exp_le _) _).trans room.2

/-- With an intrinsic that picks by the value, all overloads do. -/
theorem pickFloat_eq {cuda : Intrinsics} (documented : cuda.Documented)
    {intrinsic : (T : FloatLayout) → T.Bits → T.Bits → T.Bits} {before : ℚ → ℚ → Bool}
    (picks : ∀ (T : FloatLayout) (a b : T.Bits), NormalBits a → NormalBits b →
      intrinsic T a b = if before (decode a) (decode b) then a else b)
    (arch : Nat) {a b : T.Bits} (ha : NormalBits a) (hb : NormalBits b) :
    pickFloat cuda intrinsic before arch T a b =
      if before (decode a) (decode b) then a else b := by
  rw [pickFloat]
  split
  · exact picks T a b ha hb
  split
  · next byte =>
    obtain ⟨ha', value_a⟩ := documented.toHalf T byte.2 a ha
    obtain ⟨hb', value_b⟩ := documented.toHalf T byte.2 b hb
    rw [picks .half _ _ ha' hb', value_a, value_b]
    split
    · exact documented.ofHalf T byte.2 a ha _ ha' value_a
    · exact documented.ofHalf T byte.2 b hb _ hb' value_b
  · rfl

theorem reduceMin_eq {cuda : Intrinsics} (documented : cuda.Documented) (arch : Nat)
    {a b : T.Bits} (ha : NormalBits a) (hb : NormalBits b) :
    reduceMin cuda arch T a b = ReduceTree.pick decode a b := by
  rw [reduceMin, pickFloat_eq documented _ arch ha hb, ReduceTree.pick]
  · simp only [decide_eq_true_eq]
  · intro T a b ha hb
    rw [documented.hmin T a b ha hb]
    simp only [decide_eq_true_eq]

theorem reduceMax_eq {cuda : Intrinsics} (documented : cuda.Documented) (arch : Nat)
    {a b : T.Bits} (ha : NormalBits a) (hb : NormalBits b) :
    reduceMax cuda arch T a b =
      ReduceTree.pick (fun b => OrderDual.toDual (decode b)) a b := by
  rw [reduceMax, pickFloat_eq documented _ arch ha hb, ReduceTree.pick]
  · simp only [decide_eq_true_eq, OrderDual.toDual_lt_toDual, gt_iff_lt]
  · intro T a b ha hb
    rw [documented.hmax T a b ha hb]
    simp only [decide_eq_true_eq]

/-- Minimum and maximum of normal numbers commute. -/
theorem commutesOn_functor {cuda : Intrinsics} (documented : cuda.Documented) (arch : Nat)
    (T : FloatLayout) (op : FoldOp) :
    ReduceTree.CommutesOn (T.functor cuda arch op).apply {b | NormalBits b} := by
  cases op with
  | min =>
    apply (ReduceTree.commutesOn_pick decode_injOn).congr
    exact fun a ha b hb => reduceMin_eq documented arch ha hb
  | max =>
    have inj : Set.InjOn (fun b : T.Bits => OrderDual.toDual (decode b)) {b | NormalBits b} :=
      OrderDual.toDual.injective.comp_injOn decode_injOn
    apply (ReduceTree.commutesOn_pick inj).congr
    exact fun a ha b hb => reduceMax_eq documented arch ha hb

theorem normalBits_genInput (T : FloatLayout) (op : FoldOp) (rankMe : Nat) (seed : BitVec 64)
    (index : Int) : NormalBits (T.genInput op rankMe seed index) := by
  cases op <;> exact normalBits_genInputMax T rankMe seed index

end FloatLayout

/-- **Any shape and any order of the ranks** gives the value that the fold expects, for the
operations of integers and for the minimum and the maximum of floats, whose intrinsics are those of
CUDA's documentation (`documented`).

The operations of integers are commutative and associative, wrapping sums and products included;
weights are multiplied before and an average is divided after all of them. The generator makes only
normal floats, on which minimum and maximum are those of the values, and different bits are
different values. -/
theorem genOutput_order_independent (cuda : FloatLayout.Intrinsics)
    (documented : cuda.Documented) (arch rankN : Nat) (two : 2 ≤ rankN) (seed : BitVec 64)
    (index : Int) (t : ReduceTree Nat) (perm : t.leaves.Perm (List.range rankN)) :
    (∀ (T : IntegerType) (op : RedOp),
      genOutput (T.functor op rankN) rankN (T.genInput op · seed index) =
        reduced (T.functor op rankN) (T.genInput op · seed index) t) ∧
    ∀ (T : FloatLayout) (op : FloatLayout.FoldOp),
      genOutput (T.functor cuda arch op) rankN (T.genInput op · seed index) =
        reduced (T.functor cuda arch op) (T.genInput op · seed index) t := by
  have pos : 0 < rankN := by omega
  constructor
  · intro T op
    exact genOutput_eq_reduced (T.commutesOn_functor op rankN) (fun _ => trivial) pos perm
  · intro T op
    exact genOutput_eq_reduced (FloatLayout.commutesOn_functor documented arch T op)
      (fun r => FloatLayout.normalBits_genInput T op r seed index) pos perm

namespace FloatLayout

/-- Intrinsics that are exact on normal numbers. -/
def exactIntrinsics : Intrinsics where
  hmin _ a b := if decode a < decode b then a else b
  hmax _ a b := if decode a > decode b then a else b
  toHalf T a := makeFloat .half (signField a) (expField a + (15 - T.exponentBias) : Nat)
    (BitVec.ofNat 64 (mantField a * 2 ^ (10 - T.mantissaBits)))
  ofHalf T h := makeFloat T (signField h) (expField h - (15 - T.exponentBias) : Nat)
    (BitVec.ofNat 64 (mantField h / 2 ^ (10 - T.mantissaBits)))

/-- How the layouts of 8 bits lie in that of `half`. -/
theorem byte_layout {T : FloatLayout} (byte : T.sizeof = 1) :
    half.format.bias = T.format.bias + (15 - T.exponentBias : Nat) ∧
      T.mantissaBits + (10 - T.mantissaBits) = 10 ∧
      2 ^ T.exponentBits - 2 + (15 - T.exponentBias) ≤ 30 := by
  cases T <;> first | decide | exact absurd byte (by decide)

theorem ofNat_toNat_of_lt {m : Nat} (small : m < 2 ^ 10) : (BitVec.ofNat 64 m).toNat = m := by
  rw [BitVec.toNat_ofNat]
  omega

/-- The mantissa moved to the top of that of `half`. -/
theorem widened_lt {T : FloatLayout} (byte : T.sizeof = 1) (a : T.Bits) :
    mantField a * 2 ^ (10 - T.mantissaBits) < 2 ^ 10 := by
  calc mantField a * 2 ^ (10 - T.mantissaBits)
      < 2 ^ T.mantissaBits * 2 ^ (10 - T.mantissaBits) :=
        Nat.mul_lt_mul_of_pos_right (mantField_lt a) (Nat.two_pow_pos _)
    _ = 2 ^ 10 := by rw [← pow_add, (byte_layout byte).2.1]

theorem fields_toHalf {T : FloatLayout} (byte : T.sizeof = 1) {a : T.Bits} (ha : NormalBits a) :
    signField (exactIntrinsics.toHalf T a) = signField a ∧
      expField (exactIntrinsics.toHalf T a) = expField a + (15 - T.exponentBias) ∧
      mantField (exactIntrinsics.toHalf T a) = mantField a * 2 ^ (10 - T.mantissaBits) := by
  have small := widened_lt byte a
  have room := (byte_layout byte).2.2
  have high := ha.2
  have exp_lt : expField a + (15 - T.exponentBias) < 2 ^ half.exponentBits := by
    change _ < 32
    omega
  have mant_lt : (BitVec.ofNat 64 (mantField a * 2 ^ (10 - T.mantissaBits))).toNat <
      2 ^ half.mantissaBits := by
    rwa [ofNat_toNat_of_lt small]
  have fields := fields_makeFloat (signField_lt a) exp_lt mant_lt
  rwa [ofNat_toNat_of_lt small] at fields

theorem normalBits_toHalf {T : FloatLayout} (byte : T.sizeof = 1) {a : T.Bits}
    (ha : NormalBits a) : NormalBits (exactIntrinsics.toHalf T a) := by
  have low := ha.1
  have high := ha.2
  have room := (byte_layout byte).2.2
  rw [NormalBits, (fields_toHalf byte ha).2.1]
  refine ⟨by omega, ?_⟩
  change _ ≤ 30
  omega

theorem decode_toHalf {T : FloatLayout} (byte : T.sizeof = 1) {a : T.Bits} (ha : NormalBits a) :
    decode (exactIntrinsics.toHalf T a) = decode a := by
  obtain ⟨sign, exp, mant⟩ := fields_toHalf byte ha
  rw [decode, decode, sign, exp, mant]
  refine Format.value_widen ha.1 (byte_layout byte).1 ?_
  exact (byte_layout byte).2.1.symm

theorem ofHalf_toHalf {T : FloatLayout} (byte : T.sizeof = 1) {a : T.Bits} (ha : NormalBits a) :
    exactIntrinsics.ofHalf T (exactIntrinsics.toHalf T a) = a := by
  obtain ⟨sign, exp, mant⟩ := fields_toHalf byte ha
  have low := ha.1
  have high := ha.2
  have mant_small : mantField a < 2 ^ 10 :=
    lt_of_le_of_lt (Nat.le_mul_of_pos_right _ (Nat.two_pow_pos _)) (widened_lt byte a)
  change makeFloat T _ _ _ = a
  rw [sign, exp, mant, Nat.add_sub_cancel, Nat.mul_div_cancel _ (Nat.two_pow_pos _)]
  apply BitVec.eq_of_toNat_eq
  rw [makeFloat_toNat (signField_lt a) (by omega), ofNat_toNat_of_lt mant_small,
    ← toNat_eq_fields]
  rw [ofNat_toNat_of_lt mant_small]
  exact mantField_lt a

theorem exactIntrinsics_documented : exactIntrinsics.Documented where
  hmin _ _ _ _ _ := rfl
  hmax _ _ _ _ _ := rfl
  toHalf _ byte _ ha := ⟨normalBits_toHalf byte ha, decode_toHalf byte ha⟩
  ofHalf T byte a ha h hh same := by
    have widened := decode_injOn hh (normalBits_toHalf byte ha)
      (same.trans (decode_toHalf byte ha).symm)
    rw [widened, ofHalf_toHalf byte ha]

end FloatLayout

/-- Three ranks combined from the other end. -/
theorem genOutput_order_independent_three :
    (∀ (T : IntegerType) (op : RedOp),
      genOutput (T.functor op 3) 3 (T.genInput op · 7 0) =
        reduced (T.functor op 3) (T.genInput op · 7 0)
          (.node (.leaf 2) (.node (.leaf 1) (.leaf 0)))) ∧
    ∀ (T : FloatLayout) (op : FloatLayout.FoldOp),
      genOutput (T.functor FloatLayout.exactIntrinsics 900 op) 3 (T.genInput op · 7 0) =
        reduced (T.functor FloatLayout.exactIntrinsics 900 op) (T.genInput op · 7 0)
          (.node (.leaf 2) (.node (.leaf 1) (.leaf 0))) :=
  genOutput_order_independent FloatLayout.exactIntrinsics FloatLayout.exactIntrinsics_documented
    900 3 (by decide) 7 0 _ (by decide)

end NcclTests.Verifiable
