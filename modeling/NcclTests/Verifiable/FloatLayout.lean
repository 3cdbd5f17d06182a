import Mathlib
import NcclTests.Lib.BinaryFloat
import NcclTests.Verifiable.Random

/-!
# Float layouts

`FloatLayout<T>` and `makeFloat<T>` of `verifiable/verifiable.cu`, with the
decoding of a bit pattern to an exact rational. `packMant` is the tail that
`genInOutFloatSum` and `genInOutFloatPreMulSum` share: it shifts an integer
mantissa up to the implicit leading one and assembles the number.
-/

namespace NcclTests.Verifiable

open BinaryFloat

/-- The element types with a floating-point layout. -/
inductive FloatLayout
  | float | double | half | bfloat16 | fp8E4m3 | fp8E5m2
  deriving DecidableEq, Repr

namespace FloatLayout

def exponentBits : FloatLayout → Nat
  | float => 8
  | double => 11
  | half => 5
  | bfloat16 => 8
  | fp8E4m3 => 4
  | fp8E5m2 => 5

def mantissaBits : FloatLayout → Nat
  | float => 23
  | double => 52
  | half => 10
  | bfloat16 => 7
  | fp8E4m3 => 3
  | fp8E5m2 => 2

def exponentBias (T : FloatLayout) : Nat := (1 <<< (T.exponentBits - 1)) - 1

/-- `sizeof(T)`. -/
def sizeof : FloatLayout → Nat
  | float => 4
  | double => 8
  | half => 2
  | bfloat16 => 2
  | fp8E4m3 => 1
  | fp8E5m2 => 1

/-- A value of type `T` is its bit pattern. -/
abbrev Bits (T : FloatLayout) : Type := BitVec (8 * T.sizeof)

def format (T : FloatLayout) : Format := ⟨T.exponentBits, T.mantissaBits⟩

@[simp] theorem format_exponentBits (T : FloatLayout) : T.format.exponentBits = T.exponentBits :=
  rfl

@[simp] theorem format_mantissaBits (T : FloatLayout) : T.format.mantissaBits = T.mantissaBits :=
  rfl

variable (T : FloatLayout)

theorem fields_fill : 1 + T.exponentBits + T.mantissaBits = 8 * T.sizeof := by
  cases T <;> rfl

theorem sizeof_le : 8 * T.sizeof ≤ 64 := by
  cases T <;> decide

theorem format_bias : T.format.bias = T.exponentBias := by
  cases T <;> rfl

theorem mantissaBits_pos : 0 < T.mantissaBits := by
  cases T <;> decide

variable {T}

/-! ## Decoding -/

def signField (b : T.Bits) : Nat := b.toNat >>> (T.exponentBits + T.mantissaBits)

def expField (b : T.Bits) : Nat := b.toNat >>> T.mantissaBits % 2 ^ T.exponentBits

def mantField (b : T.Bits) : Nat := b.toNat % 2 ^ T.mantissaBits

/-- The exact value of a bit pattern. The patterns of infinities and NaNs have no
such value; no theorem decodes one. -/
def decode (b : T.Bits) : ℚ := T.format.value (signField b) (expField b) (mantField b)

theorem mantField_lt (b : T.Bits) : mantField b < 2 ^ T.mantissaBits :=
  Nat.mod_lt _ (Nat.two_pow_pos _)

theorem signField_lt (b : T.Bits) : signField b < 2 := by
  rw [signField, Nat.shiftRight_eq_div_pow]
  apply Nat.div_lt_of_lt_mul
  calc b.toNat < 2 ^ (8 * T.sizeof) := b.isLt
    _ = 2 ^ (T.exponentBits + T.mantissaBits) * 2 := by
      rw [← T.fields_fill, Nat.add_assoc, pow_add, pow_one, Nat.mul_comm]

/-- A pattern is its fields. -/
theorem toNat_eq_fields (b : T.Bits) : b.toNat =
    (signField b * 2 ^ T.exponentBits + expField b) * 2 ^ T.mantissaBits + mantField b := by
  have upper : signField b * 2 ^ T.exponentBits + expField b = b.toNat / 2 ^ T.mantissaBits := by
    rw [signField, expField, Nat.add_comm T.exponentBits, Nat.shiftRight_add,
      Nat.shiftRight_eq_div_pow, Nat.shiftRight_eq_div_pow, Nat.div_add_mod']
  rw [upper, mantField, Nat.div_add_mod']

/-- A pattern of a finite number that is normal, and so not zero. -/
def NormalBits (b : T.Bits) : Prop := 1 ≤ expField b ∧ expField b ≤ 2 ^ T.exponentBits - 2

/-- Normal numbers have one pattern. -/
theorem decode_injOn : Set.InjOn (decode : T.Bits → ℚ) {b | NormalBits b} := by
  intro b normal c normal' same
  obtain ⟨signs, exps, mants⟩ := Format.value_inj (signField_lt b) (signField_lt c) normal.1
    normal'.1 (mantField_lt b) (mantField_lt c) same
  apply BitVec.eq_of_toNat_eq
  rw [toNat_eq_fields b, toNat_eq_fields c, signs, exps, mants]

end FloatLayout

/-! ## Assembling a number -/

def makeFloat (T : FloatLayout) (sign exp : Int) (mant : BitVec 64) : T.Bits :=
  let bits : BitVec 64 := BitVec.ofInt 64 sign
  let bits := bits <<< T.exponentBits
  let bits := bits ||| BitVec.ofInt 64 exp
  let bits := bits <<< T.mantissaBits
  let bits := bits ||| mant
  bits.setWidth (8 * T.sizeof)

/-- `8*sizeof(T) > 32 ? uint64_t : uint32_t`. -/
def uintmantBits (T : FloatLayout) : Nat := if 8 * T.sizeof > 32 then 64 else 32

/-- `uintmant_t` of the generators. -/
abbrev UintMant (T : FloatLayout) : Type := BitVec (uintmantBits T)

def mantMask (T : FloatLayout) : UintMant T := ((1 : UintMant T) <<< T.mantissaBits) - 1

def maxMant (T : FloatLayout) : UintMant T := 2 * mantMask T + 1

/-- `T(0.0f)` for an empty mantissa, else the normalised number. -/
def packMant (T : FloatLayout) (sign : Nat) (exp : Int) (ansMant : UintMant T) : T.Bits :=
  if ansMant = 0 then 0
  else
    let shift : Int := clz64 (ansMant.setWidth 64) - (64 - T.mantissaBits - 1 : Int)
    let ansExp := exp - shift
    let ansMant := ansMant <<< shift.toNat
    makeFloat T sign ansExp ((ansMant &&& mantMask T).setWidth 64)

namespace FloatLayout

variable {T : FloatLayout}

theorem makeFloat_toNat {sign exp : Nat} {mant : BitVec 64} (hs : sign < 2)
    (he : exp < 2 ^ T.exponentBits) (hm : mant.toNat < 2 ^ T.mantissaBits) :
    (makeFloat T sign exp mant).toNat =
      (sign * 2 ^ T.exponentBits + exp) * 2 ^ T.mantissaBits + mant.toNat := by
  have fill := T.fields_fill
  have wide := T.sizeof_le
  have eFits : 2 ^ T.exponentBits ≤ 2 ^ 63 := Nat.pow_le_pow_right (by norm_num) (by omega)
  have top : sign * 2 ^ T.exponentBits + exp < 2 ^ (1 + T.exponentBits) := by
    rw [pow_add]
    nlinarith
  have all : (sign * 2 ^ T.exponentBits + exp) * 2 ^ T.mantissaBits + mant.toNat <
      2 ^ (8 * T.sizeof) := by
    rw [← fill, pow_add]
    nlinarith [Nat.two_pow_pos T.mantissaBits]
  have below : (2 : Nat) ^ (8 * T.sizeof) ≤ 2 ^ 64 := Nat.pow_le_pow_right (by norm_num) wide
  have high : (sign <<< T.exponentBits % 2 ^ 64 ||| exp) =
      sign * 2 ^ T.exponentBits + exp := by
    rw [Nat.shiftLeft_eq, Nat.mod_eq_of_lt (by nlinarith), ← Nat.shiftLeft_eq,
      ← Nat.shiftLeft_add_eq_or_of_lt he]
  have low : (((sign * 2 ^ T.exponentBits + exp) <<< T.mantissaBits) % 2 ^ 64 ||| mant.toNat) =
      (sign * 2 ^ T.exponentBits + exp) * 2 ^ T.mantissaBits + mant.toNat := by
    rw [Nat.mod_eq_of_lt (by rw [Nat.shiftLeft_eq]; omega),
      ← Nat.shiftLeft_add_eq_or_of_lt hm, Nat.shiftLeft_eq]
  simp only [makeFloat, BitVec.ofInt_natCast, BitVec.toNat_setWidth, BitVec.toNat_or,
    BitVec.toNat_shiftLeft, BitVec.toNat_ofNat]
  rw [Nat.mod_eq_of_lt (show sign < 2 ^ 64 by omega),
    Nat.mod_eq_of_lt (show exp < 2 ^ 64 by omega), high, low, Nat.mod_eq_of_lt all]

/-- A number assembled from fields in range has these fields. -/
theorem fields_makeFloat {sign exp : Nat} {mant : BitVec 64} (hs : sign < 2)
    (he : exp < 2 ^ T.exponentBits) (hm : mant.toNat < 2 ^ T.mantissaBits) :
    signField (makeFloat T sign exp mant) = sign ∧ expField (makeFloat T sign exp mant) = exp ∧
      mantField (makeFloat T sign exp mant) = mant.toNat := by
  have bits := makeFloat_toNat hs he hm
  have upper : (makeFloat T sign exp mant).toNat >>> T.mantissaBits =
      sign * 2 ^ T.exponentBits + exp := by
    rw [bits, Nat.shiftRight_eq_div_pow, Nat.add_comm,
      Nat.add_mul_div_right _ _ (Nat.two_pow_pos _), Nat.div_eq_of_lt hm, Nat.zero_add]
  refine ⟨?_, ?_, ?_⟩
  · rw [signField, Nat.add_comm, Nat.shiftRight_add, upper, Nat.shiftRight_eq_div_pow,
      Nat.add_comm, Nat.add_mul_div_right _ _ (Nat.two_pow_pos _), Nat.div_eq_of_lt he,
      Nat.zero_add]
  · rw [expField, upper, Nat.mul_add_mod_self_right, Nat.mod_eq_of_lt he]
  · rw [mantField, bits, Nat.mul_add_mod_self_right, Nat.mod_eq_of_lt hm]

/-- A number assembled from fields in range decodes to the value of the fields. -/
theorem decode_makeFloat {sign exp : Nat} {mant : BitVec 64} (hs : sign < 2)
    (he : exp < 2 ^ T.exponentBits) (hm : mant.toNat < 2 ^ T.mantissaBits) :
    decode (makeFloat T sign exp mant) = T.format.value sign exp mant.toNat := by
  obtain ⟨signPart, expPart, mantPart⟩ := fields_makeFloat hs he hm
  rw [decode, mantPart, expPart, signPart]

theorem uintmantBits_le (T : FloatLayout) : uintmantBits T ≤ 64 := by
  cases T <;> decide

/-- A significand and its leading one leave room in `uintmant_t`. -/
theorem two_pow_lt_uintmant (T : FloatLayout) :
    2 ^ (T.mantissaBits + 1) < 2 ^ uintmantBits T := by
  cases T <;> decide

theorem mantMask_toNat (T : FloatLayout) : (mantMask T).toNat = 2 ^ T.mantissaBits - 1 := by
  cases T <;> decide

theorem maxMant_toNat (T : FloatLayout) : (maxMant T).toNat = 2 ^ (T.mantissaBits + 1) - 1 := by
  cases T <;> decide

@[simp] theorem decode_zero : decode (0 : T.Bits) = 0 := by
  simp [decode, signField, expField, mantField]

theorem clz64_setWidth {w : Nat} {x : BitVec w} (narrow : w ≤ 64) (pos : x ≠ 0) :
    clz64 (x.setWidth 64) = 63 - x.toNat.log2 := by
  have fits : x.toNat < 2 ^ 64 :=
    Nat.lt_of_lt_of_le x.isLt (Nat.pow_le_pow_right (by norm_num) narrow)
  have same : (x.setWidth 64).toNat = x.toNat := by
    rw [BitVec.toNat_setWidth, Nat.mod_eq_of_lt fits]
  have wide : x.setWidth 64 ≠ 0 := by
    intro zero
    apply pos
    apply BitVec.eq_of_toNat_eq
    rw [← same, zero]
    simp
  rw [clz64, if_neg wide, same]

theorem mantMask_and_toNat (x : UintMant T) :
    ((x &&& mantMask T).setWidth 64).toNat = x.toNat % 2 ^ T.mantissaBits := by
  have room : 2 ^ T.mantissaBits ≤ 2 ^ 52 := by cases T <;> decide
  have below : x.toNat % 2 ^ T.mantissaBits < 2 ^ T.mantissaBits :=
    Nat.mod_lt _ (Nat.two_pow_pos _)
  rw [BitVec.toNat_setWidth, BitVec.toNat_and, mantMask_toNat, Nat.and_two_pow_sub_one_eq_mod,
    Nat.mod_eq_of_lt (by omega)]

/-- Packing an integer mantissa that fits keeps its value. -/
theorem decode_packMant {sign exp : Nat} {ansMant : UintMant T} (hs : sign < 2)
    (fits : ansMant.toNat < 2 ^ (T.mantissaBits + 1)) (low : T.mantissaBits < exp)
    (high : exp < 2 ^ T.exponentBits) :
    decode (packMant T sign exp ansMant) = T.format.scaled sign ansMant.toNat exp := by
  by_cases zero : ansMant = 0
  · rw [packMant, if_pos zero, decode_zero, zero]
    simp
  have pos : ansMant.toNat ≠ 0 := by
    intro h
    exact zero (BitVec.eq_of_toNat_eq (by simpa using h))
  have top : ansMant.toNat.log2 < T.mantissaBits + 1 := (Nat.log2_lt pos).2 fits
  have room : T.mantissaBits ≤ 52 := by cases T <;> decide
  have below := Format.normalized_lt (F := T.format) pos fits
  have above := Format.two_pow_le_normalized (F := T.format) pos fits
  have less : T.format.normalShift ansMant.toNat ≤ T.mantissaBits := Nat.sub_le _ _
  have wide := two_pow_lt_uintmant T
  have shiftEq : (clz64 (ansMant.setWidth 64) : Int) - (64 - T.mantissaBits - 1 : Int) =
      (T.format.normalShift ansMant.toNat : Nat) := by
    rw [clz64_setWidth (uintmantBits_le T) zero, Format.normalShift, format_mantissaBits]
    omega
  have expEq : (exp : Int) - (T.format.normalShift ansMant.toNat : Nat) =
      (exp - T.format.normalShift ansMant.toNat : Nat) := by
    omega
  rw [packMant, if_neg zero]
  simp only [shiftEq, Int.toNat_natCast, expEq]
  rw [format_mantissaBits, pow_succ] at below
  rw [format_mantissaBits] at above
  rw [pow_succ] at wide
  have mantEq : ((ansMant <<< T.format.normalShift ansMant.toNat &&& mantMask T).setWidth
      64).toNat = ansMant.toNat * 2 ^ T.format.normalShift ansMant.toNat - 2 ^ T.mantissaBits := by
    rw [mantMask_and_toNat, BitVec.toNat_shiftLeft, Nat.shiftLeft_eq,
      Nat.mod_eq_of_lt (below.trans wide), Nat.mod_eq_sub_mod above,
      Nat.mod_eq_of_lt (by omega)]
  rw [decode_makeFloat hs (by omega) (by omega), mantEq]
  exact Format.value_normalize pos fits (by omega)

end FloatLayout

end NcclTests.Verifiable
