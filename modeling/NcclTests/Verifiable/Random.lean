import Mathlib

/-!
# Random bits and bit scans of the data generators

`verifiable/verifiable.cu` draws every element from a 64-bit generator state.
Unsigned types of the source are bit vectors, so their wrap-around is the one
of the source; a C `int` that is never negative is a natural number.
-/

namespace NcclTests.Verifiable

/-- The generator's step: the halves `u32[0]`, `u32[1]` of the union are the low
and the high word. -/
def mixBits (x : BitVec 64) : BitVec 64 :=
  let hi : BitVec 32 := x.extractLsb' 32 32 + 1
  let lo : BitVec 32 := x.extractLsb' 0 32 ^^^ hi
  let u64 : BitVec 64 := (hi ++ lo) * 0x9e3779b97f4a7c13
  let hi : BitVec 32 := u64.extractLsb' 32 32
  let lo : BitVec 32 := u64.extractLsb' 0 32 ^^^ (hi <<< 16 ^^^ hi >>> 16)
  hi ++ lo

/-- Seed the generator from a pair of 64-bit words. -/
def hashOf (a b : BitVec 64) : BitVec 64 :=
  let a := a + 1 <<< 32
  let a := a + b
  let a := a ^^^ a >>> 32
  let a := a * 0x9e3779b97f4a7c13
  let a := a + (b >>> 16 ^^^ b <<< 48)
  let a := a ^^^ a >>> 32
  a * 0xc4ceb9fe1a85ec53

/-- High half of a 32-bit product. -/
def umul32hi (a b : BitVec 32) : BitVec 64 :=
  (a.setWidth 64 * b.setWidth 64) >>> 32

/-- High half of a 64-bit product. -/
def umul64hi (a b : BitVec 64) : BitVec 64 :=
  ((a.setWidth 128 * b.setWidth 128) >>> 64).setWidth 64

/-- Leading zeros of a 32-bit word; `32` at zero. -/
def clz32 (x : BitVec 32) : Nat :=
  if x = 0 then 32 else 31 - x.toNat.log2

/-- Leading zeros of a 64-bit word; `64` at zero. -/
def clz64 (x : BitVec 64) : Nat :=
  if x = 0 then 64 else 63 - x.toNat.log2

theorem umul32hi_toNat (a b : BitVec 32) :
    (umul32hi a b).toNat = a.toNat * b.toNat / 2 ^ 32 := by
  have bound : a.toNat * b.toNat < 2 ^ 32 * 2 ^ 32 :=
    Nat.mul_lt_mul'' a.isLt b.isLt
  have ha := a.isLt
  have hb := b.isLt
  simp only [umul32hi, BitVec.toNat_ushiftRight, BitVec.toNat_mul, BitVec.toNat_setWidth,
    Nat.shiftRight_eq_div_pow]
  rw [Nat.mod_eq_of_lt (show a.toNat < 2 ^ 64 by omega),
    Nat.mod_eq_of_lt (show b.toNat < 2 ^ 64 by omega), Nat.mod_eq_of_lt (by omega)]

theorem umul64hi_toNat (a b : BitVec 64) :
    (umul64hi a b).toNat = a.toNat * b.toNat / 2 ^ 64 := by
  have bound : a.toNat * b.toNat < 2 ^ 64 * 2 ^ 64 :=
    Nat.mul_lt_mul'' a.isLt b.isLt
  have ha := a.isLt
  have hb := b.isLt
  simp only [umul64hi, BitVec.toNat_ushiftRight, BitVec.toNat_mul, BitVec.toNat_setWidth,
    Nat.shiftRight_eq_div_pow]
  rw [Nat.mod_eq_of_lt (show a.toNat < 2 ^ 128 by omega),
    Nat.mod_eq_of_lt (show b.toNat < 2 ^ 128 by omega),
    Nat.mod_eq_of_lt (show a.toNat * b.toNat < 2 ^ 128 by omega), Nat.mod_eq_of_lt]
  exact (Nat.div_lt_iff_lt_mul (by norm_num)).2 (by omega)

/-- Multiplying by a bound and keeping the high half draws a value below it. -/
theorem umul32hi_lt (a : BitVec 32) {b : BitVec 32} (pos : 0 < b.toNat) :
    (umul32hi a b).toNat < b.toNat := by
  rw [umul32hi_toNat, Nat.div_lt_iff_lt_mul (by norm_num), Nat.mul_comm]
  exact Nat.mul_lt_mul_of_pos_left a.isLt pos

end NcclTests.Verifiable
