import Mathlib
import NcclTests.Lib.PowTwoPerm

/-!
# Permutations of machine words

The steps that mixers of words are made of lose no information: multiplying by an odd word,
adding to a word what a shift leaves of it, and updating one half of a word from the other.
Adding a constant is `AddGroup.addRight_bijective`.
-/

namespace WordPerm

/-- Multiplying by an odd word. -/
theorem mul_odd_bijective {w : Nat} {m : BitVec w} (odd : m.toNat % 2 = 1) :
    Function.Bijective fun x : BitVec w => x * m := by
  apply Finite.injective_iff_bijective.1
  intro x y same
  apply BitVec.eq_of_toNat_eq
  apply PowTwoPerm.affine_injOn (b := 0) odd x.isLt y.isLt
  have numbers : (x * m).toNat = (y * m).toNat := congrArg BitVec.toNat same
  rwa [BitVec.toNat_mul, BitVec.toNat_mul] at numbers

/-- What is shifted by half of the word or more does not meet itself again. -/
theorem xor_shiftRight_involutive {w k : Nat} (half : w ≤ k + k) :
    Function.Involutive fun x : BitVec w => x ^^^ x >>> k := by
  intro x
  have gone : x >>> (k + k) = 0#w := BitVec.ushiftRight_eq_zero half
  dsimp only
  rw [BitVec.ushiftRight_xor_distrib, ← BitVec.shiftRight_add, gone, BitVec.xor_zero,
    BitVec.xor_assoc, BitVec.xor_self, BitVec.xor_zero]

/-! ## Halves -/

section Halves

variable {m n : Nat}

/-- The high part of a word is replaced. -/
def onHigh (f : BitVec m → BitVec m) (x : BitVec (m + n)) : BitVec (m + n) :=
  f (x.extractLsb' n m) ++ x.extractLsb' 0 n

/-- The low part of a word takes up what is made of the high part. -/
def xorLow (f : BitVec m → BitVec n) (x : BitVec (m + n)) : BitVec (m + n) :=
  x.extractLsb' n m ++ (x.extractLsb' 0 n ^^^ f (x.extractLsb' n m))

/-- A word is its parts. -/
theorem append_parts (x : BitVec (m + n)) : x.extractLsb' n m ++ x.extractLsb' 0 n = x :=
  BitVec.extractLsb'_append_extractLsb'

theorem onHigh_bijective {f : BitVec m → BitVec m} (perm : Function.Bijective f) :
    Function.Bijective (onHigh (n := n) f) := by
  apply Finite.injective_iff_bijective.1
  intro x y same
  have high : f (x.extractLsb' n m) = f (y.extractLsb' n m) := by
    have parts := congrArg (BitVec.extractLsb' n m) same
    rwa [onHigh, onHigh, BitVec.extractLsb'_append_eq_left, BitVec.extractLsb'_append_eq_left]
      at parts
  have low : x.extractLsb' 0 n = y.extractLsb' 0 n := by
    have parts := congrArg (BitVec.extractLsb' 0 n) same
    rwa [onHigh, onHigh, BitVec.extractLsb'_append_eq_right, BitVec.extractLsb'_append_eq_right]
      at parts
  rw [← append_parts x, ← append_parts y, perm.injective high, low]

/-- The high part is still there, so that the low part can be restored. -/
theorem xorLow_involutive (f : BitVec m → BitVec n) : Function.Involutive (xorLow f) := by
  intro x
  rw [xorLow, xorLow, BitVec.extractLsb'_append_eq_left, BitVec.extractLsb'_append_eq_right,
    BitVec.xor_assoc, BitVec.xor_self, BitVec.xor_zero, append_parts]

end Halves

/-! ## Numbers as words -/

/-- Numbers of `w` bits with a sign are words of `w` bits. -/
theorem ofInt_injOn {w : Nat} {range : Set Int}
    (bounded : ∀ i ∈ range, -2 ^ w ≤ 2 * i ∧ 2 * i < 2 ^ w) :
    Set.InjOn (BitVec.ofInt w) range := by
  intro i hi j hj same
  have numbers := congrArg BitVec.toInt same
  have far := bounded i hi
  have far' := bounded j hj
  rw [BitVec.toInt_ofInt, BitVec.toInt_ofInt,
    Int.bmod_eq_of_le_mul_two (by push_cast; omega) (by push_cast; omega),
    Int.bmod_eq_of_le_mul_two (by push_cast; omega) (by push_cast; omega)] at numbers
  exact numbers

end WordPerm
