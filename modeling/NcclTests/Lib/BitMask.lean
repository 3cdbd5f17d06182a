import Mathlib

/-!
# Masks below a power of two

Clearing the low bits rounds down to a multiple of a power of two, and flipping
one bit of a number exchanges the two halves of the block it lies in.
-/

namespace BitMask

/-- Clearing the low `k` bits rounds down. -/
theorem ldiff_two_pow_sub_one (x k : Nat) : Nat.ldiff x (2 ^ k - 1) = x / 2 ^ k * 2 ^ k := by
  apply Nat.eq_of_testBit_eq
  intro i
  rw [Nat.testBit_ldiff, Nat.testBit_two_pow_sub_one, Nat.mul_comm, Nat.testBit_two_pow_mul,
    Nat.testBit_div_two_pow]
  by_cases low : i < k
  · simp [low]
  · have high : k ≤ i := Nat.le_of_not_lt low
    simp [low, high]

theorem ldiff_two_pow_sub_one_le (x k : Nat) : Nat.ldiff x (2 ^ k - 1) ≤ x := by
  rw [ldiff_two_pow_sub_one]
  exact Nat.div_mul_le_self x _

theorem ldiff_two_pow_sub_one_mono {x y : Nat} (le : x ≤ y) (k : Nat) :
    Nat.ldiff x (2 ^ k - 1) ≤ Nat.ldiff y (2 ^ k - 1) := by
  rw [ldiff_two_pow_sub_one, ldiff_two_pow_sub_one]
  exact Nat.mul_le_mul_right _ (Nat.div_le_div_right le)

/-- A mask of 64 bits. -/
theorem toNat_and_not (x m : UInt64) : (x &&& ~~~m).toNat = Nat.ldiff x.toNat m.toNat := by
  rw [UInt64.toNat_and, UInt64.toNat_not]
  apply Nat.eq_of_testBit_eq
  intro i
  have flipped : UInt64.size - 1 - m.toNat = 2 ^ 64 - (m.toNat + 1) := by
    have : UInt64.size = 2 ^ 64 := rfl
    omega
  rw [Nat.testBit_and, Nat.testBit_ldiff, flipped, Nat.testBit_two_pow_sub_succ m.toNat_lt]
  by_cases low : i < 64
  · simp [low]
  · have zero : x.toNat.testBit i = false :=
      Nat.testBit_lt_two_pow (x.toNat_lt.trans_le (Nat.pow_le_pow_right (by omega) (by omega)))
    simp [zero]

/-! ## Integers -/

theorem testBit_of_lt {p k i : Nat} (less : p < 2 ^ k) (high : k ≤ i) : p.testBit i = false :=
  Nat.testBit_lt_two_pow (less.trans_le (Nat.pow_le_pow_right (by omega) high))

/-- The bits of a natural number below `2 ^ k` see an integer modulo `2 ^ k`. -/
theorem land_natCast {p k : Nat} (less : p < 2 ^ k) (x : Int) :
    Int.land p x = (p &&& (x % (2 ^ k : Nat)).toNat : Nat) := by
  cases x with
  | ofNat n =>
    have rest : ((Int.ofNat n) % (2 ^ k : Nat)).toNat = n % 2 ^ k := by
      rw [Int.ofNat_eq_natCast, ← Int.natCast_emod, Int.toNat_natCast]
    rw [rest]
    apply congrArg Int.ofNat
    apply Nat.eq_of_testBit_eq
    intro i
    rw [Nat.testBit_and, Nat.testBit_and, Nat.testBit_mod_two_pow]
    by_cases low : i < k
    · simp [low]
    · simp [testBit_of_lt less (not_lt.1 low)]
  | negSucc n =>
    have below : n % 2 ^ k < 2 ^ k := Nat.mod_lt _ (Nat.two_pow_pos k)
    have rest : ((Int.negSucc n) % (2 ^ k : Nat)).toNat = 2 ^ k - (n % 2 ^ k + 1) := by
      rw [Int.negSucc_emod _ (by exact_mod_cast Nat.two_pow_pos k), ← Int.natCast_emod]
      omega
    rw [rest]
    apply congrArg Int.ofNat
    apply Nat.eq_of_testBit_eq
    intro i
    rw [Nat.testBit_ldiff, Nat.testBit_and, Nat.testBit_two_pow_sub_succ below,
      Nat.testBit_mod_two_pow]
    by_cases low : i < k
    · simp [low]
    · simp [testBit_of_lt less (not_lt.1 low)]

/-- All numbers below `2 ^ k` see the same bits of what agrees modulo `2 ^ k`, and of nothing
else. -/
theorem land_eq_iff (k : Nat) (v w : Int) :
    (∀ p : Nat, p < 2 ^ k → Int.land p w = Int.land p v) ↔
      w % (2 ^ k : Nat) = v % (2 ^ k : Nat) := by
  have pos : ((2 ^ k : Nat) : Int) ≠ 0 := by positivity
  constructor
  · intro same
    have top : 2 ^ k - 1 < 2 ^ k := Nat.sub_lt (Nat.two_pow_pos k) Nat.one_pos
    have bits := same _ top
    rw [land_natCast top, land_natCast top] at bits
    have ands := Int.ofNat_inj.1 bits
    rw [Nat.and_comm, Nat.and_two_pow_sub_one_eq_mod, Nat.and_comm,
      Nat.and_two_pow_sub_one_eq_mod] at ands
    have low := Int.emod_nonneg w pos
    have low' := Int.emod_nonneg v pos
    have high : w % (2 ^ k : Nat) < (2 ^ k : Nat) := Int.emod_lt_of_pos _ (by positivity)
    have high' : v % (2 ^ k : Nat) < (2 ^ k : Nat) := Int.emod_lt_of_pos _ (by positivity)
    rw [Nat.mod_eq_of_lt (by omega), Nat.mod_eq_of_lt (by omega)] at ands
    omega
  · intro same p less
    rw [land_natCast less, land_natCast less, same]

theorem land_natCast_nonneg (p : Nat) (x : Int) : 0 ≤ Int.land p x := by
  cases x with
  | ofNat n => exact Int.natCast_nonneg _
  | negSucc n => exact Int.natCast_nonneg _

theorem zero_lor (x : Int) : Int.lor 0 x = x := by
  cases x with
  | ofNat n => exact congrArg Int.ofNat (Nat.zero_or n)
  | negSucc n =>
    apply congrArg Int.negSucc
    apply Nat.eq_of_testBit_eq
    intro i
    rw [Nat.testBit_ldiff]
    simp

theorem lor_natCast_nonneg {x : Int} (nonneg : 0 ≤ x) (p : Nat) : 0 ≤ Int.lor p x := by
  obtain ⟨n, rfl⟩ := Int.eq_ofNat_of_zero_le nonneg
  exact Int.natCast_nonneg _

/-! ## Partners -/

/-- The block of the partner is the neighbouring block. -/
theorem xor_two_pow_div (x k : Nat) : (x ^^^ 2 ^ k) / 2 ^ k = x / 2 ^ k ^^^ 1 := by
  rw [Nat.xor_div_two_pow, Nat.div_self (Nat.two_pow_pos k)]

theorem mul_two_pow_xor (a k : Nat) : a * 2 ^ k ^^^ 2 ^ k = (a ^^^ 1) * 2 ^ k := by
  have shifted := Nat.shiftLeft_xor_distrib (a := a) (b := 1) (i := k)
  rw [Nat.shiftLeft_eq, Nat.shiftLeft_eq, Nat.shiftLeft_eq, Nat.one_mul] at shifted
  exact shifted.symm

theorem xor_two_pow_xor (x k : Nat) : x ^^^ 2 ^ k ^^^ 2 ^ k = x := by
  rw [Nat.xor_assoc, Nat.xor_self, Nat.xor_zero]

theorem xor_two_pow_lt {x j k : Nat} (below : x < 2 ^ k) (bit : j < k) : x ^^^ 2 ^ j < 2 ^ k :=
  Nat.xor_lt_two_pow below (Nat.pow_lt_pow_right one_lt_two bit)

theorem xor_two_pow_ne (x k : Nat) : x ^^^ 2 ^ k ≠ x := by
  intro same
  have zero : x ^^^ (x ^^^ 2 ^ k) = 0 := by rw [same, Nat.xor_self]
  rw [← Nat.xor_assoc, Nat.xor_self, Nat.zero_xor] at zero
  exact (Nat.two_pow_pos k).ne' zero

theorem xor_one_ne (a : Nat) : a ^^^ 1 ≠ a := xor_two_pow_ne a 0

/-- Two neighbouring blocks make up one block of twice the size. -/
theorem div_two_eq_iff (a b : Nat) : b / 2 = a / 2 ↔ b = a ∨ b = a ^^^ 1 := by
  have half : (a ^^^ 1) / 2 = a / 2 := by
    rw [Nat.xor_div_two]
    simp
  have parity : (a ^^^ 1) % 2 = (a + 1) % 2 := Nat.xor_mod_two_eq
  omega

end BitMask
