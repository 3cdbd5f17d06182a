import Mathlib
import NcclTests.Lib.Ieee

/-!
# Formatted numbers

What the conversions `%d`, `%x` and `%lf` of `printf` print.
-/

namespace Printf

/-- `n` in base `b`. -/
def digits (b n : Nat) : List Char :=
  if n = 0 then ['0'] else (Nat.digits b n).reverse.map Nat.digitChar

/-- `%d`. -/
def decimal (z : Int) : List Char :=
  if z < 0 then '-' :: digits 10 z.natAbs else digits 10 z.natAbs

/-- `%x` of a 32-bit integer, which prints a negative one as the unsigned number
congruent to it. -/
def hexadecimal (z : Int) : List Char := digits 16 (z % 2 ^ 32).toNat

/-- `%.6f` of a magnitude: rounded to six places, ties to even. -/
def fixedPoint (q : ℚ) : List Char :=
  let micros := (BinaryFloat.roundHalfEven (q * 10 ^ 6)).toNat
  digits 10 (micros / 10 ^ 6) ++ '.' :: (digits 10 (micros % 10 ^ 6)).leftpad 6 '0'

/-- `%lf`. -/
def longFloat : BinaryFloat.Value → List Char
  | .nan => "nan".toList
  | .infinity negative => if negative then "-inf".toList else "inf".toList
  | .finite q => if q < 0 then '-' :: fixedPoint (-q) else fixedPoint q

/-! ## Characters and lengths -/

theorem mem_digits {b n : Nat} (base : 1 < b) {c : Char} (inside : c ∈ digits b n) :
    ∃ k < b, c = Nat.digitChar k := by
  unfold digits at inside
  split at inside
  · exact ⟨0, by omega, List.mem_singleton.1 inside⟩
  · obtain ⟨k, digit, rfl⟩ := List.mem_map.1 inside
    exact ⟨k, Nat.digits_lt_base base (List.mem_reverse.1 digit), rfl⟩

theorem mem_decimal {z : Int} {c : Char} (inside : c ∈ decimal z) :
    c = '-' ∨ ∃ k < 10, c = Nat.digitChar k := by
  unfold decimal at inside
  split at inside
  · rcases List.mem_cons.1 inside with sign | digit
    · exact .inl sign
    · exact .inr (mem_digits (by norm_num) digit)
  · exact .inr (mem_digits (by norm_num) inside)

theorem length_digits_le {b n k : Nat} (base : 1 < b) (pos : 0 < k) (small : n < b ^ k) :
    (digits b n).length ≤ k := by
  unfold digits
  split
  · exact pos
  · rw [List.length_map, List.length_reverse]
    exact (Nat.digits_length_le_iff base n).2 small

theorem length_hexadecimal_le (z : Int) : (hexadecimal z).length ≤ 8 :=
  length_digits_le (by norm_num) (by norm_num) (by omega)

theorem mem_leftpad {α : Type} {n : Nat} {a c : α} {text : List α}
    (inside : c ∈ text.leftpad n a) : c = a ∨ c ∈ text := by
  rcases List.mem_append.1 inside with padding | inside
  · exact .inl (List.eq_of_mem_replicate padding)
  · exact .inr inside

end Printf
