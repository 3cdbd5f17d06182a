import Mathlib
import NcclTests.Lib.Json
import NcclTests.Lib.Printf

/-!
# The text of scalars

Which texts a reader takes for one value: the grammar of numbers, and strings and names beside it.
What `%d` and `%zu` print is a number, and what `%lf` prints is one unless it is `nan` or `inf`.
-/

namespace Json

/-! ## The grammar -/

def Digits (text : List Char) : Prop := text ≠ [] ∧ ∀ c ∈ text, c.isDigit

/-- Without leading zeros. -/
def IntegerPart (text : List Char) : Prop := Digits text ∧ (text.head? = some '0' → text = ['0'])

def FractionPart (text : List Char) : Prop :=
  text = [] ∨ ∃ digits, text = '.' :: digits ∧ Digits digits

def ExponentPart (text : List Char) : Prop :=
  text = [] ∨ ∃ e sign digits, text = e :: (sign ++ digits) ∧ (e = 'e' ∨ e = 'E') ∧
    (sign = [] ∨ sign = ['+'] ∨ sign = ['-']) ∧ Digits digits

def IsNumber (text : List Char) : Prop :=
  ∃ sign integer fraction exponent, text = sign ++ (integer ++ (fraction ++ exponent)) ∧
    (sign = [] ∨ sign = ['-']) ∧ IntegerPart integer ∧ FractionPart fraction ∧
    ExponentPart exponent

/-- The scalars whose text is a value. -/
def Scalar.IsValid : Scalar → Prop
  | .string body => StringBody body
  | .literal text => IsNumber text ∨ text ∈ ["null".toList, "true".toList, "false".toList]

/-- One object, complete, in which every scalar is the text of a value. -/
def IsDocument (tokens : List Token) : Prop :=
  (∃ members, tokens = (Value.object members).tokens) ∧
    ∀ s, .scalar s ∈ tokens → s.IsValid

/-- A number starts with a sign or a digit. -/
theorem IsNumber.head {c : Char} {rest : List Char} (number : IsNumber (c :: rest)) :
    (c.isDigit = true ∨ (c = '-' ∧ ∃ d more, rest = d :: more ∧ d.isDigit = true)) := by
  obtain ⟨sign, integer, fraction, exponent, text, signs, ⟨⟨nonempty, digits⟩, -⟩, -⟩ := number
  obtain ⟨d, more, rfl⟩ := List.exists_cons_of_ne_nil nonempty
  have first := digits d List.mem_cons_self
  rcases signs with rfl | rfl
  · left
    rwa [(List.cons.inj text).1]
  · right
    exact ⟨(List.cons.inj text).1, d, _, (List.cons.inj text).2, first⟩

/-! ## What is printed -/

open BinaryFloat Printf

theorem isDigit_digitChar {k : Nat} (small : k < 10) : (Nat.digitChar k).isDigit := by
  interval_cases k <;> rfl

theorem digitChar_eq_zero {k : Nat} (small : k < 10) (zero : Nat.digitChar k = '0') : k = 0 := by
  interval_cases k <;> first | rfl | cases zero

theorem digits_digits (n : Nat) : Digits (digits 10 n) := by
  constructor
  · rw [digits]
    split
    · exact List.cons_ne_nil _ _
    · simpa using Nat.digits_ne_nil_iff_ne_zero.2 ‹_›
  · intro c inside
    obtain ⟨k, small, rfl⟩ := mem_digits (by norm_num) inside
    exact isDigit_digitChar small

theorem integerPart_digits (n : Nat) : IntegerPart (digits 10 n) := by
  refine ⟨digits_digits n, ?_⟩
  intro first
  rw [digits] at first ⊢
  split
  · rfl
  · next nonzero =>
    rw [if_neg nonzero, List.head?_map, List.head?_reverse] at first
    have nonempty : Nat.digits 10 n ≠ [] := Nat.digits_ne_nil_iff_ne_zero.2 nonzero
    rw [List.getLast?_eq_some_getLast nonempty, Option.map_some, Option.some_inj] at first
    have small : (Nat.digits 10 n).getLast nonempty < 10 :=
      Nat.digits_lt_base (by norm_num) (List.getLast_mem nonempty)
    exact absurd (digitChar_eq_zero small first) (Nat.getLast_digit_ne_zero 10 nonzero)

theorem isNumber_digits (n : Nat) : IsNumber (digits 10 n) :=
  ⟨[], _, [], [], by simp, .inl rfl, integerPart_digits n, .inl rfl, .inl rfl⟩

theorem isNumber_decimal (z : Int) : IsNumber (decimal z) := by
  rw [decimal]
  split
  · refine ⟨['-'], _, [], [], ?_, .inr rfl, integerPart_digits z.natAbs, .inl rfl, .inl rfl⟩
    rw [List.append_nil, List.append_nil, List.singleton_append]
  · exact isNumber_digits _

theorem isNumber_fixedPoint {sign : List Char} (signs : sign = [] ∨ sign = ['-']) (q : ℚ) :
    IsNumber (sign ++ fixedPoint q) := by
  let micros := (roundHalfEven (q * 10 ^ 6)).toNat
  have places : Digits ((digits 10 (micros % 10 ^ 6)).leftpad 6 '0') := by
    constructor
    · intro empty
      exact (digits_digits _).1 (List.append_eq_nil_iff.1 empty).2
    · intro c inside
      rcases mem_leftpad inside with rfl | digit
      · rfl
      · exact (digits_digits _).2 c digit
  refine ⟨sign, digits 10 (micros / 10 ^ 6), _, [], ?_, signs, integerPart_digits _,
    .inr ⟨_, rfl, places⟩, .inl rfl⟩
  rw [List.append_nil]
  rfl

theorem isNumber_longFloat (q : ℚ) : IsNumber (longFloat (.finite q)) := by
  rw [longFloat]
  split
  · exact isNumber_fixedPoint (.inr rfl) (-q)
  · exact isNumber_fixedPoint (.inl rfl) q

theorem not_isNumber_infinity (negative : Bool) : ¬IsNumber (longFloat (.infinity negative)) := by
  intro number
  cases negative with
  | false =>
    rcases number.head with digit | ⟨minus, -⟩
    · cases digit
    · cases minus
  | true =>
    rcases number.head with digit | ⟨-, d, more, rest, digit⟩
    · cases digit
    · rw [← (List.cons.inj rest).1] at digit
      cases digit

end Json
