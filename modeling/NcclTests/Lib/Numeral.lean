import Mathlib
import NcclTests.Lib.Scanf

/-!
# Integers in text

`strtol`, `strtoll` and `strtoul` with 64-bit results. A conversion skips white space, takes a
sign and as many digits of its base as follow, and leaves the rest; `read_iff` says which texts
are read so. Numbers that do not fit are replaced by the nearest bound, and reported.
-/

namespace Numeral

open Scanf

/-! ## Digits -/

/-- Letters go on after nine; 36 where a character is no digit of any base. -/
def digit (c : Char) : Nat :=
  if c.isDigit then c.toNat - 48
  else if c.isLower then c.toNat - 87
  else if c.isUpper then c.toNat - 55
  else 36

def IsDigit (base : Nat) (c : Char) : Bool := digit c < base

def value (base : Nat) (digits : List Char) : Nat :=
  digits.foldl (fun v c => v * base + digit c) 0

/-! ## Reading -/

/-- A sign, if any: whether it is a minus, and the text after it. -/
def sign : List Char → Bool × List Char
  | '-' :: rest => (true, rest)
  | '+' :: rest => (false, rest)
  | text => (false, text)

/-- `0x` and a digit. -/
def hexMark : List Char → Bool
  | '0' :: x :: c :: _ => (x == 'x' || x == 'X') && IsDigit 16 c
  | _ => false

/-- The base of the digits after a sign, and the text from the first of them on. -/
def resolve (base : Nat) (text : List Char) : Nat × List Char :=
  if (base = 0 ∨ base = 16) ∧ hexMark text then (16, text.drop 2)
  else if base = 0 then (if text.head? = some '0' then 8 else 10, text)
  else (base, text)

/-- A number of any size, and the text after it. -/
structure Reading where
  negative : Bool
  magnitude : Nat
  rest : List Char
  deriving DecidableEq, Repr

def Reading.toInt (r : Reading) : Int := if r.negative then -r.magnitude else r.magnitude

/-- The longest number at the start of a text. -/
def read (base : Nat) (text : List Char) : Option Reading :=
  let signed := sign (text.dropWhile isSpace)
  let digits := resolve base signed.2
  if digits.2.takeWhile (IsDigit digits.1) = [] then none
  else some ⟨signed.1, value digits.1 (digits.2.takeWhile (IsDigit digits.1)),
    digits.2.dropWhile (IsDigit digits.1)⟩

/-! ## Conversions -/

/-- What a conversion returns, the text at `endptr`, and whether it sets `errno` to `ERANGE`. -/
structure Conversion where
  result : Int
  endptr : List Char
  erange : Bool
  deriving DecidableEq, Repr

/-- `strtol` and `strtoll`. -/
def strtol (base : Nat) (text : List Char) : Conversion :=
  match read base text with
  | none => ⟨0, text, false⟩
  | some r =>
    if r.toInt < -2 ^ 63 then ⟨-2 ^ 63, r.rest, true⟩
    else if 2 ^ 63 - 1 < r.toInt then ⟨2 ^ 63 - 1, r.rest, true⟩
    else ⟨r.toInt, r.rest, false⟩

/-- A minus sign negates in `unsigned long`. -/
def strtoul (base : Nat) (text : List Char) : Conversion :=
  match read base text with
  | none => ⟨0, text, false⟩
  | some r =>
    if 2 ^ 64 - 1 < r.magnitude then ⟨2 ^ 64 - 1, r.rest, true⟩
    else ⟨r.toInt % 2 ^ 64, r.rest, false⟩

/-! ## How far a conversion goes -/

theorem sign_length_le (text : List Char) : (sign text).2.length ≤ text.length := by
  unfold sign
  split
  · exact Nat.le_succ _
  · exact Nat.le_succ _
  · exact le_rfl

theorem resolve_length_le (base : Nat) (text : List Char) :
    (resolve base text).2.length ≤ text.length := by
  unfold resolve
  split_ifs
  · exact (List.length_drop ..).trans_le (Nat.sub_le _ _)
  · exact le_rfl
  · exact le_rfl
  · exact le_rfl

/-- A number that is read is not empty. -/
theorem rest_length_lt {base : Nat} {text : List Char} {r : Reading}
    (reads : read base text = some r) : r.rest.length < text.length := by
  unfold read at reads
  dsimp only at reads
  split at reads
  · cases reads
  · next nonempty =>
    cases reads
    have blanks := List.length_dropWhile_le isSpace text
    have signed := sign_length_le (text.dropWhile isSpace)
    have resolved := resolve_length_le base (sign (text.dropWhile isSpace)).2
    have parts := congrArg List.length (List.takeWhile_append_dropWhile
      (p := IsDigit (resolve base (sign (text.dropWhile isSpace)).2).1)
      (l := (resolve base (sign (text.dropWhile isSpace)).2).2))
    have digits := List.length_pos_of_ne_nil nonempty
    rw [List.length_append] at parts
    dsimp only
    omega

theorem strtoul_endptr (base : Nat) (text : List Char) :
    (strtoul base text).endptr = ((read base text).map Reading.rest).getD text := by
  unfold strtoul
  cases read base text with
  | none => rfl
  | some r =>
    dsimp only
    split <;> rfl

theorem strtoul_endptr_length_le (base : Nat) (text : List Char) :
    (strtoul base text).endptr.length ≤ text.length := by
  rw [strtoul_endptr]
  cases reads : read base text with
  | none => exact le_rfl
  | some r => exact (rest_length_lt reads).le

/-- `endptr` tells whether a number was read. -/
theorem strtoul_endptr_ne_iff {base : Nat} {text : List Char} :
    (strtoul base text).endptr ≠ text ↔ (read base text).isSome = true := by
  rw [strtoul_endptr]
  cases reads : read base text with
  | none => simp
  | some r =>
    refine iff_of_true ?_ rfl
    intro same
    have shorter := rest_length_lt reads
    rw [show r.rest = text from same] at shorter
    exact lt_irrefl _ shorter

/-- Where the base is left to the text, a number is what starts with a decimal digit. -/
theorem read_zero_isSome_iff {text : List Char} : (read 0 text).isSome = true ↔
    ∃ c rest, (sign (text.dropWhile isSpace)).2 = c :: rest ∧ IsDigit 10 c = true := by
  have takes {base : Nat} {body : List Char} : body.takeWhile (IsDigit base) ≠ [] ↔
      ∃ c rest, body = c :: rest ∧ IsDigit base c = true := by
    cases body with
    | nil => simp
    | cons c rest =>
      by_cases first : IsDigit base c = true
      · simp [List.takeWhile_cons_of_pos first, first]
      · simp [List.takeWhile_cons_of_neg first, first]
  have some_iff : (read 0 text).isSome = true ↔
      (resolve 0 (sign (text.dropWhile isSpace)).2).2.takeWhile
        (IsDigit (resolve 0 (sign (text.dropWhile isSpace)).2).1) ≠ [] := by
    unfold read
    dsimp only
    split
    · next empty => exact iff_of_false (by simp) (not_not.2 empty)
    · next nonempty => exact iff_of_true rfl nonempty
  rw [some_iff, takes]
  generalize (sign (text.dropWhile isSpace)).2 = body
  unfold resolve
  by_cases hex : hexMark body = true
  · rw [if_pos ⟨.inl rfl, hex⟩]
    unfold hexMark at hex
    split at hex
    · next x c rest =>
      rw [Bool.and_eq_true] at hex
      exact iff_of_true ⟨c, rest, rfl, hex.2⟩ ⟨'0', _, rfl, rfl⟩
    · cases hex
  · rw [if_neg (by simp [hex]), if_pos rfl]
    by_cases zero : body.head? = some '0'
    · obtain ⟨rest, rfl⟩ := List.head?_eq_some_iff.1 zero
      rw [if_pos zero]
      exact iff_of_true ⟨'0', rest, rfl, rfl⟩ ⟨'0', rest, rfl, rfl⟩
    · rw [if_neg zero]

/-! ## The texts that are read -/

/-- The ways to write a sign. -/
inductive SignText : List Char → Bool → Prop
  | none : SignText [] false
  | plus : SignText ['+'] false
  | minus : SignText ['-'] true

theorem exists_signText (text : List Char) :
    ∃ signText, SignText signText (sign text).1 ∧ text = signText ++ (sign text).2 := by
  unfold sign
  split
  · exact ⟨['-'], .minus, rfl⟩
  · exact ⟨['+'], .plus, rfl⟩
  · exact ⟨[], .none, rfl⟩

/-- A character that can start a number. -/
def Opens (c : Char) : Prop := isSpace c = false ∧ c ≠ '-' ∧ c ≠ '+'

theorem opens_of_digit {c : Char} (less : digit c < 36) : Opens c := by
  have visible : isSpace c = false := by
    by_contra space
    have blank := of_decide_eq_true (Bool.not_eq_false _ ▸ space)
    simp only [List.mem_cons, List.not_mem_nil, or_false] at blank
    rcases blank with rfl | rfl | rfl | rfl | rfl | rfl <;> exact absurd less (by decide)
  refine ⟨visible, ?_, ?_⟩
  · intro minus
    rw [minus] at less
    exact absurd less (by decide)
  · intro plus
    rw [plus] at less
    exact absurd less (by decide)

theorem sign_signText {signText text : List Char} {negative : Bool}
    (spelled : SignText signText negative) (opens : ∃ c rest, text = c :: rest ∧ Opens c) :
    sign (signText ++ text) = (negative, text) := by
  cases spelled with
  | plus => rfl
  | minus => rfl
  | none =>
    rcases opens with ⟨c, rest, rfl, -, minus, plus⟩
    rw [List.nil_append]
    unfold sign
    split
    · next head => exact absurd (List.cons.inj head).1 minus
    · next head => exact absurd (List.cons.inj head).1 plus
    · rfl

theorem starts_signText {signText text : List Char} {negative : Bool}
    (spelled : SignText signText negative) (opens : ∃ c rest, text = c :: rest ∧ Opens c) :
    Stops isSpace (signText ++ text) := by
  intro c head
  cases spelled with
  | plus =>
    cases head
    rfl
  | minus =>
    cases head
    rfl
  | none =>
    rcases opens with ⟨d, rest, rfl, visible, -⟩
    cases head
    exact visible

/-- White space, a sign and digits of the base, as many as there are. -/
structure Spells (base : Nat) (text : List Char) (blanks signText digits : List Char)
    (r : Reading) : Prop where
  text_eq : text = blanks ++ (signText ++ (digits ++ r.rest))
  blank : ∀ c ∈ blanks, isSpace c = true
  sign : SignText signText r.negative
  nonempty : digits ≠ []
  all_digits : ∀ c ∈ digits, IsDigit base c = true
  magnitude : r.magnitude = value base digits
  stops : Stops (IsDigit base) r.rest

theorem dropWhile_stops {within : Char → Bool} (text : List Char) :
    Stops within (text.dropWhile within) := by
  intro c head
  have falls := List.head?_dropWhile_not within text
  rw [head] at falls
  exact falls

section

variable {base : Nat} {text : List Char} {r : Reading}

/-- The digits of an explicit base come right after the sign. -/
theorem resolve_of_ne (octal : base ≠ 0) (hex : base ≠ 16) (text : List Char) :
    resolve base text = (base, text) := by
  rw [resolve, if_neg (by tauto), if_neg octal]

theorem Spells.opens {blanks signText digits : List Char} (small : base ≤ 36)
    (spells : Spells base text blanks signText digits r) :
    ∃ c rest, digits ++ r.rest = c :: rest ∧ Opens c := by
  obtain ⟨c, more, rfl⟩ := List.exists_cons_of_ne_nil spells.nonempty
  have first := spells.all_digits c List.mem_cons_self
  have less : digit c < base := of_decide_eq_true first
  exact ⟨c, more ++ r.rest, rfl, opens_of_digit (by omega)⟩

/-- A text is read in an explicit base as it is spelled. -/
theorem read_iff (octal : base ≠ 0) (hex : base ≠ 16) (small : base ≤ 36) :
    read base text = some r ↔
      ∃ blanks signText digits, Spells base text blanks signText digits r := by
  constructor
  · intro reads
    obtain ⟨signText, spelled, split_sign⟩ := exists_signText (text.dropWhile isSpace)
    unfold read at reads
    simp only [resolve_of_ne octal hex] at reads
    split at reads
    · cases reads
    · next nonempty =>
      cases reads
      refine ⟨text.takeWhile isSpace, signText, _, ?_, ?_, spelled, nonempty, ?_, rfl,
        dropWhile_stops _⟩
      · dsimp only
        rw [List.takeWhile_append_dropWhile, ← split_sign, List.takeWhile_append_dropWhile]
      · exact fun c inside => List.mem_takeWhile_imp inside
      · exact fun c inside => List.mem_takeWhile_imp inside
  · intro spelled
    rcases spelled with ⟨blanks, signText, digits, spells⟩
    have opens := spells.opens small
    have stripped : text.dropWhile isSpace = signText ++ (digits ++ r.rest) := by
      rw [spells.text_eq, dropWhile_append spells.blank (starts_signText spells.sign opens)]
    have run : (digits ++ r.rest).takeWhile (IsDigit base) = digits :=
      takeWhile_append spells.all_digits spells.stops
    unfold read
    simp only [stripped, sign_signText spells.sign opens, resolve_of_ne octal hex, run,
      if_neg spells.nonempty, dropWhile_append spells.all_digits spells.stops]
    rw [← spells.magnitude]

end

end Numeral
