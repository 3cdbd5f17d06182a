import Mathlib
import NcclTests.Lib.Ieee
import NcclTests.Lib.Numeral

/-!
# Floating-point numbers in text

What `strtod` and the `%lf` of `scanf` accept in the C locale: white space, a sign, and a
decimal or hexadecimal number, an infinity or a NaN. Numbers are read exactly and rounded once.

The two differ where the characters after a number begin a longer form and do not complete it,
as in `1e`, `0x` or `nan(`. `strtod` gives those characters back. `scanf` can give back one only:
that of glibc takes `1e` and `1e+` for a one, without what follows it, and fails after `0x`; it
does not look for parentheses after `nan`.
-/

namespace FloatText

open BinaryFloat Numeral Scanf

/-- A number without its sign. -/
inductive Literal
  | rational (q : ℚ)
  | infinity
  | nan
  deriving DecidableEq

/-- A number, the text after it, and whether that text begins a longer form. -/
structure Reading where
  literal : Literal
  rest : List Char
  dangling : Bool
  deriving DecidableEq

/-! ## Reading -/

/-- Digits with a point among them or not, but at least one. -/
def significand (base : Nat) (text : List Char) : Option (ℚ × List Char) :=
  let whole := text.takeWhile (IsDigit base)
  match text.dropWhile (IsDigit base) with
  | '.' :: tail =>
    let fraction := tail.takeWhile (IsDigit base)
    if whole = [] ∧ fraction = [] then none
    else some (value base (whole ++ fraction) / base ^ fraction.length,
      tail.dropWhile (IsDigit base))
  | rest => if whole = [] then none else some (value base whole, rest)

inductive Exponent
  | absent
  | dangling
  | present (e : Int) (rest : List Char)
  deriving DecidableEq

/-- A mark, a sign and decimal digits. -/
def exponent (mark : Char) : List Char → Exponent
  | [] => .absent
  | c :: rest =>
    if c.toLower = mark then
      let digits := (sign rest).2.takeWhile (IsDigit 10)
      if digits = [] then .dangling
      else .present (if (sign rest).1 then -value 10 digits else value 10 digits)
        ((sign rest).2.dropWhile (IsDigit 10))
    else .absent

/-- A significand in one base, scaled by a power of `radix`. -/
def number (base : Nat) (mark : Char) (radix : ℚ) (text : List Char) : Option Reading :=
  (significand base text).map fun s =>
    match exponent mark s.2 with
    | .absent => ⟨.rational s.1, s.2, false⟩
    | .dangling => ⟨.rational s.1, s.2, true⟩
    | .present e rest => ⟨.rational (s.1 * radix ^ e), rest, false⟩

/-- After `0x`; where no digit follows, the zero is all that is read. -/
def hexadecimal : List Char → Option Reading
  | '0' :: x :: rest =>
    if x.toLower = 'x' then
      some ((number 16 'p' 2 rest).getD ⟨.rational 0, x :: rest, true⟩)
    else none
  | _ => none

/-- What follows a word, whatever the case of its letters. -/
def afterWord (word text : List Char) : Option (List Char) :=
  if (text.take word.length).map Char.toLower = word then some (text.drop word.length) else none

def infinity (text : List Char) : Option Reading :=
  (afterWord "inf".toList text).map fun rest =>
    match afterWord "inity".toList rest with
    | some more => ⟨.infinity, more, false⟩
    | none => ⟨.infinity, rest, rest.head?.map Char.toLower = some 'i'⟩

/-- With a sequence of letters, digits and underscores in parentheses or without. -/
def nan (text : List Char) : Option Reading :=
  (afterWord "nan".toList text).map fun rest =>
    match rest with
    | '(' :: more =>
      match more.dropWhile fun c => c.isAlphanum || c == '_' with
      | ')' :: after => ⟨.nan, after, false⟩
      | _ => ⟨.nan, rest, true⟩
    | _ => ⟨.nan, rest, false⟩

def unsigned (text : List Char) : Option Reading :=
  infinity text <|> nan text <|> hexadecimal text <|> number 10 'e' 10 text

/-- Whether the number has a minus sign, and the number. -/
def read (text : List Char) : Option (Bool × Reading) :=
  (unsigned (sign (text.dropWhile isSpace)).2).map ((sign (text.dropWhile isSpace)).1, ·)

/-! ## Conversions -/

/-- The double that is read. -/
def Literal.toValue (negative : Bool) : Literal → Value
  | rational q => Value.ofRat binary64 (if negative then -q else q)
  | infinity => .infinity negative
  | nan => .nan

/-- What `strtod` returns, the text at `endptr`, and whether it sets `errno` to `ERANGE`. -/
structure Conversion where
  value : Value
  endptr : List Char
  erange : Bool

/-- Whether `errno` is set for a result that is too small is left to the implementation. -/
def strtod (underflow : ℚ → Bool) (text : List Char) : Conversion :=
  match read text with
  | none => ⟨.finite 0, text, false⟩
  | some (negative, r) =>
    ⟨r.literal.toValue negative, r.rest,
      match r.literal with
      | .rational q =>
        match Value.ofRat binary64 q with
        | .infinity _ => true
        | _ => decide (q ≠ 0 ∧ q < 2 ^ (1 - binary64.bias)) && underflow q
      | _ => false⟩

/-- What `scanf` leaves after characters that begin a longer form and do not complete it: the mark
of an exponent is gone, and its sign. Of `0x` nothing is left, unless a point follows. -/
def tooFar : List Char → Option (List Char)
  | [] => none
  | c :: rest =>
    if c.toLower = 'x' then
      match rest with
      | '.' :: more => some more
      | _ => none
    else some (sign rest).2

/-- A number as `scanf` reads it, without its sign, and the text after it. -/
def scanUnsigned (text : List Char) : Option (Literal × List Char) :=
  match infinity text with
  | some r => if r.dangling then none else some (r.literal, r.rest)
  | none =>
    match afterWord "nan".toList text with
    | some rest => some (.nan, rest)
    | none =>
      match hexadecimal text <|> number 10 'e' 10 text with
      | some r =>
        if r.dangling then (tooFar r.rest).map (r.literal, ·) else some (r.literal, r.rest)
      | none => none

/-- `%lf`: the double that is stored and the rest of the input, unless the input does not
match. -/
def scanDouble (text : List Char) : Option (Value × List Char) :=
  (scanUnsigned (sign (text.dropWhile isSpace)).2).map fun found =>
    (found.1.toValue (sign (text.dropWhile isSpace)).1, found.2)

/-! ## Infinities and NaN -/

theorem afterWord_eq_some_iff {word text rest : List Char} :
    afterWord word text = some rest ↔
      (text.take word.length).map Char.toLower = word ∧ text.drop word.length = rest := by
  unfold afterWord
  split
  · next starts =>
    rw [Option.some.injEq]
    exact ⟨fun same => ⟨starts, same⟩, And.right⟩
  · next differs => exact iff_of_false (fun none => by cases none) fun both => differs both.1

theorem afterWord_disjoint {word word' text : List Char} (same : word.length = word'.length)
    (apart : word ≠ word') (after : (afterWord word text).isSome) :
    afterWord word' text = none := by
  unfold afterWord at after ⊢
  split at after
  · next starts =>
    rw [if_neg]
    intro starts'
    rw [← same] at starts'
    exact apart (starts.symm.trans starts')
  · cases after

theorem number_rational {base : Nat} {mark : Char} {radix : ℚ} {text : List Char} {r : Reading}
    (reads : number base mark radix text = some r) : ∃ q, r.literal = .rational q := by
  obtain ⟨s, -, rfl⟩ := Option.map_eq_some_iff.1 reads
  split
  · exact ⟨_, rfl⟩
  · exact ⟨_, rfl⟩
  · exact ⟨_, rfl⟩

theorem hexadecimal_rational {text : List Char} {r : Reading}
    (reads : hexadecimal text = some r) : ∃ q, r.literal = .rational q := by
  unfold hexadecimal at reads
  split at reads
  · split at reads
    · cases reads
      cases digits : number 16 'p' 2 _ with
      | none => exact ⟨0, rfl⟩
      | some s => exact number_rational digits
    · cases reads
  · cases reads

theorem infinity_literal {text : List Char} {r : Reading} (reads : infinity text = some r) :
    r.literal = .infinity ∧ (afterWord "inf".toList text).isSome := by
  obtain ⟨rest, after, rfl⟩ := Option.map_eq_some_iff.1 reads
  refine ⟨?_, ?_⟩
  · split <;> rfl
  · rw [after]
    rfl

theorem nan_literal {text : List Char} {r : Reading} (reads : nan text = some r) :
    r.literal = .nan ∧ (afterWord "nan".toList text).isSome := by
  obtain ⟨rest, after, rfl⟩ := Option.map_eq_some_iff.1 reads
  refine ⟨?_, ?_⟩
  · split
    · split <;> rfl
    · rfl
  · rw [after]
    rfl

/-- A NaN is what starts with the word. -/
theorem unsigned_nan_iff {text : List Char} {r : Reading} (reads : unsigned text = some r) :
    r.literal = .nan ↔ (afterWord "nan".toList text).isSome := by
  unfold unsigned at reads
  cases inf : infinity text with
  | some s =>
    rw [inf] at reads
    cases reads
    rw [(infinity_literal inf).1,
      afterWord_disjoint (by decide) (by decide) (infinity_literal inf).2]
    simp
  | none =>
    cases nan_ : nan text with
    | some s =>
      rw [inf, nan_] at reads
      cases reads
      exact iff_of_true (nan_literal nan_).1 (nan_literal nan_).2
    | none =>
      have other : afterWord "nan".toList text = none := Option.map_eq_none_iff.1 nan_
      rw [inf, nan_] at reads
      rw [other]
      have rational : ∃ q, r.literal = .rational q := by
        cases hex : hexadecimal text with
        | some s =>
          rw [hex] at reads
          cases reads
          exact hexadecimal_rational hex
        | none =>
          rw [hex] at reads
          exact number_rational reads
      obtain ⟨q, literal⟩ := rational
      rw [literal]
      simp

theorem unsigned_of_nan {text : List Char} (word : (afterWord "nan".toList text).isSome) :
    ∃ r, unsigned text = some r := by
  obtain ⟨rest, after⟩ := Option.isSome_iff_exists.1 word
  unfold unsigned
  cases infinity text with
  | some r => exact ⟨r, rfl⟩
  | none =>
    rw [nan, after]
    exact ⟨_, rfl⟩

/-- Neither a word nor a NaN stands where a number is read. -/
theorem unsigned_rational {text : List Char} {r : Reading} {q : ℚ}
    (reads : unsigned text = some r) (literal : r.literal = .rational q) :
    infinity text = none ∧ afterWord "nan".toList text = none ∧
      (hexadecimal text <|> number 10 'e' 10 text) = some r := by
  unfold unsigned at reads
  cases inf : infinity text with
  | some s =>
    rw [inf] at reads
    cases reads
    rw [(infinity_literal inf).1] at literal
    cases literal
  | none =>
    cases nan_ : nan text with
    | some s =>
      rw [inf, nan_] at reads
      cases reads
      rw [(nan_literal nan_).1] at literal
      cases literal
    | none =>
      rw [inf, nan_] at reads
      exact ⟨rfl, Option.map_eq_none_iff.1 nan_, reads⟩

/-- What is scanned and is no word and no hexadecimal number is a decimal one. -/
theorem number_of_scanUnsigned {text : List Char} {found : Literal × List Char}
    (scans : scanUnsigned text = some found) (no_inf : infinity text = none)
    (no_nan : nan text = none) (no_hex : hexadecimal text = none) :
    ∃ r, number 10 'e' 10 text = some r ∧ unsigned text = some r := by
  have reads : unsigned text = number 10 'e' 10 text := by
    rw [unsigned, no_inf, no_nan, no_hex]
    rfl
  have no_word : afterWord "nan".toList text = none := Option.map_eq_none_iff.1 no_nan
  rw [scanUnsigned, no_inf] at scans
  dsimp only at scans
  rw [no_word] at scans
  dsimp only at scans
  rw [no_hex] at scans
  rw [reads]
  cases decimal : number 10 'e' 10 text with
  | some r => exact ⟨r, rfl, rfl⟩
  | none =>
    rw [decimal] at scans
    cases scans

/-- `scanf` reads a number that is complete as `strtod` does. -/
theorem scanDouble_of_read {text : List Char} {negative : Bool} {r : Reading} {q : ℚ}
    (reads : read text = some (negative, r)) (literal : r.literal = .rational q)
    (complete : r.dangling = false) :
    scanDouble text = some (r.literal.toValue negative, r.rest) := by
  obtain ⟨r', unsigned_reads, both⟩ := Option.map_eq_some_iff.1 reads
  obtain ⟨rfl, rfl⟩ := Prod.mk.inj both
  obtain ⟨no_inf, no_nan, number⟩ := unsigned_rational unsigned_reads literal
  rw [scanDouble, scanUnsigned, no_inf]
  dsimp only
  rw [no_nan]
  dsimp only
  rw [number]
  dsimp only
  rw [complete]
  rfl

/-! ## Decimal texts -/

/-- Decimal digits, with a point among them or not. -/
inductive DecimalDigits : List Char → ℚ → Prop
  | whole (digits : List Char) (nonempty : digits ≠ [])
      (all : ∀ c ∈ digits, IsDigit 10 c = true) : DecimalDigits digits (value 10 digits)
  | point (whole fraction : List Char) (nonempty : ¬(whole = [] ∧ fraction = []))
      (all_whole : ∀ c ∈ whole, IsDigit 10 c = true)
      (all_fraction : ∀ c ∈ fraction, IsDigit 10 c = true) :
      DecimalDigits (whole ++ '.' :: fraction)
        (value 10 (whole ++ fraction) / 10 ^ fraction.length)

/-- An exponent, or none. -/
inductive DecimalExponent : List Char → Int → Prop
  | none : DecimalExponent [] 0
  | some (c : Char) (signText digits : List Char) (negative : Bool) (mark : c.toLower = 'e')
      (sign : SignText signText negative) (nonempty : digits ≠ [])
      (all : ∀ c ∈ digits, IsDigit 10 c = true) :
      DecimalExponent (c :: (signText ++ digits))
        (if negative then -value 10 digits else value 10 digits)

/-- A decimal number without a sign. -/
inductive Decimal : List Char → ℚ → Prop
  | mk {digits power : List Char} {q : ℚ} {e : Int} : DecimalDigits digits q →
      DecimalExponent power e → Decimal (digits ++ power) (q * 10 ^ e)

/-- A text that does not go on with a decimal number. -/
def Ends (rest : List Char) : Prop :=
  ∀ c ∈ rest.head?, IsDigit 10 c = false ∧ c ≠ '.' ∧ c.toLower ≠ 'e'

section Decimal

theorem Decimal.nonneg {numeral : List Char} {q : ℚ} (decimal : Decimal numeral q) : 0 ≤ q := by
  cases decimal with
  | mk digits power =>
    refine mul_nonneg ?_ (by positivity)
    cases digits with
    | whole => positivity
    | point => positivity

/-- The significand that is read is spelled in the text. -/
theorem digits_of_significand {text rest : List Char} {q : ℚ}
    (reads : significand 10 text = some (q, rest)) :
    ∃ digits, text = digits ++ rest ∧ DecimalDigits digits q := by
  have inside : ∀ c ∈ text.takeWhile (IsDigit 10), IsDigit 10 c = true :=
    fun c mem => List.mem_takeWhile_imp mem
  have parts := List.takeWhile_append_dropWhile (p := IsDigit 10) (l := text)
  unfold significand at reads
  dsimp only at reads
  split at reads
  · next tail behind =>
    split at reads
    · cases reads
    · next nonempty =>
      cases reads
      have more := List.takeWhile_append_dropWhile (p := IsDigit 10) (l := tail)
      rw [behind] at parts
      refine ⟨_, ?_, .point _ _ nonempty inside fun c mem => List.mem_takeWhile_imp mem⟩
      rw [List.append_assoc, List.cons_append, more, parts]
  · split at reads
    · cases reads
    · next nonempty =>
      cases reads
      exact ⟨_, parts.symm, .whole _ nonempty inside⟩

theorem power_of_exponent {text rest : List Char} {e : Int}
    (reads : exponent 'e' text = .present e rest) :
    ∃ power, text = power ++ rest ∧ DecimalExponent power e := by
  cases text with
  | nil => cases reads
  | cons c tail =>
    simp only [exponent] at reads
    by_cases mark : c.toLower = 'e'
    swap
    · rw [if_neg mark] at reads
      cases reads
    rw [if_pos mark] at reads
    by_cases nonempty : (sign tail).2.takeWhile (IsDigit 10) = []
    · rw [if_pos nonempty] at reads
      cases reads
    rw [if_neg nonempty] at reads
    cases reads
    obtain ⟨signText, spelled, split_sign⟩ := exists_signText tail
    refine ⟨c :: (signText ++ (sign tail).2.takeWhile (IsDigit 10)), ?_,
      .some c signText _ _ mark spelled nonempty fun d mem => List.mem_takeWhile_imp mem⟩
    rw [List.cons_append, List.append_assoc, List.takeWhile_append_dropWhile, ← split_sign]

/-- A number that is read is spelled in the text. -/
theorem decimal_of_number {text : List Char} {r : Reading}
    (reads : number 10 'e' 10 text = some r) (complete : r.dangling = false) :
    ∃ numeral q, text = numeral ++ r.rest ∧ Decimal numeral q ∧ r.literal = .rational q := by
  obtain ⟨⟨q, tail⟩, significand_reads, rfl⟩ := Option.map_eq_some_iff.1 reads
  obtain ⟨digits, rfl, spelled⟩ := digits_of_significand significand_reads
  cases power : exponent 'e' tail with
  | absent =>
    have plain := Decimal.mk spelled .none
    rw [zpow_zero, mul_one, List.append_nil] at plain
    exact ⟨digits, q, rfl, plain, rfl⟩
  | dangling =>
    dsimp only at complete
    rw [power] at complete
    cases complete
  | present e rest =>
    obtain ⟨text, rfl, exponent⟩ := power_of_exponent power
    exact ⟨digits ++ text, _, (List.append_assoc ..).symm, .mk spelled exponent, rfl⟩

/-- Digits are read as they are spelled. -/
theorem significand_append {digits rest : List Char} {q : ℚ} (spelled : DecimalDigits digits q)
    (stops : Stops (IsDigit 10) rest) (no_point : rest.head? ≠ some '.') :
    significand 10 (digits ++ rest) = some (q, rest) := by
  cases spelled with
  | whole _ nonempty all =>
    unfold significand
    rw [takeWhile_append all stops, dropWhile_append all stops]
    dsimp only
    split
    · next tail => exact absurd rfl no_point
    · rw [if_neg nonempty]
  | point whole fraction nonempty all_whole all_fraction =>
    have point : Stops (IsDigit 10) ('.' :: (fraction ++ rest)) := by
      intro c head
      cases head
      rfl
    unfold significand
    rw [List.append_assoc, List.cons_append, takeWhile_append all_whole point,
      dropWhile_append all_whole point]
    simp only [takeWhile_append all_fraction stops, dropWhile_append all_fraction stops,
      if_neg nonempty]
    rfl

theorem exponent_append {power rest : List Char} {e : Int} (spelled : DecimalExponent power e)
    (ends : Ends rest) : exponent 'e' (power ++ rest) =
      if power = [] then .absent else .present e rest := by
  have stops : Stops (IsDigit 10) rest := fun c head => (ends c head).1
  cases spelled with
  | none =>
    rw [if_pos rfl, List.nil_append]
    cases rest with
    | nil => rfl
    | cons c rest => exact if_neg (ends c rfl).2.2
  | some c signText digits negative mark spelled nonempty all =>
    have opens : ∃ d more, digits ++ rest = d :: more ∧ Opens d := by
      obtain ⟨d, more, rfl⟩ := List.exists_cons_of_ne_nil nonempty
      have less : digit d < 10 := of_decide_eq_true (all d List.mem_cons_self)
      exact ⟨d, more ++ rest, rfl, opens_of_digit (by omega)⟩
    rw [if_neg (List.cons_ne_nil _ _), List.cons_append, List.append_assoc, exponent, if_pos mark,
      sign_signText spelled opens]
    dsimp only
    rw [takeWhile_append all stops, dropWhile_append all stops, if_neg nonempty]

/-! A decimal number has no letters but the one before its exponent. -/

theorem toNat_of_isAlpha {c : Char} (alpha : c.isAlpha = true) :
    65 ≤ c.toNat ∧ (c.isLower = true → 97 ≤ c.toNat) := by
  have upper : c.isUpper = true → 65 ≤ c.toNat := by
    simp +contextual [Char.isUpper, UInt32.le_iff_toNat_le]
  have lower : c.isLower = true → 97 ≤ c.toNat := by
    simp +contextual [Char.isLower, UInt32.le_iff_toNat_le]
  rw [Char.isAlpha, Bool.or_eq_true] at alpha
  refine ⟨?_, lower⟩
  rcases alpha with large | small
  · exact upper large
  · exact (by norm_num : 65 ≤ 97).trans (lower small)

theorem not_isAlpha_of_isDigit {c : Char} (isDigit : IsDigit 10 c = true) :
    c.isAlpha = false := by
  have less : digit c < 10 := of_decide_eq_true isDigit
  by_contra alpha
  obtain ⟨large, lower⟩ := toNat_of_isAlpha (Bool.eq_true_of_not_eq_false alpha)
  unfold digit at less
  split_ifs at less with decimal small
  · have : c.toNat ≤ 57 := (Char.isDigit_iff_toNat.1 decimal).2
    omega
  · have := lower small
    omega
  · omega
  · omega

theorem isAlpha_of_toLower {c d : Char} (same : c.toLower = d) (alpha : d.isAlpha = true) :
    c.isAlpha = true := by
  rw [← Char.isAlpha_toLower_eq_isAlpha, same]
  exact alpha

theorem DecimalDigits.chars {digits : List Char} {q : ℚ} (spelled : DecimalDigits digits q) :
    digits ≠ [] ∧ ∀ c ∈ digits, Opens c ∧ c.isAlpha = false := by
  have isDigit {c : Char} (one : IsDigit 10 c = true) : Opens c ∧ c.isAlpha = false := by
    have less : digit c < 10 := of_decide_eq_true one
    exact ⟨opens_of_digit (by omega), not_isAlpha_of_isDigit one⟩
  cases spelled with
  | whole _ nonempty all => exact ⟨nonempty, fun c mem => isDigit (all c mem)⟩
  | point whole fraction _ all_whole all_fraction =>
    refine ⟨List.append_ne_nil_of_right_ne_nil _ (List.cons_ne_nil _ _), ?_⟩
    intro c mem
    rw [List.mem_append, List.mem_cons] at mem
    rcases mem with mem | rfl | mem
    · exact isDigit (all_whole c mem)
    · exact ⟨⟨rfl, by decide, by decide⟩, rfl⟩
    · exact isDigit (all_fraction c mem)

theorem DecimalExponent.chars {power : List Char} {e : Int} (spelled : DecimalExponent power e) :
    ∀ c ∈ power, c.isAlpha = true → c.toLower = 'e' := by
  cases spelled with
  | none => exact fun c mem => absurd mem List.not_mem_nil
  | some c signText digits negative mark sign nonempty all =>
    intro d mem alpha
    rw [List.mem_cons, List.mem_append] at mem
    rcases mem with rfl | mem | mem
    · exact mark
    · cases sign with
      | none => cases mem
      | plus =>
        rw [List.mem_singleton.1 mem] at alpha
        cases alpha
      | minus =>
        rw [List.mem_singleton.1 mem] at alpha
        cases alpha
    · rw [not_isAlpha_of_isDigit (all d mem)] at alpha
      cases alpha

theorem eq_of_toLower {c d : Char} (same : c.toLower = d) (plain : d.isAlpha = false) :
    c = d := by
  rw [← same, Char.isAlpha_toLower_eq_isAlpha] at plain
  have not_upper : ¬c.isUpper = true := by
    intro upper
    rw [Char.isAlpha, upper] at plain
    cases plain
  rw [← same, Char.toLower_eq_of_not_isUpper not_upper]

/-- Neither an exponent nor what follows it goes on with the digits. -/
theorem DecimalExponent.stops {power rest : List Char} {e : Int}
    (spelled : DecimalExponent power e) (ends : Ends rest) :
    ∀ c ∈ (power ++ rest).head?, IsDigit 10 c = false ∧ c ≠ '.' := by
  intro c head
  cases spelled with
  | none => exact ⟨(ends c head).1, (ends c head).2.1⟩
  | some d signText digits negative mark =>
    obtain rfl : d = c := Option.some.inj head
    refine ⟨?_, ?_⟩
    · by_contra isDigit
      have none := not_isAlpha_of_isDigit (Bool.eq_true_of_not_eq_false isDigit)
      rw [isAlpha_of_toLower mark rfl] at none
      cases none
    · rintro rfl
      exact absurd mark (by decide)

theorem number_append {numeral rest : List Char} {q : ℚ} (decimal : Decimal numeral q)
    (ends : Ends rest) :
    number 10 'e' 10 (numeral ++ rest) = some ⟨.rational q, rest, false⟩ := by
  cases decimal with
  | @mk digits power m e spelled exponent_ =>
    have stops := exponent_.stops ends
    have no_point : (power ++ rest).head? ≠ some '.' := fun head => (stops '.' head).2 rfl
    rw [number, List.append_assoc,
      significand_append spelled (fun c head => (stops c head).1) no_point, Option.map_some]
    dsimp only
    rw [exponent_append exponent_ ends]
    by_cases absent : power = []
    · subst absent
      cases exponent_
      rw [if_pos rfl, zpow_zero, mul_one]
      rfl
    · rw [if_neg absent]

theorem Decimal.chars {numeral : List Char} {q : ℚ} (decimal : Decimal numeral q) :
    (∃ c tail, numeral = c :: tail ∧ Opens c ∧ c.isAlpha = false) ∧
      ∀ c ∈ numeral, c.isAlpha = true → c.toLower = 'e' := by
  cases decimal with
  | @mk digits power m e spelled exponent_ =>
    obtain ⟨nonempty, plain⟩ := spelled.chars
    refine ⟨?_, ?_⟩
    · obtain ⟨c, tail, rfl⟩ := List.exists_cons_of_ne_nil nonempty
      exact ⟨c, tail ++ power, rfl, plain c List.mem_cons_self⟩
    · intro c mem alpha
      rcases List.mem_append.1 mem with mem | mem
      · rw [(plain c mem).2] at alpha
        cases alpha
      · exact exponent_.chars c mem alpha

/-- A text that starts with another letter than the word. -/
theorem afterWord_eq_none {w c : Char} {word text : List Char} (apart : c.toLower ≠ w) :
    afterWord (w :: word) (c :: text) = none := by
  rw [afterWord, if_neg]
  intro same
  exact apart (List.cons.inj same).1

/-- **A decimal number is read as it is spelled, and as nothing else.** -/
theorem unsigned_append {numeral rest : List Char} {q : ℚ} (decimal : Decimal numeral q)
    (ends : Ends rest) (no_mark : ∀ c ∈ rest.head?, c.toLower ≠ 'x') :
    infinity (numeral ++ rest) = none ∧ nan (numeral ++ rest) = none ∧
      hexadecimal (numeral ++ rest) = none ∧
      number 10 'e' 10 (numeral ++ rest) = some ⟨.rational q, rest, false⟩ := by
  have reads := number_append decimal ends
  obtain ⟨⟨c, tail, rfl, -, plain⟩, letters⟩ := decimal.chars
  have apart {w : Char} (alpha : w.isAlpha = true) : c.toLower ≠ w := by
    intro same
    rw [isAlpha_of_toLower same alpha] at plain
    cases plain
  refine ⟨?_, ?_, ?_, reads⟩
  · exact congrArg (Option.map _) (afterWord_eq_none (apart rfl))
  · exact congrArg (Option.map _) (afterWord_eq_none (apart rfl))
  · unfold hexadecimal
    split
    · next x more same =>
      rw [if_neg]
      intro mark
      rw [List.cons_append] at same
      cases tail with
      | nil => exact no_mark x (congrArg List.head? (List.cons.inj same).2) mark
      | cons d tail =>
        obtain rfl : d = x := (List.cons.inj (List.cons.inj same).2).1
        have only := letters d (by simp) (isAlpha_of_toLower mark rfl)
        rw [mark] at only
        cases only
    · rfl

end Decimal

end FloatText
