import Mathlib
import NcclTests.Lib.FloatText
import NcclTests.Harness.SizeSweep

/-!
# The text of a size

`-b`, `-e` and `-i` as they are typed. The scan takes more than decimal numbers, leaves what
follows the letter alone and rounds to `double`, and a result that is not negative is converted
to `size_t` whatever it is. `sizes_exact_iff` lists what goes wrong.

`size_lit` is one `char`, and `%1s` writes a terminator behind the letter it stores there. Where
that byte lies is up to the compiler: it may be the lowest one of `size`, on the little-endian
machines the program is for, or one that nobody reads.
-/

namespace NcclTests.Harness

open BinaryFloat FloatText Numeral Scanf

/-- Where the compiler puts `size_lit`: directly below `size`, or somewhere else. -/
inductive Placement
  | belowSize
  | elsewhere
  deriving DecidableEq, Repr

/-- What is left of `size` after the terminator. Infinities and the NaN of a scan have a zero in
their lowest byte. -/
def Placement.overwrite : Placement → Value → Value
  | belowSize, .finite q => .finite (binary64.clearLow 8 q)
  | _, size => size

/-- `sscanf(value, "%lf %1s", &size, &size_lit)`. -/
def scanSize (place : Placement) (value : List Char) : SizeText :=
  match scanDouble value with
  | none => .none
  | some (size, rest) =>
    match rest.dropWhile isSpace with
    | [] => .number size
    | sizeLit :: _ => .unit (place.overwrite size) sizeLit

namespace SizeArg

/-- `main` goes on. -/
def Accepted (place : Placement) (text : List Char) : Prop :=
  (parsesize (scanSize place text)).lt (.finite 0) = false

/-- The options that set a size. -/
inductive SizeOption
  | minbytes | maxbytes | stepbytes
  deriving DecidableEq, Repr

def SizeOption.opt (text : SizeText) : SizeOption → Sizes.Opt
  | minbytes => .minbytes text
  | maxbytes => .maxbytes text
  | stepbytes => .stepbytes text

/-- What the option sets. -/
def SizeOption.field (s : Sizes) : SizeOption → UInt64
  | minbytes => s.minBytes
  | maxbytes => s.maxBytes
  | stepbytes => s.stepBytes

/-! ## What a text denotes -/

def Blank (text : List Char) : Prop := ∀ c ∈ text, isSpace c = true

/-- No letter, or one for a power of 1024. -/
inductive Letter : List Char → Nat → Prop
  | none : Letter [] 1
  | kilo (c : Char) : c = 'K' ∨ c = 'k' → Letter [c] 1024
  | mega (c : Char) : c = 'M' ∨ c = 'm' → Letter [c] (1024 * 1024)
  | giga (c : Char) : c = 'G' ∨ c = 'g' → Letter [c] (1024 * 1024 * 1024)

/-- A decimal number, a letter or none, and nothing else but white space. -/
inductive Spelled : List Char → ℚ → Nat → Prop
  | mk {blanks signText numeral gap letter tail : List Char} {negative : Bool} {q : ℚ} {unit : Nat}
      (blank : Blank blanks) (sign : SignText signText negative) (decimal : Decimal numeral q)
      (blank_gap : Blank gap) (letter_ : Letter letter unit) (blank_tail : Blank tail) :
      Spelled (blanks ++ (signText ++ (numeral ++ (gap ++ (letter ++ tail)))))
        (if negative then -q else q) unit

/-- The text is a number that is not negative, with its unit, and all three options store the
integer part of their product; the conversion is defined. -/
def Exact (place : Placement) (text : List Char) : Prop :=
  ∃ x unit, Spelled text x unit ∧ 0 ≤ x ∧
    (∃ q, parsesize (scanSize place text) = .finite q ∧ q < 2 ^ 64) ∧
    ∀ (option : SizeOption) (s : Sizes), ∃ s',
      s.setOption (option.opt (scanSize place text)) = some s' ∧
        (option.field s').toNat = ⌊x * unit⌋₊

/-! ## What goes wrong -/

/-- The text from the number on, without its sign. -/
def unsignedText (text : List Char) : List Char := (sign (text.dropWhile isSpace)).2

/-- The unit of the first letter. -/
def unitOf (rest : List Char) : Nat :=
  match rest.dropWhile isSpace with
  | [] => 1
  | c :: _ =>
    if c = 'G' ∨ c = 'g' then 1024 * 1024 * 1024
    else if c = 'M' ∨ c = 'm' then 1024 * 1024
    else if c = 'K' ∨ c = 'k' then 1024
    else 1

/-- The double that is multiplied by the unit, `rest` being the text after the number. -/
def stored (place : Placement) (rest : List Char) (size : Value) : Value :=
  if rest.dropWhile isSpace = [] then size else place.overwrite size

/-- The texts that are taken for something else. -/
inductive Misread (place : Placement) (text : List Char) : Prop
  /-- `inf`, `infinity` or `nan`. -/
  | word (starts : (infinity (unsignedText text)).isSome ∨ (nan (unsignedText text)).isSome)
  /-- `0x`. -/
  | hexadecimal (starts : (hexadecimal (unsignedText text)).isSome)
  /-- The mark of an exponent, and no digits. -/
  | incomplete {negative : Bool} {r : FloatText.Reading}
      (reads : read text = some (negative, r)) (dangling : r.dangling = true)
  /-- More behind the letter. -/
  | trailing {size : Value} {rest more : List Char} {c : Char}
      (scans : scanDouble text = some (size, rest)) (behind : rest.dropWhile isSpace = c :: more)
      (visible : ¬Blank more)
  /-- A minus sign, and not zero. -/
  | negative {q : ℚ} {rest : List Char}
      (reads : read text = some (true, ⟨.rational q, rest, false⟩)) (nonzero : q ≠ 0)
  /-- Too large for `size_t`. -/
  | large {negative : Bool} {q : ℚ} {rest : List Char}
      (reads : read text = some (negative, ⟨.rational q, rest, false⟩))
      (range : ∀ d, stored place rest (Value.ofRat binary64 q) = .finite d →
        2 ^ 64 ≤ d * unitOf rest)
  /-- Moved across a whole number of bytes, by rounding or by the terminator. -/
  | moved {negative : Bool} {q d : ℚ} {rest : List Char} {bytes : Nat}
      (reads : read text = some (negative, ⟨.rational q, rest, false⟩))
      (stores : stored place rest (Value.ofRat binary64 q) = .finite d)
      (between : ¬(bytes ≤ q * unitOf rest ↔ bytes ≤ d * unitOf rest))

/-! ## Reading what is spelled -/

theorem isSpace_cases {c : Char} (space : isSpace c = true) :
    IsDigit 10 c = false ∧ c ≠ '.' ∧ c.toLower ≠ 'e' ∧ c.toLower ≠ 'x' := by
  have blank := of_decide_eq_true space
  simp only [List.mem_cons, List.not_mem_nil, or_false] at blank
  rcases blank with rfl | rfl | rfl | rfl | rfl | rfl <;> decide

theorem Letter.cases {letter : List Char} {unit : Nat} (letter_ : Letter letter unit) :
    letter = [] ∧ unit = 1 ∨ ∃ c, letter = [c] ∧ isSpace c = false ∧ unit = unitOf [c] ∧
      IsDigit 10 c = false ∧ c ≠ '.' ∧ c.toLower ≠ 'e' ∧ c.toLower ≠ 'x' := by
  cases letter_ with
  | none => exact .inl ⟨rfl, rfl⟩
  | kilo c either => rcases either with rfl | rfl <;> exact .inr ⟨_, rfl, by decide⟩
  | mega c either => rcases either with rfl | rfl <;> exact .inr ⟨_, rfl, by decide⟩
  | giga c either => rcases either with rfl | rfl <;> exact .inr ⟨_, rfl, by decide⟩

theorem dropWhile_blank {text : List Char} (blank : Blank text) : text.dropWhile isSpace = [] :=
  List.dropWhile_eq_nil_iff.2 blank

/-- What follows a number that is spelled does not go on with it, and gives the unit. -/
theorem Letter.behind {gap letter tail : List Char} {unit : Nat} (blank_gap : Blank gap)
    (letter_ : Letter letter unit) (blank_tail : Blank tail) :
    (∀ c ∈ (gap ++ (letter ++ tail)).head?,
      IsDigit 10 c = false ∧ c ≠ '.' ∧ c.toLower ≠ 'e' ∧ c.toLower ≠ 'x') ∧
    unitOf (gap ++ (letter ++ tail)) = unit ∧
    ∀ c more, (gap ++ (letter ++ tail)).dropWhile isSpace = c :: more → Blank more := by
  rcases letter_.cases with ⟨rfl, rfl⟩ | ⟨c, rfl, visible, rfl, plain⟩
  · have blank : Blank (gap ++ tail) := List.forall_mem_append.2 ⟨blank_gap, blank_tail⟩
    have nothing := dropWhile_blank blank
    rw [List.nil_append]
    refine ⟨?_, ?_, ?_⟩
    · exact fun c head => isSpace_cases (blank c (List.mem_of_mem_head? head))
    · rw [unitOf, nothing]
    · intro c more same
      rw [nothing] at same
      cases same
  · have stops : Stops isSpace (c :: tail) := by
      intro d head
      cases head
      exact visible
    have drops : (gap ++ ([c] ++ tail)).dropWhile isSpace = c :: tail :=
      dropWhile_append blank_gap stops
    have alone : [c].dropWhile isSpace = [c] := List.dropWhile_cons_of_neg (by simp [visible])
    refine ⟨?_, ?_, ?_⟩
    · intro d head
      cases gap with
      | nil =>
        cases head
        exact plain
      | cons d gap =>
        cases head
        exact isSpace_cases (blank_gap _ List.mem_cons_self)
    · rw [unitOf, unitOf, drops, alone]
    · intro d more same
      rw [drops] at same
      cases same
      exact blank_tail

/-- How a text that is spelled is read. -/
structure ReadsAs (text : List Char) (negative : Bool) (q : ℚ) (rest : List Char) : Prop where
  reads : read text = some (negative, ⟨.rational q, rest, false⟩)
  nonneg : 0 ≤ q
  no_word : infinity (unsignedText text) = none ∧ nan (unsignedText text) = none
  no_mark : hexadecimal (unsignedText text) = none
  behind : ∀ c more, rest.dropWhile isSpace = c :: more → Blank more

theorem Spelled.reads {text : List Char} {x : ℚ} {unit : Nat} (spelled : Spelled text x unit) :
    ∃ negative q rest, ReadsAs text negative q rest ∧ x = (if negative then -q else q) ∧
      unit = unitOf rest := by
  cases spelled with
  | @mk blanks signText numeral gap letter tail negative q _ blank sign_ decimal blank_gap letter_
      blank_tail =>
    obtain ⟨plain, unit_, behind⟩ := letter_.behind blank_gap blank_tail
    generalize gap ++ (letter ++ tail) = rest at plain unit_ behind
    obtain ⟨⟨c, more, first, opens, -⟩, -⟩ := decimal.chars
    have starts : ∃ c more, numeral ++ rest = c :: more ∧ Opens c :=
      ⟨c, more ++ rest, by rw [first, List.cons_append], opens⟩
    have stripped : (blanks ++ (signText ++ (numeral ++ rest))).dropWhile isSpace =
        signText ++ (numeral ++ rest) :=
      dropWhile_append blank (starts_signText sign_ starts)
    have signed := sign_signText sign_ starts
    have after : unsignedText (blanks ++ (signText ++ (numeral ++ rest))) = numeral ++ rest := by
      rw [unsignedText, stripped, signed]
    have ends : Ends rest := fun c head => ⟨(plain c head).1, (plain c head).2.1,
      (plain c head).2.2.1⟩
    obtain ⟨no_inf, no_nan, no_hex, reads⟩ :=
      unsigned_append decimal ends fun c head => (plain c head).2.2.2
    refine ⟨negative, q, rest, ⟨?_, decimal.nonneg, ?_, ?_, behind⟩, rfl, unit_.symm⟩
    · rw [FloatText.read, stripped, signed]
      dsimp only
      rw [unsigned, no_inf, no_nan, no_hex, reads]
      rfl
    · rw [after]
      exact ⟨no_inf, no_nan⟩
    · rw [after]
      exact no_hex

/-! ## What is accepted -/

/-- A letter that is accepted. -/
theorem parsesize_unit {size : Value} {c : Char} {rest more : List Char}
    (accepted : (parsesize (.unit size c)).lt (.finite 0) = false)
    (behind : rest.dropWhile isSpace = c :: more) :
    parsesize (.unit size c) = size.mul binary64 (.finite (unitOf rest)) ∧
      Letter [c] (unitOf rest) := by
  rw [unitOf, behind]
  simp only [parsesize] at accepted ⊢
  by_cases giga : c = 'G' ∨ c = 'g'
  · simp only [if_pos giga]
    refine ⟨?_, .giga c giga⟩
    norm_num
  by_cases mega : c = 'M' ∨ c = 'm'
  · simp only [if_neg giga, if_pos mega]
    refine ⟨?_, .mega c mega⟩
    norm_num
  by_cases kilo : c = 'K' ∨ c = 'k'
  · simp only [if_neg giga, if_neg mega, if_pos kilo]
    refine ⟨?_, .kilo c kilo⟩
    norm_num
  · simp [if_neg giga, if_neg mega, if_neg kilo, Value.lt] at accepted

/-- What `parsesize` does with a text that is accepted. -/
theorem Accepted.parsesize {place : Placement} {text : List Char} (accepted : Accepted place text) :
    ∃ size rest, scanDouble text = some (size, rest) ∧
      parsesize (scanSize place text) =
        (stored place rest size).mul binary64 (.finite (unitOf rest)) ∧
      ∀ c more, rest.dropWhile isSpace = c :: more → Letter [c] (unitOf rest) := by
  have refused : (Value.finite (-1)).lt (.finite 0) ≠ false := by simp [Value.lt]
  unfold Accepted scanSize at accepted
  unfold scanSize
  cases scans : scanDouble text with
  | none =>
    rw [scans] at accepted
    exact absurd accepted refused
  | some found =>
    obtain ⟨size, rest⟩ := found
    rw [scans] at accepted
    refine ⟨size, rest, rfl, ?_⟩
    dsimp only at accepted ⊢
    cases behind : rest.dropWhile isSpace with
    | nil =>
      refine ⟨?_, ?_⟩
      · simp only [Harness.parsesize, unitOf, stored, behind, Nat.cast_one, if_true]
      · intro c more same
        cases same
    | cons c more =>
      rw [behind] at accepted
      obtain ⟨value, letter⟩ := parsesize_unit accepted behind
      refine ⟨?_, ?_⟩
      · rw [stored, behind, if_neg (List.cons_ne_nil _ _)]
        exact value
      · intro d more' same
        cases same
        exact letter

theorem unitOf_eq_two_pow (rest : List Char) : ∃ k, unitOf rest = 2 ^ k := by
  unfold unitOf
  split
  · exact ⟨0, rfl⟩
  · split_ifs
    · exact ⟨30, rfl⟩
    · exact ⟨20, rfl⟩
    · exact ⟨10, rfl⟩
    · exact ⟨0, rfl⟩

/-- What is multiplied is a double, and not negative if the number is not. -/
theorem stored_finite {place : Placement} {rest : List Char} {q d : ℚ} (nonneg : 0 ≤ q)
    (stores : stored place rest (Value.ofRat binary64 q) = .finite d) :
    0 ≤ d ∧ binary64.nearest d = d := by
  have rounded : Value.ofRat binary64 q = .finite d →
      0 ≤ d ∧ binary64.nearest d = d := by
    intro finite_
    rw [(Value.ofRat_eq_finite finite_).1]
    have again := Format.nearest_mul_two_pow (F := binary64) nonneg 0
    rw [pow_zero, mul_one] at again
    exact ⟨Format.nearest_nonneg nonneg, again⟩
  unfold stored at stores
  split at stores
  · exact rounded stores
  · cases place with
    | elsewhere => exact rounded stores
    | belowSize =>
      cases size : Value.ofRat binary64 q with
      | nan =>
        rw [size] at stores
        cases stores
      | infinity negative =>
        rw [size] at stores
        cases stores
      | finite r =>
        rw [size] at stores
        obtain rfl := Value.finite.inj stores
        have near : 0 ≤ r := by
          rw [(Value.ofRat_eq_finite size).1]
          exact Format.nearest_nonneg nonneg
        exact ⟨Format.clearLow_nonneg near 8, Format.nearest_clearLow near 8⟩

/-- It is no NaN, and its infinities are those of the number. -/
theorem stored_cases {place : Placement} {rest : List Char} {q : ℚ} (nonneg : 0 ≤ q) :
    (∃ d, stored place rest (Value.ofRat binary64 q) = .finite d) ∨
      stored place rest (Value.ofRat binary64 q) = .infinity false := by
  unfold stored
  rcases Value.ofRat_of_nonneg (F := binary64) nonneg with finite_ | infinite
  · rw [finite_]
    left
    split
    · exact ⟨_, rfl⟩
    · cases place <;> exact ⟨_, rfl⟩
  · rw [infinite]
    right
    split
    · rfl
    · cases place <;> rfl

/-- Below `2 ^ 64` the unit is exact. -/
theorem mul_unit {d v : ℚ} {k : Nat} (nonneg : 0 ≤ d) (exact_ : binary64.nearest d = d)
    (less : v < 2 ^ 64) :
    (Value.finite d).mul binary64 (.finite (2 ^ k)) = .finite v ↔ v = d * 2 ^ k := by
  have product : binary64.nearest (d * 2 ^ k) = d * 2 ^ k := by
    have scaled := Format.nearest_mul_two_pow (F := binary64) nonneg k
    rwa [exact_] at scaled
  have once : (Value.finite d).mul binary64 (.finite (2 ^ k)) =
      Value.ofRat binary64 (d * 2 ^ k) := rfl
  rw [once]
  constructor
  · intro finite_
    rw [(Value.ofRat_eq_finite finite_).1, product]
  · intro value
    have range : (2 : ℚ) ^ 64 ≤ 2 ^ (binary64.bias + 1) := by
      have exponents : (2 : ℚ) ^ (64 : Int) ≤ 2 ^ (binary64.bias + 1) :=
        zpow_le_zpow_right₀ (by norm_num) (by decide)
      exact_mod_cast exponents
    have small : |v| < 2 ^ (binary64.bias + 1) := by
      rw [value, abs_of_nonneg (mul_nonneg nonneg (by positivity)), ← value]
      exact less.trans_le range
    rw [Value.ofRat, product, ← value, if_pos small]

/-- A number that is not negative is stored as its double times the unit. -/
theorem parsed_iff {place : Placement} {text rest : List Char} {negative : Bool} {q v : ℚ}
    (accepted : Accepted place text)
    (reads : read text = some (negative, ⟨.rational q, rest, false⟩))
    (nonneg : 0 ≤ q) (same : (if negative then -q else q) = q) (less : v < 2 ^ 64) :
    parsesize (scanSize place text) = .finite v ↔
      ∃ d, stored place rest (Value.ofRat binary64 q) = .finite d ∧ v = d * unitOf rest := by
  obtain ⟨size, rest', scans, value, -⟩ := accepted.parsesize
  rw [scanDouble_of_read reads rfl rfl] at scans
  obtain ⟨rfl, rfl⟩ := Prod.mk.inj (Option.some.inj scans)
  obtain ⟨k, unit⟩ := unitOf_eq_two_pow rest
  rw [value, FloatText.Literal.toValue, same, unit, Nat.cast_pow]
  rcases @stored_cases place rest q nonneg with ⟨d, finite_⟩ | infinite
  · obtain ⟨d_nonneg, exact_⟩ := stored_finite nonneg finite_
    rw [finite_, Nat.cast_ofNat, mul_unit d_nonneg exact_ less]
    simp
  · have unit_pos : (0 : ℚ) < 2 ^ k := by positivity
    rw [infinite, Nat.cast_ofNat, Value.mul, if_neg unit_pos.ne']
    simp

/-- All three options store what is converted. -/
theorem stores_iff {place : Placement} {text : List Char} (accepted : Accepted place text)
    (bytes : Nat) :
    (∀ (option : SizeOption) (s : Sizes), ∃ s',
      s.setOption (option.opt (scanSize place text)) = some s' ∧
        (option.field s').toNat = bytes) ↔
    ∃ n, (parsesize (scanSize place text)).toSizeT = some n ∧ n.toNat = bytes := by
  have converts : Sizes.ofParsed (parsesize (scanSize place text)) =
      (parsesize (scanSize place text)).toSizeT := by
    rw [Sizes.ofParsed, accepted]
    rfl
  rw [← converts]
  constructor
  · intro stores
    obtain ⟨s', set, field⟩ := stores .minbytes .defaults
    obtain ⟨n, parsed, rfl⟩ := Option.map_eq_some_iff.1 set
    exact ⟨n, parsed, field⟩
  · intro parsed option s
    obtain ⟨n, parsed, value⟩ := parsed
    cases option with
    | minbytes => exact ⟨_, congrArg (Option.map _) parsed, value⟩
    | maxbytes => exact ⟨_, congrArg (Option.map _) parsed, value⟩
    | stepbytes => exact ⟨_, congrArg (Option.map _) parsed, value⟩

theorem floor_eq_iff {a b : ℚ} (ha : 0 ≤ a) (hb : 0 ≤ b) :
    ⌊a⌋₊ = ⌊b⌋₊ ↔ ∀ bytes : Nat, (bytes : ℚ) ≤ a ↔ (bytes : ℚ) ≤ b := by
  simp only [← Nat.le_floor_iff ha, ← Nat.le_floor_iff hb]
  constructor
  · intro same bytes
    rw [same]
  · intro same
    exact le_antisymm ((same _).1 le_rfl) ((same _).2 le_rfl)

/-- What is exact is not misread. -/
theorem Exact.not_misread {place : Placement} {text : List Char} (accepted : Accepted place text)
    (exact_ : Exact place text) : ¬Misread place text := by
  obtain ⟨x, unit, spelled, nonneg, ⟨v, parsed, less⟩, stores⟩ := exact_
  obtain ⟨negative, q, rest, as, rfl, rfl⟩ := spelled.reads
  have same : (if negative then -q else q) = q := by
    have := as.nonneg
    cases negative with
    | false => rfl
    | true =>
      simp only [if_true] at nonneg ⊢
      linarith
  obtain ⟨d, finite_, value⟩ := (parsed_iff accepted as.reads as.nonneg same less).1 parsed
  have unique {negative' : Bool} {r : FloatText.Reading}
      (reads' : read text = some (negative', r)) :
      negative' = negative ∧ r = ⟨.rational q, rest, false⟩ :=
    Prod.mk.inj (Option.some.inj (reads'.symm.trans as.reads))
  intro misread
  cases misread with
  | word starts =>
    rw [as.no_word.1, as.no_word.2] at starts
    simp at starts
  | hexadecimal starts =>
    rw [as.no_mark] at starts
    cases starts
  | incomplete reads' dangling =>
    rw [(unique reads').2] at dangling
    cases dangling
  | trailing scans behind visible =>
    rw [scanDouble_of_read as.reads rfl rfl] at scans
    obtain ⟨-, rfl⟩ := Prod.mk.inj (Option.some.inj scans)
    exact visible (as.behind _ _ behind)
  | negative reads' nonzero =>
    obtain ⟨rfl, number⟩ := unique reads'
    cases number
    simp only [if_true] at same
    exact nonzero (by linarith)
  | large reads' range =>
    cases (unique reads').2
    have := range d finite_
    rw [← value] at this
    linarith
  | moved reads' stores' between =>
    cases (unique reads').2
    obtain rfl := Value.finite.inj (stores'.symm.trans finite_)
    have nonneg_d := (stored_finite as.nonneg finite_).1
    obtain ⟨n, converted, toNat⟩ := (stores_iff accepted _).1 stores
    obtain ⟨m, converted', toNat'⟩ := Value.toSizeT_of_lt (value ▸ by positivity) less
    rw [parsed, converted'] at converted
    obtain rfl := Option.some.inj converted
    rw [toNat', value, same] at toNat
    have crossed := (floor_eq_iff (mul_nonneg nonneg_d (Nat.cast_nonneg _))
      (mul_nonneg as.nonneg (Nat.cast_nonneg _))).1 toNat
    exact between (crossed _).symm

/-- White space, a letter or none, and white space. -/
theorem exists_letter {rest : List Char}
    (letter : ∀ c more, rest.dropWhile isSpace = c :: more → Letter [c] (unitOf rest))
    (behind : ∀ c more, rest.dropWhile isSpace = c :: more → Blank more) :
    ∃ gap letter tail, rest = gap ++ (letter ++ tail) ∧ Blank gap ∧
      Letter letter (unitOf rest) ∧ Blank tail := by
  have parts := List.takeWhile_append_dropWhile (p := isSpace) (l := rest)
  have blank : Blank (rest.takeWhile isSpace) := fun c mem => List.mem_takeWhile_imp mem
  cases drops : rest.dropWhile isSpace with
  | nil =>
    have one : unitOf rest = 1 := by rw [unitOf, drops]
    rw [drops] at parts
    refine ⟨_, [], [], parts.symm, blank, ?_, fun c mem => absurd mem List.not_mem_nil⟩
    rw [one]
    exact .none
  | cons c more =>
    rw [drops] at parts
    exact ⟨_, [c], more, parts.symm, blank, letter c more drops, behind c more drops⟩

/-- A text that is scanned and not misread begins with a decimal number. -/
theorem reads_of_clean {place : Placement} {text rest : List Char} {size : Value}
    (scans : scanDouble text = some (size, rest)) (clean : ¬Misread place text) :
    ∃ r, number 10 'e' 10 (unsignedText text) = some r ∧ r.dangling = false ∧
      read text = some ((sign (text.dropWhile isSpace)).1, r) := by
  have no_inf : infinity (unsignedText text) = none := by
    by_contra some_
    exact clean (.word (.inl (Option.isSome_iff_ne_none.2 some_)))
  have no_nan : nan (unsignedText text) = none := by
    by_contra some_
    exact clean (.word (.inr (Option.isSome_iff_ne_none.2 some_)))
  have no_hex : hexadecimal (unsignedText text) = none := by
    by_contra some_
    exact clean (.hexadecimal (Option.isSome_iff_ne_none.2 some_))
  obtain ⟨found, unsigned_scans, -⟩ := Option.map_eq_some_iff.1 scans
  obtain ⟨r, decimal, unsigned_⟩ := number_of_scanUnsigned unsigned_scans no_inf no_nan no_hex
  have reads : read text = some ((sign (text.dropWhile isSpace)).1, r) :=
    congrArg (Option.map _) unsigned_
  refine ⟨r, decimal, ?_, reads⟩
  by_contra dangling
  exact clean (.incomplete reads (Bool.eq_true_of_not_eq_false dangling))

/-- A text that is read and not misread is spelled. -/
theorem spelled_of_clean {place : Placement} {text rest : List Char} {size : Value}
    (scans : scanDouble text = some (size, rest))
    (letter : ∀ c more, rest.dropWhile isSpace = c :: more → Letter [c] (unitOf rest))
    (clean : ¬Misread place text) :
    ∃ negative q, read text = some (negative, ⟨.rational q, rest, false⟩) ∧ 0 ≤ q ∧
      (if negative then -q else q) = q ∧ Spelled text q (unitOf rest) := by
  obtain ⟨r, decimal, complete, reads⟩ := reads_of_clean scans clean
  obtain ⟨numeral, q, after, spelled, literal⟩ := decimal_of_number decimal complete
  rw [scanDouble_of_read reads literal complete] at scans
  obtain ⟨-, rfl⟩ := Prod.mk.inj (Option.some.inj scans)
  obtain ⟨gap, letter_text, tail, rest_eq, blank_gap, letter_, blank_tail⟩ :=
    exists_letter letter fun c more behind => by
      by_contra visible
      exact clean (.trailing (scanDouble_of_read reads literal complete) behind visible)
  have whole : r = ⟨.rational q, r.rest, false⟩ := by
    rw [← literal, ← complete]
  rw [whole] at reads
  have same : (if (sign (text.dropWhile isSpace)).1 then -q else q) = q := by
    cases minus : (sign (text.dropWhile isSpace)).1 with
    | false => rfl
    | true =>
      have zero : q = 0 := by
        by_contra nonzero
        rw [minus] at reads
        exact clean (.negative reads nonzero)
      rw [zero]
      simp
  refine ⟨_, q, reads, spelled.nonneg, same, ?_⟩
  obtain ⟨signText, sign_, split_sign⟩ := exists_signText (text.dropWhile isSpace)
  have text_eq : text = text.takeWhile isSpace ++ (signText ++ (numeral ++
      (gap ++ (letter_text ++ tail)))) := by
    rw [← rest_eq, ← after, unsignedText, ← split_sign, List.takeWhile_append_dropWhile]
  have result : Spelled (text.takeWhile isSpace ++ (signText ++ (numeral ++
      (gap ++ (letter_text ++ tail))))) _ (unitOf r.rest) :=
    .mk (fun c mem => List.mem_takeWhile_imp mem) sign_ spelled blank_gap letter_ blank_tail
  rwa [← text_eq, same] at result

/-- **A text that `main` accepts is read exactly if and only if it is none of these**, wherever the
compiler puts `size_lit`. The scan stops at the letter or before it, so that a text which is not
misread is spelled; it is rounded once, to a double that only the terminator of `%1s` can change,
and the multiplication by a power of 1024 is exact below `2 ^ 64`. -/
theorem sizes_exact_iff {place : Placement} {text : List Char} (accepted : Accepted place text) :
    Exact place text ↔ ¬Misread place text := by
  refine ⟨Exact.not_misread accepted, ?_⟩
  intro clean
  obtain ⟨size, rest, scans, -, letter⟩ := accepted.parsesize
  obtain ⟨negative, q, reads, nonneg, same, spelled⟩ := spelled_of_clean scans letter clean
  obtain ⟨d, finite_, less⟩ : ∃ d, stored place rest (Value.ofRat binary64 q) = .finite d ∧
      d * unitOf rest < 2 ^ 64 := by
    by_contra none_
    refine clean (.large reads fun d finite_ => ?_)
    by_contra range
    exact none_ ⟨d, finite_, not_le.1 range⟩
  have nonneg_d := (stored_finite nonneg finite_).1
  have parsed := (parsed_iff accepted reads nonneg same less).2 ⟨d, finite_, rfl⟩
  refine ⟨q, unitOf rest, spelled, nonneg, ⟨_, parsed, less⟩, ?_⟩
  rw [stores_iff accepted, parsed]
  obtain ⟨n, converted, toNat⟩ := Value.toSizeT_of_lt (by positivity) less
  refine ⟨n, converted, toNat.trans ?_⟩
  rw [floor_eq_iff (by positivity) (by positivity)]
  intro bytes
  by_contra between
  exact clean (.moved reads finite_ fun crossed => between crossed.symm)

/-- One KiB, the terminator behind `size_lit` being the lowest byte of `size`: nothing is lost. -/
theorem stored_one : stored .belowSize ['K'] (Value.ofRat binary64 (1 : Nat)) = .finite 1 := by
  have one : Value.ofRat binary64 (1 : Nat) = .finite (1 : Nat) :=
    Value.ofRat_natCast (by decide) (by decide) (by decide)
  have last : binary64.lastBit 1 = -52 := by
    rw [Format.lastBit, abs_one, Int.log_one_right]
    decide
  have cleared : binary64.clearLow 8 1 = 1 := by
    rw [Format.clearLow, last]
    norm_num [truncate]
  rw [stored, if_neg (by decide), one, Placement.overwrite, Nat.cast_one, cleared]

theorem accepted_one_kilo : Accepted .belowSize "1K".toList := by
  have scans : parsesize (scanSize .belowSize "1K".toList) =
      (stored .belowSize ['K'] (Value.ofRat binary64 (1 : Nat))).mul binary64 (.finite 1024) := rfl
  have product := (mul_unit (d := 1) (v := 1 * 2 ^ 10) (k := 10) zero_le_one
    (by exact_mod_cast nearest_natCast_double (n := 1) (by norm_num)) (by norm_num)).2 rfl
  have unit : (2 : ℚ) ^ 10 = 1024 := by norm_num
  rw [unit] at product
  rw [Accepted, scans, stored_one, product, Value.lt, decide_eq_false (by norm_num)]

theorem sizes_exact_iff_one_kilo : Accepted .belowSize "1K".toList ∧
    Exact .belowSize "1K".toList := by
  have reads : read "1K".toList = some (false, ⟨.rational (1 : Nat), ['K'], false⟩) := rfl
  refine ⟨accepted_one_kilo, (sizes_exact_iff accepted_one_kilo).2 fun misread => ?_⟩
  cases misread with
  | word starts => exact absurd starts (by decide)
  | hexadecimal starts => exact absurd starts (by decide)
  | incomplete reads' dangling =>
    cases reads.symm.trans reads'
    cases dangling
  | trailing scans behind visible =>
    rw [scanDouble_of_read reads rfl rfl] at scans
    cases scans
    cases behind
    exact visible nofun
  | negative reads' => cases reads.symm.trans reads'
  | large reads' range =>
    cases reads.symm.trans reads'
    have kilo : unitOf ['K'] = 1024 := by decide
    have large := range 1 stored_one
    rw [kilo] at large
    norm_num at large
  | moved reads' stores between =>
    cases reads.symm.trans reads'
    obtain rfl := Value.finite.inj (stores.symm.trans stored_one)
    rw [Nat.cast_one] at between
    exact between Iff.rfl

/-- `-b inf` is accepted. -/
theorem infinity_accepted : ¬∀ place text, Accepted place text → Exact place text := by
  intro exact_
  have parsed : parsesize (scanSize .elsewhere "inf".toList) = .infinity false := by
    have scans : scanSize .elsewhere "inf".toList = .number (.infinity false) := rfl
    rw [scans, parsesize, Value.mul, if_neg (by norm_num)]
    simp
  have accepted : Accepted .elsewhere "inf".toList := by
    rw [Accepted, parsed]
    rfl
  obtain ⟨x, unit, -, -, ⟨q, finite_, -⟩, -⟩ := exact_ _ _ accepted
  rw [parsed] at finite_
  cases finite_

end SizeArg

end NcclTests.Harness
