import Mathlib
import NcclTests.Lib.Printf

/-!
# Scanned text

`sscanf` as an interpreter of directives: each reads a part of the input and may store
what it read, and the first one that fails ends the call with what has been stored by
then. The lemmas `Directive.read_…` say that a directive reads back what the conversion
of the same kind printed, padded on the left or not.
-/

namespace Scanf

/-- `isspace` in the C locale. -/
def isSpace (c : Char) : Bool :=
  c ∈ [' ', '\t', '\n', '\x0b', '\x0c', '\r']

/-! ## Numbers -/

def digitValue (c : Char) : Nat := c.toNat - '0'.toNat

/-- A run of digits, and what follows it. -/
def readNat (input : List Char) : Option (Nat × List Char) :=
  match input.takeWhile Char.isDigit with
  | [] => none
  | c :: ds =>
    some (Nat.ofDigits 10 ((c :: ds).reverse.map digitValue), input.dropWhile Char.isDigit)

def readInt : List Char → Option (Int × List Char)
  | '-' :: rest => (readNat rest).map fun r => (-(r.1 : Int), r.2)
  | '+' :: rest => (readNat rest).map fun r => ((r.1 : Int), r.2)
  | input => (readNat input).map fun r => ((r.1 : Int), r.2)

/-! ## Directives -/

/-- A directive that stores into `σ`. -/
inductive Directive (σ : Type)
  /-- White space, which skips any amount of it. -/
  | space
  | literal (c : Char)
  /-- `%d`. -/
  | int (store : Int → σ → σ)
  /-- `%s` with a width. -/
  | word (width : Nat) (store : List Char → σ → σ)
  /-- `%[` with a width. -/
  | set (width : Nat) (within : Char → Bool) (store : List Char → σ → σ)
  /-- `%n`. -/
  | count (store : Nat → σ → σ)

/-- The directives of literal text in a format. -/
def plain {σ : Type} (text : List Char) : List (Directive σ) :=
  text.map fun c => if isSpace c then .space else .literal c

variable {σ : Type}

/-- The longest text of characters in a set, up to `width`, unless it is empty. -/
def readText (width : Nat) (within : Char → Bool) (input : List Char) :
    Option (List Char × List Char) :=
  match (input.takeWhile within).take width with
  | [] => none
  | c :: text => some (c :: text, input.drop (c :: text).length)

/-- What a directive stores, and the rest of the input unless it fails. `whole` is the
length of the whole input. -/
def Directive.read (whole : Nat) : Directive σ → List Char → σ → σ × Option (List Char)
  | .space, input, s => (s, some (input.dropWhile isSpace))
  | .literal _, [], s => (s, none)
  | .literal c, d :: rest, s => (s, if c = d then some rest else none)
  | .int store, input, s =>
    match readInt (input.dropWhile isSpace) with
    | some (z, rest) => (store z s, some rest)
    | none => (s, none)
  | .word width store, input, s =>
    match readText width (fun c => !isSpace c) (input.dropWhile isSpace) with
    | some (text, rest) => (store text s, some rest)
    | none => (s, none)
  | .set width within store, input, s =>
    match readText width within input with
    | some (text, rest) => (store text s, some rest)
    | none => (s, none)
  | .count store, input, s => (store (whole - input.length) s, some input)

/-- `sscanf`. -/
def scan (whole : Nat) : List (Directive σ) → List Char → σ → σ × Option (List Char)
  | [], input, s => (s, some input)
  | d :: ds, input, s =>
    match d.read whole input s with
    | (s, some rest) => scan whole ds rest s
    | (s, none) => (s, none)

/-! ## Runs of characters -/

/-- The input goes on with a character outside the set, or ends. -/
def Stops (within : Char → Bool) (input : List Char) : Prop := ∀ c ∈ input.head?, within c = false

theorem Stops.append {within : Char → Bool} {text : List Char} {c : Char}
    (first : text.head? = some c) (outside : within c = false) (more : List Char) :
    Stops within (text ++ more) := by
  intro d head
  obtain ⟨text, rfl⟩ := List.head?_eq_some_iff.1 first
  obtain rfl := Option.some.inj head
  exact outside

/-- The text starts with a character that is not white space. -/
def Starts (text : List Char) : Prop := ∃ c ∈ text.head?, isSpace c = false

theorem takeWhile_append {within : Char → Bool} {text rest : List Char}
    (all : ∀ c ∈ text, within c = true) (stops : Stops within rest) :
    (text ++ rest).takeWhile within = text := by
  induction text with
  | nil =>
    cases rest with
    | nil => rfl
    | cons c rest => simp [stops c rfl]
  | cons c text ih =>
    obtain ⟨first, later⟩ := List.forall_mem_cons.1 all
    rw [List.cons_append, List.takeWhile_cons_of_pos first, ih later]

theorem dropWhile_append {within : Char → Bool} {text rest : List Char}
    (all : ∀ c ∈ text, within c = true) (stops : Stops within rest) :
    (text ++ rest).dropWhile within = rest := by
  induction text with
  | nil =>
    cases rest with
    | nil => rfl
    | cons c rest => simp [stops c rfl]
  | cons c text ih =>
    obtain ⟨first, later⟩ := List.forall_mem_cons.1 all
    rw [List.cons_append, List.dropWhile_cons_of_pos first, ih later]

theorem dropWhile_starts {text rest : List Char} (starts : Starts text) :
    (text ++ rest).dropWhile isSpace = text ++ rest := by
  obtain ⟨c, first, visible⟩ := starts
  obtain ⟨text, rfl⟩ := List.head?_eq_some_iff.1 first
  rw [List.cons_append, List.dropWhile_cons_of_neg (by simp [visible])]

/-- White space skips the padding. -/
theorem dropWhile_leftpad {text rest : List Char} (starts : Starts text) (n : Nat) :
    (text.leftpad n ' ' ++ rest).dropWhile isSpace = text ++ rest := by
  have padding : ∀ c ∈ List.replicate (n - text.length) ' ', isSpace c = true := by
    intro c inside
    rw [List.eq_of_mem_replicate inside]
    decide
  have stops : Stops isSpace (text ++ rest) := by
    obtain ⟨c, first, visible⟩ := starts
    exact Stops.append first visible rest
  rw [List.leftpad, List.append_assoc, dropWhile_append padding stops]

/-! ## What is printed is read back -/

open Printf

theorem isDigit_digitChar : ∀ d < 10, (Nat.digitChar d).isDigit = true := by decide

theorem digitValue_digitChar : ∀ d < 10, digitValue (Nat.digitChar d) = d := by decide

theorem digits_ne_nil (n : Nat) : digits 10 n ≠ [] := by
  unfold digits
  split
  · exact List.cons_ne_nil _ _
  · next pos => simpa [Nat.digits_eq_nil_iff_eq_zero] using pos

theorem isDigit_digits {n : Nat} : ∀ c ∈ digits 10 n, c.isDigit = true := by
  unfold digits
  split
  · intro c inside
    obtain rfl := List.mem_singleton.1 inside
    rfl
  · intro c inside
    obtain ⟨d, digit, rfl⟩ := List.mem_map.1 inside
    exact isDigit_digitChar d (Nat.digits_lt_base (by norm_num) (List.mem_reverse.1 digit))

theorem ofDigits_digits (n : Nat) :
    Nat.ofDigits 10 ((digits 10 n).reverse.map digitValue) = n := by
  unfold digits
  split
  · next zero => simp [zero, digitValue]
  · rw [← List.map_reverse, List.reverse_reverse, List.map_map]
    have values : (Nat.digits 10 n).map (digitValue ∘ Nat.digitChar) = Nat.digits 10 n :=
      (List.map_congr_left fun d digit => digitValue_digitChar d
        (Nat.digits_lt_base (by norm_num) digit)).trans (List.map_id _)
    rw [values, Nat.ofDigits_digits]

theorem readNat_digits (n : Nat) {rest : List Char} (stops : Stops Char.isDigit rest) :
    readNat (digits 10 n ++ rest) = some (n, rest) := by
  have run : (digits 10 n ++ rest).takeWhile Char.isDigit = digits 10 n :=
    takeWhile_append isDigit_digits stops
  unfold readNat
  rw [run, dropWhile_append isDigit_digits stops]
  cases same : digits 10 n with
  | nil => exact absurd same (digits_ne_nil n)
  | cons c ds =>
    dsimp only
    rw [← same, ofDigits_digits]

theorem readInt_decimal (z : Int) {rest : List Char} (stops : Stops Char.isDigit rest) :
    readInt (decimal z ++ rest) = some (z, rest) := by
  unfold decimal
  split
  · next negative =>
    rw [List.cons_append, readInt, readNat_digits _ stops, Option.map_some]
    have : -(z.natAbs : Int) = z := by omega
    rw [this]
  · next nonneg =>
    have unsigned : readInt (digits 10 z.natAbs ++ rest) =
        (readNat (digits 10 z.natAbs ++ rest)).map fun r => ((r.1 : Int), r.2) := by
      cases same : digits 10 z.natAbs with
      | nil => exact absurd same (digits_ne_nil _)
      | cons c ds =>
        have digit : c.isDigit = true := isDigit_digits c (by rw [same]; exact List.mem_cons_self)
        rw [List.cons_append]
        unfold readInt
        split
        · next head => cases (List.cons.inj head).1; cases digit
        · next head => cases (List.cons.inj head).1; cases digit
        · rfl
    rw [unsigned, readNat_digits _ stops, Option.map_some]
    have : (z.natAbs : Int) = z := by omega
    rw [this]

theorem isSpace_eq_false_of_isDigit {c : Char} (digit : c.isDigit = true) : isSpace c = false := by
  by_contra space
  have blank := of_decide_eq_true (Bool.not_eq_false _ ▸ space)
  simp only [List.mem_cons, List.not_mem_nil, or_false] at blank
  rcases blank with rfl | rfl | rfl | rfl | rfl | rfl <;> cases digit

theorem starts_decimal (z : Int) : Starts (decimal z) := by
  unfold decimal
  split
  · exact ⟨'-', rfl, rfl⟩
  · cases same : digits 10 z.natAbs with
    | nil => exact absurd same (digits_ne_nil _)
    | cons c ds =>
      have digit : c.isDigit = true := isDigit_digits c (by rw [same]; exact List.mem_cons_self)
      exact ⟨c, rfl, isSpace_eq_false_of_isDigit digit⟩

namespace Directive

variable {whole : Nat} {s : σ} {rest : List Char}

theorem read_int (store : Int → σ → σ) (z : Int) (stops : Stops Char.isDigit rest) :
    (int store).read whole (decimal z ++ rest) s = (store z s, some rest) := by
  rw [read, dropWhile_starts (starts_decimal z), readInt_decimal z stops]

theorem readText_append {width : Nat} {within : Char → Bool} {text : List Char}
    (nonempty : text ≠ []) (all : ∀ c ∈ text, within c = true) (fits : text.length ≤ width)
    (stops : Stops within rest) :
    readText width within (text ++ rest) = some (text, rest) := by
  unfold readText
  rw [takeWhile_append all stops, List.take_of_length_le fits]
  cases text with
  | nil => exact absurd rfl nonempty
  | cons c text => simp

theorem read_word {width : Nat} (store : List Char → σ → σ) {text : List Char}
    (nonempty : text ≠ []) (visible : ∀ c ∈ text, isSpace c = false)
    (fits : text.length ≤ width) (stops : Stops (fun c => !isSpace c) rest) :
    (word width store).read whole (text ++ rest) s = (store text s, some rest) := by
  have starts : Starts text := by
    cases text with
    | nil => exact absurd rfl nonempty
    | cons c text => exact ⟨c, rfl, visible c List.mem_cons_self⟩
  rw [read, dropWhile_starts starts,
    readText_append nonempty (fun c inside => by simp [visible c inside]) fits stops]

theorem read_set {width : Nat} {within : Char → Bool} (store : List Char → σ → σ)
    {text : List Char} (nonempty : text ≠ []) (all : ∀ c ∈ text, within c = true)
    (fits : text.length ≤ width) (stops : Stops within rest) :
    (set width within store).read whole (text ++ rest) s = (store text s, some rest) := by
  rw [read, readText_append nonempty all fits stops]

end Directive

/-! ## Whole formats -/

variable {whole : Nat} {s : σ}

theorem scan_cons {d : Directive σ} {ds : List (Directive σ)} {input rest : List Char} {s' : σ}
    (read : d.read whole input s = (s', some rest)) :
    scan whole (d :: ds) input s = scan whole ds rest s' := by
  rw [scan, read]

theorem scan_append (ds es : List (Directive σ)) (input : List Char) (s : σ) :
    scan whole (ds ++ es) input s =
      match scan whole ds input s with
      | (s', some rest) => scan whole es rest s'
      | (s', none) => (s', none) := by
  induction ds generalizing input s with
  | nil => rfl
  | cons d ds ih =>
    rw [List.cons_append, scan, scan]
    split
    · exact ih _ _
    · rfl

/-- Literal text reads itself, and after a blank at its end any more white space. -/
theorem scan_plain (text : List Char) (ds : List (Directive σ)) (input : List Char) (s : σ) :
    scan whole (plain text ++ ds) (text ++ input) s =
      scan whole ds (if text.getLast?.any isSpace then input.dropWhile isSpace else input) s := by
  induction text with
  | nil => rfl
  | cons c text ih =>
    cases blank : isSpace c with
    | false =>
      have literal : scan whole (plain (c :: text) ++ ds) (c :: text ++ input) s =
          scan whole (plain text ++ ds) (text ++ input) s := by
        simp [plain, blank, scan, Directive.read]
      rw [literal, ih]
      cases text with
      | nil => simp [blank]
      | cons d text => rw [List.getLast?_cons_cons]
    | true =>
      have skipped : scan whole (plain (c :: text) ++ ds) (c :: text ++ input) s =
          scan whole (plain text ++ ds) ((text ++ input).dropWhile isSpace) s := by
        simp [plain, blank, scan, Directive.read]
      rw [skipped]
      cases text with
      | nil => simp [plain, blank]
      | cons d text =>
        rw [List.getLast?_cons_cons, ← ih]
        cases space : isSpace d with
        | false => rw [dropWhile_starts ⟨d, rfl, space⟩]
        -- the next directive skips white space anyway
        | true => simp [plain, space, scan, Directive.read, List.dropWhile_idempotent]

theorem scan_plain_of_visible {text : List Char} (ends : text.getLast?.any isSpace = false)
    {ds : List (Directive σ)} {input : List Char} :
    scan whole (plain text ++ ds) (text ++ input) s = scan whole ds input s := by
  rw [scan_plain, ends]
  rfl

/-- Literal text that ends with a blank skips the padding of a field. -/
theorem scan_plain_of_blank {text field : List Char} (ends : text.getLast?.any isSpace = true)
    (starts : Starts field) (n : Nat) {ds : List (Directive σ)} {rest : List Char} :
    scan whole (plain text ++ ds) (text ++ (field.leftpad n ' ' ++ rest)) s =
      scan whole ds (field ++ rest) s := by
  rw [scan_plain, ends, if_pos rfl, dropWhile_leftpad starts]

/-! ## What a format keeps -/

/-- A text that is read is not empty. -/
theorem readText_ne_nil {width : Nat} {within : Char → Bool} {input text rest : List Char}
    (read : readText width within input = some (text, rest)) : text ≠ [] := by
  unfold readText at read
  split at read
  · cases read
  · obtain rfl := congrArg Prod.fst (Option.some.inj read)
    exact List.cons_ne_nil _ _

/-- Behind skipped white space, it does not start with a blank. -/
theorem readText_starts {width : Nat} {within : Char → Bool} {input text rest : List Char}
    (read : readText width within (input.dropWhile isSpace) = some (text, rest)) :
    Starts text := by
  have visible := List.head?_dropWhile_not isSpace input
  unfold readText at read
  split at read
  · cases read
  · next c more run =>
    obtain rfl := congrArg Prod.fst (Option.some.inj read)
    refine ⟨c, rfl, ?_⟩
    have first : (input.dropWhile isSpace).head? = some c := by
      cases skipped : input.dropWhile isSpace with
      | nil => simp [skipped] at run
      | cons d rest =>
        rw [skipped, List.takeWhile_cons] at run
        cases width with
        | zero => simp at run
        | succ width =>
          split at run
          · exact congrArg some (List.cons.inj run).1
          · simp at run
    rw [first] at visible
    exact visible

/-- Every directive of the format keeps `P` true of what is stored. -/
def Keeps (P : σ → Prop) (ds : List (Directive σ)) : Prop :=
  ∀ d ∈ ds, ∀ whole input s, P s → P (d.read whole input s).1

namespace Keeps

variable {P : σ → Prop} {ds : List (Directive σ)}

theorem nil : Keeps P [] := fun _ member => nomatch member

theorem cons {d : Directive σ} (first : ∀ whole input s, P s → P (d.read whole input s).1)
    (rest : Keeps P ds) : Keeps P (d :: ds) :=
  List.forall_mem_cons.2 ⟨first, rest⟩

theorem space (rest : Keeps P ds) : Keeps P (.space :: ds) := .cons (fun _ _ _ kept => kept) rest

theorem plain (text : List Char) (rest : Keeps P ds) : Keeps P (Scanf.plain text ++ ds) := by
  induction text with
  | nil => exact rest
  | cons c text ih =>
    refine .cons (fun whole input s kept => ?_) ih
    beta_reduce
    split
    · exact kept
    · cases input <;> exact kept

theorem int {store : Int → σ → σ} (stored : ∀ z s, P s → P (store z s)) (rest : Keeps P ds) :
    Keeps P (.int store :: ds) := by
  refine .cons (fun whole input s kept => ?_) rest
  rw [Directive.read]
  split
  · exact stored _ s kept
  · exact kept

theorem word {width : Nat} {store : List Char → σ → σ}
    (stored : ∀ text s, text ≠ [] → P s → P (store text s)) (rest : Keeps P ds) :
    Keeps P (.word width store :: ds) := by
  refine .cons (fun whole input s kept => ?_) rest
  rw [Directive.read]
  split
  · next read => exact stored _ s (readText_ne_nil read) kept
  · exact kept

theorem set {width : Nat} {within : Char → Bool} {store : List Char → σ → σ}
    (stored : ∀ text s, P s → P (store text s)) (rest : Keeps P ds) :
    Keeps P (.set width within store :: ds) := by
  refine .cons (fun whole input s kept => ?_) rest
  rw [Directive.read]
  split
  · exact stored _ s kept
  · exact kept

theorem count {store : Nat → σ → σ} (stored : ∀ n s, P s → P (store n s)) (rest : Keeps P ds) :
    Keeps P (.count store :: ds) :=
  .cons (fun _ _ s kept => stored _ s kept) rest

/-- What every directive keeps holds of what is stored in the end. -/
theorem scan (keeps : Keeps P ds) (input : List Char) (start : P s) :
    P (Scanf.scan whole ds input s).1 := by
  induction ds generalizing input s with
  | nil => exact start
  | cons d ds ih =>
    obtain ⟨first, later⟩ := List.forall_mem_cons.1 keeps
    have kept := first whole input s start
    rw [Scanf.scan]
    split
    · next s' rest read =>
      rw [read] at kept
      exact ih later rest kept
    · next s' read =>
      rw [read] at kept
      exact kept

/-- A `%[` behind white space stores only texts that do not start with a blank. -/
theorem scan_space_set {width : Nat} {within : Char → Bool} {store : List Char → σ → σ}
    (stored : ∀ text s, Starts text → P s → P (store text s)) (rest : Keeps P ds)
    (input : List Char) (start : P s) :
    P (Scanf.scan whole (.space :: .set width within store :: ds) input s).1 := by
  rw [Scanf.scan, Directive.read]
  dsimp only
  rw [Scanf.scan, Directive.read]
  cases read : readText width within (input.dropWhile isSpace) with
  | none => exact start
  | some r => exact rest.scan r.2 (stored r.1 s (readText_starts read) start)

end Keeps

end Scanf
