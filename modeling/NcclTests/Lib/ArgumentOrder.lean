import Mathlib

/-!
# The order of an argument vector after its options have been read

`getopt_long` of the GNU C library goes through all words. Those that are neither options nor
values of options, the operands, it moves behind the others, keeping their order and that of the
options; a word `--` ends the options. Where it is told not to, and in implementations that do not
permute, it stops at the first operand and leaves the vector alone.

What a word is to the scan is a parameter (`Word`). The vector stays as it is exactly where the
operands come last (`map_split_iff`), also if one looks at the words through a function that tells
options from operands.
-/

universe u v

namespace ArgumentOrder

/-- What a word is where an option may stand. -/
inductive Word
  | operand
  | terminator
  /-- An option, with the next word as its value or not. -/
  | option (takesNext : Bool)
  | unknown
  deriving DecidableEq, Repr

inductive Order
  | permute
  | requireOrder
  deriving DecidableEq, Repr

variable {ω : Type u} {β : Type v}

/-- The options with their values, and the words after them; `none` where an option is unknown or
lacks its value. -/
@[simp] def split (kind : ω → Word) (order : Order) : List ω → Option (List ω × List ω)
  | [] => some ([], [])
  | word :: rest =>
    match kind word, rest with
    | .terminator, rest => some ([word], rest)
    | .unknown, _ => none
    | .option true, [] => none
    | .option true, value :: rest =>
      (split kind order rest).map fun p => (word :: value :: p.1, p.2)
    | .option false, rest => (split kind order rest).map fun p => (word :: p.1, p.2)
    | .operand, rest =>
      match order with
      | .permute => (split kind order rest).map fun p => (p.1, word :: p.2)
      | .requireOrder => some ([], word :: rest)

/-- No operand stands before an option. -/
@[simp] def OperandsLast (kind : ω → Word) : List ω → Prop
  | [] => True
  | word :: rest =>
    match kind word, rest with
    | .operand, rest => ∀ other ∈ rest, kind other = .operand
    | .option true, _ :: rest => OperandsLast kind rest
    | .option false, rest => OperandsLast kind rest
    | _, _ => True

variable {kind : ω → Word} {order : Order}

/-- An option without a value of its own. -/
theorem split_option {word : ω} (is : kind word = .option false) (rest : List ω) :
    split kind order (word :: rest) =
      (split kind order rest).map fun p => (word :: p.1, p.2) := by
  simp only [split, is]

/-- Nothing is lost. -/
theorem split_perm {words : List ω} {p : List ω × List ω}
    (splits : split kind order words = some p) : (p.1 ++ p.2).Perm words := by
  induction words using split.induct kind order generalizing p with
  | case1 =>
    cases splits
    exact .refl _
  | case2 word rest is =>
    simp only [split, is] at splits
    cases splits
    exact .refl _
  | case3 word rest is =>
    simp only [split, is] at splits
    cases splits
  | case4 word is =>
    simp only [split, is] at splits
    cases splits
  | case5 word value rest is ih =>
    simp only [split, is] at splits
    obtain ⟨q, rest_splits, rfl⟩ := Option.map_eq_some_iff.1 splits
    exact ((ih rest_splits).cons value).cons word
  | case6 word rest is ih =>
    simp only [split, is] at splits
    obtain ⟨q, rest_splits, rfl⟩ := Option.map_eq_some_iff.1 splits
    exact (ih rest_splits).cons word
  | case7 word rest is permutes ih =>
    subst permutes
    simp only [split, is] at splits
    obtain ⟨q, rest_splits, rfl⟩ := Option.map_eq_some_iff.1 splits
    exact List.perm_middle.trans ((ih rest_splits).cons word)
  | case8 word rest is requires =>
    subst requires
    simp only [split, is] at splits
    cases splits
    exact .refl _

/-- Operands alone. -/
theorem split_of_operands {words : List ω} (all : ∀ word ∈ words, kind word = .operand) :
    split kind .permute words = some ([], words) := by
  induction words with
  | nil => rfl
  | cons word rest ih =>
    rw [List.forall_mem_cons] at all
    simp [split, all.1, ih all.2]

/-- What comes first is an option, and where nothing does there is none. -/
theorem split_options {words : List ω} {p : List ω × List ω}
    (splits : split kind .permute words = some p) :
    (p.1 = [] → ∀ word ∈ words, kind word = .operand) ∧
      ∀ word ∈ p.1.head?, kind word = .terminator ∨ ∃ b, kind word = .option b := by
  induction words generalizing p with
  | nil =>
    cases splits
    exact ⟨fun _ word mem => absurd mem List.not_mem_nil, nofun⟩
  | cons word rest ih =>
    unfold split at splits
    split at splits
    · next is =>
      cases splits
      refine ⟨fun empty => absurd empty (List.cons_ne_nil _ _), ?_⟩
      intro first head
      cases head
      exact .inl is
    · cases splits
    · cases splits
    · next is =>
      obtain ⟨q, -, rfl⟩ := Option.map_eq_some_iff.1 splits
      refine ⟨fun empty => absurd empty (List.cons_ne_nil _ _), ?_⟩
      intro first head
      cases head
      exact .inr ⟨_, is⟩
    · next is =>
      obtain ⟨q, -, rfl⟩ := Option.map_eq_some_iff.1 splits
      refine ⟨fun empty => absurd empty (List.cons_ne_nil _ _), ?_⟩
      intro first head
      cases head
      exact .inr ⟨_, is⟩
    · next is =>
      obtain ⟨q, rest_splits, rfl⟩ := Option.map_eq_some_iff.1 splits
      obtain ⟨none_, first⟩ := ih rest_splits
      exact ⟨fun empty => List.forall_mem_cons.2 ⟨is, none_ empty⟩, first⟩

/-- **Only an operand before an option changes the order**, seen through a function that tells the
two apart. -/
theorem map_split_iff (f : ω → β)
    (apart : ∀ word other, (kind word = .terminator ∨ ∃ b, kind word = .option b) →
      kind other = .operand → f word ≠ f other) {words : List ω} {p : List ω × List ω}
    (splits : split kind order words = some p) :
    (p.1 ++ p.2).map f = words.map f ↔ order = .requireOrder ∨ OperandsLast kind words := by
  induction words using split.induct kind order generalizing p with
  | case1 =>
    cases splits
    exact iff_of_true rfl (.inr trivial)
  | case2 word rest is =>
    simp only [split, is] at splits
    cases splits
    exact iff_of_true rfl (.inr (by simp [OperandsLast, is]))
  | case3 word rest is =>
    simp only [split, is] at splits
    cases splits
  | case4 word is =>
    simp only [split, is] at splits
    cases splits
  | case5 word value rest is ih =>
    simp only [split, is] at splits
    obtain ⟨q, rest_splits, rfl⟩ := Option.map_eq_some_iff.1 splits
    simpa [OperandsLast, is] using ih rest_splits
  | case6 word rest is ih =>
    simp only [split, is] at splits
    obtain ⟨q, rest_splits, rfl⟩ := Option.map_eq_some_iff.1 splits
    simpa [OperandsLast, is] using ih rest_splits
  | case7 word rest is permutes ih =>
    subst permutes
    simp only [split, is] at splits
    obtain ⟨q, rest_splits, rfl⟩ := Option.map_eq_some_iff.1 splits
    obtain ⟨options, operands⟩ := q
    obtain ⟨none_, first⟩ := split_options rest_splits
    have last : OperandsLast kind (word :: rest) ↔ ∀ other ∈ rest, kind other = .operand := by
      simp [OperandsLast, is]
    rw [last, or_iff_right nofun]
    constructor
    · intro same
      cases options with
      | nil => exact none_ rfl
      | cons option more =>
        exact absurd (List.cons.inj same).1 (apart option word (first option rfl) is)
    · intro all
      rw [split_of_operands all] at rest_splits
      cases rest_splits
      rfl
  | case8 word rest is requires =>
    subst requires
    simp only [split, is] at splits
    cases splits
    exact iff_of_true rfl (.inl rfl)

end ArgumentOrder
