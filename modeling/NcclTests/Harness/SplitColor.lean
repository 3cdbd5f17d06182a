import Mathlib
import NcclTests.Lib.BitMask
import NcclTests.Lib.FloatText
import NcclTests.Lib.MachineInt
import NcclTests.Lib.Numeral

/-!
# The colour of a process

How `run` splits the processes into groups. `NCCL_TESTS_SPLIT` is an operation and an operand;
what `strtoul` reads of the operand is narrowed to `int` and used as it is. `wellDefined_iff` says
for which texts every process gets the colour that is documented.
-/

namespace NcclTests.Harness.SplitColor

open FloatText Numeral Scanf

/-! ## run -/

/-- The operations, as the environment variable names them. -/
inductive SplitOp
  | and | or | mod | div
  deriving DecidableEq, Repr

namespace SplitOp

def word : SplitOp → List Char
  | and => "and".toList
  | or => "or".toList
  | mod => "mod".toList
  | div => "div".toList

def symbol : SplitOp → List Char
  | and => "&".toList
  | or => "|".toList
  | mod => "%".toList
  | div => "/".toList

/-- The operators of C; `none` is a division by zero. -/
def apply : SplitOp → Int → Int → Option Int
  | and, proc, v => some (Int.land proc v)
  | or, proc, v => some (Int.lor proc v)
  | mod, proc, v => if v = 0 then none else some (Int.tmod proc v)
  | div, proc, v => if v = 0 then none else some (Int.tdiv proc v)

end SplitOp

/-- `ncclTestStrncasecmp(s, "0b", 2) == 0`. -/
def isBinary (s : List Char) : Bool := (afterWord "0b".toList s).isSome

/-- What `strtoul` makes of an operand without leading white space. -/
def convert (s : List Char) : Numeral.Conversion :=
  if isBinary s then strtoul 2 (s.drop 2) else strtoul 0 s

/-- `parseInt`: whether it succeeds, and what is left in `*num`. -/
def parseInt (s : List Char) (num : Int) : Bool × Int :=
  let s := s.dropWhile isSpace
  if s = [] then (false, num) else (decide ((convert s).endptr ≠ s), int32 (convert s).result)

/-- The condition of one of the four `if` statements, and what it leaves in `color`. -/
def parseOperand (op : SplitOp) (splitMaskEnv : List Char) (color : Int) : Bool × Int :=
  let byWord := (afterWord op.word splitMaskEnv).elim (false, color) (parseInt · color)
  if byWord.1 then byWord
  else (afterWord op.symbol splitMaskEnv).elim (false, byWord.2) (parseInt · byWord.2)

/-- One of the four `if` statements. -/
def splitBy (op : SplitOp) (splitMaskEnv : List Char) (proc color : Int) : Option Int :=
  let parsed := parseOperand op splitMaskEnv color
  if parsed.1 then op.apply proc parsed.2 else some parsed.2

/-- The colour that `run` computes from both variables. -/
def runColor (splitMask split : Option (List Char)) (proc : Int) : Option Int :=
  match splitMask with
  | some splitMaskEnv => some (int32 (Int.land proc (strtoul 16 splitMaskEnv).result))
  | none =>
    match split with
    | some splitMaskEnv => do
      let color ← splitBy .and splitMaskEnv proc 0
      let color ← splitBy .or splitMaskEnv proc color
      let color ← splitBy .mod splitMaskEnv proc color
      splitBy .div splitMaskEnv proc color
    | none => some 0

/-! ## What is documented -/

/-- The number at the start of a text without a sign: hexadecimal, binary or decimal. -/
def magnitude (text : List Char) : Option Nat :=
  let prefixed (mark : Char) (base : Nat) : Option Nat :=
    match text with
    | '0' :: x :: rest =>
      if x.toLower = mark ∧ rest.takeWhile (IsDigit base) ≠ [] then
        some (value base (rest.takeWhile (IsDigit base)))
      else none
    | _ => none
  prefixed 'x' 16 <|> prefixed 'b' 2 <|>
    if text.takeWhile (IsDigit 10) = [] then none
    else some (value 10 (text.takeWhile (IsDigit 10)))

/-- The operand: white space, a sign or none, and a number. -/
def operand (text : List Char) : Option Int :=
  (magnitude (sign (text.dropWhile isSpace)).2).map fun n : Nat =>
    if (sign (text.dropWhile isSpace)).1 then -(n : Int) else n

/-- The variable names an operation, in any case; this is the text after it. -/
def Names (op : SplitOp) (env rest : List Char) : Prop :=
  afterWord op.word env = some rest ∨ afterWord op.symbol env = some rest

/-- Every process gets a colour, it is not negative, and it is the one that is documented. -/
def WellDefined (env : List Char) : Prop :=
  ∀ proc : Int, 0 ≤ proc → proc < 2 ^ 31 → ∃ color, runColor none (some env) proc = some color ∧
    0 ≤ color ∧
    ∀ op rest v, Names op env rest → operand rest = some v → op.apply proc v = some color

/-! ## When it is so -/

/-- The `int` that an operand becomes. -/
def narrowed (rest : List Char) : Int := int32 (convert (rest.dropWhile isSpace)).result

/-- An operand and the `int` that it becomes give every process the same colour. -/
def SplitOp.Agrees : SplitOp → Int → Int → Prop
  | and, v, w => w % 2 ^ 31 = v % 2 ^ 31
  | or, v, w => w = v ∧ 0 ≤ v
  | mod, v, w => v ≠ 0 ∧ w ≠ 0 ∧ (w.natAbs = v.natAbs ∨ w = -2 ^ 31 ∧ 2 ^ 31 ≤ v.natAbs)
  | div, v, w => v ≠ 0 ∧ (0 < w ∧ w = v ∨ w = -2 ^ 31 ∧ 2 ^ 31 ≤ v.natAbs)

section Operators

variable {v w : Int}

theorem tmod_natCast (p : Nat) (v : Int) : Int.tmod p v = (p % v.natAbs : Nat) := by
  rw [Int.tmod_eq_emod_of_nonneg (Int.natCast_nonneg p), Int.natCast_emod,
    Int.natCast_natAbs, Int.emod_abs]

theorem natCast_tdiv_natCast (p n : Nat) : Int.tdiv p n = (p / n : Nat) := by
  rw [Int.tdiv_eq_ediv_of_nonneg (Int.natCast_nonneg p), Int.natCast_ediv]

theorem natCast_tdiv_neg (p n : Nat) : Int.tdiv p (-n) = -(p / n : Nat) := by
  rw [Int.tdiv_neg, natCast_tdiv_natCast]

/-- Every process gets the same colour from both, and it is not negative. -/
def SplitOp.Same (op : SplitOp) (v w : Int) : Prop :=
  ∀ p : Nat, p < 2 ^ 31 → ∃ color, op.apply p w = some color ∧ 0 ≤ color ∧
    op.apply p v = some color

theorem same_and_iff : SplitOp.and.Same v w ↔ SplitOp.and.Agrees v w := by
  have bits := BitMask.land_eq_iff 31 v w
  constructor
  · intro same
    apply bits.1
    intro p less
    obtain ⟨color, first, -, second⟩ := same p less
    exact Option.some.inj (first.trans second.symm)
  · intro agrees p less
    exact ⟨_, rfl, BitMask.land_natCast_nonneg p w, congrArg some (bits.2 agrees p less).symm⟩

theorem same_or_iff : SplitOp.or.Same v w ↔ SplitOp.or.Agrees v w := by
  constructor
  · intro same
    obtain ⟨color, first, nonneg, second⟩ := same 0 (by norm_num)
    have own : w = color := (BitMask.zero_lor w).symm.trans (Option.some.inj first)
    have other : v = color := (BitMask.zero_lor v).symm.trans (Option.some.inj second)
    exact ⟨own.trans other.symm, other ▸ nonneg⟩
  · intro agrees p less
    obtain ⟨rfl, nonneg⟩ := agrees
    exact ⟨_, rfl, BitMask.lor_natCast_nonneg nonneg p, rfl⟩

theorem same_mod_iff (low : -2 ^ 31 ≤ w) (high : w < 2 ^ 31) :
    SplitOp.mod.Same v w ↔ SplitOp.mod.Agrees v w := by
  constructor
  · intro same
    have nonzero : w ≠ 0 ∧ v ≠ 0 := by
      obtain ⟨color, first, -, second⟩ := same 0 (by norm_num)
      refine ⟨?_, ?_⟩
      · rintro rfl
        cases first
      · rintro rfl
        cases second
    have mods : ∀ p < 2 ^ 31, p % w.natAbs = p % v.natAbs := by
      intro p less
      obtain ⟨color, first, -, second⟩ := same p less
      simp only [SplitOp.apply, if_neg nonzero.1, if_neg nonzero.2, tmod_natCast] at first second
      exact Int.ofNat_inj.1 (Option.some.inj (first.trans second.symm))
    refine ⟨nonzero.2, nonzero.1, ?_⟩
    have pos : 0 < w.natAbs := Int.natAbs_pos.2 nonzero.1
    have pos' : 0 < v.natAbs := Int.natAbs_pos.2 nonzero.2
    by_cases large : v.natAbs < 2 ^ 31
    · left
      have divides : w.natAbs ∣ v.natAbs := by
        have := mods _ large
        rw [Nat.mod_self] at this
        exact Nat.dvd_of_mod_eq_zero this
      have le := Nat.le_of_dvd pos' divides
      have divides' : v.natAbs ∣ w.natAbs := by
        have := mods w.natAbs (le.trans_lt large)
        rw [Nat.mod_self] at this
        exact Nat.dvd_of_mod_eq_zero this.symm
      exact Nat.dvd_antisymm divides divides'
    · by_cases least : w = -2 ^ 31
      · exact .inr ⟨least, not_lt.1 large⟩
      · have small : w.natAbs < 2 ^ 31 := by omega
        have own := mods _ small
        rw [Nat.mod_self, Nat.mod_eq_of_lt (by omega)] at own
        omega
  · intro agrees p less
    obtain ⟨nonzero', nonzero, sizes⟩ := agrees
    have equal : p % w.natAbs = p % v.natAbs := by
      rcases sizes with same | ⟨rfl, large⟩
      · rw [same]
      · rw [Nat.mod_eq_of_lt (less.trans_le large)]
        exact Nat.mod_eq_of_lt less
    refine ⟨(p % w.natAbs : Nat), ?_, Int.natCast_nonneg _, ?_⟩
    · rw [SplitOp.apply, if_neg nonzero, tmod_natCast]
    · rw [SplitOp.apply, if_neg nonzero', tmod_natCast, equal]

theorem same_div_iff (low : -2 ^ 31 ≤ w) (high : w < 2 ^ 31) :
    SplitOp.div.Same v w ↔ SplitOp.div.Agrees v w := by
  constructor
  · intro same
    have nonzero : w ≠ 0 ∧ v ≠ 0 := by
      obtain ⟨color, first, -, second⟩ := same 0 (by norm_num)
      refine ⟨?_, ?_⟩
      · rintro rfl
        cases first
      · rintro rfl
        cases second
    have quotients : ∀ p : Nat, p < 2 ^ 31 →
        0 ≤ Int.tdiv p w ∧ Int.tdiv p v = Int.tdiv p w := by
      intro p less
      obtain ⟨color, first, nonneg, second⟩ := same p less
      simp only [SplitOp.apply, if_neg nonzero.1, if_neg nonzero.2] at first second
      obtain rfl := Option.some.inj first
      exact ⟨nonneg, Option.some.inj second⟩
    refine ⟨nonzero.2, ?_⟩
    obtain ⟨n, rfl | rfl⟩ := Int.eq_nat_or_neg w
    · obtain ⟨m, rfl | rfl⟩ := Int.eq_nat_or_neg v
      · -- the quotients are one from the operand on
        left
        have one := (quotients n (by omega)).2
        have zero := (quotients (n - 1) (by omega)).2
        rw [natCast_tdiv_natCast, natCast_tdiv_natCast, Nat.div_self (by omega)] at one
        have below : n - 1 < n := by omega
        rw [natCast_tdiv_natCast, natCast_tdiv_natCast, Nat.div_eq_of_lt below] at zero
        have le : m ≤ n := by
          by_contra less
          rw [Nat.div_eq_of_lt (not_le.1 less)] at one
          cases one
        have above : n - 1 < m := (Nat.div_eq_zero_iff_lt (by omega)).1 (Int.ofNat_inj.1 zero)
        omega
      · exfalso
        have one := (quotients n (by omega)).2
        rw [natCast_tdiv_neg, natCast_tdiv_natCast, Nat.div_self (by omega), Nat.cast_one] at one
        have nonneg := Int.natCast_nonneg (n / m)
        linarith
    · right
      have least : n = 2 ^ 31 := by
        by_contra less
        have negative := (quotients n (by omega)).1
        rw [natCast_tdiv_neg, Nat.div_self (by omega)] at negative
        omega
      subst least
      refine ⟨by norm_num, ?_⟩
      have zero := (quotients (2 ^ 31 - 1) (by norm_num)).2
      rw [natCast_tdiv_neg, Nat.div_eq_of_lt (by norm_num)] at zero
      have small : (2 ^ 31 - 1) / v.natAbs = 0 := by
        have size := congrArg Int.natAbs zero
        rw [Int.natAbs_tdiv] at size
        exact size
      have := (Nat.div_eq_zero_iff_lt (by omega)).1 small
      omega
  · intro agrees p less
    obtain ⟨nonzero', sizes⟩ := agrees
    rcases sizes with ⟨pos, rfl⟩ | ⟨rfl, large⟩
    · have apply_eq : SplitOp.div.apply p w = some (Int.tdiv p w) := if_neg nonzero'
      exact ⟨_, apply_eq, Int.tdiv_nonneg (Int.natCast_nonneg p) pos.le, apply_eq⟩
    · have none_left : Int.tdiv p v = 0 := by
        rw [← Int.natAbs_eq_zero, Int.natAbs_tdiv]
        exact Nat.div_eq_of_lt (less.trans_le large)
      have none_left' : Int.tdiv p (-2 ^ 31) = 0 := by
        rw [← Int.natAbs_eq_zero, Int.natAbs_tdiv]
        exact Nat.div_eq_of_lt less
      refine ⟨0, ?_, le_rfl, ?_⟩
      · exact congrArg some none_left'
      · rw [SplitOp.apply, if_neg nonzero', none_left]

theorem same_iff (op : SplitOp) (low : -2 ^ 31 ≤ w) (high : w < 2 ^ 31) :
    op.Same v w ↔ op.Agrees v w := by
  cases op with
  | and => exact same_and_iff
  | or => exact same_or_iff
  | mod => exact same_mod_iff low high
  | div => exact same_div_iff low high

end Operators

/-! ## Operands -/

/-- A number is what starts with a decimal digit, in whatever form it is. -/
theorem magnitude_isSome_iff {text : List Char} :
    (magnitude text).isSome = true ↔ ∃ c rest, text = c :: rest ∧ IsDigit 10 c = true := by
  have decimal : text.takeWhile (IsDigit 10) ≠ [] ↔
      ∃ c rest, text = c :: rest ∧ IsDigit 10 c = true := by
    cases text with
    | nil => simp
    | cons c rest =>
      by_cases first : IsDigit 10 c = true
      · simp [List.takeWhile_cons_of_pos first, first]
      · simp [List.takeWhile_cons_of_neg first, first]
  rw [← decimal]
  by_cases empty : text.takeWhile (IsDigit 10) = []
  · refine iff_of_false ?_ (not_not.2 empty)
    unfold magnitude
    dsimp only
    split
    · exact absurd empty (by simp [List.takeWhile, IsDigit, digit])
    · simp [empty]
  · refine iff_of_true ?_ empty
    unfold magnitude
    rw [if_neg empty]
    simp

theorem operand_isSome_iff {text : List Char} : (operand text).isSome = true ↔
    ∃ c rest, (sign (text.dropWhile isSpace)).2 = c :: rest ∧ IsDigit 10 c = true := by
  rw [operand, Option.isSome_map, magnitude_isSome_iff]

theorem isBinary_cases {s : List Char} (binary : isBinary s = true) :
    ∃ x rest, s = '0' :: x :: rest := by
  obtain ⟨rest, after⟩ := Option.isSome_iff_exists.1 binary
  obtain ⟨starts, -⟩ := afterWord_eq_some_iff.1 after
  rcases s with - | ⟨c, - | ⟨x, more⟩⟩
  · simp at starts
  · simp at starts
  · have zero : c.toLower = '0' := (List.cons.inj starts).1
    obtain rfl := eq_of_toLower zero rfl
    exact ⟨x, more, rfl⟩

/-- `parseInt` succeeds where there is an operand. -/
theorem parseInt_fst (s : List Char) (num : Int) :
    (parseInt s num).1 = (operand s).isSome := by
  rw [Bool.eq_iff_iff, operand_isSome_iff]
  unfold parseInt
  dsimp only
  by_cases empty : s.dropWhile isSpace = []
  · rw [if_pos empty, empty]
    exact iff_of_false Bool.false_ne_true (by simp [sign])
  · rw [if_neg empty]
    dsimp only
    rw [decide_eq_true_iff]
    cases binary : isBinary (s.dropWhile isSpace) with
    | true =>
      obtain ⟨x, rest, same⟩ := isBinary_cases binary
      rw [convert, if_pos binary, same]
      refine iff_of_true ?_ ⟨'0', x :: rest, rfl, rfl⟩
      intro back
      have shorter := strtoul_endptr_length_le 2 (('0' :: x :: rest).drop 2)
      rw [back] at shorter
      simp at shorter
    | false =>
      rw [convert, if_neg (by simp [binary]), strtoul_endptr_ne_iff, read_zero_isSome_iff,
        List.dropWhile_idempotent]

/-- What is left in `*num` where it fails is zero, if it was. -/
theorem parseInt_zero {s : List Char} (failed : (parseInt s 0).1 = false) :
    (parseInt s 0).2 = 0 := by
  unfold parseInt at failed ⊢
  dsimp only at failed ⊢
  by_cases empty : s.dropWhile isSpace = []
  · rw [if_pos empty]
  · rw [if_neg empty] at failed ⊢
    dsimp only at failed ⊢
    have stays : (convert (s.dropWhile isSpace)).endptr = s.dropWhile isSpace :=
      not_not.1 (of_decide_eq_false failed)
    cases binary : isBinary (s.dropWhile isSpace) with
    | true =>
      obtain ⟨x, rest, same⟩ := isBinary_cases binary
      have shorter := strtoul_endptr_length_le 2 ((s.dropWhile isSpace).drop 2)
      rw [convert, if_pos binary] at stays
      rw [stays, same] at shorter
      simp at shorter
    | false =>
      rw [convert, if_neg (by simp [binary])] at stays ⊢
      have nothing : read 0 (s.dropWhile isSpace) = none := by
        rw [← Option.not_isSome_iff_eq_none]
        exact fun some_ => strtoul_endptr_ne_iff.2 some_ stays
      rw [strtoul, nothing]
      rfl

theorem parseInt_snd {s : List Char} {num : Int} (accepted : (parseInt s num).1 = true) :
    (parseInt s num).2 = narrowed s := by
  unfold parseInt at accepted ⊢
  dsimp only at accepted ⊢
  by_cases empty : s.dropWhile isSpace = []
  · rw [if_pos empty] at accepted
    cases accepted
  · rw [if_neg empty]
    rfl

/-! ## The operation -/

/-- The characters that the names of an operation start with. -/
def SplitOp.initials : SplitOp → List Char
  | .and => ['a', '&']
  | .or => ['o', '|']
  | .mod => ['m', '%']
  | .div => ['d', '/']

theorem SplitOp.eq_of_initial {op op' : SplitOp} {c : Char} (mem : c ∈ op.initials)
    (mem' : c ∈ op'.initials) : op = op' := by
  cases op <;> cases op' <;> first
    | rfl
    | (simp only [initials, List.mem_cons, List.not_mem_nil, or_false] at mem mem'
       rcases mem with rfl | rfl <;> simp at mem')

theorem head_of_afterWord {w c : Char} {word env rest : List Char}
    (after : afterWord (w :: word) env = some rest) (head : env.head? = some c) :
    c.toLower = w := by
  by_contra apart
  obtain ⟨tail, rfl⟩ := List.head?_eq_some_iff.1 head
  rw [afterWord_eq_none apart] at after
  cases after

/-- A variable that names an operation starts with one of its initials. -/
theorem Names.initial {op : SplitOp} {env rest : List Char} (names : Names op env rest) :
    ∃ c ∈ env.head?, c.toLower ∈ op.initials := by
  cases env with
  | nil => cases op <;> rcases names with after | after <;> cases after
  | cons c tail =>
    refine ⟨c, rfl, ?_⟩
    cases op <;> rcases names with after | after <;>
      rw [head_of_afterWord after rfl] <;> decide

theorem Names.op_unique {op op' : SplitOp} {env rest rest' : List Char}
    (names : Names op env rest) (names' : Names op' env rest') : op = op' := by
  obtain ⟨c, head, mem⟩ := names.initial
  obtain ⟨c', head', mem'⟩ := names'.initial
  obtain rfl := Option.some.inj (head.symm.trans head')
  exact SplitOp.eq_of_initial mem mem'

/-- No variable starts with both names of an operation. -/
theorem afterWord_symbol {op : SplitOp} {env rest : List Char}
    (byWord : afterWord op.word env = some rest) : afterWord op.symbol env = none := by
  by_contra both
  obtain ⟨rest', bySymbol⟩ := Option.ne_none_iff_exists'.1 both
  obtain ⟨c, head, -⟩ := Names.initial (.inl byWord)
  cases op <;> exact absurd ((head_of_afterWord byWord head).symm.trans
    (head_of_afterWord bySymbol head)) (by decide)

theorem Names.rest_unique {op : SplitOp} {env rest rest' : List Char}
    (names : Names op env rest) (names' : Names op env rest') : rest = rest' := by
  rcases names with byWord | bySymbol
  · rcases names' with byWord' | bySymbol'
    · exact Option.some.inj (byWord.symm.trans byWord')
    · rw [afterWord_symbol byWord] at bySymbol'
      cases bySymbol'
  · rcases names' with byWord' | bySymbol'
    · rw [afterWord_symbol byWord'] at bySymbol
      cases bySymbol
    · exact Option.some.inj (bySymbol.symm.trans bySymbol')

/-- What an `if` makes of the variable that names its operation, the colour being zero. -/
theorem Names.splitBy {op : SplitOp} {env rest : List Char} (names : Names op env rest)
    (proc : Int) : splitBy op env proc 0 =
      if (operand rest).isSome then op.apply proc (narrowed rest) else some 0 := by
  have parsed : parseOperand op env 0 = parseInt rest 0 := by
    unfold parseOperand
    rcases names with byWord | bySymbol
    · rw [byWord, afterWord_symbol byWord]
      cases accepted : (parseInt rest 0).1 with
      | true => exact if_pos accepted
      | false =>
        have kept : (false, (parseInt rest 0).2) = parseInt rest 0 := by rw [← accepted]
        exact (if_neg (Bool.eq_false_iff.1 accepted)).trans kept
    · have no_word : afterWord op.word env = none := by
        by_contra both
        obtain ⟨rest', byWord⟩ := Option.ne_none_iff_exists'.1 both
        rw [afterWord_symbol byWord] at bySymbol
        cases bySymbol
      rw [bySymbol, no_word]
      rfl
  rw [SplitColor.splitBy, parsed, ← parseInt_fst rest 0]
  split
  · next accepted => rw [parseInt_snd accepted]
  · next failed => rw [parseInt_zero (Bool.eq_false_iff.2 failed)]

/-- An `if` leaves the colour alone where another operation is named, or none. -/
theorem splitBy_of_not_names {op : SplitOp} {env : List Char} (other : ∀ rest, ¬Names op env rest)
    (proc color : Int) : splitBy op env proc color = some color := by
  have no_word : afterWord op.word env = none := by
    by_contra some_
    obtain ⟨rest, byWord⟩ := Option.ne_none_iff_exists'.1 some_
    exact other rest (.inl byWord)
  have no_symbol : afterWord op.symbol env = none := by
    by_contra some_
    obtain ⟨rest, bySymbol⟩ := Option.ne_none_iff_exists'.1 some_
    exact other rest (.inr bySymbol)
  rw [splitBy, parseOperand, no_word, no_symbol]
  rfl

/-- **One operation is applied at most.** -/
theorem Names.runColor {op : SplitOp} {env rest : List Char} (names : Names op env rest)
    (proc : Int) : runColor none (some env) proc =
      if (operand rest).isSome then op.apply proc (narrowed rest) else some 0 := by
  have others {op' : SplitOp} (apart : op' ≠ op) (color : Int) :
      SplitColor.splitBy op' env proc color = some color :=
    splitBy_of_not_names (fun rest' names' => apart (names'.op_unique names)) proc color
  have applied := names.splitBy proc
  rw [← applied]
  unfold SplitColor.runColor
  dsimp only
  cases op with
  | and => cases SplitColor.splitBy .and env proc 0 <;> simp [others]
  | or => cases color : SplitColor.splitBy .or env proc 0 <;> simp [others, color]
  | mod => cases color : SplitColor.splitBy .mod env proc 0 <;> simp [others, color]
  | div => simp [others]

theorem runColor_of_not_names {env : List Char} (none_ : ∀ op rest, ¬Names op env rest)
    (proc : Int) : runColor none (some env) proc = some 0 := by
  unfold runColor
  simp [splitBy_of_not_names (none_ _)]

/-- **Every process gets the colour that is documented if and only if the operand, as it is
narrowed, agrees with the one that is written.** The text is an operation, by word or by symbol,
followed by a number in any of the four bases (`Names`, `operand`). `narrowed` is what `strtoul`
makes of it, cut to an `int`, and `Agrees` says for which two operands an operation gives all
processes the same colour, and not a negative one. -/
theorem wellDefined_iff (env : List Char) : WellDefined env ↔
    ∀ op rest v, Names op env rest → operand rest = some v → op.Agrees v (narrowed rest) := by
  have range (rest : List Char) : -2 ^ 31 ≤ narrowed rest ∧ narrowed rest < 2 ^ 31 :=
    ⟨le_int32 _, int32_lt _⟩
  constructor
  · intro defined op rest v names written
    refine (same_iff op (range rest).1 (range rest).2).1 ?_
    intro p less
    obtain ⟨color, run, nonneg, documented⟩ := defined p (Int.natCast_nonneg p) (by omega)
    rw [names.runColor, written, Option.isSome_some, if_pos rfl] at run
    exact ⟨color, run, nonneg, documented op rest v names written⟩
  · intro agrees proc nonneg less
    obtain ⟨p, rfl⟩ := Int.eq_ofNat_of_zero_le nonneg
    by_cases named : ∃ op rest, Names op env rest
    · obtain ⟨op, rest, names⟩ := named
      rw [names.runColor]
      cases written : operand rest with
      | none =>
        refine ⟨0, rfl, le_rfl, ?_⟩
        intro op' rest' v names' written'
        obtain rfl := names'.op_unique names
        rw [names'.rest_unique names, written] at written'
        cases written'
      | some v =>
        have same := (same_iff op (range rest).1 (range rest).2).2 (agrees op rest v names written)
        obtain ⟨color, run, positive, documented⟩ := same p (by omega)
        refine ⟨color, run, positive, ?_⟩
        intro op' rest' v' names' written'
        obtain rfl := names'.op_unique names
        rw [names'.rest_unique names, written] at written'
        cases written'
        exact documented
    · have nothing := runColor_of_not_names (fun op rest names => named ⟨op, rest, names⟩) p
      refine ⟨0, nothing, le_rfl, ?_⟩
      intro op rest v names
      exact absurd ⟨op, rest, names⟩ named

/-- `NCCL_TESTS_SPLIT="MOD 0"`. -/
theorem mod_zero_undefined : ¬∀ env, WellDefined env := by
  intro defined
  obtain ⟨color, run, -⟩ := defined "MOD 0".toList 0 le_rfl (by norm_num)
  have divides : runColor none (some "MOD 0".toList) 0 = none := by decide +kernel
  rw [divides] at run
  cases run

end NcclTests.Harness.SplitColor
