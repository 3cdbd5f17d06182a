import Mathlib
import NcclTests.Harness.OutputFile

/-!
# Options on Windows

`getopt_long` of `os/windows.cc`, where the C library has none. What is left of a word of short
options stays in `nextchar` from call to call; a pointer into a string is the rest of the string
from there on. `optind` cannot overflow: it does not get past `argc`.
-/

namespace NcclTests.Harness

/-- `struct option`; `flag` is the name of a variable. -/
structure LongOption where
  name : CString
  has_arg : Int
  flag : Option Nat
  val : Int
  deriving DecidableEq, Repr

def no_argument : Int := 0

def required_argument : Int := 1

def optional_argument : Int := 2

/-- The variables of `getopt_long` and what it writes to; `longindex` is `none` when there is no
`*longindex`. -/
structure Getopt where
  optind : Int
  opterr : Int
  optopt : Int
  optarg : Option CString
  nextchar : Option CString
  longindex : Option Nat
  flags : Nat → Int
  stderr : List CString

namespace Getopt

def print (s : Getopt) (text : CString) : Getopt :=
  if s.opterr = 0 then s else { s with stderr := s.stderr ++ [text] }

end Getopt

section Calls

variable (argc : Int) (argv : Nat → Option CString)

/-- `argv[i]`, where `i` is an index of an argument. -/
def argvAt (i : Int) : Option (Option CString) :=
  if 0 ≤ i ∧ i < argc then some (argv i.toNat) else none

variable (optstring : CString) (longopts : List LongOption)

/-- `strncmp` and `strlen` of the entry against the name in the argument. -/
def LongOption.isNamed (name : CString) (name_len : Nat) (entry : LongOption) : Bool :=
  entry.name.take name_len == name.take name_len && entry.name.length == name_len

/-- `*flag` is set, or the value is returned. -/
def LongOption.deliver (entry : LongOption) (s : Getopt) : Int × Getopt :=
  match entry.flag with
  | some flag => (0, { s with flags := Function.update s.flags flag entry.val })
  | none => (entry.val, s)

/-- The argument `arg` is `--` and `name`. -/
def longOption (s : Getopt) (name arg : CString) : Option (Int × Getopt) := do
  -- empty where `equals` is null
  let equals := name.dropWhile (· ≠ '=')
  let name_len := name.length - equals.length
  match longopts.zipIdx.find? fun entry => entry.1.isNamed name name_len with
  | some (entry, i) =>
    let s := { s with longindex := s.longindex.map fun _ => i, optind := s.optind + 1 }
    if entry.has_arg = required_argument then
      if equals ≠ [] then
        return entry.deliver { s with optarg := some equals.tail }
      else if s.optind < argc then
        let optarg ← argvAt argc argv s.optind
        return entry.deliver { s with optarg := optarg, optind := s.optind + 1 }
      else
        return (Char.toNat '?',
          s.print ("Option --".toList ++ entry.name ++ " requires an argument\n".toList))
    else if entry.has_arg = optional_argument ∧ equals ≠ [] then
      return entry.deliver { s with optarg := some equals.tail }
    else
      return entry.deliver s
  | none =>
    let s := s.print ("Unrecognized option: ".toList ++ arg ++ "\n".toList)
    return (Char.toNat '?', { s with optind := s.optind + 1 })

/-- The word is read through: `optind++` and `nextchar = NULL`, or the cursor stays in it. -/
def Getopt.past (s : Getopt) (next : CString) : Getopt :=
  if next = [] then { s with optind := s.optind + 1, nextchar := none }
  else { s with nextchar := some next }

/-- `*nextchar++` is `c`, and `next` is left. -/
def shortOption (s : Getopt) (c : Char) (next : CString) : Option (Int × Getopt) := do
  match optstring.dropWhile (· ≠ c) with
  | [] =>
    let s := { s with optopt := charOf true c.toNat }
    let s := s.print ("Invalid option: -".toList ++ [c] ++ "\n".toList)
    return (Char.toNat '?', s.past next)
  | _ :: ':' :: _ =>
    if next ≠ [] then
      return (charOf true c.toNat,
        { s with optarg := some next, optind := s.optind + 1, nextchar := none })
    else if s.optind + 1 < argc then
      let optarg ← argvAt argc argv (s.optind + 1)
      return (charOf true c.toNat,
        { s with optarg := optarg, optind := s.optind + 2, nextchar := none })
    else
      let s := { s with optopt := charOf true c.toNat }
      let s := s.print ("Option -".toList ++ [c] ++ " requires an argument\n".toList)
      return (Char.toNat '?', { s with optind := s.optind + 1, nextchar := none })
  | _ => return (charOf true c.toNat, s.past next)

/-- `none` is an access to `argv` outside of the arguments. -/
def getopt_long (s : Getopt) : Option (Int × Getopt) := do
  let s := if s.optind = 0 then { s with optind := 1 } else s
  let s := { s with optarg := none }
  if s.optind ≥ argc then return (-1, s)
  match ← argvAt argc argv s.optind with
  | some ('-' :: '-' :: name) => longOption argc argv longopts s name ('-' :: '-' :: name)
  | some ('-' :: c :: rest) =>
    match s.nextchar with
    | some (c' :: next) => shortOption argc argv optstring s c' next
    | _ => shortOption argc argv optstring s c rest
  | _ => return (-1, s)

/-- A number of calls after each other. -/
def Getopt.after : Nat → Getopt → Option Getopt
  | 0, s => some s
  | n + 1, s => (getopt_long argc argv optstring longopts s).bind fun call => after n call.2

end Calls

/-! ## One call -/

section Step

variable {argc : Int} {argv : Nat → Option CString} {optstring : CString}
  {longopts : List LongOption} {s s' : Getopt}

@[simp] theorem Getopt.print_optind (text : CString) : (s.print text).optind = s.optind := by
  rw [Getopt.print]
  split <;> rfl

@[simp] theorem Getopt.print_nextchar (text : CString) :
    (s.print text).nextchar = s.nextchar := by
  rw [Getopt.print]
  split <;> rfl

@[simp] theorem LongOption.deliver_optind (entry : LongOption) :
    (entry.deliver s).2.optind = s.optind := by
  rw [LongOption.deliver]
  split <;> rfl

@[simp] theorem LongOption.deliver_nextchar (entry : LongOption) :
    (entry.deliver s).2.nextchar = s.nextchar := by
  rw [LongOption.deliver]
  split <;> rfl

theorem argvAt_of_lt {i : Int} (low : 0 ≤ i) (high : i < argc) :
    argvAt argc argv i = some (argv i.toNat) :=
  if_pos ⟨low, high⟩

/-- The letters that the next call reads. -/
def Getopt.pending (argv : Nat → Option CString) (s : Getopt) : CString :=
  match s.nextchar, argv s.optind.toNat with
  | some rest, _ => rest
  | none, some (_ :: rest) => rest
  | none, _ => []

/-- `optind` moves on to a word that no letter was read of, or the cursor moves on in its word. -/
inductive Getopt.Advances (argc : Int) (argv : Nat → Option CString) (s s' : Getopt) : Prop
  | word : s.optind < s'.optind → s'.optind ≤ argc → s'.nextchar = none → Advances argc argv s s'
  | letter (c : Char) (next : CString) : s'.optind = s.optind → s.pending argv = c :: next →
    next ≠ [] → s'.nextchar = some next → Advances argc argv s s'

/-- No option is left at `optind`. -/
def Getopt.AtEnd (argc : Int) (argv : Nat → Option CString) (s : Getopt) : Prop :=
  argc ≤ s.optind ∨ ∀ c rest, argv s.optind.toNat ≠ some ('-' :: c :: rest)

/-- Between the calls the cursor is nowhere, or inside of the word at `optind`, which is not that
of a long option. -/
structure Getopt.Between (argc : Int) (argv : Nat → Option CString) (s : Getopt) : Prop where
  first : 1 ≤ s.optind
  last : s.optind ≤ max 1 argc
  cursor : s.nextchar = none ∨ ∃ c read rest, c ≠ '-' ∧ rest ≠ [] ∧ s.optind < argc ∧
    argv s.optind.toNat = some ('-' :: c :: (read ++ rest)) ∧ s.nextchar = some rest

theorem longOption_spec (low : 0 ≤ s.optind) (high : s.optind < argc) (name arg : CString) :
    ∃ v s', longOption argc argv longopts s name arg = some (v, s') ∧ s.optind < s'.optind ∧
      s'.optind ≤ argc ∧ s'.nextchar = s.nextchar := by
  rw [longOption]
  split
  · next entry i found =>
    have delivered (s₀ : Getopt) (moved : s.optind < s₀.optind ∧ s₀.optind ≤ argc ∧
        s₀.nextchar = s.nextchar) :
        ∃ v s', some (entry.deliver s₀) = some (v, s') ∧ s.optind < s'.optind ∧
          s'.optind ≤ argc ∧ s'.nextchar = s.nextchar := by
      refine ⟨(entry.deliver s₀).1, (entry.deliver s₀).2, rfl, ?_⟩
      rwa [LongOption.deliver_optind, LongOption.deliver_nextchar]
    have next_ : s.optind < s.optind + 1 ∧ s.optind + 1 ≤ argc := by omega
    dsimp only
    split
    · split
      · exact delivered _ ⟨next_.1, next_.2, rfl⟩
      split
      · next more =>
        rw [argvAt_of_lt (by omega) more]
        exact delivered _ ⟨by dsimp only; omega, by dsimp only; omega, rfl⟩
      · refine ⟨_, _, rfl, ?_⟩
        rw [Getopt.print_optind, Getopt.print_nextchar]
        exact ⟨next_.1, next_.2, rfl⟩
    · split
      · exact delivered _ ⟨next_.1, next_.2, rfl⟩
      · exact delivered _ ⟨next_.1, next_.2, rfl⟩
  · refine ⟨_, _, rfl, ?_⟩
    dsimp only
    rw [Getopt.print_optind, Getopt.print_nextchar]
    exact ⟨by omega, by omega, rfl⟩

/-- After the letter `c` the cursor has left the word, or is on the letter behind. -/
theorem shortOption_spec (low : 0 ≤ s.optind) (high : s.optind < argc) (c : Char)
    (next : CString) :
    ∃ v s', shortOption argc argv optstring s c next = some (v, s') ∧
      (s.optind < s'.optind ∧ s'.optind ≤ argc ∧ s'.nextchar = none ∨
        s'.optind = s.optind ∧ next ≠ [] ∧ s'.nextchar = some next) := by
  have past (s₀ : Getopt) (same : s₀.optind = s.optind) :
      s.optind < (s₀.past next).optind ∧ (s₀.past next).optind ≤ argc ∧
          (s₀.past next).nextchar = none ∨
        (s₀.past next).optind = s.optind ∧ next ≠ [] ∧
          (s₀.past next).nextchar = some next := by
    rw [Getopt.past]
    split
    · left
      simp [same]
      omega
    · next more => exact Or.inr ⟨same, more, rfl⟩
  rw [shortOption]
  split
  · exact ⟨_, _, rfl, past _ (by simp)⟩
  · split
    · refine ⟨_, _, rfl, Or.inl ?_⟩
      simp
      omega
    split
    · next more =>
      rw [argvAt_of_lt (by omega) more]
      refine ⟨_, _, rfl, Or.inl ?_⟩
      simp
      omega
    · refine ⟨_, _, rfl, Or.inl ?_⟩
      simp
      omega
  · exact ⟨_, _, rfl, past s rfl⟩

/-- The letter that is read of a word of short options is the first one or that at the cursor. -/
theorem Getopt.Between.exists_letter (between : s.Between argc argv) {c : Char} {rest : CString}
    (word : argv s.optind.toNat = some ('-' :: c :: rest)) :
    ∃ c' read next, s.pending argv = c' :: next ∧ rest = read ++ next ∧
      (s.nextchar = some (c' :: next) ∨ s.nextchar = none ∧ c' = c ∧ next = rest) := by
  rcases between.cursor with start | ⟨c₀, read, rest', _, some_, _, word', inside⟩
  · refine ⟨c, [], rest, ?_, rfl, Or.inr ⟨start, rfl, rfl⟩⟩
    rw [Getopt.pending, start, word]
  · obtain ⟨c', next, rfl⟩ := List.exists_cons_of_ne_nil some_
    refine ⟨c', read ++ [c'], next, ?_, ?_, Or.inl inside⟩
    · rw [Getopt.pending, inside]
    · rw [word, Option.some.injEq, List.cons.injEq, List.cons.injEq] at word'
      rw [word'.2.2, List.append_assoc, List.singleton_append]

/-- What a call does: it moves on, or finds no option. -/
theorem getopt_long_spec (between : s.Between argc argv) :
    ∃ v s', getopt_long argc argv optstring longopts s = some (v, s') ∧ s'.Between argc argv ∧
      (s.Advances argc argv s' ∨
        s.AtEnd argc argv ∧ v = -1 ∧ s' = { s with optarg := none }) := by
  have first := between.first
  have nonzero : s.optind ≠ 0 := by omega
  have ended (end_ : s.AtEnd argc argv) :
      ∃ v s', some ((-1 : Int), { s with optarg := none }) = some (v, s') ∧ s'.Between argc argv ∧
        (s.Advances argc argv s' ∨ s.AtEnd argc argv ∧ v = -1 ∧ s' = { s with optarg := none }) :=
    ⟨-1, _, rfl, ⟨between.first, between.last, between.cursor⟩, Or.inr ⟨end_, rfl, rfl⟩⟩
  rw [getopt_long, if_neg nonzero]
  dsimp only
  split
  · next through => exact ended (Or.inl through)
  next more =>
  rw [argvAt_of_lt (by omega) (by omega), Option.bind_eq_bind, Option.bind_some]
  split
  · next name word =>
    obtain ⟨v, s', call, less, le, same⟩ :=
      @longOption_spec argc argv longopts { s with optarg := none } (by dsimp only; omega)
        (by dsimp only; omega) name ('-' :: '-' :: name)
    -- no cursor is left inside of a word that starts with two dashes
    have start : s.nextchar = none := by
      rcases between.cursor with start | ⟨c, read, rest, short, _, _, word', _⟩
      · exact start
      · rw [word, Option.some.injEq, List.cons.injEq, List.cons.injEq] at word'
        exact absurd word'.2.1.symm short
    have start' : s'.nextchar = none := same.trans start
    dsimp only at less
    exact ⟨v, s', call, ⟨by omega, by omega, Or.inl start'⟩, Or.inl (.word less le start')⟩
  · next c rest long word =>
    obtain ⟨c', read, next, pending, parts, cursor⟩ := between.exists_letter word
    obtain ⟨v, s', call, moved⟩ :=
      @shortOption_spec argc argv optstring { s with optarg := none } (by dsimp only; omega)
        (by dsimp only; omega) c' next
    refine ⟨v, s', ?_, ?_⟩
    · rcases cursor with inside | ⟨start, rfl, rfl⟩
      · rw [inside] at call ⊢
        exact call
      · rw [start] at call ⊢
        exact call
    · rcases moved with ⟨less, le, start'⟩ | ⟨same, some_, inside'⟩
      · dsimp only at less
        exact ⟨⟨by omega, by omega, Or.inl start'⟩, Or.inl (.word less le start')⟩
      · dsimp only at same
        refine ⟨⟨by omega, by omega, Or.inr ⟨c, read, next, long, some_, by omega, ?_, inside'⟩⟩,
          Or.inl (.letter c' next same pending some_ inside')⟩
        rw [same, word, parts]
  · next short =>
    exact ended (Or.inr short)

end Step

/-! ## Runs -/

section Runs

variable {argc : Int} {argv : Nat → Option CString} {optstring : CString}
  {longopts : List LongOption} {s : Getopt}

theorem after_succ {n : Nat} {v : Int} {s' : Getopt}
    (call : getopt_long argc argv optstring longopts s = some (v, s')) :
    s.after argc argv optstring longopts (n + 1) = s'.after argc argv optstring longopts n := by
  rw [Getopt.after, call, Option.bind_some]

theorem after_add (m n : Nat) (s : Getopt) :
    s.after argc argv optstring longopts (m + n) =
      (s.after argc argv optstring longopts m).bind
        fun s' => s'.after argc argv optstring longopts n := by
  induction m generalizing s with
  | zero => rw [Nat.zero_add, Getopt.after, Option.bind_some]
  | succ m ih =>
    rw [Nat.succ_add, Getopt.after, Getopt.after, Option.bind_assoc]
    simp only [ih]

/-- The variables are as between two calls after any number of calls. -/
theorem between_after (between : s.Between argc argv) (n : Nat) :
    ∃ s', s.after argc argv optstring longopts n = some s' ∧ s'.Between argc argv := by
  induction n generalizing s with
  | zero => exact ⟨s, rfl, between⟩
  | succ n ih =>
    obtain ⟨v, s', call, between', _⟩ :=
      @getopt_long_spec argc argv optstring longopts _ between
    rw [after_succ call]
    exact ih between'

/-- Words that are left, and letters of the first of them. -/
def Getopt.left (argc : Int) (argv : Nat → Option CString) (s : Getopt) : Nat ×ₗ Nat :=
  toLex ((argc - s.optind).toNat, (s.pending argv).length)

theorem Getopt.Advances.left_lt {s' : Getopt} (advances : s.Advances argc argv s') :
    s'.left argc argv < s.left argc argv := by
  rw [Getopt.left, Getopt.left, Prod.Lex.toLex_lt_toLex]
  rcases advances with ⟨less, le, _⟩ | ⟨c, next, same, pending, _, inside⟩
  · left
    dsimp only
    omega
  · right
    refine ⟨by rw [same], ?_⟩
    have rest : s'.pending argv = next := by rw [Getopt.pending, inside]
    dsimp only
    rw [pending, rest, List.length_cons]
    omega

/-- There is a call that finds no option. -/
theorem exists_atEnd (between : s.Between argc argv) :
    ∃ n s', s.after argc argv optstring longopts n = some s' ∧ s'.Between argc argv ∧
      s'.AtEnd argc argv := by
  induction left : s.left argc argv using WellFoundedLT.induction generalizing s with
  | ind x ih =>
    obtain ⟨v, s', call, between', advances | ⟨end_, _⟩⟩ :=
      @getopt_long_spec argc argv optstring longopts _ between
    · obtain ⟨n, s'', run, end_⟩ := ih _ (left ▸ advances.left_lt) between' rfl
      exact ⟨n + 1, s'', (after_succ call).trans run, end_⟩
    · exact ⟨0, s, rfl, between, end_⟩

theorem getopt_long_atEnd (between : s.Between argc argv) (end_ : s.AtEnd argc argv) :
    getopt_long argc argv optstring longopts s = some (-1, { s with optarg := none }) := by
  have first := between.first
  have nonzero : s.optind ≠ 0 := by omega
  rw [getopt_long, if_neg nonzero]
  dsimp only
  split
  · rfl
  next more =>
  rcases end_ with through | none_
  · exact absurd through more
  rw [argvAt_of_lt (by omega) (by omega), Option.bind_eq_bind, Option.bind_some]
  split
  · next name word => exact absurd word (none_ '-' name)
  · next c rest _ word => exact absurd word (none_ c rest)
  · rfl

/-- The calls go on finding none. -/
theorem atEnd_after (between : s.Between argc argv) (end_ : s.AtEnd argc argv) (n : Nat) :
    ∃ s', s.after argc argv optstring longopts n = some s' ∧ s'.Between argc argv ∧
      s'.AtEnd argc argv := by
  induction n generalizing s with
  | zero => exact ⟨s, rfl, between, end_⟩
  | succ n ih =>
    rw [after_succ (getopt_long_atEnd between end_)]
    exact ih ⟨between.first, between.last, between.cursor⟩ end_

end Runs

/-! ## One option, four ways -/

/-- A letter with a required argument and its long name. -/
structure LetterOption (optstring : CString) (longopts : List LongOption) (x : Char)
    (entry : LongOption) : Prop where
  letter : x.isAlpha = true
  required : (optstring.dropWhile (· ≠ x)).take 2 = [x, ':']
  mem : entry ∈ longopts
  unique : ∀ other ∈ longopts, other.name = entry.name → other = entry
  has_arg : entry.has_arg = required_argument
  flag : entry.flag = none
  val : entry.val = charOf true x.toNat
  plain : '=' ∉ entry.name

/-- A call returns `v` with this `optarg`, and the word `next` is the next one. -/
def Getopt.Delivers (argc : Int) (argv : Nat → Option CString) (optstring : CString)
    (longopts : List LongOption) (s : Getopt) (v : Int) (value : CString) (next : Int) : Prop :=
  ∃ s', getopt_long argc argv optstring longopts s = some (v, s') ∧ s'.optarg = some value ∧
    s'.optind = next ∧ s'.nextchar = none

section Ways

variable {argc : Int} {argv : Nat → Option CString} {optstring : CString}
  {longopts : List LongOption} {s : Getopt} {x : Char} {entry : LongOption} {value : CString}

/-- The call for a word of a long option. -/
theorem getopt_long_long (first : 1 ≤ s.optind) (more : s.optind < argc) {name : CString}
    (word : argv s.optind.toNat = some ('-' :: '-' :: name)) :
    getopt_long argc argv optstring longopts s =
      longOption argc argv longopts { s with optarg := none } name ('-' :: '-' :: name) := by
  have nonzero : s.optind ≠ 0 := by omega
  have below : ¬ s.optind ≥ argc := by omega
  rw [getopt_long, if_neg nonzero]
  dsimp only
  rw [if_neg below, argvAt_of_lt (by omega) more, word]
  rfl

/-- The call in a word of short options, for its first letter or that at the cursor. -/
theorem getopt_long_short (first : 1 ≤ s.optind) (more : s.optind < argc) {c c' : Char}
    {rest next : CString} (short : c ≠ '-')
    (word : argv s.optind.toNat = some ('-' :: c :: rest))
    (cursor : s.nextchar = none ∧ c' :: next = c :: rest ∨ s.nextchar = some (c' :: next)) :
    getopt_long argc argv optstring longopts s =
      shortOption argc argv optstring { s with optarg := none } c' next := by
  have nonzero : s.optind ≠ 0 := by omega
  have below : ¬ s.optind ≥ argc := by omega
  rw [getopt_long, if_neg nonzero]
  dsimp only
  rw [if_neg below, argvAt_of_lt (by omega) more, word, Option.bind_eq_bind, Option.bind_some]
  split
  · next name same =>
    rw [Option.some.injEq, List.cons.injEq, List.cons.injEq] at same
    exact absurd same.2.1 short
  · next same =>
    rw [Option.some.injEq, List.cons.injEq, List.cons.injEq] at same
    rcases cursor with ⟨start, letter⟩ | inside
    · rw [List.cons.injEq] at letter
      rw [start, ← same.2.1, ← same.2.2, letter.1, letter.2]
    · rw [inside]
  · next none_ => exact absurd rfl (none_ c rest)

theorem LetterOption.ne_dash (option : LetterOption optstring longopts x entry) : x ≠ '-' := by
  intro dash
  have letter := option.letter
  rw [dash] at letter
  exact absurd letter (by decide)

theorem LetterOption.exists_dropWhile (option : LetterOption optstring longopts x entry) :
    ∃ more, optstring.dropWhile (· ≠ x) = x :: ':' :: more := by
  have two := List.take_append_drop 2 (optstring.dropWhile (· ≠ x))
  rw [option.required] at two
  exact ⟨_, two.symm⟩

/-- The table has the name where the argument ends or has an equals sign behind it. -/
theorem find_entry (mem : entry ∈ longopts)
    (unique : ∀ other ∈ longopts, other.name = entry.name → other = entry)
    (plain : '=' ∉ entry.name) {tail : CString} (ends : tail = [] ∨ ∃ text, tail = '=' :: text) :
    (entry.name ++ tail).dropWhile (· ≠ '=') = tail ∧
      ∃ i, longopts.zipIdx.find? (fun other => other.1.isNamed (entry.name ++ tail)
        ((entry.name ++ tail).length - tail.length)) = some (entry, i) := by
  have passes : ∀ c ∈ entry.name, decide (c ≠ '=') = true := by
    intro c among
    rw [decide_eq_true_iff]
    intro same
    exact plain (same ▸ among)
  have stops : tail.dropWhile (· ≠ '=') = tail := by
    rcases ends with rfl | ⟨text, rfl⟩
    · rfl
    · rw [List.dropWhile_cons_of_neg (by simp)]
  have named (other : LongOption) : other.isNamed (entry.name ++ tail)
      ((entry.name ++ tail).length - tail.length) = true ↔ other.name = entry.name := by
    rw [LongOption.isNamed, List.length_append, Nat.add_sub_cancel, List.take_left,
      Bool.and_eq_true, beq_iff_eq, beq_iff_eq]
    constructor
    · rintro ⟨same, length⟩
      rwa [← length, List.take_length] at same
    · intro same
      rw [same, List.take_length]
      exact ⟨rfl, rfl⟩
  refine ⟨by rw [List.dropWhile_append_of_pos passes, stops], ?_⟩
  obtain ⟨i, at_⟩ := List.getElem?_of_mem mem
  have here : (entry, i) ∈ longopts.zipIdx := List.mk_mem_zipIdx_iff_getElem?.2 at_
  have some_ : (longopts.zipIdx.find? fun other => other.1.isNamed (entry.name ++ tail)
      ((entry.name ++ tail).length - tail.length)).isSome := by
    rw [List.find?_isSome]
    exact ⟨(entry, i), here, (named entry).2 rfl⟩
  obtain ⟨⟨other, j⟩, found⟩ := Option.isSome_iff_exists.1 some_
  have among := List.fst_mem_of_mem_zipIdx (List.mem_of_find?_eq_some found)
  have hit := List.find?_some found
  have same := unique other among ((named other).1 hit)
  exact ⟨j, same ▸ found⟩

theorem LetterOption.deliver (option : LetterOption optstring longopts x entry) (s : Getopt) :
    entry.deliver s = (charOf true x.toNat, s) := by
  rw [LongOption.deliver, option.flag, option.val]

/-- `-xVALUE` -/
theorem delivers_joined (option : LetterOption optstring longopts x entry) (first : 1 ≤ s.optind)
    (more : s.optind < argc) (start : s.nextchar = none) (some_ : value ≠ [])
    (word : argv s.optind.toNat = some ('-' :: x :: value)) :
    s.Delivers argc argv optstring longopts (charOf true x.toNat) value (s.optind + 1) := by
  obtain ⟨rest, required⟩ := option.exists_dropWhile
  rw [Getopt.Delivers, getopt_long_short first more option.ne_dash word (Or.inl ⟨start, rfl⟩),
    shortOption, required]
  dsimp only
  rw [if_pos some_]
  exact ⟨_, rfl, rfl, rfl, rfl⟩

/-- `-x VALUE` -/
theorem delivers_apart (option : LetterOption optstring longopts x entry) (first : 1 ≤ s.optind)
    (more : s.optind + 1 < argc) (start : s.nextchar = none)
    (word : argv s.optind.toNat = some ['-', x])
    (behind : argv (s.optind + 1).toNat = some value) :
    s.Delivers argc argv optstring longopts (charOf true x.toNat) value (s.optind + 2) := by
  obtain ⟨rest, required⟩ := option.exists_dropWhile
  rw [Getopt.Delivers,
    getopt_long_short first (by omega) option.ne_dash word (Or.inl ⟨start, rfl⟩), shortOption,
    required]
  dsimp only
  rw [if_neg (by simp), if_pos more, argvAt_of_lt (by omega) more, behind]
  exact ⟨_, rfl, rfl, rfl, rfl⟩

/-- `--name VALUE` -/
theorem delivers_long (option : LetterOption optstring longopts x entry) (first : 1 ≤ s.optind)
    (more : s.optind + 1 < argc) (start : s.nextchar = none)
    (word : argv s.optind.toNat = some ('-' :: '-' :: entry.name))
    (behind : argv (s.optind + 1).toNat = some value) :
    s.Delivers argc argv optstring longopts (charOf true x.toNat) value (s.optind + 2) := by
  obtain ⟨split_, i, found⟩ := find_entry option.mem option.unique option.plain (Or.inl rfl)
  rw [List.append_nil] at split_ found
  rw [Getopt.Delivers, getopt_long_long first (by omega) word, longOption]
  dsimp only
  rw [split_, found]
  dsimp only
  rw [if_pos option.has_arg, if_neg (by simp), if_pos more, argvAt_of_lt (by omega) more, behind,
    Option.bind_eq_bind, Option.bind_some, option.deliver]
  refine ⟨_, rfl, rfl, ?_, start⟩
  dsimp only
  omega

/-- `--name=VALUE` -/
theorem delivers_equals (option : LetterOption optstring longopts x entry) (first : 1 ≤ s.optind)
    (more : s.optind < argc) (start : s.nextchar = none)
    (word : argv s.optind.toNat = some ('-' :: '-' :: (entry.name ++ '=' :: value))) :
    s.Delivers argc argv optstring longopts (charOf true x.toNat) value (s.optind + 1) := by
  obtain ⟨split_, i, found⟩ :=
    find_entry option.mem option.unique option.plain (Or.inr ⟨value, rfl⟩)
  rw [Getopt.Delivers, getopt_long_long first more word, longOption]
  dsimp only
  rw [split_, found]
  dsimp only
  rw [if_pos option.has_arg, if_pos (by simp), option.deliver]
  exact ⟨_, rfl, rfl, rfl, start⟩

end Ways

/-- **The options of a command line.** From the first argument on, no number of calls accesses
`argv` outside of the arguments. Every call moves `optind` on or moves on in a word of short
options, unless no option is left; this is so after finitely many calls, and from then on all
calls return `-1`. Where a word begins, a letter with a required argument and its long name
deliver the same value, joined to the option or behind it. -/
theorem getopt_long_runs (argc : Int) (argv : Nat → Option CString) (optstring : CString)
    (longopts : List LongOption) (s : Getopt) (first : s.optind = 1)
    (fresh : s.nextchar = none) :
    (∀ n, ∃ s', s.after argc argv optstring longopts n = some s' ∧
      ∃ v s'', getopt_long argc argv optstring longopts s' = some (v, s'') ∧
        (s'.Advances argc argv s'' ∨ s'.AtEnd argc argv ∧ v = -1)) ∧
    (∃ n, ∀ m ≥ n, ∃ s', s.after argc argv optstring longopts m = some s' ∧
      ∃ s'', getopt_long argc argv optstring longopts s' = some (-1, s'')) ∧
    ∀ n s', s.after argc argv optstring longopts n = some s' → s'.nextchar = none →
      ∀ x entry value, LetterOption optstring longopts x entry → value ≠ [] →
      (s'.optind < argc → argv s'.optind.toNat = some ('-' :: x :: value) →
        s'.Delivers argc argv optstring longopts (charOf true x.toNat) value (s'.optind + 1)) ∧
      (s'.optind + 1 < argc → argv s'.optind.toNat = some ['-', x] →
        argv (s'.optind + 1).toNat = some value →
        s'.Delivers argc argv optstring longopts (charOf true x.toNat) value (s'.optind + 2)) ∧
      (s'.optind + 1 < argc → argv s'.optind.toNat = some ('-' :: '-' :: entry.name) →
        argv (s'.optind + 1).toNat = some value →
        s'.Delivers argc argv optstring longopts (charOf true x.toNat) value (s'.optind + 2)) ∧
      (s'.optind < argc →
        argv s'.optind.toNat = some ('-' :: '-' :: (entry.name ++ '=' :: value)) →
        s'.Delivers argc argv optstring longopts (charOf true x.toNat) value (s'.optind + 1)) := by
  have between : s.Between argc argv := ⟨by omega, by omega, Or.inl fresh⟩
  refine ⟨?_, ?_, ?_⟩
  · intro n
    obtain ⟨s', run, between'⟩ := @between_after argc argv optstring longopts _ between n
    obtain ⟨v, s'', call, _, advances | ⟨end_, minus, _⟩⟩ := getopt_long_spec between'
    · exact ⟨s', run, v, s'', call, Or.inl advances⟩
    · exact ⟨s', run, v, s'', call, Or.inr ⟨end_, minus⟩⟩
  · obtain ⟨n, s', run, between', end_⟩ := exists_atEnd between
    refine ⟨n, fun m le => ?_⟩
    obtain ⟨k, rfl⟩ := Nat.exists_eq_add_of_le le
    obtain ⟨s'', run', between'', end'⟩ := atEnd_after between' end_ k
    refine ⟨s'', ?_, _, getopt_long_atEnd between'' end'⟩
    rw [after_add, run, Option.bind_some, run']
  · intro n s' run start x entry value option some_
    obtain ⟨_, run', between'⟩ := @between_after argc argv optstring longopts _ between n
    obtain rfl := Option.some.inj (run.symm.trans run')
    have low := between'.first
    refine ⟨fun more => ?_, fun more => ?_, fun more => ?_, fun more => ?_⟩
    · exact delivers_joined option low more start some_
    · exact delivers_apart option low more start
    · exact delivers_long option low more start
    · exact delivers_equals option low more start

/-! ## The table of main -/

def mainOptstring : CString :=
  "t:g:b:e:i:f:n:m:w:N:p:I:K:c:o:d:r:z:y:T:hG:C:a:R:x:D:V:J:S:M:u:H:U:".toList

/-- `longopts` of `main`. -/
def mainLongopts : List LongOption :=
  [("nthreads", required_argument, 't'), ("ngpus", required_argument, 'g'),
    ("minbytes", required_argument, 'b'), ("maxbytes", required_argument, 'e'),
    ("stepbytes", required_argument, 'i'), ("stepfactor", required_argument, 'f'),
    ("iters", required_argument, 'n'), ("agg_iters", required_argument, 'm'),
    ("warmup_iters", required_argument, 'w'), ("run_cycles", required_argument, 'N'),
    ("parallel_init", required_argument, 'p'), ("check", required_argument, 'c'),
    ("op", required_argument, 'o'), ("datatype", required_argument, 'd'),
    ("root", required_argument, 'r'), ("blocking", required_argument, 'z'),
    ("stream_null", required_argument, 'y'), ("timeout", required_argument, 'T'),
    ("cudagraph", required_argument, 'G'), ("report_cputime", required_argument, 'C'),
    ("report_timestamps", required_argument, 'S'), ("output_file", required_argument, 'J'),
    ("average", required_argument, 'a'), ("local_register", required_argument, 'R'),
    ("cta_policy", required_argument, 'x'), ("device_implementation", required_argument, 'D'),
    ("device_cta_count", required_argument, 'V'), ("memory", required_argument, 'M'),
    ("unalign", required_argument, 'u'), ("per_iter_timing", required_argument, 'I'),
    ("per_iter_skip", required_argument, 'K'), ("host_rma_implementation", required_argument, 'H'),
    ("tuning", required_argument, 'U'), ("help", no_argument, 'h')].map
  fun entry => ⟨entry.1.toList, entry.2.1, none, charOf true entry.2.2.toNat⟩

instance (optstring : CString) (longopts : List LongOption) (x : Char) (entry : LongOption) :
    Decidable (LetterOption optstring longopts x entry) :=
  decidable_of_iff
    ((x.isAlpha = true ∧ (optstring.dropWhile (· ≠ x)).take 2 = [x, ':'] ∧ entry ∈ longopts) ∧
      (∀ other ∈ longopts, other.name = entry.name → other = entry) ∧
      (entry.has_arg = required_argument ∧ entry.flag = none ∧
        entry.val = charOf true x.toNat) ∧ '=' ∉ entry.name)
    ⟨fun all => ⟨all.1.1, all.1.2.1, all.1.2.2, all.2.1, all.2.2.1.1, all.2.2.1.2.1,
        all.2.2.1.2.2, all.2.2.2⟩,
      fun option => ⟨⟨option.letter, option.required, option.mem⟩, option.unique,
        ⟨option.has_arg, option.flag, option.val⟩, option.plain⟩⟩

/-- Every option of `main` with an argument has a letter and a long name of its own. -/
theorem main_letterOption :
    ∀ entry ∈ mainLongopts, entry.has_arg = required_argument →
      LetterOption mainOptstring mainLongopts (Char.ofNat entry.val.toNat) entry := by
  decide +kernel

/-- `all_reduce_perf --minbytes=8 -e 1G` -/
theorem getopt_long_runs_sizes :
    let argv := fun i => ["all_reduce_perf".toList, "--minbytes=8".toList, "-e".toList,
      "1G".toList][i]?
    let s : Getopt := ⟨1, 1, 0, none, none, some 0, fun _ => 0, []⟩
    (∃ n, ∀ m ≥ n, ∃ s', s.after 4 argv mainOptstring mainLongopts m = some s' ∧
      ∃ s'', getopt_long 4 argv mainOptstring mainLongopts s' = some (-1, s'')) ∧
    s.Delivers 4 argv mainOptstring mainLongopts (Char.toNat 'b') "8".toList 2 := by
  intro argv s
  obtain ⟨_, ends, ways⟩ := getopt_long_runs 4 argv mainOptstring mainLongopts s rfl rfl
  have option := main_letterOption ⟨"minbytes".toList, required_argument, none, 98⟩
    (by decide +kernel) rfl
  obtain ⟨_, _, _, equals⟩ := ways 0 s rfl rfl _ _ "8".toList option (by decide)
  have letter : charOf true (Char.ofNat (98 : Int).toNat).toNat = Char.toNat 'b' := by decide
  refine ⟨ends, ?_⟩
  rw [← letter]
  exact equals (by decide) (by decide +kernel)

end NcclTests.Harness
