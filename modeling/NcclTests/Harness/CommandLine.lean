import Mathlib
import NcclTests.Harness.GetoptLong

/-!
# Command lines on Windows

The loop around `getopt_long`, which asks for options until there are none. What it receives of a
command line does not depend on how the options are spelled: flags in a word of their own or in
one with others, arguments joined or apart, short and long names (`options_read`).
-/

namespace NcclTests.Harness

section Loop

variable (argc : Int) (argv : Nat → Option CString) (optstring : CString)
  (longopts : List LongOption)

/-- `while(1)` around `getopt_long`: the values returned with `optarg`, and what is left when `-1`
is returned. -/
def Getopt.options : Nat → Getopt → Option (List (Int × Option CString) × Getopt)
  | 0, _ => none
  | fuel + 1, s => do
    let (c, s) ← getopt_long argc argv optstring longopts s
    if c = -1 then
      return ([], s)
    let (rest, last) ← options fuel s
    return ((c, s.optarg) :: rest, last)

/-- Calls that return options. -/
inductive Getopt.Calls : Getopt → List (Int × Option CString) → Getopt → Prop
  | none {s : Getopt} : Calls s [] s
  | call {s s' last : Getopt} {v : Int} {rest : List (Int × Option CString)} :
    getopt_long argc argv optstring longopts s = some (v, s') → v ≠ -1 → Calls s' rest last →
    Calls s ((v, s'.optarg) :: rest) last

end Loop

section Calls

variable {argc : Int} {argv : Nat → Option CString} {optstring : CString}
  {longopts : List LongOption} {s s' last : Getopt} {read rest : List (Int × Option CString)}

theorem Getopt.Calls.append (first : s.Calls argc argv optstring longopts read s')
    (second : s'.Calls argc argv optstring longopts rest last) :
    s.Calls argc argv optstring longopts (read ++ rest) last := by
  induction first with
  | none => exact second
  | call call option _ ih => exact .call call option (ih second)

/-- The loop goes through calls that return options. -/
theorem Getopt.Calls.options (calls : s.Calls argc argv optstring longopts read s')
    (ends : getopt_long argc argv optstring longopts s' = some (-1, last)) {fuel : Nat}
    (enough : read.length < fuel) :
    s.options argc argv optstring longopts fuel = some (read, last) := by
  induction calls generalizing fuel with
  | none =>
    obtain ⟨fuel, rfl⟩ := Nat.exists_eq_add_of_lt enough
    rw [Getopt.options, ends]
    rfl
  | call call option _ ih =>
    rw [List.length_cons] at enough
    obtain ⟨fuel, rfl⟩ := Nat.exists_eq_add_of_lt (Nat.zero_lt_of_lt enough)
    rw [Nat.zero_add] at enough ⊢
    rw [Getopt.options, call, Option.bind_eq_bind, Option.bind_some]
    dsimp only
    rw [if_neg option, ih ends (by omega)]
    rfl

end Calls

/-! ## What stands on a command line -/

/-- A letter without an argument. -/
structure IsFlag (optstring : CString) (x : Char) : Prop where
  letter : x.isAlpha = true
  here : (optstring.dropWhile (· ≠ x)).head? = some x
  bare : (optstring.dropWhile (· ≠ x)).tail.head? ≠ some ':'

/-- A letter with a required argument. -/
structure IsOption (optstring : CString) (x : Char) : Prop where
  letter : x.isAlpha = true
  required : (optstring.dropWhile (· ≠ x)).take 2 = [x, ':']

/-- A long name and the letter that it stands for. -/
structure IsLong (longopts : List LongOption) (has_arg : Int) (x : Char) (entry : LongOption) :
    Prop where
  letter : x.isAlpha = true
  mem : entry ∈ longopts
  unique : ∀ other ∈ longopts, other.name = entry.name → other = entry
  has_arg : entry.has_arg = has_arg
  flag : entry.flag = none
  val : entry.val = charOf true x.toNat
  plain : '=' ∉ entry.name

/-- Options as they may be spelled. -/
inductive Item (optstring : CString) (longopts : List LongOption)
  /-- `-abc` -/
  | flags (letters : List Char) (some_ : letters ≠ []) (known : ∀ c ∈ letters, IsFlag optstring c)
  /-- `-abcxVALUE` -/
  | joined (letters : List Char) (known : ∀ c ∈ letters, IsFlag optstring c) (x : Char)
    (option : IsOption optstring x) (value : CString) (some_ : value ≠ [])
  /-- `-abcx VALUE` -/
  | apart (letters : List Char) (known : ∀ c ∈ letters, IsFlag optstring c) (x : Char)
    (option : IsOption optstring x) (value : CString)
  /-- `--name` -/
  | longFlag (x : Char) (entry : LongOption) (long : IsLong longopts no_argument x entry)
  /-- `--name VALUE` -/
  | long (x : Char) (entry : LongOption) (long : IsLong longopts required_argument x entry)
    (value : CString)
  /-- `--name=VALUE` -/
  | equals (x : Char) (entry : LongOption) (long : IsLong longopts required_argument x entry)
    (value : CString)

namespace Item

variable {optstring : CString} {longopts : List LongOption}

/-- The words on the command line. -/
def words : Item optstring longopts → List CString
  | flags letters _ _ => ['-' :: letters]
  | joined letters _ x _ value _ => ['-' :: (letters ++ x :: value)]
  | apart letters _ x _ value => ['-' :: (letters ++ [x]), value]
  | longFlag _ entry _ => ['-' :: '-' :: entry.name]
  | long _ entry _ value => ['-' :: '-' :: entry.name, value]
  | equals _ entry _ value => ['-' :: '-' :: (entry.name ++ '=' :: value)]

/-- A letter as it is returned. -/
def letter (x : Char) (value : Option CString) : Int × Option CString :=
  (charOf true x.toNat, value)

/-- The options that are meant. -/
def means : Item optstring longopts → List (Int × Option CString)
  | flags letters _ _ => letters.map fun c => letter c none
  | joined letters _ x _ value _ => (letters.map fun c => letter c none) ++ [letter x value]
  | apart letters _ x _ value => (letters.map fun c => letter c none) ++ [letter x value]
  | longFlag x _ _ => [letter x none]
  | long x _ _ value => [letter x value]
  | equals x _ _ value => [letter x value]

end Item

/-! ## Reading an item -/

/-- `argv` of these arguments, with a null pointer behind them. -/
def argvOf (args : List CString) : Nat → Option CString := fun i => args[i]?

/-- A word begins at `optind`, and these are the words from there on. -/
structure Getopt.AtWord (args : List CString) (s : Getopt) (words : List CString) : Prop where
  first : 1 ≤ s.optind
  last : s.optind ≤ args.length
  start : s.nextchar = none
  here : args.drop s.optind.toNat = words

/-- The next call reads the first of these letters. They end the word at `optind`, and behind it
are these words. -/
structure Getopt.InWord (args : List CString) (s : Getopt) (letters : CString)
    (words : List CString) : Prop where
  first : 1 ≤ s.optind
  here : ∃ c more, c ≠ '-' ∧ args.drop s.optind.toNat = ('-' :: c :: more) :: words ∧
    (s.nextchar = none ∧ letters = c :: more ∨ s.nextchar = some letters)

section Read

variable {optstring : CString} {longopts : List LongOption} {args words : List CString}
  {s : Getopt} {word : CString}

theorem alpha_lt {x : Char} (letter : x.isAlpha = true) : x.toNat < 128 := by
  simp only [Char.isAlpha, Char.isUpper, Char.isLower, Bool.or_eq_true, Bool.and_eq_true,
    decide_eq_true_iff] at letter
  rcases letter with ⟨_, le⟩ | ⟨_, le⟩
  · exact lt_of_le_of_lt (UInt32.le_iff_toNat_le.1 le) (by decide)
  · exact lt_of_le_of_lt (UInt32.le_iff_toNat_le.1 le) (by decide)

theorem letter_ne_end {x : Char} (letter : x.isAlpha = true) : charOf true x.toNat ≠ -1 := by
  have less := alpha_lt letter
  rw [charOf, if_pos rfl, Int.bmod_eq_of_le_mul_two (by omega) (by omega)]
  omega

theorem ne_dash_of_alpha {x : Char} (letter : x.isAlpha = true) : x ≠ '-' := by
  intro dash
  rw [dash] at letter
  exact absurd letter (by decide)

/-- Words from `optind` on are read there. -/
theorem exists_argvOf (low : 0 ≤ s.optind)
    (here : args.drop s.optind.toNat = word :: words) :
    s.optind < args.length ∧ argvOf args s.optind.toNat = some word ∧
      args.drop (s.optind + 1).toNat = words := by
  have head : (args.drop s.optind.toNat)[0]? = some word := by rw [here, List.getElem?_cons_zero]
  have tail := congrArg List.tail here
  rw [List.getElem?_drop, Nat.add_zero] at head
  rw [List.tail_drop, List.tail_cons] at tail
  obtain ⟨inside, _⟩ := List.getElem?_eq_some_iff.1 head
  have next_ : (s.optind + 1).toNat = s.optind.toNat + 1 := by omega
  exact ⟨by omega, head, by rw [next_]; exact tail⟩

/-- A call in a word of short options. -/
theorem Getopt.InWord.call {c : Char} {next : CString}
    (inside : s.InWord args (c :: next) words) :
    s.optind < args.length ∧ args.drop (s.optind + 1).toNat = words ∧
      getopt_long args.length (argvOf args) optstring longopts s =
        shortOption args.length (argvOf args) optstring { s with optarg := none } c next := by
  have first := inside.first
  obtain ⟨c', more, short, here, cursor⟩ := inside.here
  obtain ⟨less, word, rest⟩ := exists_argvOf (by omega) here
  exact ⟨less, rest, getopt_long_short first less short word cursor⟩

/-- The first letter of a word. -/
theorem Getopt.AtWord.inWord {c : Char} {more : CString} (short : c ≠ '-')
    (at_ : s.AtWord args (('-' :: c :: more) :: words)) : s.InWord args (c :: more) words :=
  ⟨at_.first, c, more, short, at_.here, Or.inl ⟨at_.start, rfl⟩⟩

/-- A flag is returned; what follows it in the word is next, or the word behind. -/
theorem Getopt.InWord.flag {c : Char} {next : CString} (flag : IsFlag optstring c)
    (inside : s.InWord args (c :: next) words) :
    ∃ s', s.Calls args.length (argvOf args) optstring longopts [Item.letter c none] s' ∧
      (next = [] → s'.AtWord args words) ∧ (next ≠ [] → s'.InWord args next words) := by
  have first := inside.first
  obtain ⟨less, rest, call⟩ := @Getopt.InWord.call optstring longopts _ _ _ _ _ inside
  obtain ⟨c', more, short, here, _⟩ := inside.here
  have returned : shortOption args.length (argvOf args) optstring { s with optarg := none } c next =
      some (charOf true c.toNat, { s with optarg := none }.past next) := by
    have there := flag.here
    have bare := flag.bare
    rw [shortOption]
    split
    · next none_ =>
      rw [none_] at there
      cases there
    · next colon =>
      rw [colon] at bare
      exact absurd rfl bare
    · rfl
  rw [returned] at call
  have calls := Getopt.Calls.call call (letter_ne_end flag.letter) .none
  by_cases through : next = []
  · rw [Getopt.past, if_pos through] at calls
    refine ⟨_, calls, fun _ => ⟨?_, ?_, rfl, rest⟩, fun more => absurd through more⟩
    · dsimp only
      omega
    · dsimp only
      omega
  · rw [Getopt.past, if_neg through] at calls
    exact ⟨_, calls, fun none_ => absurd none_ through,
      fun _ => ⟨first, c', more, short, here, Or.inr rfl⟩⟩

/-- Flags in front of what else is in the word. -/
theorem Getopt.InWord.flags {letters : List Char} {next : CString}
    (known : ∀ c ∈ letters, IsFlag optstring c) (some_ : next ≠ [])
    (inside : s.InWord args (letters ++ next) words) :
    ∃ s', s.Calls args.length (argvOf args) optstring longopts
      (letters.map fun c => Item.letter c none) s' ∧ s'.InWord args next words := by
  induction letters generalizing s with
  | nil => exact ⟨s, .none, inside⟩
  | cons c letters ih =>
    rw [List.forall_mem_cons] at known
    obtain ⟨s', calls, _, inside'⟩ := @Getopt.InWord.flag _ longopts _ _ _ _ _ known.1 inside
    have more : letters ++ next ≠ [] := List.append_ne_nil_of_right_ne_nil letters some_
    obtain ⟨s'', calls', inside''⟩ := ih known.2 (inside' more)
    exact ⟨s'', calls.append calls', inside''⟩

theorem IsOption.exists_dropWhile {x : Char} (option : IsOption optstring x) :
    ∃ more, optstring.dropWhile (· ≠ x) = x :: ':' :: more := by
  have two := List.take_append_drop 2 (optstring.dropWhile (· ≠ x))
  rw [option.required] at two
  exact ⟨_, two.symm⟩

/-- `xVALUE` -/
theorem Getopt.InWord.joined {x : Char} {value : CString} (option : IsOption optstring x)
    (some_ : value ≠ []) (inside : s.InWord args (x :: value) words) :
    ∃ s', s.Calls args.length (argvOf args) optstring longopts [Item.letter x value] s' ∧
      s'.AtWord args words := by
  have first := inside.first
  obtain ⟨less, rest, call⟩ := @Getopt.InWord.call optstring longopts _ _ _ _ _ inside
  obtain ⟨more, required⟩ := option.exists_dropWhile
  rw [shortOption, required] at call
  dsimp only at call
  rw [if_pos some_] at call
  refine ⟨_, .call call (letter_ne_end option.letter) .none, ?_, ?_, rfl, rest⟩
  · dsimp only
    omega
  · dsimp only
    omega

/-- `x VALUE` -/
theorem Getopt.InWord.apart {x : Char} {value : CString} (option : IsOption optstring x)
    (inside : s.InWord args [x] (value :: words)) :
    ∃ s', s.Calls args.length (argvOf args) optstring longopts [Item.letter x value] s' ∧
      s'.AtWord args words := by
  have first := inside.first
  obtain ⟨less, rest, call⟩ := @Getopt.InWord.call optstring longopts _ _ _ _ _ inside
  obtain ⟨less', behind, rest'⟩ :=
    @exists_argvOf _ _ { s with optind := s.optind + 1 } _ (by dsimp only; omega) rest
  dsimp only at less' behind rest'
  obtain ⟨more, required⟩ := option.exists_dropWhile
  rw [shortOption, required] at call
  dsimp only at call
  rw [if_neg (by simp), if_pos less', argvAt_of_lt (by omega) less', behind] at call
  have two : s.optind + 1 + 1 = s.optind + 2 := by omega
  rw [two] at rest'
  refine ⟨_, .call call (letter_ne_end option.letter) .none, ?_, ?_, rfl, rest'⟩
  · dsimp only
    omega
  · dsimp only
    omega

/-- Where a long name is found in the table. -/
theorem IsLong.find {has_arg : Int} {x : Char} {entry : LongOption} {tail : CString}
    (long : IsLong longopts has_arg x entry) (ends : tail = [] ∨ ∃ text, tail = '=' :: text) :
    (entry.name ++ tail).dropWhile (· ≠ '=') = tail ∧
      ∃ i, longopts.zipIdx.find? (fun other => other.1.isNamed (entry.name ++ tail)
        ((entry.name ++ tail).length - tail.length)) = some (entry, i) :=
  find_entry long.mem long.unique long.plain ends

theorem IsLong.deliver {has_arg : Int} {x : Char} {entry : LongOption}
    (long : IsLong longopts has_arg x entry) (s : Getopt) :
    entry.deliver s = (charOf true x.toNat, s) := by
  rw [LongOption.deliver, long.flag, long.val]

/-- `--name` -/
theorem Getopt.AtWord.longFlag {x : Char} {entry : LongOption}
    (long : IsLong longopts no_argument x entry)
    (at_ : s.AtWord args (('-' :: '-' :: entry.name) :: words)) :
    ∃ s', s.Calls args.length (argvOf args) optstring longopts [Item.letter x none] s' ∧
      s'.AtWord args words := by
  have first := at_.first
  obtain ⟨less, word, rest⟩ := exists_argvOf (by omega) at_.here
  have call := @getopt_long_long _ _ optstring longopts _ first less _ word
  obtain ⟨split_, i, found⟩ := long.find (Or.inl rfl)
  rw [List.append_nil] at split_ found
  rw [longOption] at call
  dsimp only at call
  rw [split_, found] at call
  dsimp only at call
  rw [if_neg (by rw [long.has_arg]; decide), if_neg (by simp), long.deliver] at call
  refine ⟨_, .call call (letter_ne_end long.letter) .none, ?_, ?_, at_.start, rest⟩
  · dsimp only
    omega
  · dsimp only
    omega

/-- `--name VALUE` -/
theorem Getopt.AtWord.long {x : Char} {entry : LongOption} {value : CString}
    (long : IsLong longopts required_argument x entry)
    (at_ : s.AtWord args (('-' :: '-' :: entry.name) :: value :: words)) :
    ∃ s', s.Calls args.length (argvOf args) optstring longopts [Item.letter x value] s' ∧
      s'.AtWord args words := by
  have first := at_.first
  obtain ⟨less, word, rest⟩ := exists_argvOf (by omega) at_.here
  obtain ⟨less', behind, rest'⟩ :=
    @exists_argvOf _ _ { s with optind := s.optind + 1 } _ (by dsimp only; omega) rest
  dsimp only at less' behind rest'
  have call := @getopt_long_long _ _ optstring longopts _ first less _ word
  obtain ⟨split_, i, found⟩ := long.find (Or.inl rfl)
  rw [List.append_nil] at split_ found
  rw [longOption] at call
  dsimp only at call
  rw [split_, found] at call
  dsimp only at call
  rw [if_pos long.has_arg, if_neg (by simp), if_pos less', argvAt_of_lt (by omega) less', behind,
    Option.bind_eq_bind, Option.bind_some, long.deliver] at call
  refine ⟨_, .call call (letter_ne_end long.letter) .none, ?_, ?_, at_.start, rest'⟩
  · dsimp only
    omega
  · dsimp only
    omega

/-- `--name=VALUE` -/
theorem Getopt.AtWord.equals {x : Char} {entry : LongOption} {value : CString}
    (long : IsLong longopts required_argument x entry)
    (at_ : s.AtWord args (('-' :: '-' :: (entry.name ++ '=' :: value)) :: words)) :
    ∃ s', s.Calls args.length (argvOf args) optstring longopts [Item.letter x value] s' ∧
      s'.AtWord args words := by
  have first := at_.first
  obtain ⟨less, word, rest⟩ := exists_argvOf (by omega) at_.here
  have call := @getopt_long_long _ _ optstring longopts _ first less _ word
  obtain ⟨split_, i, found⟩ := long.find (Or.inr ⟨value, rfl⟩)
  rw [longOption] at call
  dsimp only at call
  rw [split_, found] at call
  dsimp only at call
  rw [if_pos long.has_arg, if_pos (by simp), long.deliver] at call
  refine ⟨_, .call call (letter_ne_end long.letter) .none, ?_, ?_, at_.start, rest⟩
  · dsimp only
    omega
  · dsimp only
    omega

/-- Letters do not make the word look like a long option. -/
theorem exists_letters {letters : List Char} {x : Char} {tail : CString}
    (known : ∀ c ∈ letters, IsFlag optstring c) (letter : x.isAlpha = true) :
    ∃ c more, c ≠ '-' ∧ letters ++ x :: tail = c :: more := by
  cases letters with
  | nil => exact ⟨x, tail, ne_dash_of_alpha letter, rfl⟩
  | cons c letters =>
    have known_ := (List.forall_mem_cons.1 known).1
    exact ⟨c, letters ++ x :: tail, ne_dash_of_alpha known_.letter, rfl⟩

/-- An item is read as what it means, and the words behind it are next. -/
theorem Item.read (item : Item optstring longopts) (at_ : s.AtWord args (item.words ++ words)) :
    ∃ s', s.Calls args.length (argvOf args) optstring longopts item.means s' ∧
      s'.AtWord args words := by
  cases item with
  | flags letters some_ known =>
    obtain ⟨letters, c, rfl⟩ := (List.eq_nil_or_concat letters).resolve_left some_
    rw [List.concat_eq_append, List.forall_mem_append, List.forall_mem_singleton] at known
    obtain ⟨d, more, short, same⟩ := @exists_letters _ _ _ [] known.1 known.2.letter
    rw [Item.words, List.concat_eq_append, same] at at_
    have inside := at_.inWord short
    rw [← same] at inside
    obtain ⟨s', calls, inside'⟩ := inside.flags known.1 (List.cons_ne_nil _ _)
    obtain ⟨s'', calls', at_', _⟩ := inside'.flag known.2
    rw [Item.means, List.concat_eq_append, List.map_append]
    exact ⟨s'', calls.append calls', at_' rfl⟩
  | joined letters known x option value some_ =>
    obtain ⟨d, more, short, same⟩ := @exists_letters _ _ _ value known option.letter
    rw [Item.words, same] at at_
    have inside := at_.inWord short
    rw [← same] at inside
    obtain ⟨s', calls, inside'⟩ := inside.flags known (List.cons_ne_nil _ _)
    obtain ⟨s'', calls', at_'⟩ := inside'.joined option some_
    exact ⟨s'', calls.append calls', at_'⟩
  | apart letters known x option value =>
    obtain ⟨d, more, short, same⟩ := @exists_letters _ _ _ [] known option.letter
    rw [Item.words, same] at at_
    have inside := at_.inWord short
    rw [← same] at inside
    obtain ⟨s', calls, inside'⟩ := inside.flags known (List.cons_ne_nil _ _)
    obtain ⟨s'', calls', at_'⟩ := inside'.apart option
    exact ⟨s'', calls.append calls', at_'⟩
  | longFlag x entry long => exact at_.longFlag long
  | long x entry long value => exact at_.long long
  | equals x entry long value => exact at_.equals long

theorem items_read (items : List (Item optstring longopts))
    (at_ : s.AtWord args (items.flatMap Item.words ++ words)) :
    ∃ s', s.Calls args.length (argvOf args) optstring longopts (items.flatMap Item.means) s' ∧
      s'.AtWord args words := by
  induction items generalizing s with
  | nil => exact ⟨s, .none, at_⟩
  | cons item items ih =>
    rw [List.flatMap_cons, List.append_assoc] at at_
    obtain ⟨s', calls, at_'⟩ := item.read at_
    obtain ⟨s'', calls', at_''⟩ := ih at_'
    exact ⟨s'', calls.append calls', at_''⟩

/-- The first operand ends the options. -/
theorem Getopt.AtWord.ends (at_ : s.AtWord args words)
    (operand : ∀ c rest, words.head? ≠ some ('-' :: c :: rest)) :
    getopt_long args.length (argvOf args) optstring longopts s =
      some (-1, { s with optarg := none }) := by
  have first := at_.first
  have last := at_.last
  apply getopt_long_atEnd ⟨first, le_max_of_le_right last, Or.inl at_.start⟩
  right
  intro c rest word
  apply operand c rest
  rw [← at_.here, List.head?_drop]
  exact word

end Read

/-- **A command line means the same in every spelling.** Whatever items stand behind the name of
the program, in whatever order, `getopt_long` returns the options that they mean, and stops at the
first operand, which is a word without a dash or the end of the vector (`operand`). Scanning starts
at the first argument (`first`), in no word of short options (`fresh`), and the loop may make one
call more than there are options (`enough`).

An item is read by as many calls as it means options, and leaves `optind` at the next word
(`items_read`). -/
theorem options_read {optstring : CString} {longopts : List LongOption} (program : CString)
    (items : List (Item optstring longopts)) (operands : List CString)
    (operand : ∀ c rest, operands.head? ≠ some ('-' :: c :: rest)) (s : Getopt)
    (first : s.optind = 1) (fresh : s.nextchar = none) (fuel : Nat)
    (enough : (items.flatMap Item.means).length < fuel) :
    let args := program :: (items.flatMap Item.words ++ operands)
    ∃ last, s.options args.length (argvOf args) optstring longopts fuel =
        some (items.flatMap Item.means, last) ∧
      args.drop last.optind.toNat = operands := by
  intro args
  have start : s.AtWord args (items.flatMap Item.words ++ operands) := by
    refine ⟨first.ge, ?_, fresh, ?_⟩
    · rw [first, List.length_cons]
      omega
    · rw [first]
      rfl
  obtain ⟨s', calls, at_⟩ := items_read items start
  exact ⟨_, calls.options (at_.ends operand) enough, at_.here⟩

theorem LetterOption.isOption {optstring : CString} {longopts : List LongOption} {x : Char}
    {entry : LongOption} (option : LetterOption optstring longopts x entry) :
    IsOption optstring x :=
  ⟨option.letter, option.required⟩

theorem LetterOption.isLong {optstring : CString} {longopts : List LongOption} {x : Char}
    {entry : LongOption} (option : LetterOption optstring longopts x entry) :
    IsLong longopts required_argument x entry :=
  ⟨option.letter, option.mem, option.unique, option.has_arg, option.flag, option.val, option.plain⟩

/-- `all_reduce_perf --minbytes=8 -b 1G file` -/
theorem options_read_sizes :
    let args := ["all_reduce_perf".toList, "--minbytes=8".toList, "-b".toList, "1G".toList,
      "file".toList]
    let s : Getopt := ⟨1, 1, 0, none, none, some 0, fun _ => 0, []⟩
    ∃ last, s.options args.length (argvOf args) mainOptstring mainLongopts 3 =
        some ([Item.letter 'b' "8".toList, Item.letter 'b' "1G".toList], last) ∧
      args.drop last.optind.toNat = ["file".toList] := by
  intro args s
  have option : LetterOption mainOptstring mainLongopts 'b'
      ⟨"minbytes".toList, required_argument, none, 98⟩ := by decide +kernel
  have operand : ∀ c rest, ["file".toList].head? ≠ some ('-' :: c :: rest) := by
    intro c rest same
    have letter : 'f' = '-' := (List.cons.inj (Option.some.inj same)).1
    exact absurd letter (by decide)
  exact options_read "all_reduce_perf".toList
    [.equals 'b' _ option.isLong "8".toList, .apart [] (List.forall_mem_nil _) 'b' option.isOption
      "1G".toList] ["file".toList] operand s rfl rfl 3 (Nat.lt_succ_self 2)

end NcclTests.Harness
