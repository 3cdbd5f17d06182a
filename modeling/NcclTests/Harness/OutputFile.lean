import Mathlib
import NcclTests.Lib.ArgumentOrder
import NcclTests.Harness.Report
import NcclTests.Harness.SanitizeJson

/-!
# The output file

How `main` hands its command line to the report. Before, `getopt_long` has been through it: that of
the GNU C library moves the operands, which `main` does not use, behind the options. And
`outputFileInit` takes the number of arguments as a `char`. `args_recorded_iff` says when the report
still has them all as they were typed.

`MPI_Init` also gets the address of `argv`; it is taken to leave it alone.
-/

namespace NcclTests.Harness

open ArgumentOrder

/-! ## The type of the file -/

inductive OutputFileType
  | json
  | unspecified
  deriving DecidableEq, Repr

/-- The loop of `getExtension`: `pos`, `last_dot` and `last_slash`. -/
def scanPath (path : List Char) : Int × Int × Int :=
  path.foldl (fun scan ch =>
    (scan.1 + 1, if ch = '.' then scan.1 else scan.2.1, if ch = '/' then scan.1 else scan.2.2))
    (0, -1, -1)

def getExtension (path : List Char) : Option (List Char) :=
  let scan := scanPath path
  if scan.2.1 > scan.2.2 ∧ scan.2.1 + 1 ≠ scan.1 then some (path.drop (scan.2.1 + 1).toNat)
  else none

/-- `none` is a null pointer. -/
def classifyOutputFile (filename : Option (List Char)) : OutputFileType :=
  match filename.bind getExtension with
  | some extension =>
    if extension.map Char.toLower = "json".toList then .json else .unspecified
  | none => .unspecified

/-! ## The arguments -/

/-- Conversion to `char`, which is a signed type on some machines. -/
def charOf (charSigned : Bool) (i : Int) : Int := if charSigned then Int.bmod i 256 else i % 256

/-- `jsonOutputInit` with a count of its own: its loop prints so many of the arguments. -/
def jsonOutputInitCount (argc : Int) (o : OutputInit) : List JsonOp :=
  jsonOutputInit { o with argv := o.argv.take argc.toNat }

def outputFileInit (charSigned : Bool) (output_file_type : OutputFileType) (argc : Int)
    (o : OutputInit) : List JsonOp :=
  let argc := charOf charSigned argc
  match output_file_type with
  | .json => jsonOutputInitCount argc o
  | .unspecified => []

/-- What `getopt_long` knows of the words that start with a dash: which of them are options, and
whether the value of one is the next word. The names of all options are printable. -/
structure OptionTable where
  takesNext : CString → Option Bool
  supported : ∀ letter rest, (takesNext ('-' :: letter :: rest)).isSome → IsSupported letter

def OptionTable.kind (table : OptionTable) : CString → Word
  | ['-', '-'] => .terminator
  | '-' :: letter :: rest =>
    match table.takesNext ('-' :: letter :: rest) with
    | some takesNext => .option takesNext
    | none => .unknown
  | _ => .operand

/-- `argv` after the loop around `getopt_long`; `none` where `main` has returned, for an option that
is unknown or has no value. -/
def readOptions (table : OptionTable) (order : Order) : List CString → Option (List CString)
  | [] => some []
  | program :: words => (split table.kind order words).map fun p => program :: (p.1 ++ p.2)

/-- From the command line to the report. -/
def mainOutputInit (table : OptionTable) (order : Order) (charSigned : Bool)
    (output_file : Option (List Char)) (o : OutputInit) : Option (List JsonOp) :=
  (readOptions table order o.argv).map fun argv =>
    outputFileInit charSigned (classifyOutputFile output_file) o.argv.length { o with argv := argv }

/-! ## What is recorded -/

open Json

/-- A list of strings in the document. -/
def stringList (texts : List CString) : Json.Value :=
  .list (texts.map fun text => .scalar (.string (sanitized text)))

/-- The calls start an object, and `args` is this list of strings in it. -/
def RecordsArgs (ops : List JsonOp) (argv : List CString) : Prop :=
  ∃ rest members, ops = .startObject :: rest ∧ AddsMembers (rest.map JsonOp.event) members ∧
    members.lookup "args".toList = some (stringList argv)

/-- The members that `jsonOutputInit` adds. -/
def initMembers (o : OutputInit) : List Member :=
  [scalarMember "version" (.literal (Printf.decimal 4)),
    scalarMember "start_time" (.string (sanitized o.start_time)),
    (sanitized "args".toList, stringList o.argv), (sanitized "env".toList, stringList o.envp),
    scalarMember "nccl_version" (.literal (Printf.decimal o.ncclVersion))]

theorem stringList_writes (texts : List CString) :
    Writes ((JsonOp.startList ::
      (texts.flatMap (fun text => [.str (some text)]) ++ [.finishList])).map JsonOp.event)
      (stringList texts) := by
  have each := AddsElements.flatMap
    (fun text : CString => Writes.scalar (.string (sanitized text))) texts
  rw [List.map_cons, List.map_append, List.map_flatMap]
  exact each.writes

theorem jsonOutputInit_members (o : OutputInit) :
    ∃ rest, jsonOutputInit o = .startObject :: rest ∧
      AddsMembers (rest.map JsonOp.event) (initMembers o) := by
  have first : AddsMembers ((fields [("version", .int 4),
      ("start_time", .str (some o.start_time))]).map JsonOp.event) _ :=
    fields_members (by simp)
  have args := (stringList_writes o.argv).member (sanitized "args".toList)
  have env := (stringList_writes o.envp).member (sanitized "env".toList)
  have last : AddsMembers ((fields [("nccl_version", .int o.ncclVersion)]).map JsonOp.event) _ :=
    fields_members (by simp)
  refine ⟨_, rfl, ?_⟩
  rw [List.map_append, List.map_append, List.map_append]
  exact ((first.append args).append env).append last

theorem AddsMembers.unique {events : List Event} {members others : List Member}
    (adds : AddsMembers events members) (adds' : AddsMembers events others) : members = others := by
  have same := (adds [] []).symm.trans (adds' [] [])
  simpa using same

theorem recordsArgs_jsonOutputInit (o : OutputInit) (argv : List CString) :
    RecordsArgs (jsonOutputInit o) argv ↔ stringList o.argv = stringList argv := by
  obtain ⟨rest, init, adds⟩ := jsonOutputInit_members o
  have args : (initMembers o).lookup "args".toList = some (stringList o.argv) := rfl
  constructor
  · rintro ⟨rest', members, init', adds', recorded⟩
    rw [init, List.cons.injEq] at init'
    rw [← init'.2] at adds'
    rw [← AddsMembers.unique adds adds', args] at recorded
    exact Option.some.inj recorded
  · intro same
    exact ⟨rest, initMembers o, init, adds, args.trans (congrArg some same)⟩

/-! ## The count -/

/-- How many arguments a `char` can count. -/
def charLimit (charSigned : Bool) : Nat := if charSigned then 128 else 256

theorem le_charOf_iff (charSigned : Bool) (n : Nat) :
    n ≤ (charOf charSigned n).toNat ↔ n < charLimit charSigned := by
  cases charSigned with
  | false =>
    simp only [charOf, charLimit, Bool.false_eq_true, if_false]
    omega
  | true =>
    simp only [charOf, charLimit, if_true, Int.bmod]
    split_ifs <;> omega

theorem stringList_inj {texts others : List CString} :
    stringList texts = stringList others ↔ texts.map sanitized = others.map sanitized := by
  have injective : Function.Injective fun body => Json.Value.scalar (.string body) := by
    intro body other same
    cases same
    rfl
  have composed (texts : List CString) : stringList texts =
      .list ((texts.map sanitized).map fun body => Json.Value.scalar (.string body)) := by
    rw [stringList, List.map_map]
    rfl
  rw [composed, composed, Json.Value.list.injEq]
  exact (List.map_injective_iff.2 injective).eq_iff

/-- The first of some strings are all of as many others. -/
theorem stringList_take {texts others : List CString} (as_many : texts.length = others.length)
    (k : Nat) : stringList (texts.take k) = stringList others ↔
      others.length ≤ k ∧ stringList texts = stringList others := by
  constructor
  · intro same
    have lengths := congrArg List.length (stringList_inj.1 same)
    rw [List.length_map, List.length_map, List.length_take] at lengths
    have enough : others.length ≤ k := by omega
    rw [List.take_of_length_le (by omega)] at same
    exact ⟨enough, same⟩
  · intro both
    rw [List.take_of_length_le (by omega)]
    exact both.2

/-! ## The order -/

/-- The name of an option follows its dash. -/
theorem OptionTable.exists_letter (table : OptionTable) {word : CString}
    (option : table.kind word = .terminator ∨ ∃ b, table.kind word = .option b) :
    ∃ letter rest, word = '-' :: letter :: rest ∧ IsSupported letter := by
  unfold OptionTable.kind at option
  split at option
  · exact ⟨'-', [], rfl, .inr (by unfold IsPrintable; decide)⟩
  · next letter rest _ =>
    split at option
    · next known => exact ⟨letter, rest, rfl, table.supported letter rest (known ▸ rfl)⟩
    · simp at option
  · simp at option

theorem sanitized_dash {letter : Char} (supported : IsSupported letter) (rest : CString) :
    ∃ first more, sanitized ('-' :: letter :: rest) = '-' :: first :: more := by
  have dash : sanitized ('-' :: letter :: rest) =
      '-' :: (sanitizeLoop 2048 1 (letter :: rest)).1 := rfl
  rw [dash, sanitizeLoop, if_neg (by decide)]
  split
  · exact ⟨_, _, rfl⟩
  · next plain =>
    have printable := supported.resolve_left plain
    unfold IsPrintable at printable
    rw [if_neg (by omega)]
    exact ⟨_, _, rfl⟩

/-- No operand is sanitised to a dash and more. -/
theorem sanitized_operand (table : OptionTable) {other : CString}
    (operand : table.kind other = .operand) (first : Char) (more : CString) :
    sanitized other ≠ '-' :: first :: more := by
  intro same
  cases other with
  | nil => cases same
  | cons c rest =>
    rw [sanitized, sanitizeJson, sanitizeLoop, if_neg (by decide)] at same
    split at same
    · cases same
    split at same
    · cases same
    · obtain ⟨rfl, tail⟩ := List.cons.inj same
      cases rest with
      | nil => cases tail
      | cons letter rest =>
        unfold OptionTable.kind at operand
        split at operand
        · cases operand
        · split at operand <;> cases operand
        · next other => exact other _ _ rfl

theorem sanitized_apart (table : OptionTable) {word other : CString}
    (option : table.kind word = .terminator ∨ ∃ b, table.kind word = .option b)
    (operand : table.kind other = .operand) : sanitized word ≠ sanitized other := by
  obtain ⟨letter, rest, rfl, supported⟩ := table.exists_letter option
  obtain ⟨first, more, dash⟩ := sanitized_dash supported rest
  rw [dash]
  exact (sanitized_operand table operand first more).symm

theorem readOptions_eq_some {table : OptionTable} {order : Order} {argv read : List CString}
    (reads : readOptions table order argv = some read) :
    read.length = argv.length ∧
      (stringList read = stringList argv ↔
        order = .requireOrder ∨ OperandsLast table.kind argv.tail) := by
  cases argv with
  | nil =>
    cases reads
    exact ⟨rfl, iff_of_true rfl (.inr trivial)⟩
  | cons program words =>
    obtain ⟨p, splits, rfl⟩ := Option.map_eq_some_iff.1 reads
    refine ⟨congrArg Nat.succ (split_perm splits).length_eq, ?_⟩
    rw [stringList_inj, List.map_cons, List.map_cons, List.cons_inj_right]
    exact map_split_iff sanitized (fun _ _ => sanitized_apart table) splits

theorem recordsArgs_iff {table : OptionTable} {order : Order} {charSigned : Bool}
    {output_file : List Char} (json : classifyOutputFile (some output_file) = .json)
    {o : OutputInit} {argv : List CString} (reads : readOptions table order o.argv = some argv) :
    RecordsArgs (outputFileInit charSigned (classifyOutputFile (some output_file)) o.argv.length
        { o with argv := argv }) o.argv ↔
      o.argv.length < charLimit charSigned ∧ stringList argv = stringList o.argv := by
  rw [json, outputFileInit, jsonOutputInitCount, recordsArgs_jsonOutputInit,
    stringList_take (readOptions_eq_some reads).1, le_charOf_iff]

/-- **When all arguments are recorded**, each in its place: a `char` can count them, and no operand
stands before an option, unless `getopt_long` does not permute. The sanitised forms of an operand
and of an option differ, so that a move always shows.

`o.argv` is the vector that `main` gets and `order` how the C library treats operands; by the time
`outputFileInit` walks over the vector, `getopt_long` has moved the operands to its end
(`Order.permute`), and the loop's index is a `char`, signed or not. -/
theorem args_recorded_iff (table : OptionTable) (order : Order) (charSigned : Bool)
    (output_file : List Char) (json : classifyOutputFile (some output_file) = .json)
    (o : OutputInit) (ops : List JsonOp)
    (reached : mainOutputInit table order charSigned (some output_file) o = some ops) :
    RecordsArgs ops o.argv ↔ o.argv.length < charLimit charSigned ∧
      (order = .requireOrder ∨ OperandsLast table.kind o.argv.tail) := by
  obtain ⟨argv, reads, rfl⟩ := Option.map_eq_some_iff.1 reached
  rw [recordsArgs_iff json reads, (readOptions_eq_some reads).2]

/-- `-b` and `-J`, with a value in the same word or in the next. -/
def sizeAndFile : OptionTable where
  takesNext
    | ['-', letter] => if letter ∈ ['b', 'J'] then some true else none
    | '-' :: letter :: _ => if letter ∈ ['b', 'J'] then some false else none
    | _ => none
  supported letter rest some_ := by
    have among : letter = 'b' ∨ letter = 'J' := by
      cases rest <;> simpa using some_
    rcases among with rfl | rfl
    · exact .inr (by unfold IsPrintable; decide)
    · exact .inr (by unfold IsPrintable; decide)

example : readOptions sizeAndFile .permute
    ["p".toList, "foo".toList, "-b".toList, "8".toList, "-Jx.json".toList] =
      some ["p".toList, "-b".toList, "8".toList, "-Jx.json".toList, "foo".toList] := by decide

/-- Three arguments. -/
theorem args_recorded_iff_three :
    let o : OutputInit :=
      ⟨[], ["all_reduce_perf".toList, "-J".toList, "out.json".toList], [], 22800⟩
    ∃ ops, mainOutputInit sizeAndFile .permute true (some "out.json".toList) o = some ops ∧
      RecordsArgs ops o.argv := by
  intro o
  have reached : ∃ ops,
      mainOutputInit sizeAndFile .permute true (some "out.json".toList) o = some ops := ⟨_, rfl⟩
  obtain ⟨ops, reached⟩ := reached
  exact ⟨ops, reached, (args_recorded_iff sizeAndFile .permute true "out.json".toList (by decide) o
    ops reached).2 ⟨by decide, .inr trivial⟩⟩

theorem split_replicate {order : Order} (n : Nat) :
    split sizeAndFile.kind order (List.replicate n "-b8".toList) =
      some (List.replicate n "-b8".toList, []) := by
  have option : sizeAndFile.kind "-b8".toList = .option false := by decide
  induction n with
  | zero => rfl
  | succ n ih =>
    rw [List.replicate_succ, split_option option, ih]
    rfl

/-- Of 256 arguments none is recorded. -/
theorem args_dropped :
    ¬∀ (table : OptionTable) (order : Order) (charSigned : Bool) (output_file : List Char),
      classifyOutputFile (some output_file) = .json → ∀ o : OutputInit, 1 ≤ o.argv.length →
        ∀ ops, mainOutputInit table order charSigned (some output_file) o = some ops →
          RecordsArgs ops o.argv := by
  intro recorded
  have json : classifyOutputFile (some "out.json".toList) = .json := by decide
  have file : sizeAndFile.kind "-Jout.json".toList = .option false := by decide
  obtain ⟨o, argv⟩ : ∃ o : OutputInit, o.argv =
      "all_reduce_perf".toList :: "-Jout.json".toList :: List.replicate 254 "-b8".toList :=
    ⟨⟨[], _, [], 22800⟩, rfl⟩
  have count : o.argv.length = 256 := by
    rw [argv, List.length_cons, List.length_cons, List.length_replicate]
  have reads : readOptions sizeAndFile .permute o.argv = some o.argv := by
    rw [argv, readOptions, split_option file, split_replicate, Option.map_some, Option.map_some,
      List.append_nil]
  have all := recorded sizeAndFile .permute true _ json o (by omega) _
    (congrArg (Option.map _) reads)
  have limit : charLimit true = 128 := rfl
  have fits := ((recordsArgs_iff json reads).1 all).1
  omega

end NcclTests.Harness
