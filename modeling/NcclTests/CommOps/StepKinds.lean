import Mathlib
import NcclTests.CommOps.Sweep
import NcclTests.Lib.FloatText

/-!
# The text of a sweep

`parse_step_kinds` on the argument of `--sweep-comms` and `--resize` as it is typed. `Grammar`
is what its comment documents, `Invariant` what the sweep and the division by `resize_num` rely
on; `enforced_iff` says for which arguments it upholds both.
-/

namespace NcclTests.CommOps.StepKinds

open BinaryFloat FloatText

/-! ## parse_step_kinds -/

/-- What is printed to `stderr`. -/
inductive StepError
  /-- `Error: Unknown sweep or resize kind '%s'.  Expected factor-N.NN, step-N, or fixed.` -/
  | unknownKind (arg : List Char)
  /-- `strtod cannot parse ("%s"): %s` -/
  | cannotParse (numpart : List Char)
  /-- `Error: invalid number ("%s").  Expected positive finite number.` -/
  | invalidNumber (numpart : List Char)

/-- What is returned, and what is left in `*kind` and `*num`. -/
structure Parsed where
  ret : Int
  kind : SweepKind
  num : Value
  error : Option StepError

/-- `kind_factor` or `kind_step` is set and `numpart` points behind the prefix. -/
def parseNumpart (underflow : ℚ → Bool) (kind : SweepKind) (numpart : List Char) : Parsed :=
  let converted := strtod underflow numpart
  let num := converted.value
  if converted.erange then ⟨1, kind, num, some (.cannotParse numpart)⟩
  else if num.le (.finite 0) then ⟨1, kind, num, some (.invalidNumber numpart)⟩
  else
    let num := if kind = .factor ∧ num.lt (.finite 1) then num.inv binary64 else num
    let num := if kind = .step ∧ num.lt (.finite 0) then num.neg else num
    ⟨0, kind, num, none⟩

/-- Both callers pass `optarg`, which the prefixes are compared with. -/
def parseStepKinds (underflow : ℚ → Bool) (arg : List Char) (kind : SweepKind) : Parsed :=
  if "factor-".toList.isPrefixOf arg then parseNumpart underflow .factor (arg.drop 7)
  else if "step-".toList.isPrefixOf arg then parseNumpart underflow .step (arg.drop 5)
  else if "fixed".toList.isPrefixOf arg then ⟨0, .fixed, .finite 0, none⟩
  else ⟨0, kind, .finite 0, some (.unknownKind arg)⟩

/-- The fields of `args` that are parsed so. -/
structure StepArgs where
  resizeKind : SweepKind
  resizeNum : Value
  sweepKind : SweepKind
  sweepNum : Value

inductive StepOpt
  | sweepComms
  | resize
  deriving DecidableEq, Repr

/-- The cases `'s'` and `'r'` of `parse_args`; `none` is `ABORT_EXIT`. -/
def StepArgs.setOption (underflow : ℚ → Bool) (a : StepArgs) (optarg : List Char) :
    StepOpt → Option StepArgs
  | .sweepComms =>
    let parsed := parseStepKinds underflow optarg a.sweepKind
    if parsed.ret ≠ 0 then none
    else some { a with sweepKind := parsed.kind, sweepNum := parsed.num }
  | .resize =>
    let parsed := parseStepKinds underflow optarg a.resizeKind
    if parsed.ret ≠ 0 then none
    else some { a with resizeKind := parsed.kind, resizeNum := parsed.num }

/-- The kind and the number that an option sets. -/
def StepArgs.field (a : StepArgs) : StepOpt → SweepKind × Value
  | .sweepComms => (a.sweepKind, a.sweepNum)
  | .resize => (a.resizeKind, a.resizeNum)

/-- An argument as the sweep knows it. -/
def stepText (underflow : ℚ → Bool) (arg : List Char) : StepText :=
  let number (numpart : List Char) := strtod underflow numpart
  if "factor-".toList.isPrefixOf arg then
    .factor (number (arg.drop 7)).value (number (arg.drop 7)).erange
  else if "step-".toList.isPrefixOf arg then
    .step (number (arg.drop 5)).value (number (arg.drop 5)).erange
  else if "fixed".toList.isPrefixOf arg then .fixed
  else .unknown

/-- The options of the sweep are those that are typed. -/
theorem parseStepKinds_stepText (underflow : ℚ → Bool) (arg : List Char) (kind : SweepKind) :
    CommOps.parseStepKinds kind (stepText underflow arg) =
      if (parseStepKinds underflow arg kind).ret = 0 then
        some ((parseStepKinds underflow arg kind).kind, (parseStepKinds underflow arg kind).num)
      else none := by
  simp only [stepText, parseStepKinds]
  split
  · simp only [CommOps.parseStepKinds, parseNumpart]
    split_ifs <;> simp_all
  · split
    · simp only [CommOps.parseStepKinds, parseNumpart]
      split_ifs <;> simp_all
    · split <;> rfl

/-! ## Grammar and invariant -/

/-- `fixed`, or `factor-` or `step-` before a number that `strtod` converts. -/
inductive Grammar : SweepKind → List Char → Prop
  | fixed (rest : List Char) : Grammar .fixed ("fixed".toList ++ rest)
  | factor (rest : List Char) : (read rest).isSome → Grammar .factor ("factor-".toList ++ rest)
  | step (rest : List Char) : (read rest).isSome → Grammar .step ("step-".toList ++ rest)

/-- What the number of a kind has to be. -/
def Invariant : SweepKind → Value → Prop
  | .fixed, num => num = .finite 0
  | .factor, num => num ≠ .nan ∧ (Value.finite 1).le num
  | .step, num => num ≠ .nan ∧ (Value.finite 0).lt num

/-- The parser returns 0 on the grammar only, with the invariant, whatever kind was set before;
so `parse_args` goes on with no other kind and number. -/
def Enforced (underflow : ℚ → Bool) (arg : List Char) : Prop :=
  (∀ kind, (parseStepKinds underflow arg kind).ret = 0 →
    Grammar (parseStepKinds underflow arg kind).kind arg ∧
    Invariant (parseStepKinds underflow arg kind).kind (parseStepKinds underflow arg kind).num) ∧
  ∀ (a a' : StepArgs) (option : StepOpt), a.setOption underflow arg option = some a' →
    Grammar (a'.field option).1 arg ∧ Invariant (a'.field option).1 (a'.field option).2

/-- White space, a sign and `nan`. -/
def StartsNan (text : List Char) : Prop :=
  (afterWord "nan".toList (Numeral.sign (text.dropWhile Scanf.isSpace)).2).isSome

/-- A known kind, and no NaN after it. -/
inductive Readable : List Char → Prop
  | fixed (rest : List Char) : Readable ("fixed".toList ++ rest)
  | factor (rest : List Char) : ¬ StartsNan rest → Readable ("factor-".toList ++ rest)
  | step (rest : List Char) : ¬ StartsNan rest → Readable ("step-".toList ++ rest)

/-! ## By prefix -/

section

variable {underflow : ℚ → Bool} {kind : SweepKind} {rest : List Char}

theorem parse_factor : parseStepKinds underflow ("factor-".toList ++ rest) kind =
    parseNumpart underflow .factor rest := rfl

theorem parse_step : parseStepKinds underflow ("step-".toList ++ rest) kind =
    parseNumpart underflow .step rest := rfl

/-- The three prefixes, and none of them. -/
theorem prefix_cases (underflow : ℚ → Bool) (arg : List Char) :
    (∃ rest, arg = "fixed".toList ++ rest) ∨ (∃ rest, arg = "factor-".toList ++ rest) ∨
      (∃ rest, arg = "step-".toList ++ rest) ∨
      ∀ kind, parseStepKinds underflow arg kind =
        ⟨0, kind, .finite 0, some (.unknownKind arg)⟩ := by
  by_cases factor : "factor-".toList.isPrefixOf arg
  · rcases List.isPrefixOf_iff_prefix.1 factor with ⟨rest, rfl⟩
    exact .inr (.inl ⟨rest, rfl⟩)
  by_cases step : "step-".toList.isPrefixOf arg
  · rcases List.isPrefixOf_iff_prefix.1 step with ⟨rest, rfl⟩
    exact .inr (.inr (.inl ⟨rest, rfl⟩))
  by_cases fixed : "fixed".toList.isPrefixOf arg
  · rcases List.isPrefixOf_iff_prefix.1 fixed with ⟨rest, rfl⟩
    exact .inl ⟨rest, rfl⟩
  · refine .inr (.inr (.inr fun kind => ?_))
    rw [parseStepKinds, if_neg factor, if_neg step, if_neg fixed]

end

/-! ## The number -/

section

variable {underflow : ℚ → Bool} {kind : SweepKind} {numpart : List Char}

theorem parseNumpart_kind : (parseNumpart underflow kind numpart).kind = kind := by
  simp only [parseNumpart]
  split
  · rfl
  · split <;> rfl

/-- Zero is returned for a number that is in range and not zero or below. -/
theorem parseNumpart_ret (ret : (parseNumpart underflow kind numpart).ret = 0) :
    (strtod underflow numpart).erange = false ∧
      (strtod underflow numpart).value.le (.finite 0) = false := by
  simp only [parseNumpart] at ret
  split at ret
  · cases ret
  · next in_range =>
    split at ret
    · cases ret
    · next positive => exact ⟨Bool.eq_false_iff.2 in_range, Bool.eq_false_iff.2 positive⟩

theorem parseNumpart_num (ret : (parseNumpart underflow kind numpart).ret = 0) :
    (parseNumpart underflow kind numpart).num =
      let num := (strtod underflow numpart).value
      let num := if kind = .factor ∧ num.lt (.finite 1) then num.inv binary64 else num
      if kind = .step ∧ num.lt (.finite 0) then num.neg else num := by
  obtain ⟨in_range, positive⟩ := parseNumpart_ret ret
  simp only [parseNumpart, in_range, positive, Bool.false_eq_true, if_false]

theorem strtod_of_read {negative : Bool} {r : Reading}
    (reads : read numpart = some (negative, r)) :
    (strtod underflow numpart).value = r.literal.toValue negative := by
  rw [strtod, reads]

/-- Without a number there is a zero, which is refused. -/
theorem parseNumpart_converts (ret : (parseNumpart underflow kind numpart).ret = 0) :
    ∃ negative r, read numpart = some (negative, r) := by
  have positive := (parseNumpart_ret ret).2
  cases reads : read numpart with
  | some r => exact ⟨r.1, r.2, rfl⟩
  | none =>
    rw [strtod, reads] at positive
    cases positive

/-- A value that is not zero or below is a positive number, an infinity or a NaN. -/
theorem value_cases {v : Value} (positive : v.le (.finite 0) = false) :
    v = .nan ∨ v = .infinity false ∨ ∃ q, v = .finite q ∧ 0 < q := by
  cases v with
  | nan => exact .inl rfl
  | infinity s =>
    cases s with
    | false => exact .inr (.inl rfl)
    | true => cases positive
  | finite q =>
    refine .inr (.inr ⟨q, rfl, ?_⟩)
    simpa [Value.le] using positive

/-- The reciprocal of a number below one is at least one. -/
theorem one_le_inv {q : ℚ} (pos : 0 < q) (less : q < 1) :
    (Value.finite q).inv binary64 ≠ .nan ∧
      (Value.finite 1).le ((Value.finite q).inv binary64) = true := by
  cases inverse : (Value.finite q).inv binary64 with
  | nan =>
    simp only [Value.inv, if_neg pos.ne', Value.ofRat] at inverse
    split at inverse <;> cases inverse
  | infinity s =>
    simp only [Value.inv, if_neg pos.ne', Value.ofRat] at inverse
    split at inverse
    · cases inverse
    · cases inverse
      have sign : decide (1 / q < 0) = false := decide_eq_false (one_div_pos.2 pos).not_gt
      rw [sign]
      exact ⟨Value.noConfusion, rfl⟩
  | finite r =>
    have large : 1 ≤ r := Args.one_le_inv pos less.le inverse
    exact ⟨Value.noConfusion, by simpa [Value.le] using large⟩

/-- What is left where the number is not a NaN. -/
theorem parseNumpart_invariant (variable_ : kind ≠ .fixed)
    (ret : (parseNumpart underflow kind numpart).ret = 0)
    (number : (strtod underflow numpart).value ≠ .nan) :
    Invariant kind (parseNumpart underflow kind numpart).num := by
  rw [parseNumpart_num ret]
  dsimp only
  rcases value_cases (parseNumpart_ret ret).2 with nan | inf | ⟨q, finite, pos⟩
  · exact absurd nan number
  · rw [inf]
    cases kind with
    | fixed => exact absurd rfl variable_
    | factor => exact ⟨Value.noConfusion, rfl⟩
    | step => exact ⟨Value.noConfusion, rfl⟩
  · rw [finite]
    cases kind with
    | fixed => exact absurd rfl variable_
    | factor =>
      rw [if_neg (by simp)]
      split
      · next small =>
        have less : q < 1 := by simpa [Value.lt] using small.2
        exact one_le_inv pos less
      · next large =>
        have le : 1 ≤ q := by simpa [Value.lt] using large
        exact ⟨Value.noConfusion, by simpa [Value.le] using le⟩
    | step =>
      have above : ¬ (Value.finite q).lt (.finite 0) = true := by
        simpa [Value.lt] using pos.le
      simp only [reduceCtorEq, false_and, if_false, true_and, if_neg above]
      exact ⟨Value.noConfusion, by simpa [Value.lt] using pos⟩

/-- A NaN passes both comparisons. -/
theorem parseNumpart_nan (underflow : ℚ → Bool) (kind : SweepKind) (nan : StartsNan numpart) :
    (parseNumpart underflow kind numpart).ret = 0 ∧
      (parseNumpart underflow kind numpart).num = .nan := by
  obtain ⟨r, reads⟩ := unsigned_of_nan nan
  have literal := (unsigned_nan_iff reads).2 nan
  have whole : read numpart = some ((Numeral.sign (numpart.dropWhile Scanf.isSpace)).1, r) := by
    rw [FloatText.read, reads]
    rfl
  have converted : (strtod underflow numpart).value = .nan := by
    rw [strtod_of_read whole, literal]
    rfl
  have in_range : (strtod underflow numpart).erange = false := by
    rw [strtod, whole]
    simp only [literal]
  simp [parseNumpart, in_range, converted, Value.le, Value.lt]

theorem ofRat_ne_nan (q : ℚ) : Value.ofRat binary64 q ≠ .nan := by
  unfold Value.ofRat
  split <;> exact Value.noConfusion

/-- What is not spelled as a NaN is none. -/
theorem strtod_ne_nan (other : ¬ StartsNan numpart) :
    (strtod underflow numpart).value ≠ .nan := by
  cases reads : read numpart with
  | none =>
    rw [strtod, reads]
    exact Value.noConfusion
  | some whole =>
    obtain ⟨r, unsigned_, rfl⟩ := Option.map_eq_some_iff.1 reads
    rw [strtod_of_read reads]
    have literal : r.literal ≠ .nan := fun nan => other ((unsigned_nan_iff unsigned_).1 nan)
    cases spelled : r.literal with
    | nan => exact absurd spelled literal
    | infinity => exact Value.noConfusion
    | rational q => exact ofRat_ne_nan _

end

/-! ## All arguments -/

section

variable {underflow : ℚ → Bool} {arg : List Char}

/-- What holds of the parser carries over to `parse_args`. -/
theorem enforced_of_parse (parse : ∀ kind, (parseStepKinds underflow arg kind).ret = 0 →
    Grammar (parseStepKinds underflow arg kind).kind arg ∧
    Invariant (parseStepKinds underflow arg kind).kind
      (parseStepKinds underflow arg kind).num) : Enforced underflow arg := by
  refine ⟨parse, ?_⟩
  intro a a' option set
  cases option with
  | sweepComms =>
    simp only [StepArgs.setOption] at set
    split at set
    · cases set
    · next ret =>
      cases set
      exact parse _ (not_not.1 ret)
  | resize =>
    simp only [StepArgs.setOption] at set
    split at set
    · cases set
    · next ret =>
      cases set
      exact parse _ (not_not.1 ret)

/-- **When the grammar is enforced.** The parser enforces its grammar and invariant on exactly the
arguments that name a known kind, without a NaN after it: an unknown kind is reported and 0 returned
nevertheless, and a NaN is not zero or below.

`underflow` is the C library's choice for which tiny values `strtod` sets `errno`, and the theorem
holds for any. -/
theorem enforced_iff (underflow : ℚ → Bool) (arg : List Char) :
    Enforced underflow arg ↔ Readable arg := by
  constructor
  · intro enforced
    rcases prefix_cases underflow arg with ⟨rest, rfl⟩ | ⟨rest, rfl⟩ | ⟨rest, rfl⟩ | unknown
    · exact .fixed rest
    · refine .factor rest fun nan => ?_
      obtain ⟨ret, num⟩ := parseNumpart_nan underflow .factor nan
      have kept := (enforced.1 .fixed ret).2
      rw [parse_factor, parseNumpart_kind, num] at kept
      exact kept.1 rfl
    · refine .step rest fun nan => ?_
      obtain ⟨ret, num⟩ := parseNumpart_nan underflow .step nan
      have kept := (enforced.1 .fixed ret).2
      rw [parse_step, parseNumpart_kind, num] at kept
      exact kept.1 rfl
    · have grammar := (enforced.1 .fixed (by rw [unknown])).1
      rw [unknown] at grammar
      cases grammar with
      | fixed rest => exact .fixed rest
  · intro readable
    apply enforced_of_parse
    intro kind ret
    cases readable with
    | fixed rest => exact ⟨.fixed rest, rfl⟩
    | factor rest other =>
      rw [parse_factor] at ret ⊢
      obtain ⟨negative, r, reads⟩ := parseNumpart_converts ret
      refine ⟨?_, ?_⟩
      · rw [parseNumpart_kind]
        exact .factor rest (by rw [reads]; rfl)
      · rw [parseNumpart_kind]
        exact parseNumpart_invariant SweepKind.noConfusion ret (strtod_ne_nan other)
    | step rest other =>
      rw [parse_step] at ret ⊢
      obtain ⟨negative, r, reads⟩ := parseNumpart_converts ret
      refine ⟨?_, ?_⟩
      · rw [parseNumpart_kind]
        exact .step rest (by rw [reads]; rfl)
      · rw [parseNumpart_kind]
        exact parseNumpart_invariant SweepKind.noConfusion ret (strtod_ne_nan other)

end

/-- `--sweep-comms doubling` goes on with the factor set before, now 0. -/
theorem unknown_kind_accepted :
    ¬ ∀ (underflow : ℚ → Bool) (arg : List Char), Enforced underflow arg := by
  intro enforced
  have kept := ((enforced (fun _ => false) "doubling".toList).1 .factor rfl).2
  exact absurd kept.2 (by decide)

end NcclTests.CommOps.StepKinds
