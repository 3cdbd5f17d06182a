import Mathlib
import NcclTests.Lib.MachineInt
import NcclTests.Harness.BenchTime
import NcclTests.Harness.RunTest

/-!
# The verdict of a run

The threads of `BenchTime` with what they keep of their measurements: the errors `CheckData`
counts, the bandwidths, and the mismatches each line of the report shows. `run` adds the
errors of all threads and processes up, as `int`s, and exits accordingly.

A check loop ends with the first round in which any thread of any process finds a mismatch.
So in every interleaving all threads report the same numbers, and the run fails for data
exactly where a check that is reported found a wrong element (`run_verdict`). That needs fewer
than `2 ^ 31` measurements over all threads: an error is counted for each at most, and so many
would make the sum wrap around to zero.
-/

namespace NcclTests.Harness

open BinaryFloat Collective

/-! ## A thread and what it keeps -/

/-- `args->errors[0]`, `args->bw[0]` and `args->bw_count[0]`, of which the first and the last are
`int`s, and for each line `args->reportErrors` and the `wrongElts` reported. -/
structure Tally where
  errors : Int
  bw : Value
  bw_count : Int
  lines : List (Bool × Int)

def Tally.start : Tally := ⟨0, .finite 0, 0, []⟩

/-- The loop of `CheckData` over the GPUs of a thread. -/
def checkData (wrongPerGpu : List Nat) : Int :=
  wrongPerGpu.foldl (fun (wrongElts : Int) (wrong : Nat) => wrongElts + wrong) 0

/-- What one thread finds in a call of `TimeTest`, measurement by measurement: as `Measured`,
with the mismatches on each of its GPUs, and the bus bandwidth. -/
structure Findings (T : Type) where
  deltaSec : Nat → Bool → T
  wrongPerGpu : Nat → Bool → Nat → List Nat
  iterTimes : Nat → Bool → List T
  busBw : Nat → Bool → Value

def Findings.measured {T : Type} (f : Findings T) : Measured T :=
  ⟨f.deltaSec, fun size in_place c => checkData (f.wrongPerGpu size in_place c), f.iterTimes⟩

/-- `args->reportErrors` in a measurement: `run` sets it to `datacheck`, and where that is not zero
`initData` of three collectives sets it again. -/
def reportErrors (coll : Coll) (datacheck : Int) (in_place : Bool) : Bool :=
  match coll with
  | .alltoAll | .alltoAllv | .sendRecv => datacheck ≠ 0 ∧ in_place = false
  | _ => datacheck ≠ 0

section Scripts

variable {T : Type} (o : Options) (report : Bool → Bool) (f : Findings T)

/-- `checkLoop` with the errors of the thread. -/
def checkTally (size : Nat) (in_place : Bool) (wrongElts errors : Int) :
    Nat → Nat → ThreadScript T (Int × Int)
  | _, 0 => pure (wrongElts, errors)
  | c, turns + 1 => do
    startColl o
    let found := checkData (f.wrongPerGpu size in_place c)
    let counted := if report in_place ∧ found ≠ 0 then int32 (errors + 1) else errors
    let wrongElts1 ← allreduceLongLong found
    if wrongElts1 ≠ 0 then pure (wrongElts1, counted)
    else checkTally size in_place wrongElts1 counted (c + 1) turns

/-- `benchTime` with the tally of the thread. -/
def benchTally (size : Nat) (in_place : Bool) (tally : Tally) : ThreadScript T Tally := do
  Script.forLoop (fun _ => startColl o) o.warmup_iters.toNat
  barrier
  Script.forLoop (fun _ => do
    Script.forLoop (fun _ => startColl o) o.agg_iters.toNat
    Script.onlyIf (o.blocking_coll = 3) barrier) o.iters.toNat
  Script.onlyIf (o.cudaGraphs ∧ o.cudaGraphLaunches ≥ 1) barrier
  let _ ← allreduceDouble (f.deltaSec size in_place) o.average
  barrier
  let checked ← checkTally o report f size in_place 0 tally.errors 0 o.datacheck.toNat
  Script.onlyIf (o.per_iter_timing ≠ 0 ∧ 0 ≤ o.iters) do
    let _ ← gatherTimes (f.iterTimes size in_place)
    pure ()
  pure ⟨checked.2, Value.add binary64 tally.bw (f.busBw size in_place),
    int32 (tally.bw_count + 1), tally.lines ++ [(report in_place, checked.1)]⟩

/-- `sweepLoop` with the tally of the thread. -/
def sweepTally (size : UInt64) (repeat_ : Int) (measured : Nat) (tally : Tally) :
    Nat → ThreadScript T Tally
  | 0 => pure tally
  | fuel + 1 =>
    if size ≤ o.sizes.maxBytes then do
      let tally ← benchTally o report f measured false tally
      let tally ← benchTally o report f measured true tally
      sweepTally (o.sizes.nextSize size) repeat_ (measured + 1) tally fuel
    else if repeat_ - 1 ≠ 0 then sweepTally o.sizes.minBytes (repeat_ - 1) measured tally fuel
    else pure tally

def timeTally (tally : Tally) (fuel : Nat) : ThreadScript T Tally := do
  barrier
  sweepTally o report f o.sizes.minBytes o.run_cycles 0 tally fuel

end Scripts

/-- `threadRunTests`: the calls of `TimeTest` that `runTest` makes. -/
def runTally {T : Type} (o : Options) (report : Bool → Bool) (f : TimeTest → Findings T)
    (fuel : Nat) (tally : Tally) : List TimeTest → ThreadScript T Tally
  | [] => pure tally
  | test :: tests => do
    let tally ← timeTally o report (f test) tally fuel
    runTally o report f fuel tally tests

/-! ## The same calls -/

section Erase

variable {T : Type} (o : Options) (report : Bool → Bool) (f : Findings T)

theorem checkTally_erase (size : Nat) (in_place : Bool) (turns : Nat) :
    ∀ (wrongElts errors : Int) (c : Nat),
      (checkTally o report f size in_place wrongElts errors c turns).bind (fun r => .ret r.1) =
        checkLoop o f.measured size in_place wrongElts c turns := by
  induction turns with
  | zero => exact fun _ _ _ => rfl
  | succ turns ih =>
    intro wrongElts errors c
    simp only [checkTally, checkLoop, bind, Script.bind_assoc]
    refine congrArg (startColl o).bind (funext fun _ => ?_)
    refine congrArg (Script.bind _) (funext fun wrongElts1 => ?_)
    split
    · rfl
    · exact ih _ _ _

/-- What comes after does not depend on the value that is erased. -/
theorem erase_bind {α β γ : Type} {x : ThreadScript T α} {y : ThreadScript T β} {g : α → β}
    (same : x.bind (fun a => .ret (g a)) = y) (z : ThreadScript T γ) :
    x.bind (fun _ => z) = y.bind fun _ => z := by
  rw [← same, Script.bind_assoc]
  rfl

theorem benchTally_erase (size : Nat) (in_place : Bool) (tally : Tally) :
    (benchTally o report f size in_place tally).bind (fun _ => .ret ()) =
      benchTime o f.measured size in_place := by
  have checks := checkTally_erase o report f size in_place o.datacheck.toNat 0 tally.errors 0
  simp only [benchTally, benchTime, bind, Script.bind_assoc]
  iterate 6 refine congrArg (Script.bind _) (funext fun _ => ?_)
  refine Eq.trans ?_ (erase_bind checks _)
  refine congrArg (Script.bind _) (funext fun _ => ?_)
  exact Script.bind_ret _

theorem sweepTally_erase (fuel : Nat) :
    ∀ (size : UInt64) (repeat_ : Int) (measured : Nat) (tally : Tally),
      (sweepTally o report f size repeat_ measured tally fuel).bind (fun _ => .ret ()) =
        sweepLoop o f.measured size repeat_ measured fuel := by
  induction fuel with
  | zero => exact fun _ _ _ _ => rfl
  | succ fuel ih =>
    intro size repeat_ measured tally
    simp only [sweepTally, sweepLoop, bind]
    split
    · simp only [Script.bind_assoc, ih]
      refine Eq.trans (congrArg (Script.bind _) (funext fun tally' => ?_))
        (erase_bind (benchTally_erase o report f measured false tally) _)
      exact erase_bind (benchTally_erase o report f measured true tally') _
    · split
      · exact ih _ _ _ _
      · rfl

/-- The tally changes none of the calls of `TimeTest`. -/
theorem timeTally_erase (tally : Tally) (fuel : Nat) :
    (timeTally o report f tally fuel).bind (fun _ => .ret ()) = timeTest o f.measured fuel := by
  refine (Script.bind_assoc barrier _ _).trans ?_
  exact congrArg (Script.bind _) (funext fun _ => sweepTally_erase o report f fuel _ _ _ tally)

end Erase

/-! ## What the threads find together -/

section Outcome

variable {ι : Type} [Fintype ι] (wrong : Nat → ι → Int)

/-- The first of the next rounds in which some thread finds a mismatch. -/
def firstFailing : Nat → Nat → Option Nat
  | _, 0 => none
  | c, turns + 1 => if total (wrong c) ≠ 0 then some c else firstFailing (c + 1) turns

/-- The mismatches of all threads in that round. -/
def mismatches (c turns : Nat) : Int :=
  (firstFailing wrong c turns).elim 0 fun failing => total (wrong failing)

/-- The same with those of one thread. -/
def outcome (c turns : Nat) (t : ι) : Int × Int :=
  (mismatches wrong c turns, (firstFailing wrong c turns).elim 0 fun failing => wrong failing t)

variable {wrong}

theorem total_eq_zero_iff {value : ι → Int} (nonneg : ∀ t, 0 ≤ value t) :
    total value = 0 ↔ ∀ t, value t = 0 := by
  rw [total, Finset.sum_eq_zero_iff_of_nonneg fun t _ => nonneg t]
  exact ⟨fun all t => all t (Finset.mem_univ t), fun all t _ => all t⟩

/-- No round fails exactly where no thread finds anything. -/
theorem firstFailing_eq_none_iff (nonneg : ∀ c t, 0 ≤ wrong c t) (turns : Nat) :
    ∀ c, firstFailing wrong c turns = none ↔ ∀ d < turns, ∀ t, wrong (c + d) t = 0 := by
  induction turns with
  | zero => exact fun c => ⟨fun _ d none_ => absurd none_ d.not_lt_zero, fun _ => rfl⟩
  | succ turns ih =>
    intro c
    rw [firstFailing]
    by_cases clean : total (wrong c) = 0
    · rw [if_neg (not_not.2 clean), ih, Nat.forall_lt_succ_left]
      simp only [Nat.add_zero, Nat.add_assoc, Nat.add_comm 1]
      exact (and_iff_right ((total_eq_zero_iff (nonneg c)).1 clean)).symm
    · rw [if_pos clean]
      refine ⟨fun none_ => absurd none_ (Option.some_ne_none c), fun all => absurd ?_ clean⟩
      exact (total_eq_zero_iff (nonneg c)).2 (all 0 turns.succ_pos)

theorem total_of_firstFailing {turns : Nat} : ∀ {c d : Nat},
    firstFailing wrong c turns = some d → total (wrong d) ≠ 0 := by
  induction turns with
  | zero =>
    intro c d found
    cases found
  | succ turns ih =>
    intro c d found
    rw [firstFailing] at found
    split at found
    case isTrue fails =>
      obtain rfl := Option.some.inj found
      exact fails
    case isFalse => exact ih found

variable {turns : Nat}

theorem outcome_of_fails {c : Nat} (fails : total (wrong c) ≠ 0) (t : ι) :
    outcome wrong c (turns + 1) t = (total (wrong c), wrong c t) := by
  rw [outcome, mismatches, firstFailing, if_pos fails]
  rfl

theorem outcome_of_clean {c : Nat} (clean : total (wrong c) = 0) (t : ι) :
    outcome wrong c (turns + 1) t = outcome wrong (c + 1) turns t := by
  rw [outcome, mismatches, firstFailing, if_neg (not_not.2 clean)]
  rfl

/-- The number reported is zero exactly where no check finds anything. -/
theorem mismatches_eq_zero_iff (nonneg : ∀ c t, 0 ≤ wrong c t) :
    mismatches wrong 0 turns = 0 ↔ ∀ c < turns, ∀ u, wrong c u = 0 := by
  have clean := firstFailing_eq_none_iff nonneg turns 0
  simp only [Nat.zero_add] at clean
  rw [mismatches, ← clean]
  cases found : firstFailing wrong 0 turns with
  | none => exact ⟨fun _ => rfl, fun _ => rfl⟩
  | some d =>
    refine ⟨fun zero => absurd zero (total_of_firstFailing found), fun none_ => ?_⟩
    cases none_

/-- Some thread has found something in the round that fails. -/
theorem outcome_snd_eq_zero_iff (nonneg : ∀ c t, 0 ≤ wrong c t) :
    (∀ t, (outcome wrong 0 turns t).2 = 0) ↔ ∀ c < turns, ∀ u, wrong c u = 0 := by
  have clean := firstFailing_eq_none_iff nonneg turns 0
  simp only [Nat.zero_add] at clean
  rw [← clean]
  simp only [outcome]
  cases found : firstFailing wrong 0 turns with
  | none => exact ⟨fun _ => rfl, fun _ _ => rfl⟩
  | some d =>
    refine ⟨fun zero => absurd ?_ (total_of_firstFailing found), fun none_ => ?_⟩
    · exact (total_eq_zero_iff (nonneg d)).2 zero
    · cases none_

end Outcome

/-- The tally after a measurement with the outcome of its checks. -/
def Tally.measure (tally : Tally) (report : Bool) (found : Int × Int) (busBw : Value) : Tally where
  errors := if report ∧ found.2 ≠ 0 then int32 (tally.errors + 1) else tally.errors
  bw := Value.add binary64 tally.bw busBw
  bw_count := int32 (tally.bw_count + 1)
  lines := tally.lines ++ [(report, found.1)]

theorem checkData_eq_sum (wrongPerGpu : List Nat) : checkData wrongPerGpu = wrongPerGpu.sum := by
  have from_ : ∀ start : Int, wrongPerGpu.foldl
      (fun (wrongElts : Int) (wrong : Nat) => wrongElts + wrong) start =
        start + wrongPerGpu.sum := by
    induction wrongPerGpu with
    | nil => exact fun start => (Int.add_zero start).symm
    | cons wrong rest ih =>
      intro start
      rw [List.foldl_cons, ih, List.sum_cons, Nat.cast_add, Int.add_assoc]
  rw [checkData, from_, Int.zero_add]

theorem checkData_nonneg (wrongPerGpu : List Nat) : 0 ≤ checkData wrongPerGpu := by
  rw [checkData_eq_sum]
  exact Int.natCast_nonneg _

theorem checkData_eq_zero_iff (wrongPerGpu : List Nat) :
    checkData wrongPerGpu = 0 ↔ ∀ wrong ∈ wrongPerGpu, wrong = 0 := by
  rw [checkData_eq_sum, Int.natCast_eq_zero, List.sum_eq_zero_iff]

section Lockstep

variable {procs threads : Nat} {T : Type} {average : Average}
  {times : Fin procs × Fin threads → Nat → T} {rows : Fin procs × Fin threads → Nat → List T}
  {o : Options} {report : Bool → Bool} {f : Fin procs × Fin threads → Findings T}

/-- What each thread finds in a round of the checks of a measurement. -/
def wrongOf (f : Fin procs × Fin threads → Findings T) (size : Nat) (in_place : Bool) (c : Nat)
    (t : Fin procs × Fin threads) : Int :=
  checkData ((f t).wrongPerGpu size in_place c)

theorem checkTally_lockstep (size : Nat) (in_place : Bool) (turns : Nat) :
    ∀ (errors : Fin procs × Fin threads → Int) (c : Nat),
      Meeting.Lockstep (meeting average times rows)
        (fun t => checkTally o report (f t) size in_place 0 (errors t) c turns) fun r =>
          r = fun t =>
            let found := outcome (wrongOf f size in_place) c turns t
            (found.1,
              if report in_place ∧ found.2 ≠ 0 then int32 (errors t + 1) else errors t) := by
  induction turns with
  | zero =>
    intro errors c
    refine .ret (funext fun t => ?_)
    simp [outcome, mismatches, firstFailing]
  | succ turns ih =>
    intro errors c
    refine startColl_lockstep.bind fun _ _ => ?_
    refine (allreduceLongLong_lockstep _).bind ?_
    intro sums same
    rw [same]
    beta_reduce
    refine .ite (fun fails => .ret (funext fun t => ?_)) fun passes => ?_
    · rw [outcome_of_fails fails]
      rfl
    · have clean : total (wrongOf f size in_place c) = 0 := not_not.1 passes
      have each := (total_eq_zero_iff fun t => checkData_nonneg _).1 clean
      have next := ih errors (c + 1)
      simp only [outcome_of_clean clean]
      convert next using 2 with t
      rw [if_neg fun found => found.2 (each t)]
      exact congrArg (fun wrongElts => checkTally o report (f t) size in_place wrongElts
        (errors t) (c + 1) turns) clean

/-- A measurement adds its outcome to the tally of every thread. -/
theorem benchTally_lockstep (size : Nat) (in_place : Bool)
    (tally : Fin procs × Fin threads → Tally) :
    Meeting.Lockstep (meeting average times rows)
      (fun t => benchTally o report (f t) size in_place (tally t)) fun r =>
        r = fun t => (tally t).measure (report in_place)
          (outcome (wrongOf f size in_place) 0 o.datacheck.toNat t)
          ((f t).busBw size in_place) := by
  refine (Meeting.Lockstep.forLoop (fun _ => startColl_lockstep) _).bind fun _ _ => ?_
  refine barrier_lockstep.bind fun _ _ => ?_
  refine (Meeting.Lockstep.forLoop (fun _ => ?iteration) _).bind fun _ _ => ?_
  case iteration =>
    refine (Meeting.Lockstep.forLoop (fun _ => startColl_lockstep) _).bind fun _ _ => ?_
    exact .onlyIf fun _ => barrier_lockstep
  refine (Meeting.Lockstep.onlyIf fun _ => barrier_lockstep).bind fun _ _ => ?_
  refine (allreduceDouble_lockstep _).bind fun _ _ => ?_
  refine barrier_lockstep.bind fun _ _ => ?_
  refine (checkTally_lockstep size in_place _ (fun t => (tally t).errors) 0).bind
    fun checked same => ?_
  have gathered : Meeting.Lockstep (meeting average times rows)
      (fun t => Script.onlyIf (o.per_iter_timing ≠ 0 ∧ 0 ≤ o.iters) do
        let _ ← gatherTimes ((f t).iterTimes size in_place)
        pure ()) fun _ => True :=
    .onlyIf fun _ => (gatherTimes_lockstep _).bind fun _ _ => .ret trivial
  refine gathered.bind fun _ _ => .ret ?_
  rw [same]
  rfl

/-- Measurements, out of place and in place, of the sizes of a call of `TimeTest` from one on. -/
def sweepList (o : Options) (size : UInt64) (repeat_ : Int) (measured : Nat) :
    Nat → List (Nat × Bool)
  | 0 => []
  | fuel + 1 =>
    if size ≤ o.sizes.maxBytes then
      (measured, false) :: (measured, true) ::
        sweepList o (o.sizes.nextSize size) repeat_ (measured + 1) fuel
    else if repeat_ - 1 ≠ 0 then sweepList o o.sizes.minBytes (repeat_ - 1) measured fuel
    else []

/-- The tally of a thread after the measurements listed. -/
def measureAll (o : Options) (report : Bool → Bool) (f : Fin procs × Fin threads → Findings T)
    (t : Fin procs × Fin threads) (tally : Tally) (measurements : List (Nat × Bool)) : Tally :=
  measurements.foldl (fun tally m => tally.measure (report m.2)
    (outcome (wrongOf f m.1 m.2) 0 o.datacheck.toNat t) ((f t).busBw m.1 m.2)) tally

theorem sweepTally_lockstep (fuel : Nat) :
    ∀ (size : UInt64) (repeat_ : Int) (measured : Nat) (tally : Fin procs × Fin threads → Tally),
      Meeting.Lockstep (meeting average times rows)
        (fun t => sweepTally o report (f t) size repeat_ measured (tally t) fuel) fun r =>
          r = fun t => measureAll o report f t (tally t)
            (sweepList o size repeat_ measured fuel) := by
  induction fuel with
  | zero => exact fun _ _ _ _ => .ret rfl
  | succ fuel ih =>
    intro size repeat_ measured tally
    rw [sweepList]
    refine .ite (fun below => ?_) fun above => .ite (fun again => ?_) fun last => ?_
    · rw [if_pos below]
      refine (benchTally_lockstep measured false tally).bind fun _ same => ?_
      rw [same]
      refine (benchTally_lockstep measured true _).bind fun _ same' => ?_
      rw [same']
      exact ih _ _ _ _
    · rw [if_neg above, if_pos again]
      exact ih _ _ _ _
    · rw [if_neg above, if_neg last]
      exact .ret rfl

theorem timeTally_lockstep (tally : Fin procs × Fin threads → Tally) (fuel : Nat) :
    Meeting.Lockstep (meeting average times rows)
      (fun t => timeTally o report (f t) (tally t) fuel) fun r =>
        r = fun t => measureAll o report f t (tally t)
          (sweepList o o.sizes.minBytes o.run_cycles 0 fuel) :=
  barrier_lockstep.bind fun _ _ => sweepTally_lockstep fuel _ _ _ tally

/-- The tally of a thread after the tests listed. -/
def measureTests (o : Options) (report : Bool → Bool)
    (f : Fin procs × Fin threads → TimeTest → Findings T) (fuel : Nat)
    (t : Fin procs × Fin threads) (tally : Tally) (tests : List TimeTest) : Tally :=
  tests.foldl (fun tally test => measureAll o report (fun u => f u test) t tally
    (sweepList o o.sizes.minBytes o.run_cycles 0 fuel)) tally

theorem runTally_lockstep {f : Fin procs × Fin threads → TimeTest → Findings T} {fuel : Nat}
    (tests : List TimeTest) : ∀ tally : Fin procs × Fin threads → Tally,
      Meeting.Lockstep (meeting average times rows)
        (fun t => runTally o report (f t) fuel (tally t) tests) fun r =>
          r = fun t => measureTests o report f fuel t (tally t) tests := by
  induction tests with
  | nil => exact fun _ => .ret rfl
  | cons test tests ih =>
    intro tally
    refine (timeTally_lockstep tally fuel).bind fun _ same => ?_
    rw [same]
    exact ih _

end Lockstep

/-! ## What a tally says -/

section Tallies

variable {α : Type} {step : Tally → α → Tally}

theorem foldl_lines {line : α → List (Bool × Int)}
    (each : ∀ tally x, (step tally x).lines = tally.lines ++ line x) (l : List α) (tally : Tally) :
    (l.foldl step tally).lines = tally.lines ++ l.flatMap line := by
  induction l generalizing tally with
  | nil => exact (List.append_nil _).symm
  | cons x l ih => rw [List.foldl_cons, ih, each, List.flatMap_cons, List.append_assoc]

/-- Errors are added up as long as they fit in an `int`. -/
theorem foldl_errors {cost : α → Nat}
    (each : ∀ (tally : Tally) x (errors : Nat), tally.errors = errors →
      errors + cost x < 2 ^ 31 → (step tally x).errors = ((errors + cost x : Nat) : Int))
    (l : List α) (tally : Tally) (errors : Nat) (start : tally.errors = errors)
    (fits : errors + (l.map cost).sum < 2 ^ 31) :
    (l.foldl step tally).errors = ((errors + (l.map cost).sum : Nat) : Int) := by
  induction l generalizing tally errors with
  | nil => exact start
  | cons x l ih =>
    rw [List.map_cons, List.sum_cons, ← Nat.add_assoc] at fits ⊢
    rw [List.foldl_cons]
    exact ih _ _ (each tally x errors start (by omega)) fits

/-- One for a measurement that fails. -/
def costOf (report : Bool) (found : Int) : Nat := if report ∧ found ≠ 0 then 1 else 0

theorem costOf_le (report : Bool) (found : Int) : costOf report found ≤ 1 := by
  unfold costOf
  split_ifs <;> omega

theorem costOf_eq_zero_iff {report : Bool} {found : Int} :
    costOf report found = 0 ↔ (report = true → found = 0) := by
  rw [costOf, ite_eq_right_iff, and_imp]
  simp only [one_ne_zero, imp_false, not_not]

theorem measure_errors (tally : Tally) (report : Bool) (found : Int × Int) (busBw : Value)
    (errors : Nat) (start : tally.errors = errors)
    (fits : errors + costOf report found.2 < 2 ^ 31) :
    (tally.measure report found busBw).errors = ((errors + costOf report found.2 : Nat) : Int) := by
  rw [Tally.measure, costOf, start] at *
  dsimp only
  split
  case isTrue counted =>
    rw [if_pos counted] at fits
    exact int32_of_lt fits
  case isFalse => rfl

variable {procs threads : Nat} {T : Type} {o : Options} {report : Bool → Bool}
  {t : Fin procs × Fin threads} {f : Fin procs × Fin threads → TimeTest → Findings T}
  {fuel : Nat}

/-- The line of a measurement of a test, the same for all threads. -/
def lineOf (o : Options) (report : Bool → Bool)
    (f : Fin procs × Fin threads → TimeTest → Findings T) (test : TimeTest) (m : Nat × Bool) :
    Bool × Int :=
  (report m.2, mismatches (wrongOf (fun u => f u test) m.1 m.2) 0 o.datacheck.toNat)

theorem measureTests_lines (tally : Tally) (tests : List TimeTest) :
    (measureTests o report f fuel t tally tests).lines = tally.lines ++ tests.flatMap fun test =>
      (sweepList o o.sizes.minBytes o.run_cycles 0 fuel).flatMap fun m =>
        [lineOf o report f test m] :=
  foldl_lines (fun tally _ => foldl_lines (fun _ _ => rfl) _ tally) tests tally

/-- What a measurement of a test costs a thread. -/
def failure (o : Options) (report : Bool → Bool)
    (f : Fin procs × Fin threads → TimeTest → Findings T) (t : Fin procs × Fin threads)
    (test : TimeTest) (m : Nat × Bool) : Nat :=
  costOf (report m.2) (outcome (wrongOf (fun u => f u test) m.1 m.2) 0 o.datacheck.toNat t).2

/-- What all tests cost a thread. -/
def failures (o : Options) (report : Bool → Bool)
    (f : Fin procs × Fin threads → TimeTest → Findings T) (tests : List TimeTest) (fuel : Nat)
    (t : Fin procs × Fin threads) : Nat :=
  (tests.map fun test =>
    ((sweepList o o.sizes.minBytes o.run_cycles 0 fuel).map (failure o report f t test)).sum).sum

theorem failure_spec (test : TimeTest) (tally : Tally) (m : Nat × Bool) (errors : Nat)
    (start : tally.errors = errors) (fits : errors + failure o report f t test m < 2 ^ 31) :
    (tally.measure (report m.2)
        (outcome (wrongOf (fun u => f u test) m.1 m.2) 0 o.datacheck.toNat t)
        ((f t test).busBw m.1 m.2)).errors =
      ((errors + failure o report f t test m : Nat) : Int) :=
  measure_errors tally _ _ _ errors start fits

theorem measureAll_errors (test : TimeTest) (l : List (Nat × Bool)) (tally : Tally)
    (errors : Nat) (start : tally.errors = errors)
    (fits : errors + (l.map (failure o report f t test)).sum < 2 ^ 31) :
    (measureAll o report (fun u => f u test) t tally l).errors =
      ((errors + (l.map (failure o report f t test)).sum : Nat) : Int) :=
  foldl_errors (failure_spec test) l tally errors start fits

theorem measureTests_errors (tests : List TimeTest)
    (fits : failures o report f tests fuel t < 2 ^ 31) :
    (measureTests o report f fuel t Tally.start tests).errors =
      failures o report f tests fuel t := by
  rw [← Nat.zero_add (failures o report f tests fuel t)] at fits ⊢
  exact foldl_errors (fun tally test errors start fits =>
    measureAll_errors test _ tally errors start fits) tests Tally.start 0 rfl fits

/-- A test costs at most the number of its measurements. -/
theorem failures_le (tests : List TimeTest) : failures o report f tests fuel t ≤
    tests.length * (sweepList o o.sizes.minBytes o.run_cycles 0 fuel).length := by
  have each (test : TimeTest) : ((sweepList o o.sizes.minBytes o.run_cycles 0 fuel).map
      (failure o report f t test)).sum ≤
        (sweepList o o.sizes.minBytes o.run_cycles 0 fuel).length := by
    refine (List.sum_le_card_nsmul _ 1 fun cost mem => ?_).trans_eq ?_
    · obtain ⟨m, -, rfl⟩ := List.mem_map.1 mem
      exact costOf_le _ _
    · rw [List.length_map, smul_eq_mul, Nat.mul_one]
  refine (List.sum_le_card_nsmul _
    (sweepList o o.sizes.minBytes o.run_cycles 0 fuel).length fun cost mem => ?_).trans_eq ?_
  · obtain ⟨test, -, rfl⟩ := List.mem_map.1 mem
    exact each test
  · rw [List.length_map, smul_eq_mul]

theorem failures_eq_zero_iff (tests : List TimeTest) :
    failures o report f tests fuel t = 0 ↔ ∀ test ∈ tests,
      ∀ m ∈ sweepList o o.sizes.minBytes o.run_cycles 0 fuel, report m.2 = true →
        (outcome (wrongOf (fun u => f u test) m.1 m.2) 0 o.datacheck.toNat t).2 = 0 := by
  simp only [failures, List.sum_eq_zero_iff, List.forall_mem_map, failure, costOf_eq_zero_iff]

end Tallies

/-! ## The measurements of a sweep -/

section Sweep

variable {o : Options}

/-- One pass over the sizes, and what comes after it. -/
theorem mem_sweepList_pass {size : UInt64} {visited : List UInt64}
    (run : LoopRun (· ≤ o.sizes.maxBytes) (fun size => some (o.sizes.nextSize size)) size visited)
    (m : Nat × Bool) (repeat_ : Int) : ∀ (measured fuel : Nat),
      m ∈ sweepList o size repeat_ measured (fuel + (visited.length + 1)) ↔
        measured ≤ m.1 ∧ m.1 < measured + visited.length ∨
          repeat_ - 1 ≠ 0 ∧
            m ∈ sweepList o o.sizes.minBytes (repeat_ - 1) (measured + visited.length) fuel := by
  induction run with
  | @stop size done =>
    intro measured fuel
    change m ∈ sweepList o size repeat_ measured (fuel + 1) ↔ _
    have none_ : ¬ (measured ≤ m.1 ∧ m.1 < measured + ([] : List UInt64).length) := by
      rw [List.length_nil]
      omega
    rw [sweepList, if_neg done, or_iff_right none_]
    split
    case isTrue again => exact (and_iff_right again).symm
    case isFalse last => exact ⟨fun inside => (nomatch inside), fun h => absurd h.1 last⟩
  | @body size next visited kept step run ih =>
    intro measured fuel
    obtain rfl := Option.some.inj step
    change m ∈ sweepList o size repeat_ measured (fuel + (visited.length + 1) + 1) ↔ _
    rw [sweepList, if_pos kept, List.mem_cons, List.mem_cons, ih, List.length_cons,
      Nat.add_right_comm measured, Nat.add_assoc]
    have here : (m = (measured, false) ∨ m = (measured, true)) ↔ m.1 = measured := by
      obtain ⟨j, b⟩ := m
      cases b <;> simp
    rw [← or_assoc, here, ← or_assoc]
    refine or_congr ?_ Iff.rfl
    omega

/-- All cycles together measure every size of the sweep in each cycle. -/
theorem mem_sweepList {visited : List UInt64} (sweep : o.sizes.Sweep visited) (m : Nat × Bool)
    (cycles : Nat) : ∀ (measured fuel : Nat), (visited.length + 1) * (cycles + 1) ≤ fuel →
      (m ∈ sweepList o o.sizes.minBytes (cycles + 1) measured fuel ↔
        measured ≤ m.1 ∧ m.1 < measured + visited.length * (cycles + 1)) := by
  induction cycles with
  | zero =>
    intro measured fuel enough
    obtain ⟨rest, rfl⟩ := Nat.exists_eq_add_of_le' enough
    rw [Nat.zero_add, Nat.mul_one, mem_sweepList_pass sweep]
    simp
  | succ cycles ih =>
    intro measured fuel enough
    obtain ⟨rest, rfl⟩ := Nat.exists_eq_add_of_le' enough
    have split_ : (visited.length + 1) * (cycles + 1 + 1) =
        (visited.length + 1) * (cycles + 1) + (visited.length + 1) := Nat.mul_succ _ _
    rw [split_, ← Nat.add_assoc, mem_sweepList_pass sweep]
    have left : ((cycles + 1 : Nat) : Int) + 1 - 1 = cycles + 1 := by omega
    rw [left, ih _ _ (Nat.le_add_left _ _), Nat.mul_succ visited.length (cycles + 1)]
    omega

/-- A pass makes two measurements of every size. -/
theorem length_sweepList_pass {size : UInt64} {visited : List UInt64}
    (run : LoopRun (· ≤ o.sizes.maxBytes) (fun size => some (o.sizes.nextSize size)) size visited)
    (repeat_ : Int) : ∀ (measured fuel : Nat),
      (sweepList o size repeat_ measured (fuel + (visited.length + 1))).length =
        2 * visited.length + if repeat_ - 1 ≠ 0 then
          (sweepList o o.sizes.minBytes (repeat_ - 1) (measured + visited.length) fuel).length
        else 0 := by
  induction run with
  | @stop size done =>
    intro measured fuel
    change (sweepList o size repeat_ measured (fuel + 1)).length = _
    rw [sweepList, if_neg done, List.length_nil, Nat.mul_zero, Nat.zero_add]
    split
    case isTrue again => rfl
    case isFalse last => rfl
  | @body size next visited kept step run ih =>
    intro measured fuel
    obtain rfl := Option.some.inj step
    change (sweepList o size repeat_ measured (fuel + (visited.length + 1) + 1)).length = _
    rw [sweepList, if_pos kept, List.length_cons, List.length_cons, ih, List.length_cons,
      Nat.add_right_comm measured, Nat.add_assoc measured]
    omega

/-- All cycles together make two measurements of every size in each cycle. -/
theorem length_sweepList {visited : List UInt64} (sweep : o.sizes.Sweep visited)
    (cycles : Nat) : ∀ (measured fuel : Nat), (visited.length + 1) * (cycles + 1) ≤ fuel →
      (sweepList o o.sizes.minBytes (cycles + 1) measured fuel).length =
        2 * (visited.length * (cycles + 1)) := by
  induction cycles with
  | zero =>
    intro measured fuel enough
    obtain ⟨rest, rfl⟩ := Nat.exists_eq_add_of_le' enough
    rw [Nat.zero_add, Nat.mul_one, length_sweepList_pass sweep]
    simp
  | succ cycles ih =>
    intro measured fuel enough
    obtain ⟨rest, rfl⟩ := Nat.exists_eq_add_of_le' enough
    have split_ : (visited.length + 1) * (cycles + 1 + 1) =
        (visited.length + 1) * (cycles + 1) + (visited.length + 1) := Nat.mul_succ _ _
    have left : ((cycles + 1 : Nat) : Int) + 1 - 1 = cycles + 1 := by omega
    rw [split_, ← Nat.add_assoc, length_sweepList_pass sweep, left,
      if_pos (by omega), ih _ _ (Nat.le_add_left _ _), Nat.mul_succ visited.length (cycles + 1)]
    omega

end Sweep

/-! ## The end of `run` -/

/-- A turn of the join loop. -/
def Tally.join (sum tally : Tally) : Tally :=
  ⟨int32 (sum.errors + tally.errors), Value.add binary64 sum.bw tally.bw,
    int32 (sum.bw_count + tally.bw_count), sum.lines⟩

/-- The join loop, from the last thread down, adds to the tally of thread 0. -/
def joinThreads (nThreads : Nat) (tally : Nat → Tally) : Tally :=
  (List.range nThreads).reverse.foldl
    (fun sum t => if t ≠ 0 then sum.join (tally t) else sum) (tally 0)

/-- `errors[0]` of every process after the reduction of `MPI_INT`s with MPI_SUM. -/
def sumErrors (procs nThreads : Nat) (tally : Nat → Nat → Tally) : Int :=
  int32 (∑ p ∈ Finset.range procs, (joinThreads nThreads (tally p)).errors)

/-- `bw[0]`, divided by `bw_count[0]`, is less than `check_avg_bw*(0.9)`. -/
def tooSlow (joined : Tally) (check_avg_bw : Value) : Bool :=
  (Value.div binary64 joined.bw (Value.ofRat binary64 joined.bw_count)).lt
    (Value.mul binary64 check_avg_bw (Value.ofRat binary64 (9 / 10)))

/-- What `run` returns, and `main` after it. -/
def exitStatus (errors : Int) (slow : Bool) : TestResult :=
  if errors ≠ 0 ∨ slow = true then .numResults else .success

theorem Tally.join_errors {sum tally : Tally} {before own : Nat} (start : sum.errors = before)
    (each : tally.errors = own) (fits : before + own < 2 ^ 31) :
    (sum.join tally).errors = ((before + own : Nat) : Int) := by
  have added : sum.errors + tally.errors = ((before + own : Nat) : Int) := by
    rw [start, each, Nat.cast_add]
  exact (congrArg int32 added).trans (int32_of_lt fits)

/-- What a thread adds to the errors of thread 0. -/
def joinedErrors (errors : Nat → Nat) (t : Nat) : Nat := if t ≠ 0 then errors t else 0

theorem foldl_join_errors {tally : Nat → Tally} {errors : Nat → Nat} {l : List Nat}
    (each : ∀ t ∈ l, (tally t).errors = errors t) {sum : Tally} {before : Nat}
    (start : sum.errors = before) (fits : before + (l.map (joinedErrors errors)).sum < 2 ^ 31) :
    (l.foldl (fun sum t => if t ≠ 0 then sum.join (tally t) else sum) sum).errors =
      ((before + (l.map (joinedErrors errors)).sum : Nat) : Int) := by
  induction l generalizing sum before with
  | nil => exact start
  | cons t l ih =>
    rw [List.forall_mem_cons] at each
    rw [List.map_cons, List.sum_cons, ← Nat.add_assoc] at fits ⊢
    have turn : (if t ≠ 0 then sum.join (tally t) else sum).errors =
        ((before + joinedErrors errors t : Nat) : Int) := by
      rw [joinedErrors] at fits ⊢
      split
      case isTrue other =>
        rw [if_pos other] at fits
        exact Tally.join_errors start each.1 (by omega)
      case isFalse zero => exact start
    exact ih each.2 turn fits

theorem joinThreads_errors {nThreads : Nat} (some_ : 1 ≤ nThreads) {tally : Nat → Tally}
    {errors : Nat → Nat} (each : ∀ t < nThreads, (tally t).errors = errors t)
    (fits : ∑ t ∈ Finset.range nThreads, errors t < 2 ^ 31) :
    (joinThreads nThreads tally).errors = (∑ t ∈ Finset.range nThreads, errors t : Nat) := by
  obtain ⟨n, rfl⟩ : ∃ n, nThreads = n + 1 := ⟨nThreads - 1, by omega⟩
  have others : ((List.range (n + 1)).map (joinedErrors errors)).sum =
      ∑ t ∈ Finset.range (n + 1), joinedErrors errors t := rfl
  have whole : errors 0 + ((List.range (n + 1)).reverse.map (joinedErrors errors)).sum =
      ∑ t ∈ Finset.range (n + 1), errors t := by
    rw [List.map_reverse, List.sum_reverse, others, Finset.sum_range_succ', Finset.sum_range_succ',
      Nat.add_comm]
    simp [joinedErrors]
  rw [← whole] at fits ⊢
  refine foldl_join_errors (fun t mem => each t ?_) (each 0 (Nat.succ_pos n)) fits
  exact List.mem_range.1 (List.mem_reverse.1 mem)

/-- With few enough errors in each thread no addition wraps. -/
theorem sumErrors_eq {procs nThreads most : Nat} (some_ : 1 ≤ nThreads)
    {tally : Nat → Nat → Tally} {errors : Nat → Nat → Nat}
    (each : ∀ p < procs, ∀ t < nThreads, (tally p t).errors = errors p t)
    (bounded : ∀ p < procs, ∀ t < nThreads, errors p t ≤ most)
    (few : procs * (nThreads * most) < 2 ^ 31) :
    sumErrors procs nThreads tally =
      (∑ p ∈ Finset.range procs, ∑ t ∈ Finset.range nThreads, errors p t : Nat) := by
  have process_le (p : Nat) (inside : p < procs) :
      ∑ t ∈ Finset.range nThreads, errors p t ≤ nThreads * most :=
    (Finset.sum_le_card_nsmul _ _ _ fun t mem =>
      bounded p inside t (Finset.mem_range.1 mem)).trans_eq (by simp)
  have total_le : ∑ p ∈ Finset.range procs, ∑ t ∈ Finset.range nThreads, errors p t ≤
      procs * (nThreads * most) :=
    (Finset.sum_le_card_nsmul _ _ _ fun p mem =>
      process_le p (Finset.mem_range.1 mem)).trans_eq (by simp)
  have process (p : Nat) (mem : p ∈ Finset.range procs) :
      (joinThreads nThreads (tally p)).errors =
        ((∑ t ∈ Finset.range nThreads, errors p t : Nat) : Int) := by
    have inside := Finset.mem_range.1 mem
    have one : nThreads * most ≤ procs * (nThreads * most) :=
      Nat.le_mul_of_pos_left _ (by omega)
    exact joinThreads_errors some_ (each p inside) (by have := process_le p inside; omega)
  rw [sumErrors, Finset.sum_congr rfl process, ← Nat.cast_sum]
  exact int32_of_lt (by omega)

section Verdict

variable {procs threads : Nat} {T : Type} {o : Options} {coll : Coll}
  {times : Fin procs × Fin threads → Nat → T} {rows : Fin procs × Fin threads → Nat → List T}
  {f : Fin procs × Fin threads → TimeTest → Findings T} {visited : List UInt64}
  {tests : List TimeTest} {fuel : Nat}
  {s : Fin procs × Fin threads → Meeting.Thread Rendez (Rendez.In T) (Rendez.Out T) Tally}
  {tally : Nat → Nat → Tally}

/-- No GPU finds a wrong element in any round of any check that is reported. -/
def Clean (o : Options) (report : Bool → Bool)
    (f : Fin procs × Fin threads → TimeTest → Findings T) (tests : List TimeTest) (fuel : Nat) :
    Prop :=
  ∀ test ∈ tests, ∀ m ∈ sweepList o o.sizes.minBytes o.run_cycles 0 fuel, report m.2 = true →
    ∀ c < o.datacheck.toNat, ∀ t, wrongOf (fun u => f u test) m.1 m.2 c t = 0

variable {report : Bool → Bool}

theorem lines_clean_iff :
    (∀ line ∈ tests.flatMap fun test =>
        (sweepList o o.sizes.minBytes o.run_cycles 0 fuel).flatMap fun m =>
          [lineOf o report f test m], line.1 = true → line.2 = 0) ↔
      Clean o report f tests fuel := by
  have zero : ∀ test (m : Nat × Bool), (lineOf o report f test m).2 = 0 ↔
      ∀ c < o.datacheck.toNat, ∀ t, wrongOf (fun u => f u test) m.1 m.2 c t = 0 :=
    fun test m => mismatches_eq_zero_iff fun _ _ => checkData_nonneg _
  simp only [List.mem_flatMap, List.mem_singleton, Clean, ← zero]
  constructor
  · intro h test listed m inside reported
    exact h _ ⟨test, listed, m, inside, rfl⟩ reported
  · intro h line shown reported
    obtain ⟨test, listed, m, inside, rfl⟩ := shown
    exact h test listed m inside reported

/-- The failures of all threads of all processes are added up without a wrap, so that their
sum is zero exactly where each of them is. -/
theorem sumErrors_eq_zero_iff (some_ : 1 ≤ threads)
    (value : ∀ t : Fin procs × Fin threads, tally t.1 t.2 =
      measureTests o report f fuel t Tally.start tests)
    (few : procs * (threads *
      (tests.length * (sweepList o o.sizes.minBytes o.run_cycles 0 fuel).length)) < 2 ^ 31) :
    sumErrors procs threads tally = 0 ↔ Clean o report f tests fuel := by
  obtain ⟨most, counted⟩ : ∃ most, most =
    tests.length * (sweepList o o.sizes.minBytes o.run_cycles 0 fuel).length := ⟨_, rfl⟩
  rw [← counted] at few
  let errors : Nat → Nat → Nat := fun p t =>
    if h : p < procs ∧ t < threads then failures o report f tests fuel (⟨p, h.1⟩, ⟨t, h.2⟩) else 0
  have own (t : Fin procs × Fin threads) : errors t.1 t.2 = failures o report f tests fuel t :=
    dif_pos ⟨t.1.isLt, t.2.isLt⟩
  have bounded (p : Nat) (hp : p < procs) (t : Nat) (ht : t < threads) : errors p t ≤ most :=
    (own (⟨p, hp⟩, ⟨t, ht⟩)).trans_le ((failures_le tests).trans_eq counted.symm)
  have each (p : Nat) (hp : p < procs) (t : Nat) (ht : t < threads) :
      (tally p t).errors = errors p t := by
    have process : most ≤ threads * most := Nat.le_mul_of_pos_left _ some_
    have all : threads * most ≤ procs * (threads * most) := Nat.le_mul_of_pos_left _ (by omega)
    have fits := bounded p hp t ht
    rw [own (⟨p, hp⟩, ⟨t, ht⟩)] at fits ⊢
    rw [value (⟨p, hp⟩, ⟨t, ht⟩)]
    exact measureTests_errors tests (by omega)
  rw [sumErrors_eq some_ each bounded few, Nat.cast_eq_zero]
  simp only [Finset.sum_eq_zero_iff, Finset.mem_range]
  have all_zero : (∀ p < procs, ∀ t < threads, errors p t = 0) ↔
      ∀ t, failures o report f tests fuel t = 0 := by
    constructor
    · intro h t
      rw [← own t]
      exact h t.1 t.1.isLt t.2 t.2.isLt
    · intro h p hp t ht
      exact (own (⟨p, hp⟩, ⟨t, ht⟩)).trans (h _)
  rw [all_zero]
  simp only [failures_eq_zero_iff]
  constructor
  · intro h test listed m inside reported
    refine (outcome_snd_eq_zero_iff fun _ _ => checkData_nonneg _).1 fun t => ?_
    exact h t test listed m inside reported
  · intro h t test listed m inside reported
    refine (outcome_snd_eq_zero_iff fun _ _ => checkData_nonneg _).2 ?_ t
    exact h test listed m inside reported

/-- **A wrong element fails the run, and nothing else does but a low bandwidth.** In every
interleaving, when all threads of all processes have finished their tests: all report the
same lines; a process returns success exactly where no line that is reported shows a
mismatch and its average bandwidth is not too low; and no such line shows one exactly where
no GPU finds a wrong element in any round of any check that is reported.

There is at least one thread and one cycle, the sweep visits finitely many sizes, and all
threads together make fewer than 2^31 measurements. The mismatches of a check are summed over
all threads before any thread looks at them, so that all see the same; a thread counts a
measurement at most once, so that the counts are added in `int`s without a wrap and their
sum is zero only where each of them is. -/
theorem run_verdict (some_ : 1 ≤ threads) (cycles : 1 ≤ o.run_cycles)
    (sweep : o.sizes.Sweep visited)
    (enough : (visited.length + 1) * o.run_cycles.toNat ≤ fuel)
    (few : procs * (threads *
      (tests.length * (2 * (visited.length * o.run_cycles.toNat)))) < 2 ^ 31)
    (reachable : (meeting o.average times rows).Reachable
      (fun t => runTally o (reportErrors coll o.datacheck) (f t) fuel Tally.start tests) s)
    (finished : ∀ t, (s t).script = .ret (tally t.1 t.2)) :
    ∃ lines : List (Bool × Int),
      (∀ t : Fin procs × Fin threads, (tally t.1 t.2).lines = lines) ∧
      (∀ p < procs, ∀ check_avg_bw,
        exitStatus (sumErrors procs threads tally)
            (tooSlow (joinThreads threads (tally p)) check_avg_bw) = .success ↔
          (∀ line ∈ lines, line.1 = true → line.2 = 0) ∧
            tooSlow (joinThreads threads (tally p)) check_avg_bw = false) ∧
      ((∀ line ∈ lines, line.1 = true → line.2 = 0) ↔
        ∀ test ∈ tests, ∀ measured < visited.length * o.run_cycles.toNat, ∀ in_place,
          reportErrors coll o.datacheck in_place = true → ∀ c < o.datacheck.toNat, ∀ t,
            ∀ wrong ∈ (f t test).wrongPerGpu measured in_place c, wrong = 0) := by
  obtain ⟨_, rfl, ends⟩ := reachable.results (runTally_lockstep tests _)
  have value : ∀ t : Fin procs × Fin threads, tally t.1 t.2 =
      measureTests o (reportErrors coll o.datacheck) f fuel t Tally.start tests :=
    fun t => ends t _ (finished t)
  obtain ⟨n, counted⟩ : ∃ n : Nat, o.run_cycles = n + 1 :=
    ⟨(o.run_cycles - 1).toNat, by omega⟩
  have number : o.run_cycles.toNat = n + 1 := by omega
  rw [number] at enough few ⊢
  have made := length_sweepList sweep n 0 fuel enough
  have member := fun m => mem_sweepList sweep m n 0 fuel enough
  rw [← counted] at made member
  rw [← made] at few
  refine ⟨tests.flatMap fun test =>
    (sweepList o o.sizes.minBytes o.run_cycles 0 fuel).flatMap fun m =>
      [lineOf o (reportErrors coll o.datacheck) f test m],
    fun t => (congrArg Tally.lines (value t)).trans (measureTests_lines _ _), ?_, ?_⟩
  · intro p process check_avg_bw
    rw [lines_clean_iff, ← sumErrors_eq_zero_iff some_ value few, exitStatus]
    split
    case isTrue fails =>
      refine ⟨fun status => (nomatch status), fun h => ?_⟩
      rcases fails with wrong | slow
      · exact absurd h.1 wrong
      · rw [h.2] at slow
        cases slow
    case isFalse passes =>
      rw [not_or, not_not, Bool.not_eq_true] at passes
      exact ⟨fun _ => passes, fun _ => rfl⟩
  · refine lines_clean_iff.trans ?_
    simp only [Clean, member, Nat.zero_add, Nat.zero_le, true_and, wrongOf, checkData_eq_zero_iff]
    constructor
    · intro h test listed measured below in_place
      exact h test listed (measured, in_place) below
    · intro h test listed m below
      exact h test listed m.1 below m.2

/-- One size and two threads, of which the second finds a wrong element in the second round
of the check out of place: some run ends, and it fails. -/
theorem run_verdict_two :
    ∃ tally : Nat → Nat → Tally,
      exitStatus (sumErrors 1 2 tally) (tooSlow (joinThreads 2 (tally 0)) (.finite (-1))) ≠
        .success := by
  let o : Options := ⟨1, 20, 1, 3, 0, 0, false, 0, .avg, 1, ⟨1024, 1024, 1024, 1⟩⟩
  let f : Fin 1 × Fin 2 → TimeTest → Findings Nat := fun t _ =>
    ⟨fun _ _ => 5, fun _ in_place c => [if t.2 = 1 ∧ in_place = false ∧ c = 1 then 1 else 0],
      fun _ _ => [], fun _ _ => .finite 10⟩
  have sweep : o.sizes.Sweep [1024] :=
    .body (by decide) rfl (.stop (by decide))
  let test : TimeTest := ⟨.float32, "float", .sum, "sum", -1⟩
  have lockstep := @runTally_lockstep 1 2 Nat .avg (fun _ _ => 0) (fun _ _ => []) o
    (reportErrors .allReduce o.datacheck) f 2 [test] fun _ => Tally.start
  obtain ⟨s, reachable, -, ended⟩ := Meeting.Reachable.start.exists_finished lockstep
  choose last finished using ended
  let tally : Nat → Nat → Tally := fun p t =>
    if h : p < 1 ∧ t < 2 then last (⟨p, h.1⟩, ⟨t, h.2⟩) else Tally.start
  have same : ∀ t, (s t).script = .ret (tally t.1 t.2) := by
    intro t
    have inside : t.1.val < 1 ∧ t.2.val < 2 := ⟨t.1.isLt, t.2.isLt⟩
    simp only [tally, dif_pos inside]
    exact finished t
  obtain ⟨lines, -, status, clean⟩ := run_verdict (by decide) (by decide) sweep (by decide)
    (by decide) reachable same
  refine ⟨tally, fun success => ?_⟩
  have found := clean.1 ((status 0 (by decide) _).1 success).1 test
    (List.mem_singleton_self test) 0 (by decide) false (by decide) 1 (by decide) (0, 1) 1
    (by decide)
  cases found

end Verdict

end NcclTests.Harness
