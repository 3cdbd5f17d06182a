import Mathlib
import NcclTests.Lib.Lockstep
import NcclTests.CommOps.Sweep

/-!
# The timers of all ranks

`comm_ops` times the operations on communicators. Every so many timers, all ranks gather
what they have recorded, so they must all record the same timers in the same order. A rank
that an operation leaves out takes other branches, where it skips the timers of the others.

A test is the list of a rank's actions, without the calls of NCCL, which are taken to
succeed. `Action.shared` is what an action is for all ranks; lists that agree on it leave
records that differ only in who took part (`TimerRecord.blind_run`).
-/

namespace NcclTests.CommOps

open BinaryFloat

/-! ## Timers -/

/-- `timer_enums`. -/
inductive Timer
  | mpiInit | mpiBarrier | mpiAllgatherv | workPrepare | ncclInit | ncclSplit | ncclGrow
  | ncclAllreduce | ncclFinalize | ncclDestroy | ncclAbort | ncclShrink | cudaInit
  | cudaStreamSync
  deriving DecidableEq, Repr

/-- The collectives of MPI on the communicator of the test. -/
inductive MpiCall
  | barrier | allgatherv | commSplit | bcast
  deriving DecidableEq, Repr

/-- A collective as a rank enters it; `gather_timing` with what it has to gather. -/
inductive Collective
  | mpi (call : MpiCall)
  | gatherTiming (count : Nat) (ids : List Timer)
  deriving DecidableEq, Repr

/-- What a rank does with its timers and on the communicator. -/
inductive Action
  | setTimerEnabled (enabled : Bool)
  | startTimer (id : Timer)
  | stopTimer (id : Timer)
  | skipTimer (id : Timer)
  | mpi (call : MpiCall)
  deriving DecidableEq, Repr

/-- `timer_record_t` without the times: the entries since the last flush, and what has been
recorded, flushed and called so far. -/
structure TimerRecord where
  flushInterval : Int
  currentlyEnabled : Bool
  count : Nat
  id : List Timer
  participated : List Bool
  recorded : List Timer
  /-- How many timers had been recorded at each flush. -/
  flushedAt : List Nat
  collectives : List Collective
  deriving DecidableEq, Repr

namespace TimerRecord

/-- `timing_allocate`. -/
def allocate (flush : Int) : TimerRecord := ⟨flush, true, 0, [], [], [], [], []⟩

variable (t : TimerRecord)

/-- `flush_timing`, with the communicator set. -/
def flushTiming : TimerRecord :=
  { t with
    count := 0
    id := []
    participated := []
    flushedAt := t.flushedAt ++ [t.recorded.length]
    collectives := t.collectives ++ [.gatherTiming t.count t.id, .mpi .barrier] }

/-- One more entry, where there is room for it. -/
def append (id : Timer) (record : Bool) : TimerRecord :=
  { t with
    id := if (t.count : Int) < t.flushInterval then t.id ++ [id] else t.id
    participated :=
      if (t.count : Int) < t.flushInterval then t.participated ++ [record] else t.participated
    count := t.count + 1
    recorded := t.recorded ++ [id] }

/-- `record_timer`. -/
def recordTimer (id : Timer) (record : Bool) : TimerRecord :=
  if !t.currentlyEnabled then t
  else if ((t.append id record).count : Int) = t.flushInterval then
    (t.append id record).flushTiming
  else t.append id record

def perform : Action → TimerRecord
  | .setTimerEnabled enabled => { t with currentlyEnabled := enabled }
  | .startTimer _ => t
  | .stopTimer id => t.recordTimer id true
  | .skipTimer id => t.recordTimer id false
  | .mpi call => { t with collectives := t.collectives ++ [.mpi call] }

def run (actions : List Action) : TimerRecord := actions.foldl perform t

/-- A record without who took part. -/
def blind : TimerRecord := { t with participated := [] }

end TimerRecord

/-! ## The tests -/

inductive TestKind
  | init | split | shrink | grow
  deriving DecidableEq, Repr

/-- The options that the tests read. -/
structure TestArgs where
  testKind : TestKind
  warmup : Int
  iterations : Int
  workIterations : Int
  resizeKind : SweepKind
  resizeNum : Value
  aborts : Bool

/-- A communicator of NCCL, by what it says of a rank. -/
structure NcclComm where
  rank : Nat
  count : Nat

/-- The communicators that NCCL makes, of ranks and of others. One that `nranks` ranks make says
of each of them its number, and how many they are. -/
structure Nccl where
  commInitRankScalable : (nranks rank : Nat) → NcclComm
  rank_commInitRankScalable : ∀ nranks, ∀ rank < nranks,
    (commInitRankScalable nranks rank).rank = rank
  count_commInitRankScalable : ∀ nranks, ∀ rank < nranks,
    (commInitRankScalable nranks rank).count = nranks
  split : NcclComm → Nat → Int → NcclComm
  shrink : NcclComm → List Nat → Bool → NcclComm
  grow : Option NcclComm → Nat → Int → NcclComm

section Tests

variable (nccl : Nccl) (args : TestArgs)

/-- A timer around an operation, with its collectives. -/
def timed (id : Timer) (calls : List MpiCall) : List Action :=
  .startTimer id :: calls.map .mpi ++ [.stopTimer id]

/-- `do_work`. -/
def doWork : Option NcclComm → List Action
  | none => [.skipTimer .ncclAllreduce, .skipTimer .cudaStreamSync]
  | some _ => timed .ncclAllreduce [] ++ timed .cudaStreamSync []

/-- `for (int i=0; i<args.work_iterations; i++) do_work(timing, comm);` -/
def doWorks (comm : Option NcclComm) : List Action :=
  (List.range args.workIterations.toNat).flatMap fun _ => doWork comm

/-- The end of a communicator, or the timers of it for a rank that has none. -/
def endComm : Option NcclComm → List Action
  | some _ =>
    if args.aborts then timed .ncclAbort [] else timed .ncclFinalize [] ++ timed .ncclDestroy []
  | none =>
    if args.aborts then [.skipTimer .ncclAbort]
    else [.skipTimer .ncclFinalize, .skipTimer .ncclDestroy]

/-- `set_timer_enabled(timing, j >= args.warmup);` -/
def enableFrom (j : Nat) : Action := .setTimerEnabled (args.warmup ≤ j)

/-- `args.iterations + args.warmup` -/
def rounds : Nat := (args.iterations + args.warmup).toNat

/-- `pick_color`. -/
def pickColor (rank count : Nat) : Nat :=
  let limit :=
    match args.resizeKind with
    | .factor => Value.div binary64 (.finite count) args.resizeNum
    | _ => Value.sub binary64 (.finite count) args.resizeNum
  if limit.le (.finite rank) then 1 else 0

/-- `main_init`. -/
def mainInit (nranks rank : Nat) : List Action :=
  enableFrom args 0 :: timed .mpiBarrier [.barrier] ++
  (List.range (rounds args)).flatMap fun j : Nat =>
    let ncclcomm := nccl.commInitRankScalable nranks rank
    enableFrom args j :: timed .mpiAllgatherv [.allgatherv] ++ timed .mpiBarrier [.barrier] ++
    timed .ncclInit [] ++ doWorks args (some ncclcomm) ++ endComm args (some ncclcomm)

/-- The operation of `main_split`, and the communicator that it makes. -/
def splitChild (ncclcomm : NcclComm) : List Action × Option NcclComm :=
  let color := pickColor args ncclcomm.rank ncclcomm.count
  let excludeRanks := (List.range ncclcomm.count).filter fun other =>
    color ≠ pickColor args other ncclcomm.count
  match args.testKind with
  | .split => (timed .ncclSplit [], some (nccl.split ncclcomm color 0))
  | .shrink =>
    if color = 0 then
      (timed .ncclShrink [], some (nccl.shrink ncclcomm excludeRanks args.aborts))
    else ([.startTimer .ncclShrink, .skipTimer .ncclShrink], none)
  | _ => ([], none)

/-- The iterations of `main_split` from one on. -/
def splitLoop (ncclcomm : NcclComm) : (remaining j : Nat) → List Action
  | 0, _ => []
  | remaining + 1, j =>
    enableFrom args j :: .mpi .barrier ::
    if ncclcomm.count = 1 then []
    else
      let child := splitChild nccl args ncclcomm
      child.1 ++ doWorks args child.2 ++ endComm args child.2 ++
        splitLoop ncclcomm remaining (j + 1)

/-- `main_split`. -/
def mainSplit (nranks rank : Nat) : List Action :=
  enableFrom args 0 ::
  if nranks = 1 then []
  else
    let ncclcomm := nccl.commInitRankScalable nranks rank
    timed .mpiBarrier [.barrier] ++ timed .mpiAllgatherv [.allgatherv] ++ timed .ncclInit [] ++
    splitLoop nccl args ncclcomm (rounds args) 0 ++ endComm args (some ncclcomm)

/-- `main_grow`. The gathering of unique ids is on the communicator of the smaller half. -/
def mainGrow (nranks rank : Nat) : List Action :=
  let color := pickColor args rank nranks
  let initialCount := (List.range nranks).countP fun other => pickColor args other nranks = 0
  enableFrom args 0 ::
  if initialCount = 0 then []
  else if initialCount = nranks then []
  else
    let smaller := if color = 0 then some (nccl.commInitRankScalable initialCount rank) else none
    timed .mpiBarrier [.barrier] ++ [.mpi .commSplit] ++
    (if color = 0 then timed .mpiAllgatherv [] ++ timed .ncclInit []
      else [.skipTimer .mpiAllgatherv, .skipTimer .ncclInit]) ++
    doWorks args smaller ++
    ((List.range (rounds args)).flatMap fun j : Nat =>
      let bigger :=
        if color = 0 then nccl.grow smaller nranks (-1) else nccl.grow none nranks rank
      enableFrom args j :: .mpi .barrier :: .mpi .bcast :: timed .ncclGrow [] ++
      doWorks args (some bigger) ++ endComm args (some bigger)) ++
    endComm args smaller

/-- The test that `main` runs on a communicator. -/
def testActions (nranks rank : Nat) : List Action :=
  match args.testKind with
  | .init => mainInit nccl args nranks rank
  | .split | .shrink => mainSplit nccl args nranks rank
  | .grow => mainGrow nccl args nranks rank

/-- The record of a rank after the test. -/
def testRecord (flushInterval : Int) (nranks rank : Nat) : TimerRecord :=
  (TimerRecord.allocate flushInterval).run (testActions nccl args nranks rank)

end Tests

/-! ## Records of shared actions -/

/-- What an action is for all ranks: a timer is recorded, whoever takes part. -/
def Action.shared : Action → Option Action
  | startTimer _ => none
  | stopTimer id | skipTimer id => some (skipTimer id)
  | setTimerEnabled enabled => some (setTimerEnabled enabled)
  | mpi call => some (mpi call)

namespace TimerRecord

variable (t : TimerRecord) (id : Timer) (record : Bool) (action : Action) (actions : List Action)

/-- Who takes part changes nothing else. -/
theorem blind_recordTimer :
    (t.recordTimer id record).blind = (t.blind.recordTimer id false).blind := by
  by_cases off : (!t.currentlyEnabled) = true
  · have off' : (!t.blind.currentlyEnabled) = true := off
    rw [recordTimer, recordTimer, if_pos off, if_pos off']
    rfl
  · have on' : ¬ (!t.blind.currentlyEnabled) = true := off
    rw [recordTimer, recordTimer, if_neg off, if_neg on']
    by_cases full : ((t.append id record).count : Int) = t.flushInterval
    · have full' : ((t.blind.append id false).count : Int) = t.blind.flushInterval := full
      rw [if_pos full, if_pos full']
      rfl
    · have room : ¬ ((t.blind.append id false).count : Int) = t.blind.flushInterval := full
      rw [if_neg full, if_neg room]
      rfl

theorem blind_perform : (t.perform action).blind = (t.blind.perform action).blind := by
  cases action with
  | stopTimer id =>
    exact (t.blind_recordTimer id true).trans (t.blind.blind_recordTimer id true).symm
  | skipTimer id => exact t.blind_recordTimer id false
  | _ => rfl

theorem blind_run_congr {t u : TimerRecord} (same : t.blind = u.blind) :
    (t.run actions).blind = (u.run actions).blind := by
  induction actions generalizing t u with
  | nil => exact same
  | cons action actions ih =>
    refine ih (t := t.perform action) (u := u.perform action) ?_
    rw [t.blind_perform, u.blind_perform, same]

/-- Apart from who took part, a record depends on the shared actions only. -/
theorem blind_run : (t.run actions).blind = (t.run (actions.filterMap Action.shared)).blind := by
  induction actions generalizing t with
  | nil => rfl
  | cons action actions ih =>
    have rest : ((t.perform action).run actions).blind = _ := ih (t.perform action)
    cases action with
    | startTimer id => exact rest
    | stopTimer id =>
      have first : (t.recordTimer id true).blind = (t.recordTimer id false).blind :=
        (t.blind_recordTimer id true).trans (t.blind_recordTimer id false).symm
      exact rest.trans (blind_run_congr _ first)
    | _ => exact rest

/-- Ranks with the same shared actions end with the same records. -/
theorem blind_run_eq {actions others : List Action}
    (same : actions.filterMap Action.shared = others.filterMap Action.shared) :
    (t.run actions).blind = (t.run others).blind := by
  rw [t.blind_run, same, ← t.blind_run]

theorem eq_of_blind_eq {t u : TimerRecord} (same : t.blind = u.blind) :
    t.recorded = u.recorded ∧ t.flushedAt = u.flushedAt ∧ t.count = u.count ∧ t.id = u.id ∧
      t.collectives = u.collectives := by
  simp only [blind, TimerRecord.mk.injEq] at same
  obtain ⟨-, -, count, id, -, recorded, flushedAt, collectives⟩ := same
  exact ⟨recorded, flushedAt, count, id, collectives⟩

end TimerRecord

/-! ## What the tests share -/

section Shared

variable {nccl : Nccl} {args : TestArgs} {nranks rank other : Nat}

@[simp] theorem shared_timed (id : Timer) (calls : List MpiCall) :
    (timed id calls).filterMap Action.shared = calls.map .mpi ++ [.skipTimer id] := by
  have calls_ : (calls.map Action.mpi).filterMap Action.shared = calls.map .mpi := by
    induction calls with
    | nil => rfl
    | cons call calls ih => exact congrArg (Action.mpi call :: ·) ih
  rw [timed, List.cons_append, List.filterMap_cons_none rfl, List.filterMap_append, calls_]
  rfl

@[simp] theorem shared_doWork (comm : Option NcclComm) : (doWork comm).filterMap Action.shared =
    [.skipTimer .ncclAllreduce, .skipTimer .cudaStreamSync] := by
  cases comm <;> rfl

@[simp] theorem shared_doWorks (comm : Option NcclComm) :
    (doWorks args comm).filterMap Action.shared = (List.range args.workIterations.toNat).flatMap
      fun _ => [.skipTimer .ncclAllreduce, .skipTimer .cudaStreamSync] := by
  simp only [doWorks, List.filterMap_flatMap, shared_doWork]

@[simp] theorem shared_endComm (comm : Option NcclComm) :
    (endComm args comm).filterMap Action.shared = endComm args none := by
  cases comm <;> simp only [endComm] <;> split <;> rfl

theorem shared_splitChild (ncclcomm : NcclComm) :
    (splitChild nccl args ncclcomm).1.filterMap Action.shared =
      match args.testKind with
      | .split => [.skipTimer .ncclSplit]
      | .shrink => [.skipTimer .ncclShrink]
      | _ => [] := by
  rw [splitChild]
  cases args.testKind with
  | shrink => dsimp only; split <;> rfl
  | _ => rfl

theorem shared_splitLoop {ncclcomm ncclcomm' : NcclComm} (count : ncclcomm.count = ncclcomm'.count)
    (remaining j : Nat) : (splitLoop nccl args ncclcomm remaining j).filterMap Action.shared =
      (splitLoop nccl args ncclcomm' remaining j).filterMap Action.shared := by
  induction remaining generalizing j with
  | zero => rfl
  | succ remaining ih =>
    rw [splitLoop, splitLoop, count]
    split
    · rfl
    · simp only [enableFrom, Action.shared, List.filterMap_cons, List.filterMap_append,
        shared_splitChild, shared_doWorks, shared_endComm, ih]

theorem shared_mainInit : (mainInit nccl args nranks rank).filterMap Action.shared =
    (mainInit nccl args nranks other).filterMap Action.shared := by
  simp only [mainInit, List.filterMap_append, List.filterMap_flatMap, List.filterMap_cons,
    shared_doWorks, shared_endComm]

theorem shared_mainSplit (inside : rank < nranks) (inside' : other < nranks) :
    (mainSplit nccl args nranks rank).filterMap Action.shared =
      (mainSplit nccl args nranks other).filterMap Action.shared := by
  rw [mainSplit, mainSplit]
  split
  · rfl
  · have counts := (nccl.count_commInitRankScalable nranks rank inside).trans
      (nccl.count_commInitRankScalable nranks other inside').symm
    have loop := @shared_splitLoop nccl args _ _ counts (rounds args) 0
    simp only [List.filterMap_append, List.filterMap_cons, shared_endComm, loop]

theorem shared_mainGrow : (mainGrow nccl args nranks rank).filterMap Action.shared =
    (mainGrow nccl args nranks other).filterMap Action.shared := by
  have started (color : Nat) :
      (if color = 0 then timed .mpiAllgatherv [] ++ timed .ncclInit []
        else [.skipTimer .mpiAllgatherv, .skipTimer .ncclInit]).filterMap Action.shared =
      [.skipTimer .mpiAllgatherv, .skipTimer .ncclInit] := by
    split <;> rfl
  simp only [mainGrow]
  split
  · rfl
  · split
    · rfl
    · simp only [List.filterMap_append, List.filterMap_flatMap, List.filterMap_cons, started,
        shared_doWorks, shared_endComm]

/-- **Every rank shares the actions of every other.** -/
theorem shared_testActions (inside : rank < nranks) (inside' : other < nranks) :
    (testActions nccl args nranks rank).filterMap Action.shared =
      (testActions nccl args nranks other).filterMap Action.shared := by
  rw [testActions, testActions]
  cases args.testKind with
  | init => exact shared_mainInit
  | split => exact shared_mainSplit inside inside'
  | shrink => exact shared_mainSplit inside inside'
  | grow => exact shared_mainGrow

/-- The records of two ranks differ in who took part only. -/
theorem testRecord_blind (flushInterval : Int) (inside : rank < nranks)
    (inside' : other < nranks) :
    (testRecord nccl args flushInterval nranks rank).blind =
      (testRecord nccl args flushInterval nranks other).blind :=
  TimerRecord.blind_run_eq _ (shared_testActions inside inside')

end Shared

section Agreement

open Meeting

/-- **All ranks record the same timers.** In each test, for all sizes and options, any two
ranks record the same timers, flush at the same places and keep the same timers for the
last gathering. However the ranks run, the `j`-th collective that they enter is the same for
all, with the same counts and timers to gather, and none waits for a rank that never comes.

A rank that an operation leaves out skips the timers that the others stop, so that the actions
of all ranks are the same but for who takes part (`shared_testActions`); and whether a record
is flushed does not depend on who does (`TimerRecord.blind_run`). -/
theorem timers_agree (nccl : Nccl) (args : TestArgs) (flushInterval : Int) (nranks : Nat) :
    let record := testRecord nccl args flushInterval nranks
    (∀ rank < nranks, ∀ other < nranks, (record rank).recorded = (record other).recorded ∧
      (record rank).flushedAt = (record other).flushedAt ∧
      (record rank).count = (record other).count ∧ (record rank).id = (record other).id) ∧
    ∀ s, (collectives (Fin nranks) Collective).Reachable
        (fun rank => Script.calls (record rank).collectives) s →
      (∀ (rank other : Fin nranks) (j : Nat) call call', (s rank).entered[j]? = some call →
        (s other).entered[j]? = some call' → call = call') ∧
      ∀ rank, ¬ (s rank).Finished → ∃ s', (collectives (Fin nranks) Collective).Step s s' := by
  intro record
  have same (rank other : Nat) (inside : rank < nranks) (inside' : other < nranks) :=
    TimerRecord.eq_of_blind_eq
      (@testRecord_blind nccl args nranks rank other flushInterval inside inside')
  refine ⟨fun rank inside other inside' => ?_, fun s reachable => ?_⟩
  · obtain ⟨recorded, flushedAt, count, id, -⟩ := same rank other inside inside'
    exact ⟨recorded, flushedAt, count, id⟩
  · have one (rank : Fin nranks) : (record rank).collectives = (record 0).collectives :=
      (same rank 0 rank.isLt rank.pos).2.2.2.2
    simp only [one] at reachable
    exact ⟨fun _ _ _ _ _ here there => reachable.entered_agree here there,
      fun _ unfinished => reachable.exists_step (lockstep_calls _) unfinished⟩

/-- Of two ranks that shrink their communicator, one is left out. Every third timer they flush;
so when they have finished, both have gathered their first three as their third collective. -/
theorem timers_agree_shrink :
    let nccl : Nccl := ⟨fun nranks rank => ⟨rank, nranks⟩, fun _ _ _ => rfl, fun _ _ _ => rfl,
      fun c _ _ => c, fun c _ _ => c, fun _ n _ => ⟨0, n⟩⟩
    let args : TestArgs := ⟨.shrink, 0, 1, 1, .factor, .finite 2, false⟩
    let record := testRecord nccl args 3 2
    let first : Σ _ : Unit, Collective :=
      ⟨(), .gatherTiming 3 [.mpiBarrier, .mpiAllgatherv, .ncclInit]⟩
    testActions nccl args 2 0 ≠ testActions nccl args 2 1 ∧
    (record 0).flushedAt = [3, 6, 9] ∧ (record 1).flushedAt = [3, 6, 9] ∧
    ∃ s, (collectives (Fin 2) Collective).Reachable
        (fun rank => Script.calls (record rank).collectives) s ∧
      (s 0).entered[2]? = some first ∧ (s 1).entered[2]? = some first := by
  intro nccl args record first
  have agree := timers_agree nccl args 3 2
  have flushed : (record 0).flushedAt = [3, 6, 9] := by decide +kernel
  have scripts : (fun rank : Fin 2 => Script.calls (record rank).collectives) =
      fun _ => Script.calls (record 0).collectives := by
    funext rank
    have same := TimerRecord.eq_of_blind_eq
      (@testRecord_blind nccl args 2 rank 0 3 rank.isLt (by decide))
    rw [same.2.2.2.2]
  obtain ⟨s, reachable, -, finished⟩ := Reachable.start.exists_finished
    (@lockstep_calls (Fin 2) Collective (record 0).collectives)
  have here : (s 0).entered[2]? = some first := by
    rw [(reachable.entered 0).2 (finished 0)]
    decide +kernel
  have come : 2 < (s 1).entered.length := by
    rw [(reachable.entered 1).2 (finished 1), List.length_map]
    decide +kernel
  have there := List.getElem?_eq_getElem come
  rw [← scripts] at reachable
  have same := (agree.2 s reachable).1 0 1 2 _ _ here there
  refine ⟨by decide +kernel, flushed, ?_, s, reachable, here, same ▸ there⟩
  exact (agree.1 1 (by decide) 0 (by decide)).2.1.trans flushed

end Agreement

end NcclTests.CommOps
