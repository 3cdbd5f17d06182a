import Mathlib
import NcclTests.Harness.Barrier
import NcclTests.Harness.SizeSweep
import NcclTests.Lib.Lockstep

/-!
# The rendezvous calls of a benchmark

`startColl`, `BenchTime` and `TimeTest` as scripts of the calls at which the threads of
all processes meet: `Barrier`, `Allreduce<double>`, `Allreduce<long long>` and
`GatherProcessMaxIterTimes`. What else a thread does shows only in the values it puts
into these calls: the time it measured, the mismatches its check found, its row of
iteration times.

The mismatches reach the control flow only through the sum `Allreduce` returns, so
whatever a single check finds, all threads stay in lockstep (`timeTest_lockstep`).
-/

namespace NcclTests.Harness

/-- The rendezvous functions, each with statics of its own. -/
inductive Rendez
  | barrier
  | allreduceDouble
  | allreduceLongLong
  | gatherProcessMaxIterTimes
  deriving DecidableEq, Repr

/-- The arguments: a value and `average`, a value to sum up, a row of times. -/
def Rendez.In (T : Type) : Rendez → Type
  | .barrier => Unit
  | .allreduceDouble => T × Average
  | .allreduceLongLong => Int
  | .gatherProcessMaxIterTimes => List T

def Rendez.Out (T : Type) : Rendez → Type
  | .barrier => Unit
  | .allreduceDouble => T
  | .allreduceLongLong => Int
  | .gatherProcessMaxIterTimes => List T

/-- A thread of the harness, ending with a value. -/
abbrev ThreadScript (T α : Type) := Script Rendez (Rendez.In T) (Rendez.Out T) α

/-- The options that steer the calls. `cudaGraphs` says that the CUDA runtime has graphs. -/
structure Options where
  warmup_iters : Int
  iters : Int
  agg_iters : Int
  datacheck : Int
  blocking_coll : Int
  per_iter_timing : Int
  cudaGraphs : Bool
  cudaGraphLaunches : Int
  average : Average
  run_cycles : Int
  sizes : Sizes

/-- What one thread puts into its calls in the measurement of a size, out of place and in
place: its time, the mismatches each of its checks finds, and its iteration times. -/
structure Measured (T : Type) where
  deltaSec : Nat → Bool → T
  wrongElts : Nat → Bool → Nat → Int
  iterTimes : Nat → Bool → List T

section

variable {T : Type}

def barrier : ThreadScript T Unit := .call .barrier () .ret

def allreduceDouble (value : T) (average : Average) : ThreadScript T T :=
  .call .allreduceDouble (value, average) .ret

/-- With the sum as its operation. -/
def allreduceLongLong (value : Int) : ThreadScript T Int := .call .allreduceLongLong value .ret

def gatherTimes (localTimes : List T) : ThreadScript T (List T) :=
  .call .gatherProcessMaxIterTimes localTimes .ret

variable (o : Options) (m : Measured T)

def startColl : ThreadScript T Unit :=
  Script.onlyIf (o.blocking_coll = 1) barrier

/-- The check loop from its `c`-th turn on, with `turns` left, and the `wrongElts` it ends
with. -/
def checkLoop (size : Nat) (in_place : Bool) (wrongElts : Int) :
    Nat → Nat → ThreadScript T Int
  | _, 0 => pure wrongElts
  | c, turns + 1 => do
    startColl o
    let wrongElts1 ← allreduceLongLong (m.wrongElts size in_place c)
    if wrongElts1 ≠ 0 then pure wrongElts1
    else checkLoop size in_place wrongElts1 (c + 1) turns

/-- One measurement. `args->ms` is NULL only where its size is negative. -/
def benchTime (size : Nat) (in_place : Bool) : ThreadScript T Unit := do
  Script.forLoop (fun _ => startColl o) o.warmup_iters.toNat
  barrier
  Script.forLoop (fun _ => do
    Script.forLoop (fun _ => startColl o) o.agg_iters.toNat
    Script.onlyIf (o.blocking_coll = 3) barrier) o.iters.toNat
  Script.onlyIf (o.cudaGraphs ∧ o.cudaGraphLaunches ≥ 1) barrier
  let _ ← allreduceDouble (m.deltaSec size in_place) o.average
  barrier
  let _ ← checkLoop o m size in_place 0 0 o.datacheck.toNat
  Script.onlyIf (o.per_iter_timing ≠ 0 ∧ 0 ≤ o.iters) do
    let _ ← gatherTimes (m.iterTimes size in_place)
    pure ()

/-- The two loops of `TimeTest`, for as many tests of the inner condition as `fuel`
allows; `measured` sizes have been measured before. -/
def sweepLoop (size : UInt64) (repeat_ : Int) (measured : Nat) : Nat → ThreadScript T Unit
  | 0 => pure ()
  | fuel + 1 =>
    if size ≤ o.sizes.maxBytes then do
      benchTime o m measured false
      benchTime o m measured true
      sweepLoop (o.sizes.nextSize size) repeat_ (measured + 1) fuel
    else if repeat_ - 1 ≠ 0 then sweepLoop o.sizes.minBytes (repeat_ - 1) measured fuel
    else pure ()

def timeTest (fuel : Nat) : ThreadScript T Unit := do
  barrier
  sweepLoop o m o.sizes.minBytes o.run_cycles 0 fuel

end

/-! ## The meeting of the threads of all processes -/

/-- `accumulator += *value` over all threads, and MPI_SUM over the processes. -/
def total {ι : Type} [Fintype ι] (wrongElts : ι → Int) : Int := ∑ u, wrongElts u

/-- `procs` processes of `threads` threads. `times` and `rows` are what `Allreduce<double>`
and the gathering return to a thread in its `i`-th call. -/
def meeting {procs threads : Nat} {T : Type} (average : Average)
    (times : Fin procs × Fin threads → Nat → T)
    (rows : Fin procs × Fin threads → Nat → List T) :
    Meeting (Fin procs × Fin threads) Rendez (Rendez.In T) (Rendez.Out T) where
  waits
    | .barrier, _, _ => True
    -- the last thread of a process calls MPI_Allreduce, but not to broadcast
    | .allreduceDouble, t, u => average ≠ .rank0 ∨ t.1 = u.1
    | .allreduceLongLong, _, _ => True
    -- only the root of MPI_Gather waits for the other processes
    | .gatherProcessMaxIterTimes, t, u => t.1 = u.1 ∨ t.1.val = 0
  result
    | .barrier, _, _, _ => ()
    | .allreduceDouble, i, _, t => times t i
    | .allreduceLongLong, _, wrongElts, _ => total wrongElts
    | .gatherProcessMaxIterTimes, i, _, t => rows t i
  result_congr k i input input' t same := by
    cases k with
    | barrier => rfl
    | allreduceDouble => rfl
    | allreduceLongLong => exact congrArg total (funext fun u => same u trivial)
    | gatherProcessMaxIterTimes => rfl

section

variable {procs threads : Nat} {T : Type} {average : Average}
  {times : Fin procs × Fin threads → Nat → T} {rows : Fin procs × Fin threads → Nat → List T}
  {o : Options} {m : Fin procs × Fin threads → Measured T}

open Meeting

theorem barrier_lockstep :
    Lockstep (meeting average times rows) (fun _ => barrier) fun _ => True :=
  .call fun _ => .ret trivial

theorem startColl_lockstep :
    Lockstep (meeting average times rows) (fun _ => startColl o) fun _ => True :=
  .onlyIf fun _ => barrier_lockstep

theorem allreduceDouble_lockstep (value : Fin procs × Fin threads → T) :
    Lockstep (meeting average times rows) (fun t => allreduceDouble (value t) o.average)
      fun _ => True :=
  .call fun _ => .ret trivial

/-- Every thread obtains the same sum. -/
theorem allreduceLongLong_lockstep (value : Fin procs × Fin threads → Int) :
    Lockstep (meeting average times rows) (fun t => allreduceLongLong (value t))
      fun sums => sums = fun _ => total value :=
  .call fun _ => .ret rfl

theorem gatherTimes_lockstep (row : Fin procs × Fin threads → List T) :
    Lockstep (meeting average times rows) (fun t => gatherTimes (row t)) fun _ => True :=
  .call fun _ => .ret trivial

/-- The check loop breaks for all threads in the same turn, or for none. -/
theorem checkLoop_lockstep (size : Nat) (in_place : Bool) (turns : Nat) :
    ∀ (wrongElts : Int) (c : Nat), Lockstep (meeting average times rows)
      (fun t => checkLoop o (m t) size in_place wrongElts c turns) fun _ => True := by
  induction turns with
  | zero => exact fun _ _ => .ret trivial
  | succ turns ih =>
    intro wrongElts c
    refine startColl_lockstep.bind fun _ _ => ?_
    refine (allreduceLongLong_lockstep _).bind ?_
    rintro _ rfl
    beta_reduce
    exact .ite (fun _ => .ret trivial) fun _ => ih _ _

theorem benchTime_lockstep (size : Nat) (in_place : Bool) :
    Lockstep (meeting average times rows) (fun t => benchTime o (m t) size in_place)
      fun _ => True := by
  refine (Lockstep.forLoop (fun _ => startColl_lockstep) _).bind fun _ _ => ?_
  refine barrier_lockstep.bind fun _ _ => ?_
  refine (Lockstep.forLoop (fun _ => ?iteration) _).bind fun _ _ => ?_
  case iteration =>
    refine (Lockstep.forLoop (fun _ => startColl_lockstep) _).bind fun _ _ => ?_
    exact .onlyIf fun _ => barrier_lockstep
  refine (Lockstep.onlyIf fun _ => barrier_lockstep).bind fun _ _ => ?_
  refine (allreduceDouble_lockstep _).bind fun _ _ => ?_
  refine barrier_lockstep.bind fun _ _ => ?_
  refine (checkLoop_lockstep _ _ _ _ _).bind fun _ _ => ?_
  refine .onlyIf fun _ => ?_
  exact (gatherTimes_lockstep _).bind fun _ _ => .ret trivial

theorem sweepLoop_lockstep (fuel : Nat) :
    ∀ (size : UInt64) (repeat_ : Int) (measured : Nat), Lockstep (meeting average times rows)
      (fun t => sweepLoop o (m t) size repeat_ measured fuel) fun _ => True := by
  induction fuel with
  | zero => exact fun _ _ _ => .ret trivial
  | succ fuel ih =>
    intro size repeat_ measured
    refine .ite (fun _ => ?_) fun _ => .ite (fun _ => ih _ _ _) fun _ => .ret trivial
    refine (benchTime_lockstep _ _).bind fun _ _ => ?_
    exact (benchTime_lockstep _ _).bind fun _ _ => ih _ _ _

theorem timeTest_lockstep (fuel : Nat) :
    Lockstep (meeting average times rows) (fun t => timeTest o (m t) fuel) fun _ => True :=
  barrier_lockstep.bind fun _ _ => sweepLoop_lockstep _ _ _ _

end

open Meeting

/-- **No thread leaves a rendezvous alone.** In every interleaving of the threads of all processes,
whatever they measure and whatever their checks find: the rendezvous calls two threads have entered
are prefixes of one another, threads that have finished have made the same calls, and while a
thread has not finished some thread can step.

What differs between threads, their times, rows and wrong elements, reaches a branch of `timeTest`
only through the sum, the average or the maximum that a rendezvous has returned to all of them, the
early exit of the check loop among them (`timeTest_lockstep`). -/
theorem timeTest_same_calls {procs threads : Nat} {T : Type} (o : Options)
    (m : Fin procs × Fin threads → Measured T)
    (times : Fin procs × Fin threads → Nat → T) (rows : Fin procs × Fin threads → Nat → List T)
    (fuel : Nat) (s : Fin procs × Fin threads → Thread Rendez (Rendez.In T) (Rendez.Out T) Unit)
    (reachable : (meeting o.average times rows).Reachable (fun t => timeTest o (m t) fuel) s) :
    (∀ t u, (s t).calls <+: (s u).calls ∨ (s u).calls <+: (s t).calls) ∧
    (∀ t u, (s t).Finished → (s u).Finished → (s t).calls = (s u).calls) ∧
    (∀ t, ¬ (s t).Finished → ∃ s', (meeting o.average times rows).Step s s') :=
  ⟨reachable.prefix_or_prefix (timeTest_lockstep fuel),
    fun _ _ => reachable.calls_eq (timeTest_lockstep fuel),
    fun _ => reachable.exists_step (timeTest_lockstep fuel)⟩

set_option maxRecDepth 2000 in
/-- Two threads and one size. In the second of three turns of the check out of place, one
thread finds a mismatch: both leave the loop after it, and make all three turns in place. -/
theorem timeTest_same_calls_two :
    let o : Options := ⟨0, 1, 1, 3, 0, 0, false, 0, .avg, 1, ⟨1024, 1024, 1024, 1⟩⟩
    let m : Fin 1 × Fin 2 → Measured Nat := fun t =>
      ⟨fun _ _ => 5, fun _ in_place c => if t.2 = 0 ∧ in_place = false ∧ c = 1 then 1 else 0,
        fun _ _ => []⟩
    let calls : List Rendez :=
      [.barrier, .barrier, .allreduceDouble, .barrier, .allreduceLongLong, .allreduceLongLong,
        .barrier, .allreduceDouble, .barrier, .allreduceLongLong, .allreduceLongLong,
        .allreduceLongLong]
    ∃ s, (meeting .avg (fun _ _ => 0) fun _ _ => []).Reachable (fun t => timeTest o (m t) 10) s ∧
      (s (0, 0)).calls = calls ∧ (s (0, 1)).calls = calls := by
  intro o m calls
  have lockstep := @timeTest_lockstep 1 2 Nat .avg (fun _ _ => 0) (fun _ _ => []) o m 10
  obtain ⟨s, reachable, -, finished⟩ := Meeting.Reachable.start.exists_finished lockstep
  have sync : Sync (meeting .avg (fun _ _ => 0) fun _ _ => []) 0 (fun t => timeTest o (m t) 10)
      _ _ :=
    .next (.next (.next (.next (.next (.next (.next (.next (.next (.next (.next (.next
      (.ret fun _ => ()))))))))))))
  have first := (reachable.onTrack sync (0, 0)).calls.2 (finished (0, 0))
  have same := (timeTest_same_calls o m _ _ 10 s reachable).2.1 (0, 0) (0, 1) (finished _)
    (finished _)
  exact ⟨s, reachable, first, same ▸ first⟩

end NcclTests.Harness
