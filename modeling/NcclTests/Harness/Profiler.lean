import Mathlib
import NcclTests.Harness.Report
import NcclTests.Lib.BusyPeriod

/-!
# The profiler plugin

NCCL tells the plugin of `util.cu` when its events start and stop, on any of its threads.
The task and the proxy events are each counted in one static object, whose record the line of
a result reports as tuning information.

Every thread of the test ends its lines with `writeBenchmarkLineTerminator`, which clears the
flags of both objects; the main thread is the one that prints. What it prints of an object it
reads in several steps, and other threads may stop events, set the flags and clear them in
between. That no event starts meanwhile is a hypothesis (`tuning_of_history`).

Group events are counted as well, but nothing reads them.
-/

namespace NcclTests.Harness

open BusyPeriod

/-! ## Starting an event -/

/-- The event descriptors of all versions, with the fields that the plugin reads; `none` is a
null pointer. -/
inductive EventDescr
  | group
  | coll (func algo proto : Option CString) (nChannels nWarps : UInt8) (isSymColl : Bool)
    (kernelVariant : Option CString)
  | p2p (nChannels : UInt8)
  | proxyOp (chunkSize : Int)
  | ceColl (syncStrategy : Option CString)
  | other

/-- The object an event is counted in, with what it writes as the first of a period. -/
inductive Started
  | group
  | task (t : Task)
  | proxy (chunkSize : Int)

/-- The text of a pointer, or `"N/A"`. -/
def orNA (text : Option CString) : Option CString := some (text.getD "N/A".toList)

def ncclProfilerStartCollEvent (implementation algo proto kernelVariant : Option CString)
    (nChannels nWarps : UInt8) : Started :=
  .task (.coll implementation (orNA algo) (orNA proto) (orNA kernelVariant)
    (if nChannels = 0 then -1 else nChannels.toNat) nWarps)

def ncclProfilerStartP2pEvent (nChannels : UInt8) : Started := .task (.p2p nChannels)

def ncclProfilerStartCeEvent (syncStrategy : Option CString) : Started :=
  .task (.ceColl (orNA syncStrategy))

def ncclProfilerStartProxyEvent (chunkSize : Int) : Started := .proxy chunkSize

/-- `none` where the handle is not set. -/
def ncclProfilerStartEventCommon : EventDescr → Option Started
  | .group => some .group
  | .p2p nChannels => some (ncclProfilerStartP2pEvent nChannels)
  | .proxyOp chunkSize => some (ncclProfilerStartProxyEvent chunkSize)
  | .coll .. | .ceColl _ | .other => none

def ncclProfilerStartEvent_v5 : EventDescr → Option Started
  | .coll _ algo proto nChannels nWarps _ _ =>
    some (ncclProfilerStartCollEvent "GEN".toList algo proto none nChannels nWarps)
  | eDescr => ncclProfilerStartEventCommon eDescr

def ncclProfilerStartEvent_v6 : EventDescr → Option Started
  | .ceColl syncStrategy => some (ncclProfilerStartCeEvent syncStrategy)
  | .coll _ algo proto nChannels nWarps _ _ =>
    some (ncclProfilerStartCollEvent "GEN".toList algo proto none nChannels nWarps)
  | eDescr => ncclProfilerStartEventCommon eDescr

/-- `kernelVariant` without the name of the function and an underscore before it. -/
def withoutFunc (func kernelVariant : CString) : CString :=
  if func.isPrefixOf kernelVariant && kernelVariant[func.length]? == some '_' then
    kernelVariant.drop (func.length + 1)
  else kernelVariant

def ncclProfilerStartEvent_v7 : EventDescr → Option Started
  | .coll func algo proto nChannels nWarps isSymColl kernelVariant =>
    let kernelVariant := if isSymColl then kernelVariant else none
    let kernelVariant :=
      match kernelVariant, func with
      | some kernelVariant, some func => some (withoutFunc func kernelVariant)
      | kernelVariant, _ => kernelVariant
    some (ncclProfilerStartCollEvent (if isSymColl then "SYM".toList else "GEN".toList)
      (if isSymColl then "N/A".toList else algo) (if isSymColl then "N/A".toList else proto)
      kernelVariant nChannels nWarps)
  | .ceColl syncStrategy => some (ncclProfilerStartCeEvent syncStrategy)
  | eDescr => ncclProfilerStartEventCommon eDescr

/-- The versions of the profiler interface. -/
inductive ProfilerVersion
  | v5 | v6 | v7
  deriving DecidableEq, Repr

def startEvent : ProfilerVersion → EventDescr → Option Started
  | .v5 => ncclProfilerStartEvent_v5
  | .v6 => ncclProfilerStartEvent_v6
  | .v7 => ncclProfilerStartEvent_v7

/-! ## Runs -/

/-- What happens to the objects: a start of an event counts it in, and the first of a period
writes the record before it returns; a stop counts it out, and the last of a period sets the flag
`ready` before it returns. `thread` is the one whose `writeBenchmarkLineTerminator` clears a
flag. -/
inductive ProfilerAct
  | startEvent (version : ProfilerVersion) (eDescr : EventDescr)
  | writeTask (t : Task)
  | writeProxy (chunkSize : Int)
  | stopTask
  | stopProxy
  | publishTask
  | publishProxy
  | clearTask (thread : Nat)
  | clearProxy (thread : Nat)

namespace ProfilerAct

/-- The part of `task`. -/
def task? : ProfilerAct → Option (Action Task)
  | .startEvent version eDescr =>
    match Harness.startEvent version eDescr with
    | some (.task t) => some (.start t)
    | _ => none
  | .writeTask t => some (.write t)
  | .stopTask => some .stop
  | .publishTask => some .publish
  | .clearTask _ => some .clear
  | .writeProxy _ | .stopProxy | .publishProxy | .clearProxy _ => none

/-- The part of `proxy`. -/
def proxy? : ProfilerAct → Option (Action Int)
  | .startEvent version eDescr =>
    match Harness.startEvent version eDescr with
    | some (.proxy chunkSize) => some (.start chunkSize)
    | _ => none
  | .writeProxy chunkSize => some (.write chunkSize)
  | .stopProxy => some .stop
  | .publishProxy => some .publish
  | .clearProxy _ => some .clear
  | .writeTask _ | .stopTask | .publishTask | .clearTask _ => none

end ProfilerAct

/-- The history of `task`. -/
def taskActs (acts : List ProfilerAct) : List (Action Task) := acts.filterMap ProfilerAct.task?

/-- The history of `proxy`. -/
def proxyActs (acts : List ProfilerAct) : List (Action Int) := acts.filterMap ProfilerAct.proxy?

/-- The two objects. -/
structure Profiler where
  task : State Task
  proxy : State Int

def Profiler.init : Profiler := ⟨.init, .init⟩

/-- The threads of NCCL and of the test may act in this order, and take the objects from one state
to the other. -/
structure ProfilerRun (p : Profiler) (acts : List ProfilerAct) (q : Profiler) : Prop where
  task : Run p.task (taskActs acts) q.task
  proxy : Run p.proxy (proxyActs acts) q.proxy

/-- No first start of a period is half-way. -/
def Profiler.Through (p : Profiler) : Prop := p.task.writers = [] ∧ p.proxy.writers = []

/-! ## What a line reports -/

/-- What a line finds of an object that had this history when the flag was loaded, in state `s`;
a part of the record is read in state `t`. -/
structure Found {δ : Type} (history : List (Action δ)) (s t : State δ) : Prop where
  /-- While no stop was lost, it is a part of the record of the last period, if the end of one has
  been published since the last clear. -/
  lossless : Lossless history → ∀ {α : Type} (part : δ → α),
    read s t part = (Periods.of history).report.map part
  lossy : ¬Lossless history → ∀ {α : Type} (part : δ → α), read s t part = none
  started : ∀ d, read s t id = some d → Action.start d ∈ history
  recent : ∀ before rest, history = before ++ .clear :: rest → read s t id ≠ none →
    Action.publish ∈ rest

theorem found_of_run {δ : Type} {history during : List (Action δ)} {s t : State δ}
    (run : Run .init history s) (through : s.writers = []) (line : Run s during t)
    (none_starts : ∀ d, Action.start d ∉ during) : Found history s t := by
  have reported (d : δ) (some_ : read s t id = some d) :
      (Periods.of history).ended = true ∧ (Periods.of history).first = some d := by
    by_cases lossless : Lossless history
    · rw [run.read_eq lossless through line none_starts, Option.map_id_apply,
        Periods.report] at some_
      split at some_
      · next ended => exact ⟨ended, some_⟩
      · cases some_
    · rw [run.read_eq_none lossless] at some_
      cases some_
  refine ⟨fun lossless => run.read_eq lossless through line none_starts,
    fun lossy => run.read_eq_none lossy, fun d some_ => ?_, ?_⟩
  · exact Periods.start_mem (reported d some_).2
  · intro before rest shape some_
    obtain ⟨d, some_⟩ := Option.ne_none_iff_exists'.1 some_
    have ended := (reported d some_).1
    rw [shape] at ended
    exact Periods.publish_mem ended

theorem mem_taskActs {acts : List ProfilerAct} {t : Task} (started : .start t ∈ taskActs acts) :
    ∃ version eDescr, .startEvent version eDescr ∈ acts ∧
      startEvent version eDescr = some (.task t) := by
  obtain ⟨act, member, part⟩ := List.mem_filterMap.1 started
  cases act with
  | startEvent version eDescr =>
    refine ⟨version, eDescr, member, ?_⟩
    rw [ProfilerAct.task?] at part
    split at part
    · next counted =>
      rw [counted, Action.start.inj (Option.some.inj part)]
    · cases part
  | writeTask | writeProxy | stopTask | stopProxy | publishTask | publishProxy | clearTask
  | clearProxy => cases part

theorem mem_proxyActs {acts : List ProfilerAct} {chunkSize : Int}
    (started : .start chunkSize ∈ proxyActs acts) :
    ∃ version eDescr, .startEvent version eDescr ∈ acts ∧
      startEvent version eDescr = some (.proxy chunkSize) := by
  obtain ⟨act, member, part⟩ := List.mem_filterMap.1 started
  cases act with
  | startEvent version eDescr =>
    refine ⟨version, eDescr, member, ?_⟩
    rw [ProfilerAct.proxy?] at part
    split at part
    · next counted =>
      rw [counted, Action.start.inj (Option.some.inj part)]
    · cases part
  | writeTask | writeProxy | stopTask | stopProxy | publishTask | publishProxy | clearTask
  | clearProxy => cases part

theorem mem_of_publish_task {acts : List ProfilerAct} (published : .publish ∈ taskActs acts) :
    .publishTask ∈ acts := by
  obtain ⟨act, member, part⟩ := List.mem_filterMap.1 published
  cases act with
  | publishTask => exact member
  | startEvent version eDescr =>
    rw [ProfilerAct.task?] at part
    split at part <;> cases part
  | writeTask | writeProxy | stopTask | stopProxy | publishProxy | clearTask | clearProxy =>
    cases part

theorem mem_of_publish_proxy {acts : List ProfilerAct} (published : .publish ∈ proxyActs acts) :
    .publishProxy ∈ acts := by
  obtain ⟨act, member, part⟩ := List.mem_filterMap.1 published
  cases act with
  | publishProxy => exact member
  | startEvent version eDescr =>
    rw [ProfilerAct.proxy?] at part
    split at part <;> cases part
  | writeTask | writeProxy | stopTask | stopProxy | publishTask | clearTask | clearProxy =>
    cases part

end NcclTests.Harness
