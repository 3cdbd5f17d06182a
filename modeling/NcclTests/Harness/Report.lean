import Mathlib
import NcclTests.Harness.JsonWriter
import NcclTests.Harness.SizeSweep

/-!
# The report of a run

The calls of the JSON writer made by `jsonOutputInit`, the `write…` functions and
`jsonOutputFinalize`, in the order in which `main`, `run` and `TimeTest` call these. A
container opened by one function may be closed by another, and a run that fails goes
straight to `jsonOutputFinalize`, so every prefix of the calls of a whole run has to be
legal (`Session.cut_runs`).
-/

namespace NcclTests.Harness

section

open BinaryFloat

/-- `jsonKey` and a scalar writer, for each of some members. -/
def fields (members : List (String × JsonOp)) : List JsonOp :=
  members.flatMap fun m => [.key m.1.toList, m.2]

def str (text : String) : JsonOp := .str (some text.toList)

/-! ## Header of the document -/

structure OutputInit where
  start_time : CString
  argv : List CString
  envp : List CString
  ncclVersion : Int

def jsonOutputInit (o : OutputInit) : List JsonOp :=
  .startObject ::
    (fields [("version", .int 4), ("start_time", .str (some o.start_time))] ++
      (.key "args".toList :: .startList ::
        (o.argv.flatMap (fun a => [.str (some a)]) ++ [.finishList])) ++
      (.key "env".toList :: .startList ::
        (o.envp.flatMap (fun e => [.str (some e)]) ++ [.finishList])) ++
      fields [("nccl_version", .int o.ncclVersion)])

/-! ## Device report -/

/-- The options that `writeDeviceReport` records. -/
structure Config where
  nThreads : Int
  nGpus : Int
  sizes : Sizes
  warmup_iters : Int
  iters : Int
  agg_iters : Int
  datacheck : Int
  cudaGraphLaunches : Int
  blocking_coll : Int
  per_iter_timing : Int
  per_iter_skip : Int
  parallel_init : Int

/-- `rankInfo_t`. -/
structure RankInfo where
  rank : Int
  group : Int
  pid : Int
  hostname : CString
  device : Int
  device_hex : CString
  devinfo : CString
  deriving DecidableEq, Repr

def jsonRankInfo (ri : RankInfo) : List JsonOp :=
  .startObject ::
    (fields [("rank", .int ri.rank), ("group", .int ri.group), ("pid", .int ri.pid),
      ("hostname", .str (some ri.hostname)), ("device", .int ri.device),
      ("device_hex", .str (some ri.device_hex)), ("device_info", .str (some ri.devinfo))] ++
      [.finishObject])

def configFields (c : Config) : List JsonOp :=
  fields [("nthreads", .int c.nThreads), ("ngpus", .int c.nGpus),
    ("minimum_bytes", .size_t c.sizes.minBytes), ("maximum_bytes", .size_t c.sizes.maxBytes)] ++
  (if c.sizes.stepFactor > 1 then fields [("step_factor", .size_t c.sizes.stepFactor)]
    else fields [("step_bytes", .size_t c.sizes.stepBytes)]) ++
  fields [("warmup_iters", .int c.warmup_iters), ("iterations", .int c.iters),
    ("aggregated_iterations", .int c.agg_iters), ("validation", .int c.datacheck),
    ("graph", .int c.cudaGraphLaunches),
    ("blocking_collectives", .bool (c.blocking_coll ≠ 0)),
    ("per_iter_timing", .bool (c.per_iter_timing ≠ 0)),
    ("per_iter_skip", .int c.per_iter_skip), ("parallel_init", .bool (c.parallel_init ≠ 0))]

/-- `none` stands for an error in the loop over the devices, which returns and leaves the
object of the options open. -/
def writeDeviceReport (c : Config) (devices : Option (List RankInfo)) : List JsonOp :=
  .key "config".toList :: .startObject :: (configFields c ++
    devices.elim [] fun devices =>
      .key "devices".toList :: .startList ::
        (devices.flatMap jsonRankInfo ++ [.finishList]) ++ [.finishObject])

/-! ## Result lines -/

def writeResultHeader : List JsonOp := [.key "results".toList, .startList]

structure Preamble where
  nBytes : UInt64
  nElem : UInt64
  typeName : CString
  opName : CString
  root : Int

/-- `rootName` is `root` printed with `%6i`. -/
def writeBenchmarkLinePreamble (p : Preamble) : List JsonOp :=
  .startObject ::
    fields [("size", .size_t p.nBytes), ("count", .size_t p.nElem),
      ("type", .str (some p.typeName)), ("redop", .str (some p.opName)),
      ("root", .str (some ((Printf.decimal p.root).leftpad 6 ' ')))]

structure Body where
  timeUsec : Value
  algBw : Value
  busBw : Value
  reportErrors : Bool
  wrongElts : Int

def writeBenchmarkLineBody (b : Body) (report_cputime out_of_place : Bool) : List JsonOp :=
  .key (if out_of_place then "out_of_place" else "in_place").toList :: .startObject ::
    (fields [(if report_cputime then "cpu_time" else "time", .double b.timeUsec),
      ("alg_bw", .double b.algBw), ("bus_bw", .double b.busBw),
      ("nwrong", if b.reportErrors then .double (Value.ofRat binary64 b.wrongElts) else .null)] ++
      [.finishObject])

structure IterStats where
  min : Value
  max : Value
  avg : Value
  p50 : Value
  p95 : Value
  p99 : Value
  stdev : Value

/-- The arguments of `writePerIterReport`; `allProcessTimes` has a row for each process. -/
structure PerIter where
  stats : IterStats
  iterTimes : List Value
  skippedIters : Int
  allProcessTimes : Option (List (List Value))

/-- A product with `1e6`. -/
def micros (v : Value) : Value := Value.mul binary64 v (.finite 1000000)

def cvPct (s : IterStats) : Value :=
  if Value.lt (.finite 0) s.avg then
    Value.mul binary64 (Value.div binary64 s.stdev s.avg) (.finite 100)
  else .finite 0

/-- A list of times. -/
def writeTimes (times : List Value) : List JsonOp :=
  .startList :: (times.flatMap (fun t => [.double (micros t)]) ++ [.finishList])

def writePerIterReport (r : PerIter) (out_of_place : Bool) : List JsonOp :=
  .key (if out_of_place then "out_of_place_per_iter" else "in_place_per_iter").toList ::
    .startObject ::
    (fields [("skipped_iterations", .int r.skippedIters), ("min_us", .double (micros r.stats.min)),
      ("max_us", .double (micros r.stats.max)), ("avg_us", .double (micros r.stats.avg)),
      ("p50_us", .double (micros r.stats.p50)), ("p95_us", .double (micros r.stats.p95)),
      ("p99_us", .double (micros r.stats.p99)), ("stdev_us", .double (micros r.stats.stdev)),
      ("cv_pct", .double (cvPct r.stats))] ++
    (.key "times_us".toList :: writeTimes r.iterTimes) ++
    (match r.allProcessTimes with
      | some rows =>
        if rows.length > 1 then
          .key "per_process_max_times_us".toList :: .startList ::
            (rows.flatMap writeTimes ++ [.finishList])
        else []
      | none => []) ++
    [.finishObject])

/-- The profiled task, by its type. -/
inductive Task
  | coll (implementation algo proto kernelVariant : Option CString) (nChannels : Int)
    (nWarps : UInt8)
  | p2p (nChannels : UInt8)
  | ceColl (syncStrategy : Option CString)
  | other

/-- What `writeBenchmarkLineTerminator` finds out about a task. -/
structure TaskReport where
  implementation : Option CString := some "N/A".toList
  algo : Option CString := some "N/A".toList
  proto : Option CString := some "N/A".toList
  kernelVariant : Option CString := some "N/A".toList
  syncStrategy : Option CString := some "N/A".toList
  nChannels : Int := -1
  nWarps : Int := -1

/-- `none` is a task that is not ready. -/
def taskReport : Option Task → TaskReport
  | some (.coll implementation algo proto kernelVariant nChannels nWarps) =>
    { implementation, algo, proto, kernelVariant, nChannels, nWarps := nWarps.toNat }
  | some (.p2p nChannels) => { implementation := some "P2P".toList, nChannels := nChannels.toNat }
  | some (.ceColl syncStrategy) => { implementation := some "CE".toList, syncStrategy }
  | some .other => {}
  | none => {}

/-- `tuning` is the option; `chunkSize` is there when the proxy event is ready. -/
structure Terminator where
  tuning : Bool
  task : Option Task
  chunkSize : Option Int
  actualIters : Int
  name : CString

def writeTuning (t : TaskReport) (chunkSize : Option Int) : List JsonOp :=
  .key "tuning".toList :: .startObject ::
    (fields [("implementation", .str t.implementation), ("algo", .str t.algo),
      ("proto", .str t.proto), ("kernelVariant", .str t.kernelVariant),
      ("syncStrategy", .str t.syncStrategy),
      ("#channels", if t.nChannels ≥ 0 then .int t.nChannels else str "N/A"),
      ("#warps", if t.nWarps ≥ 0 then .int t.nWarps else str "N/A"),
      ("netChunkSize", chunkSize.elim (str "N/A") .int)] ++
      [.finishObject])

def writeBenchmarkLineTerminator (t : Terminator) : List JsonOp :=
  (if t.tuning then writeTuning (taskReport t.task) t.chunkSize else []) ++
    fields [("actual_iterations", .int t.actualIters), ("experiment_name", .str (some t.name))] ++
    [.finishObject]

/-! ## Footer -/

structure Footer where
  errors : Int
  bw : Value
  check_avg_bw : Value

def writeResultFooter (f : Footer) : List JsonOp :=
  .finishList ::
    ((.key "out_of_bounds".toList :: .startObject ::
      (fields [("count", .int f.errors), ("okay", .bool (f.errors = 0))] ++ [.finishObject])) ++
    (.key "average_bus_bandwidth".toList :: .startObject ::
      (fields [("bandwidth", .double f.bw),
        ("okay", if f.check_avg_bw = .finite (-1) then str "unchecked"
          else .bool (Value.le
            (Value.mul binary64 f.check_avg_bw (Value.ofRat binary64 (9 / 10))) f.bw))] ++
        [.finishObject])))

/-- `error` is what `ncclGetLastError` returns, `none` a null pointer. -/
def writeErrors (error : Option CString) : List JsonOp :=
  .key "errors".toList :: .startList ::
    ((error.elim [] fun text => [.str (some text)]) ++ [.finishList])

end

/-! ## Runs of the harness -/

/-- A line of results. -/
structure ResultLine where
  preamble : Preamble
  outOfPlace : Body
  outOfPlacePerIter : Option PerIter
  inPlace : Body
  inPlacePerIter : Option PerIter
  terminator : Terminator

/-- The report calls, by function. -/
inductive ReportCall
  | outputInit (o : OutputInit)
  | deviceReport (c : Config) (devices : Option (List RankInfo))
  | resultHeader
  | preamble (p : Preamble)
  | body (b : Body) (report_cputime out_of_place : Bool)
  | perIterReport (r : PerIter) (out_of_place : Bool)
  | terminator (t : Terminator)
  | resultFooter (f : Footer)
  | errors (error : Option CString)

def ReportCall.ops : ReportCall → List JsonOp
  | .outputInit o => jsonOutputInit o
  | .deviceReport c devices => writeDeviceReport c devices
  | .resultHeader => writeResultHeader
  | .preamble p => writeBenchmarkLinePreamble p
  | .body b report_cputime out_of_place => writeBenchmarkLineBody b report_cputime out_of_place
  | .perIterReport r out_of_place => writePerIterReport r out_of_place
  | .terminator t => writeBenchmarkLineTerminator t
  | .resultFooter f => writeResultFooter f
  | .errors error => writeErrors error

/-- `BenchTime`, after its measurement. -/
def benchTimeCalls (b : Body) (perIter : Option PerIter) (report_cputime out_of_place : Bool) :
    List ReportCall :=
  .body b report_cputime out_of_place ::
    (perIter.elim [] fun r => [.perIterReport r out_of_place])

/-- One turn of the loop of `TimeTest`. -/
def ResultLine.calls (l : ResultLine) (report_cputime : Bool) : List ReportCall :=
  .preamble l.preamble ::
    (benchTimeCalls l.outOfPlace l.outOfPlacePerIter report_cputime true ++
      benchTimeCalls l.inPlace l.inPlacePerIter report_cputime false ++
      [.terminator l.terminator])

/-- A run of `main`, and what it reports. `devices` is `none` when the device report fails. -/
structure Session where
  init : OutputInit
  config : Config
  devices : Option (List RankInfo)
  report_cputime : Bool
  lines : List ResultLine
  footer : Footer
  error : Option CString

/-- The report calls of a run that gets as far as it can. -/
def Session.calls (s : Session) : List ReportCall :=
  .outputInit s.init :: .deviceReport s.config s.devices ::
    if s.devices.isSome then
      .resultHeader :: (s.lines.flatMap (·.calls s.report_cputime) ++
        [.resultFooter s.footer, .errors s.error])
    else []

/-- `jsonOutputFinalize`, its loop with `fuel` turns; the last line is its assertion. -/
def jsonOutputFinalize (fuel : Nat) (end_time : CString) (w : Writer) : Option Writer := do
  let w ← if w.states.length = 1 ∧
      (w.jsonCurrState = .objectEmpty ∨ w.jsonCurrState = .objectSome) then
      w.jsonKey "end_time".toList >>= fun w => w.jsonStr (some end_time)
    else some w
  let w ← w.finishAll fuel
  if w.jsonCurrState = .none then some w else none

/-! ## What the calls of a function add to the document -/

open Json

@[simp] def JsonOp.isScalar : JsonOp → Bool
  | .key _ | .startObject | .finishObject | .startList | .finishList => false
  | _ => true

theorem JsonOp.exists_scalar {op : JsonOp} (scalar : op.isScalar) :
    ∃ s, op.event = .scalar s := by
  cases op <;> first | exact ⟨_, rfl⟩ | cases scalar

/-- The calls write one value wherever a value may start. -/
def WritesValue (ops : List JsonOp) : Prop := ∃ v, Writes (ops.map JsonOp.event) v

/-- The calls add members to an object. -/
def AddsFields (ops : List JsonOp) : Prop := ∃ members, AddsMembers (ops.map JsonOp.event) members

/-- The calls add elements to a list. -/
def AddsValues (ops : List JsonOp) : Prop :=
  ∃ elements, AddsElements (ops.map JsonOp.event) elements

theorem WritesValue.scalar {op : JsonOp} (scalar : op.isScalar) : WritesValue [op] := by
  obtain ⟨s, event⟩ := JsonOp.exists_scalar scalar
  refine ⟨.scalar s, ?_⟩
  rw [List.map_singleton, event]
  exact .scalar s

theorem AddsFields.nil : AddsFields [] := ⟨[], .nil⟩

theorem AddsFields.append {ops more : List JsonOp} :
    AddsFields ops → AddsFields more → AddsFields (ops ++ more) := by
  rintro ⟨members, first⟩ ⟨others, rest⟩
  refine ⟨members ++ others, ?_⟩
  rw [List.map_append]
  exact first.append rest

theorem AddsValues.nil : AddsValues [] := ⟨[], .nil⟩

theorem AddsValues.append {ops more : List JsonOp} :
    AddsValues ops → AddsValues more → AddsValues (ops ++ more) := by
  rintro ⟨elements, first⟩ ⟨others, rest⟩
  refine ⟨elements ++ others, ?_⟩
  rw [List.map_append]
  exact first.append rest

theorem AddsFields.key {ops : List JsonOp} (name : CString) :
    WritesValue ops → AddsFields (.key name :: ops) := by
  rintro ⟨v, writes⟩
  exact ⟨_, writes.member (sanitized name)⟩

theorem AddsValues.element {ops : List JsonOp} : WritesValue ops → AddsValues ops := by
  rintro ⟨v, writes⟩
  exact ⟨[v], writes.element⟩

theorem WritesValue.object {ops : List JsonOp} :
    AddsFields ops → WritesValue (.startObject :: (ops ++ [.finishObject])) := by
  rintro ⟨members, adds⟩
  refine ⟨.object members, ?_⟩
  rw [List.map_cons, List.map_append]
  exact adds.writes

theorem WritesValue.list {ops : List JsonOp} :
    AddsValues ops → WritesValue (.startList :: (ops ++ [.finishList])) := by
  rintro ⟨elements, adds⟩
  refine ⟨.list elements, ?_⟩
  rw [List.map_cons, List.map_append]
  exact adds.writes

theorem AddsValues.flatMap {α : Type} {ops : α → List JsonOp} (each : ∀ x, WritesValue (ops x))
    (xs : List α) : AddsValues (xs.flatMap ops) := by
  induction xs with
  | nil => exact .nil
  | cons x xs ih =>
    rw [List.flatMap_cons]
    exact (AddsValues.element (each x)).append ih

theorem fields_adds {members : List (String × JsonOp)} (scalars : ∀ m ∈ members, m.2.isScalar) :
    AddsFields (fields members) := by
  induction members with
  | nil => exact .nil
  | cons m members ih =>
    obtain ⟨first, rest⟩ := List.forall_mem_cons.1 scalars
    exact (AddsFields.key m.1.toList (.scalar first)).append (ih rest)

/-- The scalar that a call adds. -/
def opScalar (op : JsonOp) : Scalar :=
  match op.event with
  | .scalar s => s
  | _ => .literal []

/-- A member with a scalar. -/
def scalarMember (name : String) (s : Scalar) : Member :=
  (sanitized name.toList, .scalar s)

/-- The members that fields add. -/
theorem fields_members {members : List (String × JsonOp)} (scalars : ∀ m ∈ members, m.2.isScalar) :
    AddsMembers ((fields members).map JsonOp.event)
      (members.map fun m => scalarMember m.1 (opScalar m.2)) := by
  induction members with
  | nil => exact .nil
  | cons m members ih =>
    obtain ⟨first, rest⟩ := List.forall_mem_cons.1 scalars
    obtain ⟨s, event⟩ := JsonOp.exists_scalar first
    have value : Writes [m.2.event] (.scalar (opScalar m.2)) := by
      rw [opScalar, event]
      exact .scalar s
    exact (value.member (sanitized m.1.toList)).append (ih rest)

theorem AddsFields.ite {c : Prop} [Decidable c] {ops more : List JsonOp} (first : AddsFields ops)
    (second : AddsFields more) : AddsFields (if c then ops else more) := by
  split
  · exact first
  · exact second

/-! ### Function by function -/

/-- `jsonOutputInit` adds members to the object it starts. -/
theorem jsonOutputInit_adds (o : OutputInit) :
    ∃ ops, jsonOutputInit o = .startObject :: ops ∧ AddsFields ops := by
  refine ⟨_, rfl, .append (.append (.append ?_ ?_) ?_) ?_⟩
  · exact fields_adds (by simp)
  · exact .key _ (.list (.flatMap (fun _ => .scalar rfl) _))
  · exact .key _ (.list (.flatMap (fun _ => .scalar rfl) _))
  · exact fields_adds (by simp)

theorem jsonRankInfo_writes (ri : RankInfo) : WritesValue (jsonRankInfo ri) :=
  .object (fields_adds (by simp))

theorem configFields_adds (c : Config) : AddsFields (configFields c) := by
  refine .append (.append ?_ (.ite ?_ ?_)) ?_ <;> exact fields_adds (by simp)

/-- A device report that succeeds closes the object of the options. -/
theorem writeDeviceReport_adds (c : Config) (devices : List RankInfo) :
    AddsFields (writeDeviceReport c (some devices)) := by
  have list : AddsFields (.key "devices".toList :: .startList ::
      (devices.flatMap jsonRankInfo ++ [.finishList])) :=
    .key _ (.list (.flatMap jsonRankInfo_writes devices))
  have object := WritesValue.object ((configFields_adds c).append list)
  rw [List.append_assoc] at object
  exact .key _ object

theorem writeBenchmarkLineBody_adds (b : Body) (report_cputime out_of_place : Bool) :
    AddsFields (writeBenchmarkLineBody b report_cputime out_of_place) := by
  refine .key _ (.object (fields_adds ?_))
  cases b.reportErrors <;> simp

theorem writeTimes_writes (times : List BinaryFloat.Value) : WritesValue (writeTimes times) :=
  .list (.flatMap (fun _ => .scalar rfl) times)

theorem writePerIterReport_adds (r : PerIter) (out_of_place : Bool) :
    AddsFields (writePerIterReport r out_of_place) := by
  refine .key _ (.object (.append (.append ?stats (.key _ (writeTimes_writes _))) ?rows))
  case stats => exact fields_adds (by simp)
  case rows =>
    split
    · exact .ite (.key _ (.list (.flatMap writeTimes_writes _))) .nil
    · exact .nil

theorem writeTuning_adds (t : TaskReport) (chunkSize : Option Int) :
    AddsFields (writeTuning t chunkSize) := by
  refine .key _ (.object (fields_adds ?_))
  cases chunkSize <;> by_cases 0 ≤ t.nChannels <;> by_cases 0 ≤ t.nWarps <;>
    simp [str, *]

/-- The members that a terminator adds before it closes the object of the line. -/
theorem writeBenchmarkLineTerminator_adds (t : Terminator) :
    ∃ ops, writeBenchmarkLineTerminator t = ops ++ [.finishObject] ∧ AddsFields ops := by
  refine ⟨_, rfl, .append (.ite (writeTuning_adds _ _) .nil) ?_⟩
  exact fields_adds (by simp)

/-- The members that a footer adds once it has closed the list of results. -/
theorem writeResultFooter_adds (f : Footer) :
    ∃ ops, writeResultFooter f = .finishList :: ops ∧ AddsFields ops := by
  refine ⟨_, rfl, .append (.key _ (.object ?_)) (.key _ (.object (fields_adds ?_)))⟩
  · exact fields_adds (by simp)
  · by_cases f.check_avg_bw = .finite (-1) <;> simp [str, *]

theorem writeErrors_adds (error : Option CString) : AddsFields (writeErrors error) := by
  refine .key _ (.list ?_)
  cases error with
  | none => exact .nil
  | some text => exact .element (.scalar rfl)

/-! ## Whole runs -/

theorem benchTimeCalls_adds (b : Body) (perIter : Option PerIter)
    (report_cputime out_of_place : Bool) :
    AddsFields ((benchTimeCalls b perIter report_cputime out_of_place).flatMap ReportCall.ops) := by
  rw [benchTimeCalls, List.flatMap_cons]
  refine (writeBenchmarkLineBody_adds b report_cputime out_of_place).append ?_
  cases perIter with
  | none => exact .nil
  | some r => simpa [ReportCall.ops] using writePerIterReport_adds r out_of_place

/-- A turn of the loop of `TimeTest` writes one object. -/
theorem ResultLine.calls_writes (l : ResultLine) (report_cputime : Bool) :
    WritesValue ((l.calls report_cputime).flatMap ReportCall.ops) := by
  obtain ⟨last, terminator, last_adds⟩ := writeBenchmarkLineTerminator_adds l.terminator
  have preamble : AddsFields (writeBenchmarkLinePreamble l.preamble).tail :=
    fields_adds (by simp)
  have outOfPlace := benchTimeCalls_adds l.outOfPlace l.outOfPlacePerIter report_cputime true
  have inPlace := benchTimeCalls_adds l.inPlace l.inPlacePerIter report_cputime false
  have object := WritesValue.object
    (preamble.append ((outOfPlace.append inPlace).append last_adds))
  simpa [ResultLine.calls, ReportCall.ops, writeBenchmarkLinePreamble, terminator,
    List.append_assoc] using object

/-- The list of results, from the header to the first call of the footer. -/
theorem results_adds (lines : List ResultLine) (report_cputime : Bool) :
    AddsFields (writeResultHeader ++ ((lines.flatMap (·.calls report_cputime)).flatMap
      ReportCall.ops ++ [.finishList])) := by
  have each := AddsValues.flatMap (fun l : ResultLine => l.calls_writes report_cputime) lines
  rw [← List.flatMap_assoc] at each
  exact .key _ (.list each)

namespace Session

/-- The writer calls of a run that gets as far as it can. -/
def ops (s : Session) : List JsonOp := s.calls.flatMap ReportCall.ops

/-- A run whose device report succeeds adds members to one object, up to the end. -/
theorem ops_adds {s : Session} {devices : List RankInfo} (reported : s.devices = some devices) :
    ∃ ops, s.ops = .startObject :: ops ∧ AddsFields ops := by
  obtain ⟨init, init_eq, init_adds⟩ := jsonOutputInit_adds s.init
  obtain ⟨footer, footer_eq, footer_adds⟩ := writeResultFooter_adds s.footer
  have results := results_adds s.lines s.report_cputime
  refine ⟨_, ?_, init_adds.append ((writeDeviceReport_adds s.config devices).append
    (results.append (footer_adds.append (writeErrors_adds s.error))))⟩
  simp [Session.ops, Session.calls, ReportCall.ops, reported, init_eq, footer_eq,
    List.append_assoc]

/-- A run that ends with an error in the device report makes the first calls of one that
does not. -/
theorem ops_prefix_of_none {s : Session} (failed : s.devices = none) :
    s.ops <+: { s with devices := some [] }.ops := by
  simp [Session.ops, Session.calls, ReportCall.ops, failed, writeDeviceReport]

/-- The calls of a run start an object and stay inside it. -/
theorem ops_legal (s : Session) :
    ∃ ops p, s.ops = .startObject :: ops ∧
      Position.steps (ops.map JsonOp.event) Writer.start = some p := by
  cases reported : s.devices with
  | some devices =>
    obtain ⟨ops, same, members, adds⟩ := ops_adds reported
    exact ⟨ops, _, same, adds [] []⟩
  | none =>
    obtain ⟨ops, same, members, adds⟩ := ops_adds (s := { s with devices := some [] }) rfl
    obtain ⟨rest, extended⟩ := ops_prefix_of_none reported
    obtain ⟨init, init_eq, _⟩ := jsonOutputInit_adds s.init
    have first : s.ops = .startObject :: (init ++ writeDeviceReport s.config none) := by
      simp [Session.ops, Session.calls, ReportCall.ops, reported, init_eq]
    rw [same, first, List.cons_append, List.cons.injEq] at extended
    have steps := adds [] []
    rw [← extended.2, List.map_append] at steps
    obtain ⟨p, run⟩ := Position.exists_of_steps_append steps
    exact ⟨_, p, first, run⟩

/-- So do those of a run cut short between two report calls. -/
theorem cut_runs {s : Session} {calls : List ReportCall} (cut : calls <+: s.calls)
    (started : calls ≠ []) :
    ∃ p, Writer.Runs .initial (calls.flatMap ReportCall.ops) (Writer.at_ p) ∧
      p.document.isObject := by
  obtain ⟨rest, whole⟩ := cut
  obtain ⟨ops, q, all, steps⟩ := s.ops_legal
  rw [Session.ops, ← whole, List.flatMap_append] at all
  obtain ⟨c, calls, rfl⟩ := List.exists_cons_of_ne_nil started
  obtain rfl : c = .outputInit s.init := (List.cons.inj whole).1
  obtain ⟨init, init_eq, _⟩ := jsonOutputInit_adds s.init
  rw [List.flatMap_cons, ReportCall.ops, init_eq, List.cons_append, List.cons_append,
    List.cons.injEq] at all
  rw [← all.2, List.map_append] at steps
  obtain ⟨p, run⟩ := Position.exists_of_steps_append steps
  refine ⟨p, ?_, ?_⟩
  · rw [List.flatMap_cons, ReportCall.ops, init_eq, List.cons_append]
    exact Writer.runs_iff_steps.2 ⟨p, run, rfl⟩
  · rw [Position.isObject_steps run]
    rfl

/-- A run that is not cut ends at the top level. -/
theorem whole_length {s : Session} (reported : s.devices.isSome) {w : Writer}
    (run : Writer.Runs .initial s.ops w) : w.states.length = 1 := by
  obtain ⟨devices, some_devices⟩ := Option.isSome_iff_exists.1 reported
  obtain ⟨ops, same, members, adds⟩ := ops_adds some_devices
  rw [same] at run
  obtain ⟨p, steps, rfl⟩ := Writer.runs_iff_steps.1 run
  obtain rfl : ⟨.members ([] ++ members), []⟩ = p := Option.some.inj ((adds [] []).symm.trans steps)
  cases members <;> rfl

end Session

/-! ## Finalisation -/

def endTime (end_time : CString) : Member :=
  (sanitized "end_time".toList, .scalar (.string (sanitized end_time)))

/-- At the top level `jsonOutputFinalize` adds a member before it closes the object. -/
theorem jsonOutputFinalize_members (top : List Member) (end_time : CString) {fuel : Nat}
    (enough : 1 ≤ fuel) :
    jsonOutputFinalize fuel end_time (Writer.at_ ⟨.members top, []⟩) =
      some ⟨[], (Value.object (top ++ [endTime end_time])).tokens⟩ := by
  have curr : (Writer.at_ ⟨.members top, []⟩).jsonCurrState = .objectEmpty ∨
      (Writer.at_ ⟨.members top, []⟩).jsonCurrState = .objectSome := by
    cases top
    · exact .inl rfl
    · exact .inr rfl
  have one : (Writer.at_ ⟨.members top, []⟩).states.length = 1 := by cases top <;> rfl
  have member : ((Writer.at_ ⟨.members top, []⟩).jsonKey "end_time".toList >>=
      fun w => w.jsonStr (some end_time)) =
      some (Writer.at_ ⟨.members (top ++ [endTime end_time]), []⟩) := by
    rw [Writer.jsonKey_at]
    exact Writer.jsonScalar_at ⟨.key top _, []⟩ _
  have closed : (Writer.at_ ⟨.members (top ++ [endTime end_time]), []⟩).finishAll fuel =
      some ⟨[], (Value.object (top ++ [endTime end_time])).tokens⟩ :=
    Writer.finishAll_at (by cases top <;> exact enough)
  rw [jsonOutputFinalize, if_pos ⟨one, curr⟩, member]
  simp only [Option.bind_eq_bind, Option.bind_some, closed]
  rfl

/-- Inside another container it only closes what is open. -/
theorem jsonOutputFinalize_nested {p : Position} (nested : (Writer.at_ p).states.length ≠ 1)
    (end_time : CString) {fuel : Nat} (enough : (Writer.at_ p).states.length ≤ fuel) :
    jsonOutputFinalize fuel end_time (Writer.at_ p) = some ⟨[], p.document.tokens⟩ := by
  rw [jsonOutputFinalize, if_neg fun both => nested both.1]
  simp only [Option.bind_eq_bind, Option.bind_some, Writer.finishAll_at enough]
  rfl

/-- In an object, one open container is its top level. -/
theorem eq_members_of_length {p : Position} (object : p.document.isObject)
    (one : (Writer.at_ p).states.length = 1) : ∃ top, p = ⟨.members top, []⟩ := by
  obtain ⟨f, contexts⟩ := p
  cases contexts with
  | cons c contexts =>
    rcases f with before | before | ⟨before, name⟩
    · cases before <;> simp [Writer.at_, focusStates] at one
    · cases before <;> simp [Writer.at_, focusStates] at one
    · simp [Writer.at_, focusStates] at one
  | nil =>
    cases f with
    | elements before => cases object
    | members before => exact ⟨before, rfl⟩
    | key before name => simp [Writer.at_, focusStates] at one

end NcclTests.Harness
