import Mathlib
import NcclTests.Lib.JsonScalar
import NcclTests.Harness.SanitizeJson
import NcclTests.Harness.Report

/-!
# The scalars of a report

Every string, integer and number of a report is the text of one JSON value, except that `jsonDouble`
prints an infinity as `inf`. Times that are divided by zero give one, so that a report with such a
time cannot be read. `report_valid_iff` says that nothing else makes it unreadable, and
`session_valid_iff` that the file is a complete document otherwise.
-/

namespace NcclTests.Harness

/-! ## Bandwidths -/

section

open BinaryFloat

structure Bandwidth where
  algBw : Value
  busBw : Value
  deriving DecidableEq

/-- The `GetBw` functions differ in the bytes they count, and in their factor. -/
def getBw (bytes : UInt64) (sec factor : Value) : Bandwidth :=
  let baseBw := Value.div binary64
    (Value.div binary64 (Value.ofRat binary64 bytes.toNat) (.finite 1000000000)) sec
  ⟨baseBw, Value.mul binary64 baseBw factor⟩

/-- `(double)p / (double)q`. -/
def quotient (p q : Int) : Value := Value.div binary64 (.finite p) (.finite q)

variable (count typesize : UInt64) (sec : Value) (nranks : Int)

def AllReduceGetBw : Bandwidth :=
  getBw (count * typesize) sec (quotient (2 * (nranks - 1)) nranks)

def AllGatherGetBw : Bandwidth :=
  getBw (count * typesize * UInt64.ofInt nranks) sec (quotient (nranks - 1) nranks)

def ReduceScatterGetBw : Bandwidth :=
  getBw (count * typesize * UInt64.ofInt nranks) sec (quotient (nranks - 1) nranks)

def AlltoAllGetBw : Bandwidth :=
  getBw (count * UInt64.ofInt nranks * typesize) sec (quotient (nranks - 1) nranks)

def GatherGetBw : Bandwidth :=
  getBw (count * UInt64.ofInt nranks * typesize) sec (quotient (nranks - 1) nranks)

def ScatterGetBw : Bandwidth :=
  getBw (count * UInt64.ofInt nranks * typesize) sec (quotient (nranks - 1) nranks)

def HyperCubeGetBw : Bandwidth :=
  getBw (count * typesize * UInt64.ofInt (nranks - 1)) sec (.finite 1)

def BroadcastGetBw : Bandwidth := getBw (count * typesize) sec (.finite 1)

def SendRecvGetBw : Bandwidth := getBw (count * typesize) sec (.finite 1)

/-- `computeMaxCounts` is `AlltoAllvComputeMaxCounts` with the bytes of all ranks. -/
def AlltoAllvGetBw (computeMaxCounts : UInt64 → UInt64 × UInt64) : Bandwidth :=
  let maxCounts := computeMaxCounts (count * UInt64.ofInt nranks * typesize)
  getBw (max maxCounts.1 maxCounts.2 * typesize) sec (quotient (nranks - 1) nranks)

/-- Without a factor. -/
def ReduceGetBw : Bandwidth :=
  let baseBw := (getBw (count * typesize) sec (.finite 1)).algBw
  ⟨baseBw, baseBw⟩

/-- The time of one operation, from the time of all. -/
def deltaSec (elapsed : Value) (iters agg_iters cudaGraphLaunches : Int) : Value :=
  let perIter := Value.div binary64 elapsed (.finite (iters * agg_iters))
  if cudaGraphLaunches ≥ 1 then Value.div binary64 perIter (.finite cudaGraphLaunches) else perIter

theorem ofRat_of_ge {c q : ℚ} (pos : 0 < c) (exact_ : binary64.nearest c = c) (le : c ≤ q) :
    Value.ofRat binary64 q = .infinity false ∨ ∃ r, c ≤ r ∧ Value.ofRat binary64 q = .finite r := by
  have nonneg : 0 ≤ q := pos.le.trans le
  rcases Value.ofRat_of_nonneg (F := binary64) nonneg with finite | infinite
  · exact .inr ⟨_, Format.le_nearest pos.le le exact_, finite⟩
  · exact .inl infinite

/-- Some bytes in no time. -/
theorem getBw_zero {bytes : UInt64} (some_ : 1 ≤ bytes.toNat) (factor : Value) :
    (getBw bytes (.finite 0) factor).algBw = .infinity false := by
  have one : binary64.nearest 1 = 1 := by
    have exact_ := nearest_natCast_double (n := 1) (by norm_num)
    rwa [Nat.cast_one] at exact_
  have small : binary64.nearest (1 * 2 ^ (-30 : Int)) = 1 * 2 ^ (-30 : Int) := by
    have exact_ := Format.nearest_scaled (F := binary64) (n := 1) (e := -30) (by decide) (by decide)
    rwa [Nat.cast_one] at exact_
  rw [getBw]
  have bytes_ge : (1 : ℚ) ≤ bytes.toNat := by exact_mod_cast some_
  rcases ofRat_of_ge one_pos one bytes_ge with infinite | ⟨r, low, finite⟩
  · rw [infinite]
    rfl
  rw [finite]
  have billionth : (1 * 2 ^ (-30 : Int) : ℚ) ≤ r / 1000000000 := by
    rw [le_div_iff₀ (by norm_num)]
    refine le_trans ?_ low
    norm_num
  have quotient : Value.div binary64 (.finite r) (.finite 1000000000) =
      Value.ofRat binary64 (r / 1000000000) := by
    simp [Value.div]
  dsimp only
  rw [quotient]
  rcases ofRat_of_ge (by positivity) small billionth with infinite | ⟨x, above, finite⟩
  · rw [infinite]
    rfl
  · have pos : 0 < x := lt_of_lt_of_le (by positivity) above
    rw [finite]
    simp [Value.div, pos.ne', pos.le.not_gt]

end

/-! ## What a call prints -/

open Json

/-- The scalar among the tokens of a call. -/
def JsonOp.printed (op : JsonOp) : Option Scalar :=
  match op.event with
  | .key name => some (.string name)
  | .scalar s => some s
  | _ => none

namespace Writer

theorem jsonPushState_out {w w' : Writer} {state : JsonState}
    (pushed : w.jsonPushState state = some w') : w'.out = w.out := by
  unfold jsonPushState at pushed
  split at pushed
  · cases pushed
  · cases pushed
    rfl

theorem jsonReplaceState_out {w w' : Writer} {state : JsonState}
    (replaced : w.jsonReplaceState state = some w') : w'.out = w.out := by
  unfold jsonReplaceState at replaced
  split at replaced
  · cases replaced
  · cases replaced
    rfl

/-- Before a value there is a comma at most. -/
theorem jsonValHelper_out {w w' : Writer} (helped : w.jsonValHelper = some w') :
    w'.out = w.out ∨ w'.out = w.out ++ [.comma] := by
  unfold jsonValHelper at helped
  split at helped
  · exact .inl (jsonReplaceState_out helped)
  · cases helped
    exact .inr rfl
  · cases helped
    exact .inl rfl
  · cases helped
    exact .inl rfl
  · cases helped

/-- The tokens that a step adds, the scalars among them being those of the second argument. -/
def Adds (w w' : Writer) (scalar : Option Scalar) : Prop :=
  ∃ tokens, w'.out = w.out ++ tokens ∧ ∀ s, .scalar s ∈ tokens ↔ scalar = some s

theorem Adds.value {w v w' : Writer} {tokens : List Token} {scalar : Option Scalar}
    (helped : w.jsonValHelper = some v) (out : w'.out = v.out ++ tokens)
    (scalars : ∀ s, .scalar s ∈ tokens ↔ scalar = some s) : Adds w w' scalar := by
  rcases jsonValHelper_out helped with same | comma
  · exact ⟨tokens, by rw [out, same], scalars⟩
  · refine ⟨.comma :: tokens, by rw [out, comma, List.append_assoc, List.singleton_append], ?_⟩
    intro s
    rw [← scalars, List.mem_cons, or_iff_right Token.noConfusion]

theorem adds_scalar {w w' : Writer} {s : Scalar} (printed : w.jsonScalar s = some w') :
    Adds w w' (some s) := by
  obtain ⟨v, helped, out⟩ := Option.bind_eq_some_iff.1 printed
  cases out
  refine .value helped rfl ?_
  intro other
  rw [List.mem_singleton, Token.scalar.injEq, Option.some_inj, eq_comm]

/-- The tokens that open and close a container. -/
theorem notMem_bracket {t : Token} (bracket : ∀ s, t ≠ .scalar s) (s : Scalar) :
    .scalar s ∈ [t] ↔ none = some s := by
  rw [List.mem_singleton]
  exact iff_of_false (bracket s).symm nofun

theorem adds_start {w v w' : Writer} {t : Token} {state : JsonState}
    (bracket : ∀ s, t ≠ .scalar s) (helped : w.jsonValHelper = some v)
    (pushed : (v.fprintf [t]).jsonPushState state = some w') : Adds w w' none :=
  .value helped (jsonPushState_out pushed) (notMem_bracket bracket)

theorem adds_finish {w v : Writer} {t : Token} {state : JsonState} (bracket : ∀ s, t ≠ .scalar s)
    (popped : w.jsonPopState = (state, v)) : Adds w (v.fprintf [t]) none := by
  cases popped
  exact ⟨[t], rfl, notMem_bracket bracket⟩

theorem adds_key {w w' : Writer} {name : CString} (step : w.jsonKey name = some w') :
    Adds w w' (some (.string (sanitized name))) := by
  have scalars (other : Scalar) : .scalar other ∈ keyTokens (sanitized name) ↔
      some (Scalar.string (sanitized name)) = some other := by
    simp [keyTokens, eq_comm]
  unfold jsonKey at step
  split at step
  · obtain ⟨v, replaced, pushed⟩ := Option.bind_eq_some_iff.1 step
    refine ⟨_, ?_, scalars⟩
    rw [jsonPushState_out pushed, fprintf, jsonReplaceState_out replaced]
  · refine ⟨.comma :: keyTokens (sanitized name), ?_, ?_⟩
    · obtain ⟨v, comma, pushed⟩ := Option.bind_eq_some_iff.1 step
      cases comma
      rw [jsonPushState_out pushed]
      simp [fprintf]
    · intro other
      rw [← scalars, List.mem_cons, or_iff_right Token.noConfusion]
  · cases step

theorem step_out {w w' : Writer} {op : JsonOp} (step : w.step op = some w') :
    Adds w w' op.printed := by
  cases op with
  | key name => exact adds_key step
  | startObject =>
    obtain ⟨v, helped, pushed⟩ := Option.bind_eq_some_iff.1 step
    exact adds_start (fun _ => Token.noConfusion) helped pushed
  | finishObject =>
    replace step : w.jsonFinishObject = some w' := step
    unfold jsonFinishObject at step
    split at step
    · next popped =>
      cases step
      exact adds_finish (fun _ => Token.noConfusion) popped
    · next popped =>
      cases step
      exact adds_finish (fun _ => Token.noConfusion) popped
    · cases step
  | startList =>
    obtain ⟨v, helped, pushed⟩ := Option.bind_eq_some_iff.1 step
    exact adds_start (fun _ => Token.noConfusion) helped pushed
  | finishList =>
    replace step : w.jsonFinishList = some w' := step
    unfold jsonFinishList at step
    split at step
    · next popped =>
      cases step
      exact adds_finish (fun _ => Token.noConfusion) popped
    · next popped =>
      cases step
      exact adds_finish (fun _ => Token.noConfusion) popped
    · cases step
  | null => exact adds_scalar step
  | str text =>
    cases text with
    | none => exact adds_scalar step
    | some text => exact adds_scalar step
  | bool val => exact adds_scalar step
  | int val => exact adds_scalar step
  | size_t val => exact adds_scalar step
  | double val => exact adds_scalar step

/-- The scalars of a run are those of its calls. -/
theorem Runs.scalar_mem {w w' : Writer} {ops : List JsonOp} (runs : Runs w ops w') (s : Scalar) :
    .scalar s ∈ w'.out ↔ .scalar s ∈ w.out ∨ ∃ op ∈ ops, op.printed = some s := by
  induction runs with
  | nil w => simp
  | cons step _ _ ih =>
    obtain ⟨tokens, out, scalars⟩ := step_out step
    rw [ih, out, List.mem_append, scalars, List.exists_mem_cons_iff, or_assoc]

end Writer

/-! ## Which calls print a value -/

theorem isValid_sanitized (text : CString) : (Scalar.string (sanitized text)).IsValid :=
  sanitizeLoop_stringBody 2048 0 text

theorem not_isValid_infinity (negative : Bool) :
    ¬(Scalar.literal (Printf.longFloat (.infinity negative))).IsValid := by
  rintro (number | name)
  · exact not_isNumber_infinity negative number
  · cases negative <;> exact absurd name (by decide)

/-- The one call that does not. -/
theorem printed_isValid_iff {op : JsonOp} {s : Scalar} (printed : op.printed = some s) :
    s.IsValid ↔ ∀ negative, op ≠ .double (.infinity negative) := by
  cases op with
  | key name =>
    cases printed
    exact iff_of_true (isValid_sanitized name) fun _ => JsonOp.noConfusion
  | null =>
    cases printed
    exact iff_of_true (.inr List.mem_cons_self) fun _ => JsonOp.noConfusion
  | str text =>
    refine iff_of_true ?_ fun _ => JsonOp.noConfusion
    cases text with
    | none =>
      cases printed
      exact .inr List.mem_cons_self
    | some text =>
      cases printed
      exact isValid_sanitized text
  | bool val =>
    cases printed
    exact iff_of_true (isValid_sanitized _) fun _ => JsonOp.noConfusion
  | int val =>
    cases printed
    exact iff_of_true (.inl (isNumber_decimal val)) fun _ => JsonOp.noConfusion
  | size_t val =>
    cases printed
    exact iff_of_true (.inl (isNumber_digits val.toNat)) fun _ => JsonOp.noConfusion
  | double val =>
    cases val with
    | nan =>
      cases printed
      refine iff_of_true ?_ fun _ => by simp
      exact sanitizeLoop_stringBody 2048 0 "nan".toList
    | infinity negative =>
      cases printed
      exact iff_of_false (not_isValid_infinity negative) fun finite => finite negative rfl
    | finite q =>
      cases printed
      exact iff_of_true (.inl (isNumber_longFloat q)) fun _ => by simp
  | startObject => cases printed
  | finishObject => cases printed
  | startList => cases printed
  | finishList => cases printed

/-- An infinity among the numbers makes a report unreadable, and nothing else does. -/
theorem scalars_valid_iff {ops : List JsonOp} {w : Writer} (runs : Writer.Runs .initial ops w) :
    (∀ s, .scalar s ∈ w.out → s.IsValid) ↔
      ∀ val, .double val ∈ ops → ∀ negative, val ≠ .infinity negative := by
  have scalars := runs.scalar_mem
  constructor
  · rintro valid val mem negative rfl
    have printed : JsonOp.printed (.double (.infinity negative)) =
        some (.literal (Printf.longFloat (.infinity negative))) := rfl
    exact not_isValid_infinity negative (valid _ ((scalars _).2 (.inr ⟨_, mem, printed⟩)))
  · intro finite s mem
    rcases (scalars s).1 mem with before | ⟨op, among, printed⟩
    · cases before
    · rw [printed_isValid_iff printed]
      rintro negative rfl
      exact finite _ among negative rfl

/-- `jsonDouble` prints one scalar, and that is the last token. -/
theorem jsonDouble_isValid_iff {w w' : Writer} {val : BinaryFloat.Value}
    (step : w.jsonDouble val = some w') :
    (∃ s, (w'.out = w.out ++ [.scalar s] ∨ w'.out = w.out ++ [.comma, .scalar s]) ∧ s.IsValid) ↔
      ∀ negative, val ≠ .infinity negative := by
  obtain ⟨v, helped, out⟩ := Option.bind_eq_some_iff.1 step
  cases out
  have same : JsonOp.printed (.double val) = some _ := rfl
  have valid := printed_isValid_iff same
  simp only [ne_eq, JsonOp.double.injEq] at valid
  rw [← valid]
  generalize (if val = .nan then Scalar.string "nan".toList
    else .literal (Printf.longFloat val)) = printed
  constructor
  · rintro ⟨s, last, valid⟩
    have same : (v.fprintf [.scalar printed]).out.getLast? = some (.scalar s) := by
      rcases last with last | last
      · rw [last, List.getLast?_concat]
      · rw [last, List.append_cons, List.getLast?_concat]
    rw [Writer.fprintf, List.getLast?_concat, Option.some_inj, Token.scalar.injEq] at same
    rwa [same]
  · intro valid
    refine ⟨_, ?_, valid⟩
    rcases Writer.jsonValHelper_out helped with first | later
    · exact .inl (by rw [Writer.fprintf, first])
    · exact .inr (by rw [Writer.fprintf, later, List.append_assoc, List.singleton_append])

/-- **When the numbers of a report are values.** All scalars of the report are valid exactly where
no call of `jsonDouble` is given an infinity, and each call prints a valid scalar exactly where it
is given none: a NaN is printed as a string, and an infinity as `printf` prints it. -/
theorem report_valid_iff (s : Session) (w : Writer) (runs : Writer.Runs .initial s.ops w) :
    ((∀ scalar, .scalar scalar ∈ w.out → scalar.IsValid) ↔
      ∀ val, .double val ∈ s.ops → ∀ negative, val ≠ .infinity negative) ∧
    ∀ (before after : Writer) (val : BinaryFloat.Value), before.jsonDouble val = some after →
      ((∃ s, (after.out = before.out ++ [.scalar s] ∨
          after.out = before.out ++ [.comma, .scalar s]) ∧ s.IsValid) ↔
        ∀ negative, val ≠ .infinity negative) :=
  ⟨scalars_valid_iff runs, fun _ _ _ step => jsonDouble_isValid_iff step⟩

/-- A run whose device report fails. -/
def failedSession : Session where
  init := ⟨"2026-01-01 00:00:00".toList, ["all_reduce_perf".toList], [], 22800⟩
  config := ⟨1, 8, Sizes.defaults, 1, 20, 1, 1, 0, 0, 0, 0, 0⟩
  devices := none
  report_cputime := false
  lines := []
  footer := ⟨0, .finite 0, .finite (-1)⟩
  error := none

/-- A line of an all-reduce with this time for each operation. -/
def timedLine (sec : BinaryFloat.Value) : ResultLine :=
  let bandwidth := AllReduceGetBw 8 4 sec 2
  let body : Body := ⟨micros sec, bandwidth.algBw, bandwidth.busBw, true, 0⟩
  { preamble := ⟨32, 8, "float".toList, "sum".toList, -1⟩
    outOfPlace := body
    outOfPlacePerIter := none
    inPlace := body
    inPlacePerIter := none
    terminator := ⟨false, none, none, 20, "all_reduce".toList⟩ }

/-- A line with an operation that took no time. -/
def zeroTimeLine : ResultLine := timedLine (deltaSec (.finite 0) 20 1 0)

def zeroTimeSession : Session :=
  { failedSession with devices := some [], lines := [zeroTimeLine] }

/-- The time and the bandwidth of a line are among what is printed. -/
theorem double_mem_ops {s : Session} {l : ResultLine} (reported : s.devices.isSome)
    (mem : l ∈ s.lines) :
    .double l.outOfPlace.timeUsec ∈ s.ops ∧ .double l.outOfPlace.algBw ∈ s.ops := by
  have body : .body l.outOfPlace s.report_cputime true ∈ s.calls := by
    have inLine : .body l.outOfPlace s.report_cputime true ∈ l.calls s.report_cputime := by
      simp [ResultLine.calls, benchTimeCalls]
    have inLines := (List.mem_flatMap (f := fun l => l.calls s.report_cputime)).2 ⟨l, mem, inLine⟩
    simp [Session.calls, reported, inLines]
  constructor
  · exact List.mem_flatMap.2 ⟨_, body, by simp [ReportCall.ops, writeBenchmarkLineBody, fields]⟩
  · exact List.mem_flatMap.2 ⟨_, body, by simp [ReportCall.ops, writeBenchmarkLineBody, fields]⟩

theorem zeroTimeSession_infinity : .double (.infinity false) ∈ zeroTimeSession.ops := by
  have sec : deltaSec (.finite 0) 20 1 0 = .finite 0 := by
    simp [deltaSec, BinaryFloat.Value.div, BinaryFloat.Value.ofRat_zero]
  have infinite : (AllReduceGetBw 8 4 (.finite 0) 2).algBw = .infinity false :=
    getBw_zero (by decide) _
  have among := (double_mem_ops (s := zeroTimeSession) rfl List.mem_cons_self).2
  rwa [zeroTimeLine, timedLine, sec, infinite] at among

theorem zeroTimeSession_invalid :
    ¬∀ (s : Session) (w : Writer), Writer.Runs .initial s.ops w →
      ∀ scalar, .scalar scalar ∈ w.out → scalar.IsValid := by
  intro valid
  obtain ⟨p, runs, -⟩ := Session.cut_runs (s := zeroTimeSession) List.prefix_rfl
    (List.cons_ne_nil _ _)
  exact (scalars_valid_iff runs).1 (valid _ _ runs) _ zeroTimeSession_infinity false rfl

/-- That session, and a number after a key. -/
theorem report_valid_iff_zeroTime :
    ∃ w, Writer.Runs .initial zeroTimeSession.ops w ∧
      ((∀ scalar, .scalar scalar ∈ w.out → scalar.IsValid) ↔
        ∀ val, .double val ∈ zeroTimeSession.ops → ∀ negative, val ≠ .infinity negative) ∧
      (let before : Writer := ⟨[.key, .objectSome], []⟩
        let after : Writer := ⟨[.objectSome], [.scalar (.literal (Printf.longFloat (.finite 0)))]⟩
        (∃ s, (after.out = before.out ++ [.scalar s] ∨
            after.out = before.out ++ [.comma, .scalar s]) ∧ s.IsValid) ↔
          ∀ negative, BinaryFloat.Value.finite 0 ≠ .infinity negative) := by
  obtain ⟨p, runs, -⟩ := Session.cut_runs (s := zeroTimeSession) List.prefix_rfl
    (List.cons_ne_nil _ _)
  obtain ⟨session, number⟩ := report_valid_iff zeroTimeSession _ runs
  exact ⟨_, runs, session, number _ _ _ rfl⟩

/-! ## Whole reports -/

/-- The end time and its name. -/
theorem endTime_isValid {end_time : CString} {s : Scalar}
    (mem : .scalar s ∈ memberTokens (endTime end_time)) : s.IsValid := by
  have either : s = .string (sanitized "end_time".toList) ∨ s = .string (sanitized end_time) := by
    simpa [endTime, memberTokens, keyTokens, Value.tokens] using mem
  rcases either with rfl | rfl
  · exact isValid_sanitized _
  · exact isValid_sanitized _

/-- The writer after a run, cut or not, and after `jsonOutputFinalize`: besides the scalars of the
run the file has only valid ones. -/
theorem Session.cut_finalized {s : Session} {calls : List ReportCall} (cut : calls <+: s.calls)
    (started : calls ≠ []) (end_time : CString) :
    ∃ w, Writer.Runs .initial (calls.flatMap ReportCall.ops) w ∧
      ∀ fuel, w.states.length ≤ fuel →
        ∃ w', jsonOutputFinalize fuel end_time w = some w' ∧ w'.states = [] ∧
          (∃ members, w'.out = (Value.object members).tokens) ∧
          (∀ s, (.scalar s ∈ w.out → .scalar s ∈ w'.out) ∧
            (.scalar s ∈ w'.out → .scalar s ∈ w.out ∨ s.IsValid)) ∧
          (w.states.length = 1 → ∃ top, w.out ++ [.endObject] = (Value.object top).tokens ∧
            w'.out = (Value.object (top ++ [endTime end_time])).tokens) ∧
          (w.states.length ≠ 1 → ∃ closing, w'.out = w.out ++ closing ∧
            ∀ body, .scalar (.string body) ∉ closing) := by
  obtain ⟨p, runs, object⟩ := Session.cut_runs cut started
  refine ⟨_, runs, fun fuel enough => ?_⟩
  by_cases one : (Writer.at_ p).states.length = 1
  · obtain ⟨top, rfl⟩ := eq_members_of_length object one
    have closed : (Writer.at_ ⟨.members top, []⟩).out ++ [.endObject] =
        (Value.object top).tokens := Position.tokens_closing ⟨.members top, []⟩
    have scalars (s : Scalar) : .scalar s ∈ (Writer.at_ ⟨.members top, []⟩).out ↔
        .scalar s ∈ (Value.object top).tokens := by
      rw [← closed]
      simp
    refine ⟨_, jsonOutputFinalize_members top end_time (one ▸ enough), rfl, ⟨_, rfl⟩, fun s => ?_,
      fun _ => ⟨top, closed, rfl⟩, fun nested => absurd one nested⟩
    rw [scalars, scalar_mem_object_concat]
    exact ⟨Or.inl, Or.imp_right endTime_isValid⟩
  · obtain ⟨members, whole⟩ := Value.isObject_iff.1 object
    have closed : (Writer.at_ p).out ++ p.closing = p.document.tokens := p.tokens_closing
    refine ⟨_, jsonOutputFinalize_nested one end_time enough, rfl,
      ⟨members, congrArg Value.tokens whole⟩, fun s => ?_, fun top => absurd top one, fun _ => ?_⟩
    · rw [← closed, List.mem_append]
      refine ⟨Or.inl, Or.imp_right fun mem => ?_⟩
      rw [p.scalar_mem_closing mem]
      exact .inr List.mem_cons_self
    · refine ⟨p.closing, closed.symm, fun body mem => ?_⟩
      cases p.scalar_mem_closing mem

/-- **Every run drives the writer legally.** Whatever a run reports, and wherever an error cuts it
short between two report calls, no assertion fails, and `jsonOutputFinalize` closes what is open:
at the top level after the end time, in a nested container without a further key or string. The
file is then a document exactly if no infinity went to `jsonDouble`, the one writer whose text may
not be a value; all others sanitise their text or print digits. -/
theorem session_valid_iff (s : Session) (calls : List ReportCall) (cut : calls <+: s.calls)
    (started : calls ≠ []) (end_time : CString) :
    ∃ w, Writer.Runs .initial (calls.flatMap ReportCall.ops) w ∧
      (s.devices.isSome → calls = s.calls → w.states.length = 1) ∧
      ∀ fuel, w.states.length ≤ fuel →
        ∃ w', jsonOutputFinalize fuel end_time w = some w' ∧ w'.states = [] ∧
          (∃ members, w'.out = (Value.object members).tokens) ∧
          (IsDocument w'.out ↔ ∀ val, .double val ∈ calls.flatMap ReportCall.ops →
            ∀ negative, val ≠ .infinity negative) ∧
          (w.states.length = 1 → ∃ top, w.out ++ [.endObject] = (Value.object top).tokens ∧
            w'.out = (Value.object (top ++ [endTime end_time])).tokens) ∧
          (w.states.length ≠ 1 → ∃ closing, w'.out = w.out ++ closing ∧
            ∀ body, .scalar (.string body) ∉ closing) := by
  obtain ⟨w, runs, finalized⟩ := Session.cut_finalized cut started end_time
  refine ⟨w, runs, ?_, fun fuel enough => ?_⟩
  · rintro reported rfl
    exact Session.whole_length reported runs
  · obtain ⟨w', closed, states, object, scalars, top, nested⟩ := finalized fuel enough
    refine ⟨w', closed, states, object, ?_, top, nested⟩
    rw [← scalars_valid_iff runs]
    constructor
    · intro document s mem
      exact document.2 s ((scalars s).1 mem)
    · intro valid
      refine ⟨object, fun s mem => ?_⟩
      rcases (scalars s).2 mem with before | own
      · exact valid s before
      · exact own

/-- A run with one line that is not cut. -/
def lineSession : Session :=
  let body : Body := ⟨.finite 16, .finite 2, .finite 2, true, 0⟩
  { failedSession with
    devices := some []
    lines := [
      { preamble := ⟨32, 8, "float".toList, "sum".toList, -1⟩
        outOfPlace := body
        outOfPlacePerIter := none
        inPlace := body
        inPlacePerIter := none
        terminator := ⟨false, none, none, 20, "all_reduce".toList⟩ }] }

theorem session_valid_iff_line :
    ∃ w w', Writer.Runs .initial lineSession.ops w ∧ jsonOutputFinalize 1 [] w = some w' ∧
      IsDocument w'.out ∧
      ∃ top, w'.out = (Value.object (top ++ [endTime []])).tokens := by
  obtain ⟨w, runs, whole, close⟩ := session_valid_iff lineSession _ List.prefix_rfl
    (List.cons_ne_nil _ _) []
  have one : w.states.length = 1 := whole rfl rfl
  obtain ⟨w', finalized, -, -, valid, top, -⟩ := close 1 one.le
  obtain ⟨top, -, out⟩ := top one
  refine ⟨w, w', runs, finalized, valid.2 fun val mem negative => ?_, top, out⟩
  rintro rfl
  have finite : ∀ op ∈ lineSession.ops, ∀ negative, op ≠ .double (.infinity negative) := by
    decide +kernel
  exact finite _ mem negative rfl

/-- `-n 0`: the elapsed time is divided by the number of operations. -/
def noItersSession : Session :=
  { failedSession with
    devices := some []
    lines := [timedLine (deltaSec (.finite (1 / 1000)) 0 1 0)] }

theorem noItersSession_invalid :
    ¬∀ (s : Session) (calls : List ReportCall), calls <+: s.calls → calls ≠ [] →
      ∀ w, Writer.Runs .initial (calls.flatMap ReportCall.ops) w →
        ∀ end_time fuel w', jsonOutputFinalize fuel end_time w = some w' →
          IsDocument w'.out := by
  intro valid
  have infinite : .double (.infinity false) ∈ noItersSession.ops := by
    have sec : deltaSec (.finite (1 / 1000)) 0 1 0 = .infinity false := by
      norm_num [deltaSec, BinaryFloat.Value.div]
    have time : micros (.infinity false) = .infinity false := by
      norm_num [micros, BinaryFloat.Value.mul]
    have among := (double_mem_ops (s := noItersSession) rfl List.mem_cons_self).1
    rwa [timedLine, sec, time] at among
  obtain ⟨w, runs, finalized⟩ := Session.cut_finalized (s := noItersSession) List.prefix_rfl
    (List.cons_ne_nil _ _) []
  obtain ⟨w', closed, -, -, scalars, -⟩ := finalized _ le_rfl
  have document := valid noItersSession _ List.prefix_rfl (List.cons_ne_nil _ _) w runs [] _ w'
    closed
  exact (scalars_valid_iff runs).1 (fun s mem => document.2 s ((scalars s).1 mem)) _ infinite
    false rfl

end NcclTests.Harness
