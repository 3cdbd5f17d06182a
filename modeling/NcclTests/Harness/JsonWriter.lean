import Mathlib
import NcclTests.Lib.Json
import NcclTests.Lib.Printf

/-!
# The JSON writer

`jsonPushState` to `jsonDouble` and the closing loop of `jsonOutputFinalize`: a stack of
states decides where commas go, and a failed `assert` is `none`. The file is the list of
the tokens printed, each scalar being one.

A writer that has started an object stands at a position of a document
(`Writer.runs_iff_steps`): its stack holds the states of the open containers, innermost
first, and its output is what comes before the position.
-/

namespace NcclTests.Harness

open Json

/-- The bytes before the NUL. -/
abbrev CString := List Char

/-- `json_state_t`. -/
inductive JsonState
  /-- The pseudo-state of an empty stack. -/
  | none
  | key
  | objectEmpty
  | objectSome
  | listEmpty
  | listSome
  deriving DecidableEq, Repr

/-- What `sanitizeJson` puts after a backslash. -/
def escapeLetter (c : Char) : Char :=
  if c = '\n' then 'n' else if c = '\t' then 't' else c

/-- The loop of `sanitizeJson` with `c` characters stored: those it stores before the NUL,
and its result. -/
def sanitizeLoop (lim : Nat) (c : Nat) : CString → CString × Bool
  | [] => ([], true)
  | ch :: rest =>
    if c + 1 ≥ lim then ([], false)
    else if ch ∈ ['"', '\\', '/', '\t', '\n'] then
      if c + 2 > lim then ([], false)
      else
        let (out, ok) := sanitizeLoop lim (c + 2) rest
        ('\\' :: escapeLetter ch :: out, ok)
    -- a byte from 0x80 on is a negative `char`
    else if ch.toNat ≥ 0x7F ∨ ch.toNat ≤ 0x1F then ([], false)
    else
      let (out, ok) := sanitizeLoop lim (c + 1) rest
      (ch :: out, ok)

def sanitizeJson (lim : Nat) (text : CString) : CString × Bool := sanitizeLoop lim 0 text

/-- The string in the `tmp` of `jsonKey` and `jsonStr`. -/
def sanitized (text : CString) : CString := (sanitizeJson 2048 text).1

/-- `states`, from the top down, and what has been printed to `json_report_fp`. -/
structure Writer where
  states : List JsonState
  out : List Token
  deriving DecidableEq, Repr

namespace Writer

def initial : Writer := ⟨[], []⟩

def fprintf (w : Writer) (tokens : List Token) : Writer := { w with out := w.out ++ tokens }

/-! ## The stack of states -/

def jsonPushState (w : Writer) (state : JsonState) : Option Writer :=
  if state = .none then none else some { w with states := state :: w.states }

def jsonCurrState (w : Writer) : JsonState := w.states.headD .none

def jsonReplaceState (w : Writer) (state : JsonState) : Option Writer :=
  if state = .none ∨ w.states = [] then none
  else some { w with states := state :: w.states.tail }

def jsonPopState (w : Writer) : JsonState × Writer :=
  (w.states.headD .none, { w with states := w.states.tail })

/-! ## Keys and values -/

def jsonKey (w : Writer) (name : CString) : Option Writer := do
  let w ← match w.jsonCurrState with
    | .objectEmpty => w.jsonReplaceState .objectSome
    | .objectSome => some (w.fprintf [.comma])
    | _ => none
  (w.fprintf (keyTokens (sanitized name))).jsonPushState .key

def jsonValHelper (w : Writer) : Option Writer :=
  match w.jsonCurrState with
  | .listEmpty => w.jsonReplaceState .listSome
  | .listSome => some (w.fprintf [.comma])
  | .key => some w.jsonPopState.2
  | .none => some w
  | _ => none

def jsonStartObject (w : Writer) : Option Writer := do
  let w ← w.jsonValHelper
  (w.fprintf [.beginObject]).jsonPushState .objectEmpty

def jsonFinishObject (w : Writer) : Option Writer :=
  match w.jsonPopState with
  | (.objectEmpty, w) => some (w.fprintf [.endObject])
  | (.objectSome, w) => some (w.fprintf [.endObject])
  | _ => none

def jsonStartList (w : Writer) : Option Writer := do
  let w ← w.jsonValHelper
  (w.fprintf [.beginList]).jsonPushState .listEmpty

def jsonFinishList (w : Writer) : Option Writer :=
  match w.jsonPopState with
  | (.listEmpty, w) => some (w.fprintf [.endList])
  | (.listSome, w) => some (w.fprintf [.endList])
  | _ => none

/-- The scalar writers differ only in the token they print. -/
def jsonScalar (w : Writer) (s : Scalar) : Option Writer := do
  let w ← w.jsonValHelper
  some (w.fprintf [.scalar s])

def jsonNull (w : Writer) : Option Writer := w.jsonScalar (.literal "null".toList)

/-- `none` is a null pointer. -/
def jsonStr (w : Writer) : Option CString → Option Writer
  | none => w.jsonNull
  | some text => w.jsonScalar (.string (sanitized text))

def jsonBool (w : Writer) (val : Bool) : Option Writer :=
  w.jsonStr (some (if val then "true".toList else "false".toList))

def jsonInt (w : Writer) (val : Int) : Option Writer := w.jsonScalar (.literal (Printf.decimal val))

def jsonSize_t (w : Writer) (val : UInt64) : Option Writer :=
  w.jsonScalar (.literal (Printf.digits 10 val.toNat))

def jsonDouble (w : Writer) (val : BinaryFloat.Value) : Option Writer :=
  w.jsonScalar (if val = .nan then .string "nan".toList else .literal (Printf.longFloat val))

def jsonFinishCurrent (w : Writer) : Option Writer :=
  match w.jsonCurrState with
  | .key => w.jsonNull
  | .objectEmpty => w.jsonFinishObject
  | .objectSome => w.jsonFinishObject
  | .listEmpty => w.jsonFinishList
  | .listSome => w.jsonFinishList
  | .none => none

/-- The loop that closes what is open, for at most `fuel` turns. -/
def finishAll : Nat → Writer → Option Writer
  | 0, w => if w.states = [] then some w else none
  | fuel + 1, w => if w.states = [] then some w else w.jsonFinishCurrent >>= finishAll fuel

end Writer

/-! ## Operations -/

/-- A call of the writer. -/
inductive JsonOp
  | key (name : CString)
  | startObject
  | finishObject
  | startList
  | finishList
  | null
  | str (text : Option CString)
  | bool (val : Bool)
  | int (val : Int)
  | size_t (val : UInt64)
  | double (val : BinaryFloat.Value)
  deriving DecidableEq

namespace Writer

def step (w : Writer) : JsonOp → Option Writer
  | .key name => w.jsonKey name
  | .startObject => w.jsonStartObject
  | .finishObject => w.jsonFinishObject
  | .startList => w.jsonStartList
  | .finishList => w.jsonFinishList
  | .null => w.jsonNull
  | .str text => w.jsonStr text
  | .bool val => w.jsonBool val
  | .int val => w.jsonInt val
  | .size_t val => w.jsonSize_t val
  | .double val => w.jsonDouble val

/-- The calls run one after another, without a failed assertion and never emptying the
stack. -/
inductive Runs : Writer → List JsonOp → Writer → Prop
  | nil (w : Writer) : Runs w [] w
  | cons {w w' w'' : Writer} {op : JsonOp} {ops : List JsonOp} : w.step op = some w' →
    w'.states ≠ [] → Runs w' ops w'' → Runs w (op :: ops) w''

end Writer

/-! ## The writer at a position -/

/-- The scalar a value writer prints. -/
def strScalar : Option CString → Scalar
  | none => .literal "null".toList
  | some text => .string (sanitized text)

/-- What a call adds to the document. -/
def JsonOp.event : JsonOp → Event
  | .key name => .key (sanitized name)
  | .startObject => .beginObject
  | .finishObject => .endObject
  | .startList => .beginList
  | .finishList => .endList
  | .null => .scalar (.literal "null".toList)
  | .str text => .scalar (strScalar text)
  | .bool val => .scalar (strScalar (some (if val then "true".toList else "false".toList)))
  | .int val => .scalar (.literal (Printf.decimal val))
  | .size_t val => .scalar (.literal (Printf.digits 10 val.toNat))
  | .double val =>
    .scalar (if val = .nan then .string "nan".toList else .literal (Printf.longFloat val))

def contextState : Context → JsonState
  | .list _ => .listSome
  | .object _ _ => .objectSome

def focusStates : Focus → List JsonState
  | .elements [] => [.listEmpty]
  | .elements (_ :: _) => [.listSome]
  | .members [] => [.objectEmpty]
  | .members (_ :: _) => [.objectSome]
  | .key _ _ => [.key, .objectSome]

/-- A container that has been given a value is not empty. -/
theorem focusStates_fill (c : Context) (v : Value) :
    focusStates (c.fill v) = [contextState c] := by
  cases c with
  | list elements => cases elements <;> rfl
  | object members key => cases members <;> rfl

namespace Writer

/-- The writer at a position. -/
def at_ (p : Position) : Writer :=
  ⟨focusStates p.focus ++ p.contexts.map contextState, p.tokens⟩

/-- The writer where a value may start in the innermost of some containers. -/
def inside (contexts : List Context) : Writer :=
  ⟨contexts.map contextState, contexts.reverse.flatMap Context.tokens⟩

def of : Document → Writer
  | .complete v => ⟨[], v.tokens⟩
  | .ongoing p => at_ p

theorem at_states_ne_nil (p : Position) : (at_ p).states ≠ [] := by
  obtain ⟨f, contexts⟩ := p
  rcases f with before | before | ⟨before, name⟩
  · cases before <;> exact List.cons_ne_nil _ _
  · cases before <;> exact List.cons_ne_nil _ _
  · exact List.cons_ne_nil _ _

/-- `jsonValHelper` succeeds exactly where a value may start, and leaves the state of a
container that is not empty. -/
theorem jsonValHelper_at (p : Position) :
    (at_ p).jsonValHelper = p.focus.context?.map fun c => inside (c :: p.contexts) := by
  obtain ⟨f, contexts⟩ := p
  rcases f with before | before | ⟨before, name⟩
  · cases before with
    | nil => simp [at_, jsonValHelper, jsonCurrState, jsonReplaceState, focusStates, inside,
        Focus.context?, contextState, Position.tokens, Focus.tokens, Context.tokens, separator]
    | cons v before => simp [at_, jsonValHelper, jsonCurrState, focusStates, inside, fprintf,
        Focus.context?, contextState, Position.tokens, Focus.tokens, Context.tokens, separator]
  · cases before <;> rfl
  · simp [at_, jsonValHelper, jsonCurrState, jsonPopState, focusStates, inside,
      Focus.context?, contextState, Position.tokens, Focus.tokens]

theorem inside_scalar (c : Context) (contexts : List Context) (s : Scalar) :
    (inside (c :: contexts)).fprintf [.scalar s] = at_ ⟨c.fill (.scalar s), contexts⟩ := by
  simp [inside, fprintf, at_, focusStates_fill, Position.tokens_fill, Value.tokens]

theorem jsonScalar_at (p : Position) (s : Scalar) :
    (at_ p).jsonScalar s = (p.step (.scalar s)).map of := by
  unfold jsonScalar Position.step
  rw [jsonValHelper_at]
  cases p.focus.context? with
  | none => rfl
  | some c => exact congrArg some (inside_scalar c p.contexts s)

theorem jsonStartObject_at (p : Position) :
    (at_ p).jsonStartObject = (p.step .beginObject).map of := by
  unfold jsonStartObject Position.step
  rw [jsonValHelper_at]
  cases p.focus.context? with
  | none => rfl
  | some c => rfl

theorem jsonStartList_at (p : Position) :
    (at_ p).jsonStartList = (p.step .beginList).map of := by
  unfold jsonStartList Position.step
  rw [jsonValHelper_at]
  cases p.focus.context? with
  | none => rfl
  | some c => rfl

theorem jsonKey_at (p : Position) (name : CString) :
    (at_ p).jsonKey name = (p.step (.key (sanitized name))).map of := by
  obtain ⟨f, contexts⟩ := p
  rcases f with before | before | ⟨before, last⟩
  · cases before <;> rfl
  · cases before with
    | nil => simp [at_, jsonKey, jsonCurrState, jsonReplaceState, jsonPushState, focusStates,
        fprintf, of, Position.step, Position.tokens, Focus.tokens, Context.tokens, separator]
    | cons m before => simp [at_, jsonKey, jsonCurrState, jsonPushState, focusStates, fprintf, of,
        Position.step, Position.tokens, Focus.tokens, Context.tokens, separator]
  · rfl

/-- The writer once the innermost container has been closed. -/
theorem finish_eq (v : Value) (contexts : List Context) :
    of (Document.finish v contexts) =
      ⟨contexts.map contextState, contexts.reverse.flatMap Context.tokens ++ v.tokens⟩ := by
  cases contexts with
  | nil => rfl
  | cons c contexts =>
    simp [of, Document.finish, at_, focusStates_fill, Position.tokens_fill]

theorem jsonFinishObject_at (p : Position) :
    (at_ p).jsonFinishObject = (p.step .endObject).map of := by
  obtain ⟨f, contexts⟩ := p
  rcases f with before | before | ⟨before, name⟩
  · cases before <;> rfl
  · rw [Position.step, Option.map_some, finish_eq]
    cases before <;>
      simp [at_, jsonFinishObject, jsonPopState, focusStates, fprintf, Position.tokens,
        Focus.tokens, Value.tokens]
  · rfl

theorem jsonFinishList_at (p : Position) :
    (at_ p).jsonFinishList = (p.step .endList).map of := by
  obtain ⟨f, contexts⟩ := p
  rcases f with before | before | ⟨before, name⟩
  · rw [Position.step, Option.map_some, finish_eq]
    cases before <;>
      simp [at_, jsonFinishList, jsonPopState, focusStates, fprintf, Position.tokens,
        Focus.tokens, Value.tokens]
  · cases before <;> rfl
  · rfl

/-- At a position a call fails an assertion exactly where its event may not stand, and
otherwise takes the writer to the position after it. -/
theorem step_at (p : Position) (op : JsonOp) : (at_ p).step op = (p.step op.event).map of := by
  cases op with
  | key name => exact jsonKey_at p name
  | startObject => exact jsonStartObject_at p
  | finishObject => exact jsonFinishObject_at p
  | startList => exact jsonStartList_at p
  | finishList => exact jsonFinishList_at p
  | null => exact jsonScalar_at p _
  | str text => cases text <;> exact jsonScalar_at p _
  | bool val => exact jsonScalar_at p _
  | int val => exact jsonScalar_at p _
  | size_t val => exact jsonScalar_at p _
  | double val => exact jsonScalar_at p _

theorem runs_at {p : Position} {ops : List JsonOp} {w : Writer} :
    Runs (at_ p) ops w ↔ ∃ q, Position.steps (ops.map JsonOp.event) p = some q ∧ w = at_ q := by
  constructor
  · intro run
    induction ops generalizing p with
    | nil =>
      cases run
      exact ⟨p, rfl, rfl⟩
    | cons op ops ih =>
      cases run with
      | cons step_ open_ rest =>
        rw [step_at] at step_
        obtain ⟨document, event, rfl⟩ := Option.map_eq_some_iff.1 step_
        cases document with
        | complete v => exact absurd rfl open_
        | ongoing p' =>
          obtain ⟨q, steps, same⟩ := ih rest
          refine ⟨q, ?_, same⟩
          rw [List.map_cons, Position.steps, event]
          exact steps
  · rintro ⟨q, steps, rfl⟩
    induction ops generalizing p with
    | nil =>
      obtain rfl : p = q := Option.some.inj steps
      exact .nil _
    | cons op ops ih =>
      rw [List.map_cons, Position.steps] at steps
      split at steps
      · next p' event =>
        refine .cons ?_ (at_states_ne_nil p') (ih steps)
        rw [step_at, event]
        rfl
      · cases steps

/-- The position right after the first brace. -/
def start : Position := ⟨.members [], []⟩

theorem initial_step_startObject : initial.step .startObject = some (at_ start) := rfl

/-- The runs that start an object and keep something open are those of the positions of a
document. -/
theorem runs_iff_steps {ops : List JsonOp} {w : Writer} :
    Runs initial (.startObject :: ops) w ↔
      ∃ q, Position.steps (ops.map JsonOp.event) start = some q ∧ w = at_ q := by
  rw [← runs_at]
  constructor
  · intro run
    cases run with
    | cons step_ _ rest =>
      obtain rfl := Option.some.inj (initial_step_startObject.symm.trans step_)
      exact rest
  · exact .cons initial_step_startObject (at_states_ne_nil start)

/-! ## The closing loop -/

theorem jsonFinishCurrent_elements (before : List Value) (contexts : List Context) :
    (at_ ⟨.elements before, contexts⟩).jsonFinishCurrent =
      some (of (.finish (.list before) contexts)) := by
  have same : (at_ ⟨.elements before, contexts⟩).jsonFinishCurrent =
      (at_ ⟨.elements before, contexts⟩).jsonFinishList := by
    cases before <;> rfl
  rw [same, jsonFinishList_at]
  rfl

theorem jsonFinishCurrent_members (before : List Member) (contexts : List Context) :
    (at_ ⟨.members before, contexts⟩).jsonFinishCurrent =
      some (of (.finish (.object before) contexts)) := by
  have same : (at_ ⟨.members before, contexts⟩).jsonFinishCurrent =
      (at_ ⟨.members before, contexts⟩).jsonFinishObject := by
    cases before <;> rfl
  rw [same, jsonFinishObject_at]
  rfl

theorem jsonFinishCurrent_key (before : List Member) (name : List Char)
    (contexts : List Context) :
    (at_ ⟨.key before name, contexts⟩).jsonFinishCurrent =
      some (at_ ⟨.members (before ++ [(name, .null)]), contexts⟩) :=
  jsonScalar_at ⟨.key before name, contexts⟩ _

theorem finish_states_length (v : Value) (contexts : List Context) :
    (of (.finish v contexts)).states.length = contexts.length := by
  rw [finish_eq, List.length_map]

/-- A turn of the loop closes the innermost container, or gives a key its `null`; the
document it works towards stays the same. -/
theorem jsonFinishCurrent_at (p : Position) :
    ∃ d : Document, (at_ p).jsonFinishCurrent = some (of d) ∧ d.value = p.document ∧
      (of d).states.length < (at_ p).states.length := by
  obtain ⟨f, contexts⟩ := p
  rcases f with before | before | ⟨before, name⟩
  · refine ⟨_, jsonFinishCurrent_elements before contexts,
      Document.value_finish (.elements before) contexts, ?_⟩
    rw [finish_states_length]
    cases before <;> simp [at_, focusStates]
  · refine ⟨_, jsonFinishCurrent_members before contexts,
      Document.value_finish (.members before) contexts, ?_⟩
    rw [finish_states_length]
    cases before <;> simp [at_, focusStates]
  · refine ⟨.ongoing _, jsonFinishCurrent_key before name contexts,
      Position.close_congr (f := .members _) (g := .key before name) rfl contexts, ?_⟩
    cases before <;> simp [of, at_, focusStates]

/-- The loop ends, whatever is open, with the document that closes it all. -/
theorem finishAll_at {p : Position} {fuel : Nat} (enough : (at_ p).states.length ≤ fuel) :
    finishAll fuel (at_ p) = some ⟨[], p.document.tokens⟩ := by
  induction fuel generalizing p with
  | zero => exact absurd (List.length_eq_zero_iff.1 (Nat.le_zero.1 enough)) (at_states_ne_nil p)
  | succ fuel ih =>
    obtain ⟨d, turn, same, shorter⟩ := jsonFinishCurrent_at p
    rw [finishAll, if_neg (at_states_ne_nil p), turn, Option.bind_eq_bind, Option.bind_some, ← same]
    cases d with
    | complete v => cases fuel <;> rfl
    | ongoing q => exact ih (Nat.le_of_lt_succ (shorter.trans_le enough))

end Writer

/-- **Half an object can be closed at any time.** Whatever sequence of calls starts an object, fails
no assertion and never empties the stack (`runs`): what it has printed is a proper prefix of an
object, and from there the closing loop ends without a failed assertion, empties the stack and
leaves exactly one object.

The stack says how the text goes on: each open list or object has a shortest completion, which the
loop prints from the innermost outwards, and a key without a value is given `null`. -/
theorem jsonWriter_wellFormed (ops : List JsonOp) (w : Writer)
    (runs : Writer.Runs .initial (.startObject :: ops) w) :
    (∃ members rest, rest ≠ [] ∧ w.out ++ rest = (Value.object members).tokens) ∧
    ∀ fuel, w.states.length ≤ fuel → ∃ w', w.finishAll fuel = some w' ∧ w'.states = [] ∧
      ∃ members, w'.out = (Value.object members).tokens := by
  obtain ⟨p, steps, rfl⟩ := Writer.runs_iff_steps.1 runs
  obtain ⟨members, object⟩ : ∃ members, p.document = .object members :=
    Value.isObject_iff.1 (Position.isObject_steps steps)
  refine ⟨⟨members, p.closing, p.closing_ne_nil, ?_⟩, fun fuel enough => ?_⟩
  · rw [← object]
    exact p.tokens_closing
  · exact ⟨_, Writer.finishAll_at enough, rfl, members, congrArg Value.tokens object⟩

/-- A run cut right after a key inside a list. -/
theorem jsonWriter_wellFormed_key :
    let p : Position := ⟨.key [] (sanitized "rank".toList),
      [.list [], .object [] (sanitized "devices".toList)]⟩
    (∃ members rest, rest ≠ [] ∧ (Writer.at_ p).out ++ rest = (Value.object members).tokens) ∧
    ∀ fuel, (Writer.at_ p).states.length ≤ fuel →
      ∃ w', (Writer.at_ p).finishAll fuel = some w' ∧ w'.states = [] ∧
        ∃ members, w'.out = (Value.object members).tokens :=
  jsonWriter_wellFormed
    [.key "devices".toList, .startList, .startObject, .key "rank".toList] _
    (Writer.runs_iff_steps.2 ⟨_, rfl, rfl⟩)

end NcclTests.Harness
