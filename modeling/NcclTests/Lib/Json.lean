import Mathlib

/-!
# Documents written from left to right

Values and their tokens, commas and colons included, and the places inside a document
where a writer can stand: the innermost open container (`Focus`) and the containers
around it (`Context`), as in a zipper. The tokens before a position are a proper prefix
of those of the document that closing every container yields (`Position.tokens_close`).

Objects keep the order of their members, and repeated keys.
-/

namespace Json

inductive Scalar
  /-- What stands between the quotes. -/
  | string (body : List Char)
  /-- A number or `null`. -/
  | literal (text : List Char)
  deriving DecidableEq, Repr

inductive Token
  | beginObject
  | endObject
  | beginList
  | endList
  | comma
  | colon
  | scalar (s : Scalar)
  deriving DecidableEq, Repr

inductive Value
  | scalar (s : Scalar)
  | list (elements : List Value)
  | object (members : List (List Char × Value))

/-- A member of an object. -/
abbrev Member := List Char × Value

def Value.null : Value := .scalar (.literal "null".toList)

def Value.isObject : Value → Bool
  | .object _ => true
  | _ => false

theorem Value.isObject_iff {v : Value} : v.isObject ↔ ∃ members, v = .object members := by
  cases v <;> simp [Value.isObject]

/-! ## Tokens -/

/-- The parts with a comma between any two. -/
def separated (parts : List (List Token)) : List Token := [Token.comma].intercalate parts

/-- The comma before the next part. -/
def separator : List α → List Token
  | [] => []
  | _ :: _ => [.comma]

def keyTokens (key : List Char) : List Token := [.scalar (.string key), .colon]

mutual

def Value.tokens : Value → List Token
  | .scalar s => [.scalar s]
  | .list elements => .beginList :: (separated (listTokens elements) ++ [.endList])
  | .object members => .beginObject :: (separated (objectTokens members) ++ [.endObject])

/-- The tokens of each element. -/
def listTokens : List Value → List (List Token)
  | [] => []
  | v :: elements => v.tokens :: listTokens elements

/-- The tokens of each member. -/
def objectTokens : List (List Char × Value) → List (List Token)
  | [] => []
  | m :: members => memberTokens m :: objectTokens members

def memberTokens : List Char × Value → List Token
  | (key, v) => keyTokens key ++ v.tokens

end

theorem listTokens_eq_map (elements : List Value) :
    listTokens elements = elements.map Value.tokens := by
  induction elements with
  | nil => rfl
  | cons v elements ih => rw [listTokens, ih, List.map_cons]

theorem objectTokens_eq_map (members : List Member) :
    objectTokens members = members.map memberTokens := by
  induction members with
  | nil => rfl
  | cons m members ih => rw [objectTokens, ih, List.map_cons]

theorem separated_cons_cons (first second : List Token) (rest : List (List Token)) :
    separated (first :: second :: rest) = first ++ .comma :: separated (second :: rest) := by
  simp [separated, List.intercalate_cons_cons]

theorem separated_concat (parts : List (List Token)) (last : List Token) :
    separated (parts ++ [last]) = separated parts ++ separator parts ++ last := by
  induction parts with
  | nil => simp [separated, separator]
  | cons first parts ih =>
    cases parts with
    | nil => simp [separated, separator]
    | cons second parts =>
      rw [List.cons_append, List.cons_append, separated_cons_cons, ← List.cons_append, ih,
        separated_cons_cons]
      simp [separator]

theorem separator_map (f : α → β) (xs : List α) : separator (xs.map f) = separator xs := by
  cases xs <;> rfl

theorem separated_listTokens_concat (elements : List Value) (v : Value) :
    separated (listTokens (elements ++ [v])) =
      separated (listTokens elements) ++ separator elements ++ v.tokens := by
  rw [listTokens_eq_map, listTokens_eq_map, List.map_append, List.map_singleton,
    separated_concat, separator_map]

theorem separated_objectTokens_concat (members : List Member) (m : Member) :
    separated (objectTokens (members ++ [m])) =
      separated (objectTokens members) ++ separator members ++ memberTokens m := by
  rw [objectTokens_eq_map, objectTokens_eq_map, List.map_append, List.map_singleton,
    separated_concat, separator_map]

/-- One more member adds its own scalars. -/
theorem scalar_mem_object_concat {members : List Member} {m : Member} {s : Scalar} :
    .scalar s ∈ (Value.object (members ++ [m])).tokens ↔
      .scalar s ∈ (Value.object members).tokens ∨ .scalar s ∈ memberTokens m := by
  have commas : Token.scalar s ∉ separator members := by
    cases members <;> simp [separator]
  simp [Value.tokens, separated_objectTokens_concat, commas]

/-! ## Positions in a document -/

/-- A container with a value of it not complete. -/
inductive Context
  | list (elements : List Value)
  | object (members : List Member) (key : List Char)

/-- The innermost open container, up to the place reached. -/
inductive Focus
  | elements (before : List Value)
  | members (before : List Member)
  /-- After a key. -/
  | key (before : List Member) (name : List Char)

/-- The contexts stand from the inside out. -/
structure Position where
  focus : Focus
  contexts : List Context

inductive Document
  | complete (v : Value)
  | ongoing (p : Position)

namespace Context

def tokens : Context → List Token
  | .list elements => .beginList :: (separated (listTokens elements) ++ separator elements)
  | .object members key =>
    .beginObject :: (separated (objectTokens members) ++ separator members ++ keyTokens key)

/-- The container with `v` as the value. -/
def fill : Context → Value → Focus
  | .list elements, v => .elements (elements ++ [v])
  | .object members key, v => .members (members ++ [(key, v)])

def closing : Context → Token
  | .list _ => .endList
  | .object _ _ => .endObject

end Context

namespace Focus

def tokens : Focus → List Token
  | .elements before => .beginList :: separated (listTokens before)
  | .members before => .beginObject :: separated (objectTokens before)
  | .key before name => (Context.object before name).tokens

/-- The context of a value that starts here, where one may. -/
def context? : Focus → Option Context
  | .elements before => some (.list before)
  | .members _ => none
  | .key before name => some (.object before name)

/-- The container, closed here; a key gets `null`. -/
def value : Focus → Value
  | .elements before => .list before
  | .members before => .object before
  | .key before name => .object (before ++ [(name, .null)])

def closing : Focus → List Token
  | .elements _ => [.endList]
  | .members _ => [.endObject]
  | .key _ _ => Value.null.tokens ++ [.endObject]

theorem tokens_closing (f : Focus) : f.tokens ++ f.closing = f.value.tokens := by
  cases f with
  | elements before => simp [tokens, closing, value, Value.tokens]
  | members before => simp [tokens, closing, value, Value.tokens]
  | key before name =>
    simp [tokens, Context.tokens, closing, value, Value.tokens, separated_objectTokens_concat,
      memberTokens]

end Focus

namespace Context

theorem fill_tokens (c : Context) (v : Value) : (c.fill v).tokens = c.tokens ++ v.tokens := by
  cases c with
  | list elements => simp [fill, Focus.tokens, tokens, separated_listTokens_concat]
  | object members key =>
    simp [fill, Focus.tokens, tokens, separated_objectTokens_concat, memberTokens]

theorem fill_closing (c : Context) (v : Value) : (c.fill v).closing = [c.closing] := by
  cases c <;> rfl

end Context

namespace Position

variable (p : Position)

/-- What has been written. -/
def tokens : List Token := p.contexts.reverse.flatMap Context.tokens ++ p.focus.tokens

/-- What closes all containers. -/
def closing : List Token := p.focus.closing ++ p.contexts.map Context.closing

/-- The document with all containers closed. -/
def close : Focus → List Context → Value
  | f, [] => f.value
  | f, c :: contexts => close (c.fill f.value) contexts

def document : Value := close p.focus p.contexts

theorem close_congr {f g : Focus} (same : f.value = g.value) (contexts : List Context) :
    close f contexts = close g contexts := by
  cases contexts with
  | nil => exact same
  | cons c contexts => rw [close, close, same]

theorem tokens_fill (c : Context) (contexts : List Context) (v : Value) :
    tokens ⟨c.fill v, contexts⟩ =
      contexts.reverse.flatMap Context.tokens ++ c.tokens ++ v.tokens := by
  rw [tokens, Context.fill_tokens, List.append_assoc]

theorem tokens_closing : p.tokens ++ p.closing = p.document.tokens := by
  obtain ⟨f, contexts⟩ := p
  induction contexts generalizing f with
  | nil => simpa [tokens, closing, document, close] using f.tokens_closing
  | cons c contexts ih =>
    calc tokens ⟨f, c :: contexts⟩ ++ closing ⟨f, c :: contexts⟩
        = contexts.reverse.flatMap Context.tokens ++ c.tokens ++ (f.tokens ++ f.closing) ++
            c.closing :: contexts.map Context.closing := by simp [tokens, closing]
      _ = tokens ⟨c.fill f.value, contexts⟩ ++ closing ⟨c.fill f.value, contexts⟩ := by
          rw [f.tokens_closing, tokens_fill, closing, Context.fill_closing]
          rfl
      _ = (document ⟨f, c :: contexts⟩).tokens := ih _

theorem closing_ne_nil : p.closing ≠ [] := by
  obtain ⟨f, contexts⟩ := p
  cases f <;> simp [closing, Focus.closing]

/-- All that closing writes besides brackets is the value of a key that has none. -/
theorem scalar_mem_closing {s : Scalar} (mem : .scalar s ∈ p.closing) :
    s = .literal "null".toList := by
  obtain ⟨f, contexts⟩ := p
  have around : Token.scalar s ∉ contexts.map Context.closing := by
    intro inside
    obtain ⟨c, _, same⟩ := List.mem_map.1 inside
    cases c <;> cases same
  cases f with
  | elements before => simp [closing, Focus.closing, around] at mem
  | members before => simp [closing, Focus.closing, around] at mem
  | key before name =>
    simpa [closing, Focus.closing, Value.null, Value.tokens, around] using mem

end Position

/-! ## Events -/

inductive Event
  | key (name : List Char)
  | scalar (s : Scalar)
  | beginObject
  | endObject
  | beginList
  | endList
  deriving DecidableEq, Repr

namespace Document

/-- The document once `v` is complete. -/
def finish (v : Value) : List Context → Document
  | [] => .complete v
  | c :: contexts => .ongoing ⟨c.fill v, contexts⟩

/-- The document with all containers closed. -/
def value : Document → Value
  | .complete v => v
  | .ongoing p => p.document

theorem value_finish (f : Focus) (contexts : List Context) :
    (finish f.value contexts).value = Position.close f contexts := by
  cases contexts <;> rfl

end Document

namespace Position

/-- The document after an event, where the event may stand. -/
def step (p : Position) : Event → Option Document
  | .key name =>
    match p.focus with
    | .members before => some (.ongoing ⟨.key before name, p.contexts⟩)
    | _ => none
  | .scalar s => p.focus.context?.map fun c => .ongoing ⟨c.fill (.scalar s), p.contexts⟩
  | .beginObject => p.focus.context?.map fun c => .ongoing ⟨.members [], c :: p.contexts⟩
  | .endObject =>
    match p.focus with
    | .members before => some (Document.finish (.object before) p.contexts)
    | _ => none
  | .beginList => p.focus.context?.map fun c => .ongoing ⟨.elements [], c :: p.contexts⟩
  | .endList =>
    match p.focus with
    | .elements before => some (Document.finish (.list before) p.contexts)
    | _ => none

/-- The position after some events that never complete the document. -/
def steps : List Event → Position → Option Position
  | [], p => some p
  | e :: events, p =>
    match p.step e with
    | some (.ongoing p') => steps events p'
    | _ => none

theorem steps_append (events more : List Event) (p : Position) :
    steps (events ++ more) p = (steps events p).bind (steps more) := by
  induction events generalizing p with
  | nil => rfl
  | cons e events ih =>
    rw [List.cons_append, steps, steps]
    split
    · exact ih _
    · rfl

theorem steps_trans {events more : List Event} {p q r : Position}
    (first : steps events p = some q) (rest : steps more q = some r) :
    steps (events ++ more) p = some r := by
  rw [steps_append, first, Option.bind_some, rest]

/-- What a run of events reaches goes through every prefix of it. -/
theorem exists_of_steps_append {events more : List Event} {p r : Position}
    (run : steps (events ++ more) p = some r) : ∃ q, steps events p = some q := by
  rw [steps_append] at run
  obtain ⟨q, first, _⟩ := Option.bind_eq_some_iff.1 run
  exact ⟨q, first⟩

/-! ### The outermost container -/

theorem isObject_fill (c : Context) (v w : Value) :
    (c.fill v).value.isObject = (c.fill w).value.isObject := by
  cases c <;> rfl

theorem isObject_context {f : Focus} {c : Context} (starts : f.context? = some c) (v : Value) :
    (c.fill v).value.isObject = f.value.isObject := by
  cases f with
  | members before => cases starts
  | _ =>
    obtain rfl : _ = c := Option.some.inj starts
    rfl

theorem isObject_close {f g : Focus} (same : f.value.isObject = g.value.isObject)
    (contexts : List Context) :
    (close f contexts).isObject = (close g contexts).isObject := by
  induction contexts generalizing f g with
  | nil => exact same
  | cons c contexts ih => exact ih (isObject_fill c _ _)

theorem isObject_finish {f : Focus} {v : Value} {contexts : List Context} {p : Position}
    (open_ : Document.finish v contexts = .ongoing p) :
    p.document.isObject = (close f contexts).isObject := by
  cases contexts with
  | nil => cases open_
  | cons c contexts =>
    obtain rfl : _ = p := Document.ongoing.inj open_
    exact isObject_close (isObject_fill c _ _) contexts

/-- Events leave the outermost container what it is. -/
theorem isObject_step {p q : Position} {e : Event} (step_ : p.step e = some (.ongoing q)) :
    q.document.isObject = p.document.isObject := by
  obtain ⟨f, contexts⟩ := p
  have value {c : Context} (starts : f.context? = some c) (v : Value) :
      (close (c.fill v) contexts).isObject = (close f contexts).isObject :=
    isObject_close (isObject_context starts v) contexts
  cases e with
  | key name =>
    cases f with
    | members before =>
      obtain rfl := Document.ongoing.inj (Option.some.inj step_)
      exact isObject_close (f := .key before name) (g := .members before) rfl contexts
    | elements before => cases step_
    | key before name => cases step_
  | endObject =>
    cases f with
    | members before => exact isObject_finish (Option.some.inj step_)
    | elements before => cases step_
    | key before name => cases step_
  | endList =>
    cases f with
    | elements before => exact isObject_finish (Option.some.inj step_)
    | members before => cases step_
    | key before name => cases step_
  | scalar s =>
    obtain ⟨c, starts, next⟩ := Option.map_eq_some_iff.1 step_
    obtain rfl := Document.ongoing.inj next
    exact value starts _
  | beginObject =>
    obtain ⟨c, starts, next⟩ := Option.map_eq_some_iff.1 step_
    obtain rfl := Document.ongoing.inj next
    exact value starts _
  | beginList =>
    obtain ⟨c, starts, next⟩ := Option.map_eq_some_iff.1 step_
    obtain rfl := Document.ongoing.inj next
    exact value starts _

theorem isObject_steps {events : List Event} {p q : Position}
    (run : steps events p = some q) : q.document.isObject = p.document.isObject := by
  induction events generalizing p with
  | nil =>
    obtain rfl : p = q := Option.some.inj run
    rfl
  | cons e events ih =>
    rw [steps] at run
    split at run
    · next p' event => rw [ih run, isObject_step event]
    · cases run

end Position

/-! ## Events that write a value -/

open Position

/-- The events write `v` wherever a value may start. -/
def Writes (events : List Event) (v : Value) : Prop :=
  ∀ (f : Focus) (contexts : List Context) (c : Context), f.context? = some c →
    steps events ⟨f, contexts⟩ = some ⟨c.fill v, contexts⟩

/-- The events add `members` to an object. -/
def AddsMembers (events : List Event) (members : List Member) : Prop :=
  ∀ (before : List Member) (contexts : List Context),
    steps events ⟨.members before, contexts⟩ = some ⟨.members (before ++ members), contexts⟩

/-- The events add `elements` to a list. -/
def AddsElements (events : List Event) (elements : List Value) : Prop :=
  ∀ (before : List Value) (contexts : List Context),
    steps events ⟨.elements before, contexts⟩ = some ⟨.elements (before ++ elements), contexts⟩

theorem Writes.scalar (s : Scalar) : Writes [.scalar s] (.scalar s) := by
  intro f contexts c starts
  simp [steps, step, starts]

theorem AddsMembers.nil : AddsMembers [] [] := by
  intro before contexts
  rw [steps, List.append_nil]

theorem AddsElements.nil : AddsElements [] [] := by
  intro before contexts
  rw [steps, List.append_nil]

theorem AddsMembers.append {events more : List Event} {members others : List Member}
    (first : AddsMembers events members) (rest : AddsMembers more others) :
    AddsMembers (events ++ more) (members ++ others) := by
  intro before contexts
  rw [← List.append_assoc]
  exact steps_trans (first _ _) (rest _ _)

theorem AddsElements.append {events more : List Event} {elements others : List Value}
    (first : AddsElements events elements) (rest : AddsElements more others) :
    AddsElements (events ++ more) (elements ++ others) := by
  intro before contexts
  rw [← List.append_assoc]
  exact steps_trans (first _ _) (rest _ _)

theorem Writes.member {events : List Event} {v : Value} (value : Writes events v)
    (name : List Char) : AddsMembers (.key name :: events) [(name, v)] :=
  fun before contexts => value (.key before name) contexts (.object before name) rfl

theorem Writes.element {events : List Event} {v : Value} (value : Writes events v) :
    AddsElements events [v] :=
  fun before contexts => value (.elements before) contexts (.list before) rfl

theorem AddsMembers.writes {events : List Event} {members : List Member}
    (adds : AddsMembers events members) :
    Writes (.beginObject :: (events ++ [.endObject])) (.object members) := by
  intro f contexts c starts
  have inside := adds [] (c :: contexts)
  have close : steps [.endObject] ⟨.members ([] ++ members), c :: contexts⟩ =
      some ⟨c.fill (.object members), contexts⟩ := rfl
  simpa [steps, step, starts] using steps_trans inside close

theorem AddsElements.writes {events : List Event} {elements : List Value}
    (adds : AddsElements events elements) :
    Writes (.beginList :: (events ++ [.endList])) (.list elements) := by
  intro f contexts c starts
  have inside := adds [] (c :: contexts)
  have close : steps [.endList] ⟨.elements ([] ++ elements), c :: contexts⟩ =
      some ⟨c.fill (.list elements), contexts⟩ := rfl
  simpa [steps, step, starts] using steps_trans inside close

/-- A loop whose turns write one element each. -/
theorem AddsElements.flatMap {events : α → List Event} {v : α → Value}
    (each : ∀ x, Writes (events x) (v x)) (xs : List α) :
    AddsElements (xs.flatMap events) (xs.map v) := by
  induction xs with
  | nil => exact .nil
  | cons x xs ih =>
    rw [List.flatMap_cons, List.map_cons]
    exact (each x).element.append ih

/-! ## What stands between the quotes -/

/-- The character that the escape of two characters with this letter stands for. -/
def unescapeLetter : Char → Option Char
  | '"' => some '"'
  | '\\' => some '\\'
  | '/' => some '/'
  | 'b' => some '\x08'
  | 'f' => some '\x0c'
  | 'n' => some '\n'
  | 'r' => some '\r'
  | 't' => some '\t'
  | _ => none

/-- Printable ASCII. -/
def IsPrintable (ch : Char) : Prop := 0x20 ≤ ch.toNat ∧ ch.toNat ≤ 0x7E

/-- The bodies in printable ASCII whose escapes have two characters. -/
inductive StringBody : List Char → Prop
  | nil : StringBody []
  | plain {ch : Char} {rest : List Char} (printable : IsPrintable ch) (no_quote : ch ≠ '"')
      (no_backslash : ch ≠ '\\') (body : StringBody rest) : StringBody (ch :: rest)
  | escape {letter : Char} {rest : List Char} (known : (unescapeLetter letter).isSome)
      (body : StringBody rest) : StringBody ('\\' :: letter :: rest)

/-- The text of a body, where it is one. -/
def unescape : List Char → Option (List Char)
  | [] => some []
  | '\\' :: letter :: rest =>
    (unescapeLetter letter).bind fun ch => (unescape rest).map (ch :: ·)
  | ch :: rest =>
    if ch = '"' ∨ ch = '\\' ∨ ¬ 0x20 ≤ ch.toNat then none
    else (unescape rest).map (ch :: ·)

theorem unescape_cons_plain {ch : Char} {rest : List Char} (printable : IsPrintable ch)
    (no_quote : ch ≠ '"') (no_backslash : ch ≠ '\\') :
    unescape (ch :: rest) = (unescape rest).map (ch :: ·) := by
  rw [unescape]
  · rw [if_neg]
    rintro (quote | backslash | hidden)
    · exact no_quote quote
    · exact no_backslash backslash
    · exact hidden printable.1
  · rintro letter rest rfl _
    exact no_backslash rfl

theorem unescape_cons_escape {letter ch : Char} {rest : List Char}
    (known : unescapeLetter letter = some ch) :
    unescape ('\\' :: letter :: rest) = (unescape rest).map (ch :: ·) := by
  rw [unescape, known, Option.bind_some]

end Json
