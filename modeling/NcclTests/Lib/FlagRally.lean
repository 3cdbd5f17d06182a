import Mathlib

/-!
# A rally of flags in memory

Two parties copy their buffers into each other's in turn. The last element of what is copied
is the flag: the server sets it to a positive value and the client, who spins on it, answers
with the negative one. A spin sees a value and nothing else. That it was put there by the other
party in the same round, and by no earlier round with the same value, is what is to be shown.

A put takes its values any time after it is issued and delivers all of them at once, any time
later. An element remembers, for the statements only, the put that wrote it.

* `Midway.step`: what can happen in each stage of a round;
* `Run.begins`: the puts and spins of a run are those of its rounds, in their order;
* `exists_finished`: some run goes through all of them.
-/

namespace FlagRally

/-- A put, by who issues it and in which turn. -/
structure Put (ι τ : Type*) where
  src : ι
  turn : τ
  deriving DecidableEq

/-- An element and the put that wrote it, if it was a put. -/
structure Cell (ι τ : Type*) where
  value : Int
  writer : Option (Put ι τ)

/-- What a party does; `pass` has no part in the rally. -/
inductive Op (ι τ : Type*)
  | store (index : Nat) (value : Int)
  | put (dst : ι) (size : Nat) (turn : τ)
  | spin (index : Nat) (value : Int) (turn : τ)
  | pass

/-- A put under way, with its values once it has taken them. -/
structure Transfer (ι τ : Type*) where
  put : Put ι τ
  dst : ι
  size : Nat
  values : Option (Nat → Int)

structure State (ι τ : Type*) where
  rest : ι → List (Op ι τ)
  buffer : ι → Nat → Cell ι τ
  inFlight : Multiset (Transfer ι τ)

inductive Event (ι τ : Type*)
  | put (put : Put ι τ)
  | spun (i : ι) (turn : τ) (writer : Option (Put ι τ))
  deriving DecidableEq

variable {ι τ : Type*}

/-! ## Semantics -/

namespace Op

/-- A spin ends on its value. -/
def Ready (buffer : Nat → Cell ι τ) : Op ι τ → Prop
  | spin index value _ => (buffer index).value = value
  | _ => True

def events (i : ι) (buffer : Nat → Cell ι τ) : Op ι τ → List (Event ι τ)
  | put _ _ turn => [.put ⟨i, turn⟩]
  | spin index _ turn => [.spun i turn (buffer index).writer]
  | _ => []

/-- The own buffer after an operation. -/
def writes (buffer : Nat → Cell ι τ) : Op ι τ → Nat → Cell ι τ
  | store index value => Function.update buffer index ⟨value, none⟩
  | _ => buffer

def transfers (i : ι) : Op ι τ → Multiset (Transfer ι τ)
  | put dst size turn => {⟨⟨i, turn⟩, dst, size, none⟩}
  | _ => 0

end Op

namespace Transfer

/-- The put has taken its values. -/
def fetched (transfer : Transfer ι τ) (buffer : Nat → Cell ι τ) : Transfer ι τ :=
  { transfer with values := some fun index => (buffer index).value }

/-- The buffer that it is delivered to. -/
def delivered (transfer : Transfer ι τ) (values : Nat → Int) (buffer : Nat → Cell ι τ) :
    Nat → Cell ι τ :=
  fun index => if index < transfer.size then ⟨values index, some transfer.put⟩ else buffer index

end Transfer

section Semantics

variable [DecidableEq ι]

inductive Step : State ι τ → List (Event ι τ) → State ι τ → Prop
  | perform {s : State ι τ} {i : ι} {op : Op ι τ} {rest : List (Op ι τ)}
      (head : s.rest i = op :: rest) (ready : op.Ready (s.buffer i)) :
      Step s (op.events i (s.buffer i))
        ⟨Function.update s.rest i rest, Function.update s.buffer i (op.writes (s.buffer i)),
          op.transfers i + s.inFlight⟩
  | fetch {s : State ι τ} {transfer : Transfer ι τ} {inFlight : Multiset (Transfer ι τ)}
      (sent : s.inFlight = transfer ::ₘ inFlight) :
      Step s []
        { s with inFlight := transfer.fetched (s.buffer transfer.put.src) ::ₘ inFlight }
  | deliver {s : State ι τ} {transfer : Transfer ι τ} {inFlight : Multiset (Transfer ι τ)}
      {values : Nat → Int} (sent : s.inFlight = transfer ::ₘ inFlight)
      (taken : transfer.values = some values) :
      Step s []
        ⟨s.rest, Function.update s.buffer transfer.dst
          (transfer.delivered values (s.buffer transfer.dst)), inFlight⟩

/-- A run with its events, the oldest first. -/
inductive Run (start : State ι τ) : List (Event ι τ) → State ι τ → Prop
  | init : Run start [] start
  | step {trace events : List (Event ι τ)} {s t : State ι τ} (run : Run start trace s)
      (step : Step s events t) : Run start (trace ++ events) t

end Semantics

/-! ## Without passes -/

def Op.isPass : Op ι τ → Bool
  | pass => true
  | _ => false

def strip (ops : List (Op ι τ)) : List (Op ι τ) := ops.filter fun op => !op.isPass

def State.strip (s : State ι τ) : State ι τ :=
  { s with rest := fun i => FlagRally.strip (s.rest i) }

theorem strip_append (ops ops' : List (Op ι τ)) : strip (ops ++ ops') = strip ops ++ strip ops' :=
  List.filter_append ..

section Strip

variable [DecidableEq ι]

theorem State.strip_update (s : State ι τ) (i : ι) (rest : List (Op ι τ))
    (buffer : ι → Nat → Cell ι τ) (inFlight : Multiset (Transfer ι τ)) :
    State.strip ⟨Function.update s.rest i rest, buffer, inFlight⟩ =
      ⟨Function.update s.strip.rest i (FlagRally.strip rest), buffer, inFlight⟩ := by
  rw [State.strip, State.mk.injEq]
  refine ⟨?_, rfl, rfl⟩
  funext j
  dsimp only
  by_cases same : j = i
  · subst same
    rw [Function.update_self, Function.update_self]
  · rw [Function.update_of_ne same, Function.update_of_ne same, State.strip]

/-- Passes change nothing. -/
theorem Step.strip {s t : State ι τ} {events : List (Event ι τ)} (step : Step s events t) :
    Step s.strip events t.strip ∨ events = [] ∧ t.strip = s.strip := by
  cases step with
  | @perform i op rest head ready =>
    have stripped : s.strip.rest i = FlagRally.strip (op :: rest) := congrArg FlagRally.strip head
    rw [State.strip_update]
    cases op with
    | pass =>
      right
      refine ⟨rfl, ?_⟩
      have unchanged : Function.update s.strip.rest i (FlagRally.strip rest) = s.strip.rest := by
        rw [Function.update_eq_self_iff, stripped]
        rfl
      rw [unchanged]
      simp only [Op.writes, Op.transfers, Function.update_eq_self, zero_add]
      rfl
    | store | put | spin => exact .inl (Step.perform (s := s.strip) stripped ready)
  | fetch sent => exact .inl (Step.fetch (s := s.strip) sent)
  | deliver sent taken => exact .inl (Step.deliver (s := s.strip) sent taken)

end Strip

/-! ## With more to come -/

/-- The state with operations behind those that are left. -/
def State.append (s : State ι τ) (ahead : ι → List (Op ι τ)) : State ι τ :=
  { s with rest := fun i => s.rest i ++ ahead i }

/-- What comes later does not matter now. -/
theorem Step.append [DecidableEq ι] {s t : State ι τ} {events : List (Event ι τ)}
    (step : Step s events t) (ahead : ι → List (Op ι τ)) :
    Step (s.append ahead) events (t.append ahead) := by
  cases step with
  | @perform i op rest head ready =>
    have longer : (fun j => Function.update s.rest i rest j ++ ahead j) =
        Function.update (s.append ahead).rest i (rest ++ ahead i) := by
      funext j
      by_cases same : j = i
      · subst same
        rw [Function.update_self, Function.update_self]
      · rw [Function.update_of_ne same, Function.update_of_ne same, State.append]
    have first : (s.append ahead).rest i = op :: (rest ++ ahead i) := by
      rw [← List.cons_append, ← head]
      rfl
    have moved := Step.perform (s := s.append ahead) first ready
    rwa [← longer] at moved
  | fetch sent => exact Step.fetch (s := s.append ahead) sent
  | deliver sent taken => exact Step.deliver (s := s.append ahead) sent taken

/-! ## The rounds -/

/-- Who begins and who answers. -/
structure Sides (ι : Type*) where
  server : ι
  client : ι
  apart : server ≠ client
  total : ∀ i, i = server ∨ i = client

/-- What the two exchange in a turn: buffers whose last element is the flag, and a number that
tells the turn from others of its kind. -/
structure Round (τ : Type*) where
  flag : Nat
  number : Nat
  turn : τ

namespace Round

variable (r : Round τ)

def size : Nat := r.flag + 1

/-- What the server sets the flag to. -/
def value : Int := r.number + 1

theorem flag_lt : r.flag < r.size := Nat.lt_succ_self _

theorem value_pos : 0 < r.value := Int.natCast_succ_pos _

end Round

namespace Sides

variable (sides : Sides ι)

/-- What the server does in a round. -/
def serve (r : Round τ) : List (Op ι τ) :=
  [.store r.flag r.value, .put sides.client r.size r.turn, .spin r.flag (-r.value) r.turn]

/-- What the client does in a round. -/
def answer (r : Round τ) : List (Op ι τ) :=
  [.spin r.flag r.value r.turn, .store r.flag (-r.value), .put sides.server r.size r.turn]

/-- What happens in a round. -/
def history (r : Round τ) : List (Event ι τ) :=
  [.put ⟨sides.server, r.turn⟩, .spun sides.client r.turn (some ⟨sides.server, r.turn⟩),
    .put ⟨sides.client, r.turn⟩, .spun sides.server r.turn (some ⟨sides.client, r.turn⟩)]

/-- What is left of the two, and what is under way. -/
structure Left (s : State ι τ) (serving answering : List (Op ι τ))
    (inFlight : Multiset (Transfer ι τ)) : Prop where
  server : s.rest sides.server = serving
  client : s.rest sides.client = answering
  inFlight : s.inFlight = inFlight

end Sides

/-- No element that may be the flag of a buffer of this size or more is positive. -/
def Low (size : Nat) (buffer : Nat → Cell ι τ) : Prop :=
  ∀ index, size ≤ index + 1 → (buffer index).value ≤ 0

theorem Low.mono {size size' : Nat} {buffer : Nat → Cell ι τ} (low : Low size buffer)
    (le : size ≤ size') : Low size' buffer :=
  fun index far => low index (le.trans far)

section Moves

variable [DecidableEq ι] {sides : Sides ι} {s t : State ι τ} {events : List (Event ι τ)}
  {serving answering : List (Op ι τ)} {inFlight : Multiset (Transfer ι τ)}

/-- A step is one of the server, of the client or of a put. -/
theorem Sides.Left.step_cases {P : Prop} (left : sides.Left s serving answering inFlight)
    (step : Step s events t)
    (server : ∀ op rest, serving = op :: rest → op.Ready (s.buffer sides.server) →
      events = op.events sides.server (s.buffer sides.server) →
      sides.Left t rest answering (op.transfers sides.server + inFlight) →
      t.buffer sides.server = op.writes (s.buffer sides.server) →
      t.buffer sides.client = s.buffer sides.client → P)
    (client : ∀ op rest, answering = op :: rest → op.Ready (s.buffer sides.client) →
      events = op.events sides.client (s.buffer sides.client) →
      sides.Left t serving rest (op.transfers sides.client + inFlight) →
      t.buffer sides.client = op.writes (s.buffer sides.client) →
      t.buffer sides.server = s.buffer sides.server → P)
    (fetch : ∀ transfer others, inFlight = transfer ::ₘ others → events = [] →
      sides.Left t serving answering
        (transfer.fetched (s.buffer transfer.put.src) ::ₘ others) →
      t.buffer = s.buffer → P)
    (deliver : ∀ transfer others values, inFlight = transfer ::ₘ others → events = [] →
      transfer.values = some values → sides.Left t serving answering others →
      t.buffer = Function.update s.buffer transfer.dst
        (transfer.delivered values (s.buffer transfer.dst)) → P) : P := by
  have apart := sides.apart
  cases step with
  | @perform i op rest head ready =>
    rcases sides.total i with rfl | rfl
    · refine server op rest (left.server.symm.trans head) ready rfl ⟨?_, ?_, ?_⟩ ?_ ?_
      · exact Function.update_self ..
      · exact (Function.update_of_ne apart.symm ..).trans left.client
      · rw [left.inFlight]
      · exact Function.update_self ..
      · exact Function.update_of_ne apart.symm ..
    · refine client op rest (left.client.symm.trans head) ready rfl ⟨?_, ?_, ?_⟩ ?_ ?_
      · exact (Function.update_of_ne apart ..).trans left.server
      · exact Function.update_self ..
      · rw [left.inFlight]
      · exact Function.update_self ..
      · exact Function.update_of_ne apart ..
  | fetch sent =>
    exact fetch _ _ (left.inFlight.symm.trans sent) rfl ⟨left.server, left.client, rfl⟩ rfl
  | deliver sent taken =>
    exact deliver _ _ _ (left.inFlight.symm.trans sent) rfl taken
      ⟨left.server, left.client, rfl⟩ rfl

end Moves

section Waits

variable {sides : Sides ι}

/-- The client waits as long as its flag is low. -/
theorem not_ready_answer {rounds : List (Round τ)} {size : Nat} {buffer : Nat → Cell ι τ}
    {op : Op ι τ} {rest : List (Op ι τ)} (low : Low size buffer)
    (sizes : ∀ r ∈ rounds, size ≤ r.size) (head : rounds.flatMap sides.answer = op :: rest) :
    ¬op.Ready buffer := by
  cases rounds with
  | nil => cases head
  | cons r rounds =>
    cases head
    intro ready
    have negative := low r.flag (sizes r List.mem_cons_self)
    rw [show (buffer r.flag).value = r.value from ready] at negative
    exact absurd r.value_pos (not_lt.2 negative)

end Waits

/-! ## The stages of a round -/

section Stages

variable (sides : Sides ι) (r : Round τ) (later : List (Round τ))

/-- The flag of the server is still its own. -/
def Waiting (s : State ι τ) : Prop := (s.buffer sides.server r.flag).value = r.value

/-- A put of the round that is under way; what it has taken ends in the flag. -/
def Carries (src dst : ι) (flag : Int) (transfer : Transfer ι τ) : Prop :=
  transfer.put = ⟨src, r.turn⟩ ∧ transfer.dst = dst ∧ transfer.size = r.size ∧
    ∀ values, transfer.values = some values → values r.flag = flag

/-- Between two rounds nothing is under way, and the flags of the client are low. -/
structure Between (size : Nat) (s : State ι τ) : Prop where
  left : sides.Left s (later.flatMap sides.serve) (later.flatMap sides.answer) 0
  low : Low size (s.buffer sides.client)

/-- The stages of a round, with what has happened in it. -/
inductive Midway : List (Event ι τ) → State ι τ → Prop
  | start {s : State ι τ} (between : Between sides (r :: later) r.size s) : Midway [] s
  | stored {s : State ι τ}
      (left : sides.Left s ((sides.serve r).drop 1 ++ later.flatMap sides.serve)
        (sides.answer r ++ later.flatMap sides.answer) 0)
      (low : Low r.size (s.buffer sides.client)) (waiting : Waiting sides r s) : Midway [] s
  | serving {s : State ι τ} {transfer : Transfer ι τ}
      (left : sides.Left s ((sides.serve r).drop 2 ++ later.flatMap sides.serve)
        (sides.answer r ++ later.flatMap sides.answer) {transfer})
      (carries : Carries r sides.server sides.client r.value transfer)
      (low : Low r.size (s.buffer sides.client)) (waiting : Waiting sides r s) :
      Midway ((sides.history r).take 1) s
  | served {s : State ι τ}
      (left : sides.Left s ((sides.serve r).drop 2 ++ later.flatMap sides.serve)
        (sides.answer r ++ later.flatMap sides.answer) 0)
      (low : Low (r.size + 1) (s.buffer sides.client))
      (flag : (s.buffer sides.client r.flag).writer = some ⟨sides.server, r.turn⟩)
      (waiting : Waiting sides r s) : Midway ((sides.history r).take 1) s
  | seen {s : State ι τ}
      (left : sides.Left s ((sides.serve r).drop 2 ++ later.flatMap sides.serve)
        ((sides.answer r).drop 1 ++ later.flatMap sides.answer) 0)
      (low : Low (r.size + 1) (s.buffer sides.client)) (waiting : Waiting sides r s) :
      Midway ((sides.history r).take 2) s
  | answered {s : State ι τ}
      (left : sides.Left s ((sides.serve r).drop 2 ++ later.flatMap sides.serve)
        ((sides.answer r).drop 2 ++ later.flatMap sides.answer) 0)
      (low : Low r.size (s.buffer sides.client))
      (flag : (s.buffer sides.client r.flag).value = -r.value)
      (waiting : Waiting sides r s) : Midway ((sides.history r).take 2) s
  | returning {s : State ι τ} {transfer : Transfer ι τ}
      (left : sides.Left s ((sides.serve r).drop 2 ++ later.flatMap sides.serve)
        (later.flatMap sides.answer) {transfer})
      (carries : Carries r sides.client sides.server (-r.value) transfer)
      (low : Low r.size (s.buffer sides.client))
      (flag : (s.buffer sides.client r.flag).value = -r.value)
      (waiting : Waiting sides r s) : Midway ((sides.history r).take 3) s
  | returned {s : State ι τ}
      (left : sides.Left s ((sides.serve r).drop 2 ++ later.flatMap sides.serve)
        (later.flatMap sides.answer) 0)
      (low : Low r.size (s.buffer sides.client))
      (flag : (s.buffer sides.server r.flag).writer = some ⟨sides.client, r.turn⟩) :
      Midway ((sides.history r).take 3) s

/-- What a step may lead to: a stage of the round, or its end. -/
def Leads (recorded : List (Event ι τ)) (s : State ι τ) : Prop :=
  Midway sides r later recorded s ∨ recorded = sides.history r ∧ Between sides later r.size s

end Stages

section Flags

variable {sides : Sides ι} {r : Round τ} {s t : State ι τ}

/-- The server waits as long as its flag is its own. -/
theorem Waiting.not_ready (waiting : Waiting sides r s) {op : Op ι τ} {rest ops : List (Op ι τ)}
    (head : (sides.serve r).drop 2 ++ ops = op :: rest) : ¬op.Ready (s.buffer sides.server) := by
  cases head
  intro ready
  have positive := r.value_pos
  have negative : (s.buffer sides.server r.flag).value = -r.value := ready
  rw [Waiting] at waiting
  omega

theorem Waiting.congr (waiting : Waiting sides r s)
    (same : t.buffer sides.server = s.buffer sides.server) : Waiting sides r t := by
  rwa [Waiting, same]

theorem Carries.fetched {src dst : ι} {flag : Int} {transfer : Transfer ι τ}
    (carries : Carries r src dst flag transfer) (own : (s.buffer src r.flag).value = flag) :
    Carries r src dst flag (transfer.fetched (s.buffer transfer.put.src)) := by
  obtain ⟨put, dst_eq, size, -⟩ := carries
  refine ⟨put, dst_eq, size, ?_⟩
  intro values taken
  cases taken
  rw [put]
  exact own

end Flags

section Steps

variable [DecidableEq ι] {sides : Sides ι} {r : Round τ} {later : List (Round τ)}
  {s t : State ι τ} {events : List (Event ι τ)}

/-- Nothing is under way. -/
theorem Sides.Left.step_still {P : Prop} {serving answering : List (Op ι τ)}
    (left : sides.Left s serving answering 0) (step : Step s events t)
    (server : ∀ op rest, serving = op :: rest → op.Ready (s.buffer sides.server) →
      events = op.events sides.server (s.buffer sides.server) →
      sides.Left t rest answering (op.transfers sides.server + 0) →
      t.buffer sides.server = op.writes (s.buffer sides.server) →
      t.buffer sides.client = s.buffer sides.client → P)
    (client : ∀ op rest, answering = op :: rest → op.Ready (s.buffer sides.client) →
      events = op.events sides.client (s.buffer sides.client) →
      sides.Left t serving rest (op.transfers sides.client + 0) →
      t.buffer sides.client = op.writes (s.buffer sides.client) →
      t.buffer sides.server = s.buffer sides.server → P) : P :=
  left.step_cases step server client
    (fun _ _ sent => absurd sent.symm (Multiset.cons_ne_zero))
    (fun _ _ _ sent => absurd sent.symm (Multiset.cons_ne_zero))

theorem Between.step (between : Between sides (r :: later) r.size s)
    (sizes : ∀ r' ∈ r :: later, r.size ≤ r'.size) (step : Step s events t) :
    Leads sides r later events t := by
  refine between.left.step_still step ?_ ?_
  · intro op rest head _ happened left own other
    cases head
    cases happened
    refine .inl (.stored left ?_ ?_)
    · rw [other]
      exact between.low
    · rw [Waiting, own, Op.writes, Function.update_self]
  · intro op rest head ready
    exact absurd ready (not_ready_answer between.low sizes head)

theorem step_stored
    (left : sides.Left s ((sides.serve r).drop 1 ++ later.flatMap sides.serve)
      ((r :: later).flatMap sides.answer) 0)
    (low : Low r.size (s.buffer sides.client)) (waiting : Waiting sides r s)
    (sizes : ∀ r' ∈ r :: later, r.size ≤ r'.size) (step : Step s events t) :
    Leads sides r later events t := by
  refine left.step_still step ?_ ?_
  · intro op rest head _ happened left own other
    cases head
    cases happened
    refine .inl (.serving left ⟨rfl, rfl, rfl, ?_⟩ ?_ (waiting.congr own))
    · intro values taken
      cases taken
    · rw [other]
      exact low
  · intro op rest head ready
    exact absurd ready (not_ready_answer low sizes head)

/-- A put that is under way either takes its values or is delivered. -/
theorem Sides.Left.step_single {P : Prop} {serving answering : List (Op ι τ)}
    {transfer : Transfer ι τ} (left : sides.Left s serving answering {transfer})
    (step : Step s events t)
    (server : ∀ op rest, serving = op :: rest → ¬op.Ready (s.buffer sides.server))
    (client : ∀ op rest, answering = op :: rest → ¬op.Ready (s.buffer sides.client))
    (fetch : events = [] →
      sides.Left t serving answering {transfer.fetched (s.buffer transfer.put.src)} →
      t.buffer = s.buffer → P)
    (deliver : ∀ values, events = [] → transfer.values = some values →
      sides.Left t serving answering 0 →
      t.buffer = Function.update s.buffer transfer.dst
        (transfer.delivered values (s.buffer transfer.dst)) → P) : P := by
  refine left.step_cases step ?_ ?_ ?_ ?_
  · intro op rest head ready
    exact absurd ready (server op rest head)
  · intro op rest head ready
    exact absurd ready (client op rest head)
  · intro other others sent happened left same
    obtain ⟨rfl, rfl⟩ := (Multiset.singleton_eq_cons_iff _).1 sent
    exact fetch happened left same
  · intro other others values sent happened taken left same
    obtain ⟨rfl, rfl⟩ := (Multiset.singleton_eq_cons_iff _).1 sent
    exact deliver values happened taken left same

theorem step_serving {transfer : Transfer ι τ}
    (left : sides.Left s ((sides.serve r).drop 2 ++ later.flatMap sides.serve)
      ((r :: later).flatMap sides.answer) {transfer})
    (carries : Carries r sides.server sides.client r.value transfer)
    (low : Low r.size (s.buffer sides.client)) (waiting : Waiting sides r s)
    (sizes : ∀ r' ∈ r :: later, r.size ≤ r'.size) (step : Step s events t) :
    Leads sides r later ((sides.history r).take 1 ++ events) t := by
  refine left.step_single step ?_ ?_ ?_ ?_
  · exact fun op rest head => waiting.not_ready head
  · exact fun op rest head => not_ready_answer low sizes head
  · intro happened left same
    subst happened
    refine .inl (.serving left (carries.fetched waiting) ?_ (waiting.congr (congrFun same _)))
    rw [same]
    exact low
  · intro values happened taken left same
    subst happened
    obtain ⟨put, dst, size, -⟩ := carries
    rw [dst] at same
    have client : t.buffer sides.client = transfer.delivered values (s.buffer sides.client) := by
      rw [same, Function.update_self]
    have server : t.buffer sides.server = s.buffer sides.server := by
      rw [same, Function.update_of_ne sides.apart]
    refine .inl (.served left ?_ ?_ (waiting.congr server))
    · intro index far
      rw [client, Transfer.delivered, if_neg (by omega)]
      exact low index (by omega)
    · rw [client, Transfer.delivered, if_pos (size ▸ r.flag_lt), put]

theorem step_served
    (left : sides.Left s ((sides.serve r).drop 2 ++ later.flatMap sides.serve)
      ((r :: later).flatMap sides.answer) 0)
    (low : Low (r.size + 1) (s.buffer sides.client))
    (flag : (s.buffer sides.client r.flag).writer = some ⟨sides.server, r.turn⟩)
    (waiting : Waiting sides r s) (step : Step s events t) :
    Leads sides r later ((sides.history r).take 1 ++ events) t := by
  refine left.step_still step ?_ ?_
  · intro op rest head ready
    exact absurd ready (waiting.not_ready head)
  · intro op rest head _ happened left own other
    cases head
    rw [Op.events, flag] at happened
    subst happened
    refine .inl (.seen left ?_ (waiting.congr other))
    rw [own]
    exact low

theorem step_seen
    (left : sides.Left s ((sides.serve r).drop 2 ++ later.flatMap sides.serve)
      ((sides.answer r).drop 1 ++ later.flatMap sides.answer) 0)
    (low : Low (r.size + 1) (s.buffer sides.client)) (waiting : Waiting sides r s)
    (step : Step s events t) :
    Leads sides r later ((sides.history r).take 2 ++ events) t := by
  refine left.step_still step ?_ ?_
  · intro op rest head ready
    exact absurd ready (waiting.not_ready head)
  · intro op rest head _ happened left own other
    cases head
    cases happened
    rw [Op.writes] at own
    refine .inl (.answered left ?_ ?_ (waiting.congr other))
    · intro index far
      have positive := r.value_pos
      rw [own]
      rcases eq_or_ne index r.flag with rfl | apart
      · rw [Function.update_self]
        dsimp only
        omega
      · rw [Function.update_of_ne apart]
        refine low index ?_
        rw [Round.size] at far ⊢
        omega
    · rw [own, Function.update_self]

theorem step_answered
    (left : sides.Left s ((sides.serve r).drop 2 ++ later.flatMap sides.serve)
      ((sides.answer r).drop 2 ++ later.flatMap sides.answer) 0)
    (low : Low r.size (s.buffer sides.client))
    (flag : (s.buffer sides.client r.flag).value = -r.value)
    (waiting : Waiting sides r s) (step : Step s events t) :
    Leads sides r later ((sides.history r).take 2 ++ events) t := by
  refine left.step_still step ?_ ?_
  · intro op rest head ready
    exact absurd ready (waiting.not_ready head)
  · intro op rest head _ happened left own other
    cases head
    cases happened
    refine .inl (.returning left ⟨rfl, rfl, rfl, ?_⟩ ?_ ?_ (waiting.congr other))
    · intro values taken
      cases taken
    · rw [own]
      exact low
    · rw [own]
      exact flag

theorem step_returning {transfer : Transfer ι τ}
    (left : sides.Left s ((sides.serve r).drop 2 ++ later.flatMap sides.serve)
      (later.flatMap sides.answer) {transfer})
    (carries : Carries r sides.client sides.server (-r.value) transfer)
    (low : Low r.size (s.buffer sides.client))
    (flag : (s.buffer sides.client r.flag).value = -r.value) (waiting : Waiting sides r s)
    (sizes : ∀ r' ∈ later, r.size ≤ r'.size) (step : Step s events t) :
    Leads sides r later ((sides.history r).take 3 ++ events) t := by
  refine left.step_single step ?_ ?_ ?_ ?_
  · exact fun op rest head => waiting.not_ready head
  · exact fun op rest head => not_ready_answer low sizes head
  · intro happened left same
    subst happened
    refine .inl (.returning left (carries.fetched flag) ?_ ?_ (waiting.congr (congrFun same _)))
    · rw [same]
      exact low
    · rw [same]
      exact flag
  · intro values happened taken left same
    subst happened
    obtain ⟨put, dst, size, -⟩ := carries
    rw [dst] at same
    have server : t.buffer sides.server = transfer.delivered values (s.buffer sides.server) := by
      rw [same, Function.update_self]
    have client : t.buffer sides.client = s.buffer sides.client := by
      rw [same, Function.update_of_ne sides.apart.symm]
    refine .inl (.returned left ?_ ?_)
    · rw [client]
      exact low
    · rw [server, Transfer.delivered, if_pos (size ▸ r.flag_lt), put]

theorem step_returned
    (left : sides.Left s ((sides.serve r).drop 2 ++ later.flatMap sides.serve)
      (later.flatMap sides.answer) 0)
    (low : Low r.size (s.buffer sides.client))
    (flag : (s.buffer sides.server r.flag).writer = some ⟨sides.client, r.turn⟩)
    (sizes : ∀ r' ∈ later, r.size ≤ r'.size) (step : Step s events t) :
    Leads sides r later ((sides.history r).take 3 ++ events) t := by
  refine left.step_still step ?_ ?_
  · intro op rest head _ happened left own other
    cases head
    rw [Op.events, flag] at happened
    subst happened
    refine .inr ⟨rfl, left, ?_⟩
    rw [other]
    exact low
  · intro op rest head ready
    exact absurd ready (not_ready_answer low sizes head)

/-- A step of a round leads to a stage of the round or to its end. -/
theorem Midway.step {recorded : List (Event ι τ)} (midway : Midway sides r later recorded s)
    (sizes : ∀ r' ∈ later, r.size ≤ r'.size) (step : Step s events t) :
    Leads sides r later (recorded ++ events) t := by
  have all : ∀ r' ∈ r :: later, r.size ≤ r'.size := List.forall_mem_cons.2 ⟨le_rfl, sizes⟩
  cases midway with
  | start between => exact between.step all step
  | stored left low waiting => exact step_stored left low waiting all step
  | serving left carries low waiting => exact step_serving left carries low waiting all step
  | served left low flag waiting => exact step_served left low flag waiting step
  | seen left low waiting => exact step_seen left low waiting step
  | answered left low flag waiting => exact step_answered left low flag waiting step
  | returning left carries low flag waiting =>
    exact step_returning left carries low flag waiting sizes step
  | returned left low flag => exact step_returned left low flag sizes step

end Steps

/-! ## Whole runs -/

section Runs

variable {sides : Sides ι} {rounds : List (Round τ)} {s t : State ι τ}
  {trace events : List (Event ι τ)}

/-- The rounds that are done, and where the parties are in the next. -/
inductive Inv (sides : Sides ι) (rounds : List (Round τ)) :
    List (Event ι τ) → State ι τ → Prop
  | finished {s : State ι τ} {size : Nat} (between : Between sides [] size s) :
      Inv sides rounds (rounds.flatMap sides.history) s
  | round {done later : List (Round τ)} {r : Round τ} {recorded : List (Event ι τ)}
      {s : State ι τ} (parts : rounds = done ++ r :: later)
      (midway : Midway sides r later recorded s) :
      Inv sides rounds (done.flatMap sides.history ++ recorded) s

/-- The round after those that are done begins. -/
theorem Between.inv {done later : List (Round τ)} {size : Nat}
    (between : Between sides later size s) (parts : rounds = done ++ later)
    (sizes : ∀ r ∈ later, size ≤ r.size) : Inv sides rounds (done.flatMap sides.history) s := by
  cases later with
  | nil =>
    rw [List.append_nil] at parts
    subst parts
    exact .finished between
  | cons r later =>
    have start : Midway sides r later [] s :=
      .start ⟨between.left, between.low.mono (sizes r List.mem_cons_self)⟩
    simpa using Inv.round parts start

/-- The stages of a round pass through its history. -/
theorem Midway.begins {r : Round τ} {later : List (Round τ)} {recorded : List (Event ι τ)}
    (midway : Midway sides r later recorded s) : recorded <+: sides.history r := by
  cases midway with
  | start | stored => exact List.nil_prefix
  | serving | served | seen | answered | returning | returned => exact List.take_prefix ..

theorem Inv.begins (inv : Inv sides rounds trace s) :
    trace <+: rounds.flatMap sides.history := by
  cases inv with
  | finished => exact List.prefix_rfl
  | round parts midway =>
    rw [parts, List.flatMap_append, List.flatMap_cons]
    exact (List.prefix_append_right_inj _).2 (midway.begins.trans (List.prefix_append ..))

/-- Both parties play these rounds, and no element is positive. -/
structure Plays (sides : Sides ι) (rounds : List (Round τ)) (start : State ι τ) : Prop where
  server : strip (start.rest sides.server) = rounds.flatMap sides.serve
  client : strip (start.rest sides.client) = rounds.flatMap sides.answer
  inFlight : start.inFlight = 0
  zero : ∀ index, (start.buffer sides.client index).value ≤ 0
  sorted : rounds.Pairwise fun r r' => r.size ≤ r'.size

variable [DecidableEq ι]

theorem Inv.step (inv : Inv sides rounds trace s)
    (sorted : rounds.Pairwise fun r r' => r.size ≤ r'.size) (step : Step s events t) :
    Inv sides rounds (trace ++ events) t := by
  cases inv with
  | finished between =>
    refine between.left.step_still step ?_ ?_
    · intro op rest head
      cases head
    · intro op rest head
      cases head
  | @round done later r recorded _ parts midway =>
    have sizes : ∀ r' ∈ later, r.size ≤ r'.size := by
      rw [parts, List.pairwise_append, List.pairwise_cons] at sorted
      exact sorted.2.1.1
    rw [List.append_assoc]
    rcases midway.step sizes step with stage | ⟨complete, between⟩
    · exact .round parts stage
    · have split : rounds = (done ++ [r]) ++ later := by
        rw [parts, List.append_assoc, List.singleton_append]
      have finished := between.inv split sizes
      rw [complete]
      rwa [List.flatMap_append, List.flatMap_singleton] at finished

theorem Run.inv {start : State ι τ} (run : Run start trace s) (plays : Plays sides rounds start) :
    Inv sides rounds trace s.strip := by
  induction run with
  | init =>
    have between : Between sides rounds 0 start.strip :=
      ⟨⟨plays.server, plays.client, plays.inFlight⟩, fun index _ => plays.zero index⟩
    have none_done : rounds = [] ++ rounds := rfl
    exact between.inv none_done fun _ _ => Nat.zero_le _
  | step _ step ih =>
    rcases step.strip with moved | ⟨silent, same⟩
    · exact ih.step plays.sorted moved
    · rw [silent, same, List.append_nil]
      exact ih

/-- Whoever has nothing left has been through all rounds. -/
theorem Run.complete {start : State ι τ} (run : Run start trace s)
    (plays : Plays sides rounds start) (done : s.rest sides.server = []) :
    trace = rounds.flatMap sides.history := by
  have inv := run.inv plays
  have empty : s.strip.rest sides.server = [] := congrArg FlagRally.strip done
  generalize s.strip = u at inv empty
  cases inv with
  | finished => rfl
  | round parts midway =>
    exfalso
    cases midway with
    | start between => cases empty.symm.trans between.left.server
    | stored left | serving left | served left | seen left | answered left | returning left
    | returned left => cases empty.symm.trans left.server

/-- **What has happened is the beginning of the history of the rounds.** -/
theorem Run.begins {start : State ι τ} (run : Run start trace s)
    (plays : Plays sides rounds start) : trace <+: rounds.flatMap sides.history :=
  (run.inv plays).begins

end Runs

/-! ## A run to the end -/

section Play

variable [DecidableEq ι] {sides : Sides ι} {r : Round τ} {s t : State ι τ} {i : ι}
  {trace events : List (Event ι τ)} {op : Op ι τ} {ops serving answering : List (Op ι τ)}

theorem Run.trans {u : State ι τ} (run : Run s trace t) (run' : Run t events u) :
    Run s (trace ++ events) u := by
  induction run' with
  | init => simpa using run
  | step _ step ih => simpa only [List.append_assoc] using ih.step step

/-- A party goes through the passes that come next. -/
theorem exists_skip (s : State ι τ) (i : ι) :
    ∃ l, Run s [] { s with rest := Function.update s.rest i l } ∧ strip l = strip (s.rest i) ∧
      ∀ op ∈ l.head?, op.isPass = false := by
  induction left : s.rest i generalizing s with
  | nil =>
    refine ⟨[], ?_, rfl, fun op mem => nomatch mem⟩
    rw [← left, Function.update_eq_self]
    exact .init
  | cons first rest ih =>
    by_cases pass : first.isPass = true
    · obtain rfl : first = .pass := by
        cases first <;> first | rfl | cases pass
      let s' : State ι τ := { s with rest := Function.update s.rest i rest }
      have step : Step s [] s' := by
        simpa [Op.events, Op.writes, Op.transfers] using Step.perform left trivial
      obtain ⟨l, run, stripped, head⟩ := ih s' (Function.update_self ..)
      refine ⟨l, ?_, stripped, head⟩
      have skipped := (Run.init.step step).trans run
      simpa [s'] using skipped
    · refine ⟨first :: rest, ?_, rfl, ?_⟩
      · rw [← left, Function.update_eq_self]
        exact .init
      · intro op mem
        obtain rfl := Option.some.inj mem
        exact Bool.eq_false_iff.2 pass

/-- A party performs its next operation, and the passes before it. -/
theorem exists_perform (head : strip (s.rest i) = op :: ops) (ready : op.Ready (s.buffer i)) :
    ∃ t, Run s (op.events i (s.buffer i)) t ∧ strip (t.rest i) = ops ∧
      (∀ j ≠ i, t.rest j = s.rest j) ∧
      t.buffer = Function.update s.buffer i (op.writes (s.buffer i)) ∧
      t.inFlight = op.transfers i + s.inFlight := by
  obtain ⟨l, run, stripped, first⟩ := exists_skip s i
  rw [head] at stripped
  cases l with
  | nil => cases stripped
  | cons op' l =>
    have kept : strip (op' :: l) = op' :: strip l := by
      rw [strip, List.filter_cons, first op' rfl]
      rfl
    rw [kept] at stripped
    obtain ⟨rfl, rfl⟩ := List.cons.inj stripped
    have step := Step.perform (s := { s with rest := Function.update s.rest i (op' :: l) })
      (Function.update_self ..) ready
    refine ⟨_, run.step step, ?_, ?_, rfl, rfl⟩
    · exact congrArg strip (Function.update_self ..)
    · intro j apart
      exact (Function.update_of_ne apart ..).trans (Function.update_of_ne apart ..)

/-- A party with nothing but passes left goes through them. -/
theorem exists_done (head : strip (s.rest i) = []) :
    Run s [] { s with rest := Function.update s.rest i [] } := by
  obtain ⟨l, run, stripped, first⟩ := exists_skip s i
  rw [head] at stripped
  cases l with
  | nil => exact run
  | cons op l =>
    rw [strip, List.filter_cons, first op rfl] at stripped
    cases stripped

/-- A put under way takes its values and is delivered. -/
theorem exists_deliver {transfer : Transfer ι τ} (sent : s.inFlight = {transfer}) :
    ∃ t, Run s [] t ∧ t.rest = s.rest ∧ t.inFlight = 0 ∧
      t.buffer = Function.update s.buffer transfer.dst (transfer.delivered
        (fun index => (s.buffer transfer.put.src index).value) (s.buffer transfer.dst)) :=
  ⟨_, (Run.init.step (.fetch sent)).step
    (@Step.deliver _ _ _ _ (transfer.fetched (s.buffer transfer.put.src)) 0 _ rfl rfl),
    rfl, rfl, rfl⟩

/-- One party sets the flag and puts, and the other sees it. -/
theorem exists_half {j : ι} (apart : j ≠ i) {flag size : Nat} {value : Int} {turn : τ}
    (inside : flag < size) {ops' : List (Op ι τ)}
    (own : strip (s.rest i) = .store flag value :: .put j size turn :: ops)
    (other : strip (s.rest j) = .spin flag value turn :: ops') (idle : s.inFlight = 0) :
    ∃ t, Run s [.put ⟨i, turn⟩, .spun j turn (some ⟨i, turn⟩)] t ∧ strip (t.rest i) = ops ∧
      strip (t.rest j) = ops' ∧ t.inFlight = 0 := by
  obtain ⟨stored, storing, own, others, buffer, net⟩ := exists_perform own trivial
  obtain ⟨put, putting, own, others', buffer', net'⟩ := exists_perform own trivial
  have sent : put.inFlight = {⟨⟨i, turn⟩, j, size, none⟩} := by
    rw [net', net, idle]
    rfl
  obtain ⟨taken, delivering, rest, net, delivered⟩ := exists_deliver sent
  have kept : put.buffer = stored.buffer := buffer'.trans (Function.update_eq_self ..)
  have flagged : (put.buffer i flag).value = value := by
    have written : put.buffer i = Function.update (s.buffer i) flag ⟨value, none⟩ := by
      rw [kept, buffer]
      exact Function.update_self ..
    rw [written, Function.update_self]
  have seen : taken.buffer j flag = ⟨value, some ⟨i, turn⟩⟩ := by
    rw [delivered, Function.update_self, Transfer.delivered, if_pos inside, flagged]
  have waits : strip (taken.rest j) = .spin flag value turn :: ops' := by
    rw [rest, others' j apart, others j apart, other]
  obtain ⟨t, spinning, done, others, -, net'⟩ := exists_perform waits (congrArg Cell.value seen)
  have run : Run s [.put ⟨i, turn⟩, .spun j turn (taken.buffer j flag).writer] t :=
    ((storing.trans putting).trans delivering).trans spinning
  rw [seen] at run
  refine ⟨t, run, ?_, done, ?_⟩
  · rw [others i apart.symm, rest, own]
  · rw [net', net]
    rfl

/-- A round is two halves. -/
theorem exists_round (server : strip (s.rest sides.server) = sides.serve r ++ serving)
    (client : strip (s.rest sides.client) = sides.answer r ++ answering) (idle : s.inFlight = 0) :
    ∃ t, Run s (sides.history r) t ∧ strip (t.rest sides.server) = serving ∧
      strip (t.rest sides.client) = answering ∧ t.inFlight = 0 := by
  obtain ⟨served, run, server, client, idle⟩ :=
    exists_half sides.apart.symm r.flag_lt server client idle
  obtain ⟨t, run', client, server, idle⟩ :=
    exists_half sides.apart r.flag_lt client server idle
  exact ⟨t, run.trans run', server, client, idle⟩

/-- **A rally can be played to its end**, whatever the buffers hold. -/
theorem exists_finished (rounds : List (Round τ))
    (server : strip (s.rest sides.server) = rounds.flatMap sides.serve)
    (client : strip (s.rest sides.client) = rounds.flatMap sides.answer) (idle : s.inFlight = 0) :
    ∃ t, Run s (rounds.flatMap sides.history) t ∧ (∀ i, t.rest i = []) ∧ t.inFlight = 0 := by
  induction rounds generalizing s with
  | nil =>
    have first := exists_done server
    have rest : strip (Function.update s.rest sides.server [] sides.client) = [] := by
      rw [Function.update_of_ne sides.apart.symm]
      exact client
    have second := exists_done (s := { s with rest := Function.update s.rest sides.server [] })
      rest
    refine ⟨_, first.trans second, fun i => ?_, idle⟩
    dsimp only
    rcases sides.total i with rfl | rfl
    · rw [Function.update_of_ne sides.apart, Function.update_self]
    · exact Function.update_self ..
  | cons r rounds ih =>
    obtain ⟨next, run, server, client, idle⟩ := exists_round server client idle
    obtain ⟨t, run', finished, idle⟩ := ih server client idle
    exact ⟨t, run.trans run', finished, idle⟩

end Play

end FlagRally
