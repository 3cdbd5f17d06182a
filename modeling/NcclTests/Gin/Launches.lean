import Mathlib
import NcclTests.Gin.PingPong

/-!
# Rallies one after the other

Between two barriers the ranks are in one rally: each has yet to launch its kernel, runs
it, or is done with it and waits for the other. `Playing` places both there and reads the
counts of the rally off the events of the run; at the barrier all has arrived and both
signals are clear, which is how the next rally starts (`Idle`).
-/

namespace NcclTests.Gin

open Rally

/-! ## Events -/

namespace Event

/-- The launch that an event belongs to. -/
def launch? : Event → Option Nat
  | launched _ launch | waited _ launch _ | sent _ launch | reset _ launch
  | flushed _ launch | arrived _ launch => some launch
  | synchronized _ | barrier => none

def rank? : Event → Option Rank
  | launched rank _ | synchronized rank | waited rank _ _ | sent rank _ | reset rank _
  | flushed rank _ | arrived rank _ => some rank
  | barrier => none

end Event

/-- All events belong to earlier launches. -/
def Before (trace : List Event) (launch : Nat) : Prop :=
  ∀ event ∈ trace, ∀ k ∈ event.launch?, k < launch

section Events

variable {trace : List Event} {event : Event} {rank : Rank} {launch k : Nat}

theorem Before.cons (before : Before trace launch) (own : ∀ k ∈ event.launch?, k < launch) :
    Before (event :: trace) launch := by
  intro other mem
  rcases List.mem_cons.1 mem with rfl | mem
  · exact own
  · exact before other mem

theorem Before.mono {later : Nat} (before : Before trace launch) (le : launch ≤ later) :
    Before trace later :=
  fun event mem k own => (before event mem k own).trans_le le

theorem Before.not_mem (before : Before trace launch) (own : event.launch? = some k)
    (le : launch ≤ k) : event ∉ trace :=
  fun mem => absurd (before event mem k own) (by omega)

theorem Before.count_eq_zero (before : Before trace launch) (own : event.launch? = some k)
    (le : launch ≤ k) : trace.count event = 0 :=
  List.count_eq_zero_of_not_mem (before.not_mem own le)

theorem count_cons_event (other : Event) :
    (event :: trace).count other = trace.count other + [event].count other := by
  rw [List.count_cons, List.count_singleton]

theorem count_cons_of_rank {other : Event} (rank : event.rank? ≠ other.rank?) :
    (event :: trace).count other = trace.count other :=
  List.count_cons_of_ne fun same => rank (congrArg Event.rank? same)

theorem count_cons_of_launch {other : Event} (launch : event.launch? ≠ other.launch?) :
    (event :: trace).count other = trace.count other :=
  List.count_cons_of_ne fun same => launch (congrArg Event.launch? same)

end Events

/-! ## Where the ranks are -/

/-- Between barriers, with a launch ahead, on the stream or behind. -/
inductive Place (kernel : Kernel) (launch numElems : Nat) (iters : Int) (after : List HostOp)
    (rank : Rank) (p : Party) (l : Local) : Prop
  | ahead (host : l.host = .launch numElems iters :: .streamSynchronize :: .barrier :: after)
      (stream : l.stream = []) (launches : l.launches = launch)
      (party : p = ⟨0, 0, p.arrived, false, (kernel rank numElems iters).map GinOp.toRally⟩)
  | running {ops : List GinOp} (host : l.host = .streamSynchronize :: .barrier :: after)
      (stream : l.stream = ops.map (launch + 1, ·)) (launches : l.launches = launch + 1)
      (aimed : ∀ op ∈ ops, op.Aimed rank) (rest : p.rest = ops.map GinOp.toRally)
  | behind (host : l.host = .barrier :: after) (stream : l.stream = [])
      (launches : l.launches = launch + 1) (rest : p.rest = [])

/-- A rally under way, after so many launches. -/
structure Playing (kernel : Kernel) (launch numElems : Nat) (iters : Int) (after : List HostOp)
    (party : Rank → Party) (trace : List Event) (s : State) : Prop where
  rally : Rally.Inv pairing iters.toNat party
  place : ∀ rank, Place kernel launch numElems iters after rank (party rank) (s.rank rank)
  signal : ∀ rank, (s.rank rank).signal =
    if (party rank).closed = true then 0 else (party rank).arrived
  inFlight : ∀ message, s.inFlight.count message = if message.launch = launch + 1 then
    (party (peer message.dst)).sent - (party message.dst).arrived else 0
  sent : ∀ rank, trace.count (.sent rank (launch + 1)) = (party rank).sent
  arrived : ∀ rank, trace.count (.arrived rank (launch + 1)) = (party rank).arrived
  reset : ∀ rank, .reset rank (launch + 1) ∈ trace → (party rank).closed = true
  launched : ∀ rank, .launched rank (launch + 1) ∉ trace → (s.rank rank).launches = launch
  level : ∀ past ≤ launch, ∀ rank, trace.count (.sent rank past) =
    trace.count (.sent (peer rank) past)
  before : Before trace (launch + 2)

/-- Between two rallies, after so many launches. -/
structure Idle (launch : Nat) (host : List HostOp) (trace : List Event) (s : State) : Prop where
  rank_eq : ∀ rank, s.rank rank = ⟨host, [], launch, 0⟩
  inFlight : s.inFlight = 0
  level : ∀ past ≤ launch, ∀ rank, trace.count (.sent rank past) =
    trace.count (.sent (peer rank) past)
  before : Before trace (launch + 1)

/-- Where a run can be. -/
inductive Inv (kernel : Kernel) (trace : List Event) (s : State) : Prop
  | finished {launch : Nat} (idle : Idle launch [] trace s)
  | meeting {launch : Nat} {after : List HostOp} (separated : Separated after)
      (idle : Idle launch (.barrier :: after) trace s)
  | playing {launch numElems : Nat} {iters : Int} {after : List HostOp}
      {party : Rank → Party} (separated : Separated after)
      (playing : Playing kernel launch numElems iters after party trace s)

section Run

variable {network : Network} {kernel : Kernel} {launch numElems : Nat} {iters : Int}
  {after host : List HostOp} {party : Rank → Party} {trace : List Event} {s t : State}
  {event : Event} {rank : Rank}

/-- With a launch ahead of both ranks a rally begins. -/
theorem Idle.playing (plays : Plays kernel)
    (idle : Idle launch (.launch numElems iters :: .streamSynchronize :: .barrier :: after)
      trace s) :
    Playing kernel launch numElems iters after
      (fun rank => ⟨0, 0, 0, false, (kernel rank numElems iters).map GinOp.toRally⟩) trace s where
  rally := .start fun rank => plays.follows rank numElems iters
  place rank := by
    have at_ := idle.rank_eq rank
    exact .ahead (by rw [at_]) (by rw [at_]) (by rw [at_]) rfl
  signal rank := by
    rw [idle.rank_eq]
    rfl
  inFlight message := by
    rw [idle.inFlight, Multiset.count_zero]
    split <;> rfl
  sent rank := idle.before.count_eq_zero rfl le_rfl
  arrived rank := idle.before.count_eq_zero rfl le_rfl
  reset rank mem := absurd mem (idle.before.not_mem rfl le_rfl)
  launched rank _ := by rw [idle.rank_eq]
  level := idle.level
  before := idle.before.mono (Nat.le_succ _)

theorem Inv.of_idle (plays : Plays kernel) (separated : Separated host)
    (idle : Idle launch host trace s) : Inv kernel trace s := by
  cases separated with
  | nil => exact .finished idle
  | barrier after => exact .meeting after idle
  | launch after => exact .playing after (idle.playing plays)

/-! ### The next operation -/

theorem Place.of_launch {p : Party} {l : Local} {numElems' : Nat} {iters' : Int}
    (place : Place kernel launch numElems iters after rank p l)
    (head : l.host = .launch numElems' iters' :: host) :
    (numElems' = numElems ∧ iters' = iters ∧ host = .streamSynchronize :: .barrier :: after) ∧
      l.stream = [] ∧ l.launches = launch ∧
      p = ⟨0, 0, p.arrived, false, (kernel rank numElems iters).map GinOp.toRally⟩ := by
  cases place with
  | ahead atHost stream launches begun =>
    rw [atHost] at head
    cases head
    exact ⟨⟨rfl, rfl, rfl⟩, stream, launches, begun⟩
  | running atHost _ _ _ _ =>
    rw [atHost] at head
    cases head
  | behind atHost _ _ _ =>
    rw [atHost] at head
    cases head

theorem Place.of_synchronize {p : Party} {l : Local}
    (place : Place kernel launch numElems iters after rank p l)
    (head : l.host = .streamSynchronize :: host) :
    host = .barrier :: after ∧ l.launches = launch + 1 ∧
      ∃ ops : List GinOp, l.stream = ops.map (launch + 1, ·) ∧
        p.rest = ops.map GinOp.toRally := by
  cases place with
  | ahead atHost _ _ _ =>
    rw [atHost] at head
    cases head
  | @running ops atHost stream launches _ rest =>
    rw [atHost] at head
    cases head
    exact ⟨rfl, launches, ops, stream, rest⟩
  | behind atHost _ _ _ =>
    rw [atHost] at head
    cases head

theorem Place.of_barrier {p : Party} {l : Local}
    (place : Place kernel launch numElems iters after rank p l)
    (head : l.host = .barrier :: host) :
    host = after ∧ l.stream = [] ∧ l.launches = launch + 1 ∧ p.rest = [] := by
  cases place with
  | ahead atHost _ _ _ =>
    rw [atHost] at head
    cases head
  | running atHost _ _ _ _ =>
    rw [atHost] at head
    cases head
  | behind atHost stream launches rest =>
    rw [atHost] at head
    cases head
    exact ⟨rfl, stream, launches, rest⟩

/-- The next operation on a stream. -/
theorem Place.head {p : Party} {l : Local} {k : Nat} {op : GinOp} {stream : List (Nat × GinOp)}
    (place : Place kernel launch numElems iters after rank p l)
    (head : l.stream = (k, op) :: stream) :
    k = launch + 1 ∧ op.Aimed rank ∧ ∃ ops : List GinOp, stream = ops.map (launch + 1, ·) ∧
      (∀ op ∈ ops, op.Aimed rank) ∧ p.rest = op.toRally :: ops.map GinOp.toRally ∧
      l.host = .streamSynchronize :: .barrier :: after ∧ l.launches = launch + 1 := by
  cases place with
  | ahead _ empty _ _ =>
    rw [empty] at head
    cases head
  | @running ops host onStream launches aimed rest =>
    rw [onStream] at head
    cases ops with
    | nil => cases head
    | cons first ops =>
      cases head
      exact ⟨rfl, aimed _ List.mem_cons_self, ops, rfl,
        fun op mem => aimed op (List.mem_cons_of_mem _ mem), rest, host, launches⟩
  | behind _ empty _ _ =>
    rw [empty] at head
    cases head

/-- One rank moves on: what its new place, the network and the event have to say. -/
theorem Playing.move (playing : Playing kernel launch numElems iters after party trace s)
    {p : Party} {now : Local} {inFlight : Multiset Message}
    (rally : Rally.Inv pairing iters.toNat (Function.update party rank p))
    (place : Place kernel launch numElems iters after rank p now)
    (signal : now.signal = if p.closed = true then 0 else p.arrived)
    (net : ∀ message, inFlight.count message = if message.launch = launch + 1 then
      (Function.update party rank p (peer message.dst)).sent -
        (Function.update party rank p message.dst).arrived else 0)
    (ofRank : event.rank? = some rank) (own : ∀ k ∈ event.launch?, k = launch + 1)
    (sent : p.sent = (party rank).sent + [event].count (.sent rank (launch + 1)))
    (arrived : p.arrived = (party rank).arrived + [event].count (.arrived rank (launch + 1)))
    (closed : (party rank).closed = true ∨ event = .reset rank (launch + 1) → p.closed = true)
    (launched : event = .launched rank (launch + 1) ∨ now.launches = (s.rank rank).launches) :
    Playing kernel launch numElems iters after (Function.update party rank p) (event :: trace)
      { s.set rank now with inFlight := inFlight } where
  rally := rally
  place r := by
    rcases eq_or_ne r rank with rfl | other
    · simpa only [State.set, Function.update_self] using place
    · simpa only [State.set, Function.update_of_ne other] using playing.place r
  signal r := by
    rcases eq_or_ne r rank with rfl | other
    · simpa only [State.set, Function.update_self] using signal
    · simpa only [State.set, Function.update_of_ne other] using playing.signal r
  inFlight := net
  sent r := by
    rcases eq_or_ne r rank with rfl | other
    · rw [count_cons_event, playing.sent, Function.update_self, sent]
    · rw [count_cons_of_rank, playing.sent, Function.update_of_ne other]
      rw [ofRank]
      exact fun same => other (Option.some.inj same).symm
  arrived r := by
    rcases eq_or_ne r rank with rfl | other
    · rw [count_cons_event, playing.arrived, Function.update_self, arrived]
    · rw [count_cons_of_rank, playing.arrived, Function.update_of_ne other]
      rw [ofRank]
      exact fun same => other (Option.some.inj same).symm
  reset r mem := by
    rcases List.mem_cons.1 mem with now | past
    · have same : r = rank := by
        rw [← now] at ofRank
        exact Option.some.inj ofRank
      subst same
      rw [Function.update_self]
      exact closed (.inr now.symm)
    · rcases eq_or_ne r rank with rfl | other
      · rw [Function.update_self]
        exact closed (.inl (playing.reset r past))
      · rw [Function.update_of_ne other]
        exact playing.reset r past
  launched r missing := by
    have past : .launched r (launch + 1) ∉ trace := fun mem =>
      missing (List.mem_cons_of_mem _ mem)
    rcases eq_or_ne r rank with rfl | other
    · simp only [State.set, Function.update_self]
      rcases launched with now | same
      · exact absurd (now ▸ List.mem_cons_self) missing
      · rw [same]
        exact playing.launched r past
    · simp only [State.set, Function.update_of_ne other]
      exact playing.launched r past
  level past le r := by
    have apart : ∀ q : Rank, event.launch? ≠ (Event.sent q past).launch? := by
      intro q same
      have : past = launch + 1 := own past same
      omega
    rw [count_cons_of_launch (apart _), count_cons_of_launch (apart _)]
    exact playing.level past le r
  before := playing.before.cons fun k mem => by
    rw [own k mem]
    omega

/-! ## Steps keep the invariant -/

/-- The host of a rank moves on; nothing changes in the rally. -/
theorem Playing.advance (playing : Playing kernel launch numElems iters after party trace s)
    {now : Local} (place : Place kernel launch numElems iters after rank (party rank) now)
    (signal : now.signal = (s.rank rank).signal) (ofRank : event.rank? = some rank)
    (own : ∀ k ∈ event.launch?, k = launch + 1)
    (silent : event = .launched rank (launch + 1) ∨
      event = .synchronized rank ∧ now.launches = (s.rank rank).launches) :
    Playing kernel launch numElems iters after party (event :: trace) (s.set rank now) := by
  have same := Function.update_eq_self rank party
  have moved : Playing kernel launch numElems iters after
      (Function.update party rank (party rank)) (event :: trace)
      { s.set rank now with inFlight := s.inFlight } := by
    refine playing.move (same.symm ▸ playing.rally) place (signal.trans (playing.signal rank))
      (same.symm ▸ playing.inFlight) ofRank own ?_ ?_ ?_ (silent.imp id And.right)
    · rcases silent with rfl | ⟨rfl, -⟩ <;> rfl
    · rcases silent with rfl | ⟨rfl, -⟩ <;> rfl
    · rintro (closed | reset)
      · exact closed
      · rcases silent with rfl | ⟨rfl, -⟩ <;> cases reset
  rw [same] at moved
  exact moved

theorem Playing.start (playing : Playing kernel launch numElems iters after party trace s)
    (plays : Plays kernel) {numElems' : Nat} {iters' : Int}
    (head : (s.rank rank).host = .launch numElems' iters' :: host) :
    Playing kernel launch numElems iters after party
      (.launched rank ((s.rank rank).launches + 1) :: trace)
      (s.set rank ((s.rank rank).launch (kernel rank numElems' iters') host)) := by
  obtain ⟨⟨rfl, rfl, rfl⟩, stream, launches, begun⟩ := (playing.place rank).of_launch head
  have onStream (host : List HostOp) :
      ((s.rank rank).launch (kernel rank numElems' iters') host).stream =
        (kernel rank numElems' iters').map (launch + 1, ·) := by
    rw [Local.launch, stream, launches]
    rfl
  refine playing.advance (.running rfl (onStream _) (congrArg (· + 1) launches)
    (plays.aimed rank numElems' iters') (by rw [begun])) rfl rfl (fun k mem => ?_) (.inl ?_)
  · rw [← Option.some.inj mem, launches]
  · rw [launches]

theorem Playing.synchronize (playing : Playing kernel launch numElems iters after party trace s)
    (head : (s.rank rank).host = .streamSynchronize :: host)
    (empty : (s.rank rank).stream = []) :
    Playing kernel launch numElems iters after party (.synchronized rank :: trace)
      (s.set rank ((s.rank rank).atHost host)) := by
  obtain ⟨rfl, launches, ops, stream, rest⟩ := (playing.place rank).of_synchronize head
  have none_ : ops = [] := List.map_eq_nil_iff.1 (stream.symm.trans empty)
  refine playing.advance (.behind rfl empty launches ?_) rfl rfl (fun k mem => ?_)
    (.inr ⟨rfl, rfl⟩)
  · rw [rest, none_]
    rfl
  · cases mem

/-! ### Operations -/

theorem eq_or_eq_peer : ∀ rank other : Rank, other = rank ∨ other = peer rank := by decide

theorem GinOp.count_sent (op : GinOp) : [op.event rank launch].count (.sent rank launch) =
    op.toRally.sends := by
  cases op <;> simp [event, toRally, Op.sends]

theorem GinOp.count_arrived (op : GinOp) :
    [op.event rank launch].count (.arrived rank launch) = 0 := by
  cases op <;> simp [event]

theorem GinOp.count_messages {op : GinOp} (aimed : op.Aimed rank) (message : Message) :
    (op.messages launch).count message =
      if message = ⟨peer rank, launch⟩ then op.toRally.sends else 0 := by
  cases op with
  | signal dst inc =>
    rw [GinOp.Aimed] at aimed
    rw [aimed]
    exact Multiset.count_singleton _ _
  | put dst numElems inc =>
    rw [GinOp.Aimed] at aimed
    rw [aimed]
    exact Multiset.count_singleton _ _
  | waitSignal least => exact (Multiset.count_zero _).trans (ite_self _).symm
  | resetSignal => exact (Multiset.count_zero _).trans (ite_self _).symm
  | flush => exact (Multiset.count_zero _).trans (ite_self _).symm

theorem GinOp.leaves_eq (op : GinOp) (p : Party) (rest : List Op) :
    op.leaves (if p.closed = true then 0 else p.arrived) =
      if (p.perform rest op.toRally).closed = true then 0
      else (p.perform rest op.toRally).arrived := by
  cases op <;> simp [leaves, toRally, Op.closes]

/-- What is ready on the network is ready in the rally. -/
theorem Playing.ready (playing : Playing kernel launch numElems iters after party trace s)
    {op : GinOp} (ready : op.Ready network s rank) : (party rank).Ready op.toRally := by
  cases op with
  | waitSignal least =>
    have at_ : least ≤ (s.rank rank).signal := ready
    rw [playing.signal] at at_
    split at at_
    · exact at_.trans (Nat.zero_le _)
    · exact at_
  | signal dst inc => trivial
  | put dst numElems inc => trivial
  | resetSignal => trivial
  | flush => trivial

/-- What is under way after an operation. -/
theorem Playing.count_inFlight (playing : Playing kernel launch numElems iters after party trace s)
    {op : GinOp} (aimed : op.Aimed rank) (rest : List Op) (message : Message) :
    let now := Function.update party rank ((party rank).perform rest op.toRally)
    (op.messages (launch + 1) + s.inFlight).count message = if message.launch = launch + 1 then
      (now (peer message.dst)).sent - (now message.dst).arrived else 0 := by
  intro now
  obtain ⟨dst, k⟩ := message
  have self : now rank = (party rank).perform rest op.toRally := Function.update_self _ _ _
  have other : now (peer rank) = party (peer rank) :=
    Function.update_of_ne (pairing.peer_ne rank) _ _
  rw [Multiset.count_add, op.count_messages aimed, playing.inFlight]
  rcases eq_or_eq_peer rank dst with rfl | rfl
  · have apart : (⟨dst, k⟩ : Message) ≠ ⟨peer dst, launch + 1⟩ := fun same =>
      pairing.peer_ne dst (congrArg Message.dst same).symm
    rw [if_neg apart, Nat.zero_add, other, self, Party.perform_arrived]
  · have arrived : (party (peer rank)).arrived ≤ (party (peer (peer rank))).sent :=
      playing.rally.arrived_le (peer rank)
    have back : peer (peer rank) = rank := pairing.peer_peer rank
    simp only [back, other, self, Party.perform_sent] at arrived ⊢
    by_cases same : k = launch + 1
    · rw [same, if_pos rfl, if_pos rfl, if_pos rfl]
      omega
    · rw [if_neg same, if_neg same, if_neg fun equal => same (congrArg Message.launch equal)]

theorem Playing.device (playing : Playing kernel launch numElems iters after party trace s)
    {k : Nat} {op : GinOp} {stream : List (Nat × GinOp)}
    (head : (s.rank rank).stream = (k, op) :: stream) (ready : op.Ready network s rank) :
    ∃ party, Playing kernel launch numElems iters after party (op.event rank k :: trace)
      { s.set rank ((s.rank rank).perform op stream) with
        inFlight := op.messages k + s.inFlight } := by
  obtain ⟨rfl, aimed, ops, rfl, others, rest, atHost, launches⟩ := (playing.place rank).head head
  have rally := playing.rally.perform rest (playing.ready ready)
  refine ⟨_, playing.move rally (.running atHost rfl launches others (Party.perform_rest _ _ _))
    ?_ (playing.count_inFlight aimed _) (by cases op <;> rfl) ?_ ?_ ?_ ?_ (.inr rfl)⟩
  · exact (congrArg op.leaves (playing.signal rank)).trans (op.leaves_eq _ _)
  · intro k mem
    cases op <;> exact (Option.some.inj mem).symm
  · rw [Party.perform_sent, op.count_sent]
  · rw [Party.perform_arrived, op.count_arrived, Nat.add_zero]
  · rw [Party.perform_closed]
    rintro (closed | reset)
    · rw [closed, Bool.true_or]
    · cases op <;> cases reset
      exact Bool.or_true _

/-- A signal under way is of this rally, and its receiver has not closed. -/
theorem Playing.of_mem (playing : Playing kernel launch numElems iters after party trace s)
    {message : Message} (sent : message ∈ s.inFlight) :
    message.launch = launch + 1 ∧
      (party message.dst).arrived < (party (peer message.dst)).sent ∧
      (party message.dst).closed = false := by
  have some_ := Multiset.count_pos.2 sent
  rw [playing.inFlight] at some_
  split at some_
  case isTrue own =>
    have less : (party message.dst).arrived < (party (peer message.dst)).sent := by omega
    exact ⟨own, less, playing.rally.not_closed less⟩
  case isFalse => omega

/-- What is under way after an arrival. -/
theorem Playing.count_erase (playing : Playing kernel launch numElems iters after party trace s)
    (message : Message) :
    let now := Function.update party rank (party rank).receive
    (s.inFlight.erase ⟨rank, launch + 1⟩).count message =
      if message.launch = launch + 1 then
        (now (peer message.dst)).sent - (now message.dst).arrived else 0 := by
  intro now
  obtain ⟨dst, k⟩ := message
  have self : now rank = (party rank).receive := Function.update_self _ _ _
  have other : now (peer rank) = party (peer rank) :=
    Function.update_of_ne (pairing.peer_ne rank) _ _
  rcases eq_or_eq_peer rank dst with rfl | rfl
  · rw [other, self]
    by_cases same : k = launch + 1
    · subst same
      rw [Multiset.count_erase_self, playing.inFlight, if_pos rfl, if_pos rfl]
      exact Nat.sub_sub _ _ 1
    · rw [Multiset.count_erase_of_ne fun equal => same (congrArg Message.launch equal),
        playing.inFlight, if_neg same, if_neg same]
  · have apart : (⟨peer rank, k⟩ : Message) ≠ ⟨rank, launch + 1⟩ := fun same =>
      pairing.peer_ne rank (congrArg Message.dst same)
    have back : peer (peer rank) = rank := pairing.peer_peer rank
    rw [Multiset.count_erase_of_ne apart, playing.inFlight]
    simp only [back, other, self, Party.receive]

theorem Playing.deliver (playing : Playing kernel launch numElems iters after party trace s)
    {message : Message} (sent : message ∈ s.inFlight) :
    ∃ party, Playing kernel launch numElems iters after party
      (.arrived message.dst message.launch :: trace)
      { s.set message.dst (s.rank message.dst).receive with
        inFlight := s.inFlight.erase message } := by
  obtain ⟨own, less, opened⟩ := playing.of_mem sent
  obtain ⟨dst, k⟩ := message
  obtain rfl : k = launch + 1 := own
  refine ⟨_, playing.move (playing.rally.receive less) ?_ ?_ playing.count_erase rfl
    (fun k mem => (Option.some.inj mem).symm) ?_ ?_ ?_ (.inr rfl)⟩
  · cases playing.place dst with
    | ahead host stream launches begun =>
      refine .ahead host stream launches ?_
      rw [Party.receive, begun]
    | running host stream launches aimed rest => exact .running host stream launches aimed rest
    | behind host stream launches rest => exact .behind host stream launches rest
  · have signal := playing.signal dst
    rw [opened] at signal
    rw [Party.receive, opened]
    exact congrArg (· + 1) signal
  · rw [List.count_eq_zero_of_not_mem]
    · rfl
    · simp
  · rw [List.count_singleton_self]
    rfl
  · rintro (closed | reset)
    · exact closed
    · cases reset

/-- When both hosts are at the barrier the rally is over. -/
theorem Playing.close (playing : Playing kernel launch numElems iters after party trace s)
    {hosts : Rank → List HostOp} (heads : ∀ rank, (s.rank rank).host = .barrier :: hosts rank) :
    Idle (launch + 1) (.barrier :: after) trace s := by
  have behind (rank : Rank) : (s.rank rank).host = .barrier :: after ∧
      (s.rank rank).stream = [] ∧ (s.rank rank).launches = launch + 1 ∧
      (party rank).rest = [] := by
    obtain ⟨same, stream, launches, rest⟩ := (playing.place rank).of_barrier (heads rank)
    exact ⟨same ▸ heads rank, stream, launches, rest⟩
  have done (rank : Rank) : (party rank).sent = iters.toNat ∧
      (party rank).waited = iters.toNat ∧ (party rank).closed = true := by
    have follows := playing.rally.follows rank
    rw [Party.Follows, (behind rank).2.2.2] at follows
    exact follows
  refine ⟨fun rank => ?_, ?_, fun past le rank => ?_, playing.before⟩
  · obtain ⟨host, stream, launches, -⟩ := behind rank
    have signal := playing.signal rank
    rw [(done rank).2.2] at signal
    cases at_ : s.rank rank
    simp_all
  · refine Multiset.eq_zero_of_forall_notMem fun message sent => ?_
    have closed := (playing.of_mem sent).2.2
    rw [(done _).2.2] at closed
    cases closed
  · rcases Nat.lt_or_eq_of_le le with earlier | rfl
    · exact playing.level past (Nat.le_of_lt_succ earlier) rank
    · rw [playing.sent, playing.sent, (done _).1, (done _).1]

/-- Between rallies only the hosts move, and unless a rally begins they meet. -/
theorem Idle.of_step (idle : Idle launch host trace s)
    (meets : ∀ op ∈ host.head?, op = .barrier) (step : Step network kernel s event t) :
    ∃ after, host = .barrier :: after ∧ event = .barrier ∧
      t = { s with rank := fun rank => (s.rank rank).atHost after } := by
  cases step with
  | launch head =>
    rw [idle.rank_eq] at head
    obtain rfl := head
    cases meets _ rfl
  | streamSynchronize head _ =>
    rw [idle.rank_eq] at head
    obtain rfl := head
    cases meets _ rfl
  | @barrier hosts heads =>
    have same (rank : Rank) : host = .barrier :: hosts rank := by
      rw [← heads rank, idle.rank_eq]
    refine ⟨hosts 0, same 0, rfl, ?_⟩
    have level (rank : Rank) : hosts rank = hosts 0 :=
      List.tail_eq_of_cons_eq ((same rank).symm.trans (same 0))
    simp only [level]
  | device head _ =>
    rw [idle.rank_eq] at head
    cases head
  | deliver sent =>
    rw [idle.inFlight] at sent
    cases sent

theorem Idle.meet (idle : Idle launch (.barrier :: after) trace s)
    (step : Step network kernel s event t) : Idle launch after (event :: trace) t := by
  obtain ⟨_, same, rfl, rfl⟩ := idle.of_step (fun op mem => (Option.some.inj mem).symm) step
  obtain rfl := List.tail_eq_of_cons_eq same
  refine ⟨fun rank => ?_, idle.inFlight, fun past le rank => ?_, idle.before.cons nofun⟩
  · exact congrArg (Local.atHost · _) (idle.rank_eq rank)
  · have unchanged (rank : Rank) : (Event.barrier :: trace).count (.sent rank past) =
        trace.count (.sent rank past) := count_cons_of_launch nofun
    rw [unchanged, unchanged]
    exact idle.level past le rank

theorem Idle.not_step (idle : Idle launch [] trace s) : ¬ Step network kernel s event t := by
  intro step
  obtain ⟨_, some_, -⟩ := idle.of_step nofun step
  cases some_

theorem Inv.step (plays : Plays kernel) (inv : Inv kernel trace s)
    (step : Step network kernel s event t) : Inv kernel (event :: trace) t := by
  cases inv with
  | finished idle => exact absurd step idle.not_step
  | meeting separated idle => exact .of_idle plays separated (idle.meet step)
  | playing separated playing =>
    cases step with
    | launch head => exact .playing separated (playing.start plays head)
    | streamSynchronize head empty => exact .playing separated (playing.synchronize head empty)
    | barrier heads =>
      have meet : Step network kernel s .barrier _ := .barrier heads
      exact .of_idle plays separated ((playing.close heads).meet meet)
    | device head ready =>
      obtain ⟨party, moved⟩ := playing.device head ready
      exact .playing separated moved
    | deliver sent =>
      obtain ⟨party, moved⟩ := playing.deliver sent
      exact .playing separated moved

/-- **Every point of a run is in a rally or between two.** -/
theorem Run.inv {program : HostProgram} (plays : Plays kernel)
    (run : Run network kernel program trace s) : Inv kernel trace s := by
  induction run with
  | init =>
    have idle : Idle 0 program.ops [] (initial program) :=
      ⟨fun _ => rfl, rfl, fun _ _ _ => rfl, fun _ mem => absurd mem List.not_mem_nil⟩
    exact .of_idle plays program.separated idle
  | step _ step ih => exact ih.step plays step

/-! ## What holds at every point -/

theorem Idle.clear (idle : Idle launch host trace s) : s.Clear := by
  refine ⟨fun rank => ?_, idle.inFlight⟩
  rw [idle.rank_eq]

theorem Idle.sent_le (idle : Idle launch host trace s) (rank : Rank) (k : Nat) :
    trace.count (.sent rank k) ≤ trace.count (.sent (peer rank) k) + 1 := by
  rcases Nat.lt_or_ge launch k with future | past
  · rw [idle.before.count_eq_zero rfl future]
    exact Nat.zero_le _
  · rw [idle.level k past]
    exact Nat.le_succ _

theorem Playing.sent_le (playing : Playing kernel launch numElems iters after party trace s)
    (rank : Rank) (k : Nat) :
    trace.count (.sent rank k) ≤ trace.count (.sent (peer rank) k) + 1 := by
  rcases lt_trichotomy k (launch + 1) with past | rfl | future
  · rw [playing.level k (Nat.le_of_lt_succ past)]
    exact Nat.le_succ _
  · rw [playing.sent, playing.sent]
    exact playing.rally.sent_le rank
  · rw [playing.before.count_eq_zero rfl future]
    exact Nat.zero_le _

theorem Playing.inFlight_le (playing : Playing kernel launch numElems iters after party trace s) :
    s.inFlight.card ≤ 1 := by
  have all : ∀ message ∈ s.inFlight,
      message ∈ ({⟨0, launch + 1⟩, ⟨1, launch + 1⟩} : Finset Message) := by
    intro message sent
    obtain ⟨own, -⟩ := playing.of_mem sent
    obtain ⟨dst, k⟩ := message
    obtain rfl : k = launch + 1 := own
    rcases eq_or_eq_peer 0 dst with rfl | rfl
    · exact Finset.mem_insert_self _ _
    · exact Finset.mem_insert_of_mem (Finset.mem_singleton_self _)
  have apart : (⟨0, launch + 1⟩ : Message) ≠ ⟨1, launch + 1⟩ := fun same =>
    zero_ne_one (congrArg Message.dst same)
  have two := playing.rally.inFlight_le 0
  rw [← Multiset.sum_count_eq_card all, Finset.sum_pair apart, playing.inFlight, playing.inFlight,
    if_pos rfl, if_pos rfl]
  exact two

/-- A wait for a signal has got all it asked for from this launch, and nothing else. -/
theorem Playing.waited (playing : Playing kernel launch numElems iters after party trace s)
    {k least : Nat} {stream : List (Nat × GinOp)}
    (head : (s.rank rank).stream = (k, .waitSignal least) :: stream)
    (ready : least ≤ (s.rank rank).signal) :
    trace.count (.arrived rank k) = least ∧ (s.rank rank).signal = least := by
  obtain ⟨rfl, -, ops, -, -, rest, -⟩ := (playing.place rank).head head
  have follows := playing.rally.follows rank
  rw [Party.Follows, rest] at follows
  have signal := playing.signal rank
  rw [follows.2.2.2.1, if_neg Bool.false_ne_true] at signal
  have exact_ := playing.rally.arrived_of_wait rest (signal ▸ ready)
  exact ⟨(playing.arrived rank).trans exact_, signal.trans exact_⟩

/-- The first launch of a rally finds nothing that is left over. -/
theorem Playing.clear (playing : Playing kernel launch numElems iters after party trace s)
    {numElems' : Nat} {iters' : Int}
    (head : (s.rank rank).host = .launch numElems' iters' :: host)
    (alone : .launched (peer rank) ((s.rank rank).launches + 1) ∉ trace) : s.Clear := by
  obtain ⟨own, launches⟩ : ((party rank).sent = 0 ∧ (party rank).closed = false) ∧
      (s.rank rank).launches = launch := by
    obtain ⟨-, -, launches, begun⟩ := (playing.place rank).of_launch head
    rw [begun]
    exact ⟨⟨rfl, rfl⟩, launches⟩
  have other : (party (peer rank)).sent = 0 ∧ (party (peer rank)).closed = false := by
    have still := playing.launched _ (launches ▸ alone)
    cases playing.place (peer rank) with
    | ahead _ _ _ begun =>
      rw [begun]
      exact ⟨rfl, rfl⟩
    | running _ _ more _ _ => omega
    | behind _ _ more _ => omega
  have both (r : Rank) : (party r).sent = 0 ∧ (party r).closed = false := by
    rcases eq_or_eq_peer rank r with rfl | rfl
    · exact own
    · exact other
  refine ⟨fun r => ?_, Multiset.eq_zero_of_forall_notMem fun message sent => ?_⟩
  · have arrived : (party r).arrived ≤ (party (peer r)).sent := playing.rally.arrived_le r
    rw [(both (peer r)).1] at arrived
    rw [playing.signal, (both r).2]
    exact Nat.le_zero.1 arrived
  · have less := (playing.of_mem sent).2.1
    rw [(both _).1] at less
    omega

/-! ## No run gets stuck -/

/-- An operation that is ready in the rally can be performed when nothing is under way. -/
theorem Playing.step_of_ready
    (playing : Playing kernel launch numElems iters after party trace s)
    (still : s.inFlight = 0) {op : Op} {rest : List Op} (head : (party rank).rest = op :: rest)
    (ready : (party rank).Ready op) : ∃ event t, Step network kernel s event t := by
  cases playing.place rank with
  | ahead host _ _ _ => exact ⟨_, _, .launch host⟩
  | @running ops _ stream _ _ onStream =>
    rw [head] at onStream
    cases ops with
    | nil => cases onStream
    | cons first ops =>
      refine ⟨_, _, .device stream ?_⟩
      cases first with
      | waitSignal least =>
        cases onStream
        have follows := playing.rally.follows rank
        rw [Party.Follows, head] at follows
        rw [GinOp.Ready, playing.signal, follows.2.2.2.1]
        exact ready
      | flush =>
        refine network.flush _ _ fun message sent => ?_
        rw [still] at sent
        cases sent
      | _ => trivial
  | behind _ _ _ done =>
    rw [done] at head
    cases head

/-- With nothing under way a rank can step, or is at the barrier, or waits for a signal. -/
theorem Playing.step_or (playing : Playing kernel launch numElems iters after party trace s)
    (still : s.inFlight = 0) (rank : Rank) :
    (∃ event t, Step network kernel s event t) ∨ (s.rank rank).host = .barrier :: after ∨
      ∃ least rest, (party rank).rest = .wait least :: rest ∧ (party rank).arrived < least := by
  cases playing.place rank with
  | ahead host _ _ _ => exact .inl ⟨_, _, .launch host⟩
  | behind host _ _ _ => exact .inr (.inl host)
  | @running ops host stream _ _ rest =>
    cases ops with
    | nil => exact .inl ⟨_, _, .streamSynchronize host stream⟩
    | cons first ops =>
      rw [List.map_cons] at rest
      by_cases ready : (party rank).Ready first.toRally
      · exact .inl (playing.step_of_ready still rest ready)
      · cases first with
        | waitSignal least => exact .inr (.inr ⟨least, _, rest, not_le.1 ready⟩)
        | _ => exact absurd trivial ready

theorem Playing.progress (playing : Playing kernel launch numElems iters after party trace s) :
    ∃ event t, Step network kernel s event t := by
  rcases s.inFlight.empty_or_exists_mem with still | ⟨message, sent⟩
  swap
  · exact ⟨_, _, .deliver sent⟩
  have arrived : ∀ r, (party r).arrived = (party (pairing.peer r)).sent := by
    intro r
    have none_ := playing.inFlight ⟨r, launch + 1⟩
    rw [still, Multiset.count_zero, if_pos rfl] at none_
    exact le_antisymm (playing.rally.arrived_le r) (Nat.sub_eq_zero_iff_le.1 none_.symm)
  have waits {r : Rank} (waits : ∃ least rest, (party r).rest = .wait least :: rest ∧
      (party r).arrived < least) : ∃ event t, Step network kernel s event t := by
    obtain ⟨least, rest, head, blocked⟩ := waits
    obtain ⟨op, rest, other, ready⟩ := playing.rally.exists_ready arrived head blocked
    exact playing.step_of_ready still other ready
  have ways : ∀ r, (∃ event t, Step network kernel s event t) ∨ _ := playing.step_or still
  rcases ways 0 with step | zero | blocked
  · exact step
  · rcases ways 1 with step | one | blocked
    · exact step
    · have heads : ∀ r, (s.rank r).host = .barrier :: after := Fin.forall_fin_two.2 ⟨zero, one⟩
      exact ⟨_, _, .barrier heads⟩
    · exact waits blocked
  · exact waits blocked

end Run

/-- What a point of a run promises. -/
structure NeverLoses (network : Network) (kernel : Kernel) (program : HostProgram)
    (trace : List Event) (s : State) : Prop where
  /-- In no launch does a rank send two signals more than the other. -/
  sent_le : ∀ rank launch,
    trace.count (.sent rank launch) ≤ trace.count (.sent (peer rank) launch) + 1
  inFlight_le : s.inFlight.card ≤ 1
  /-- When `waitSignal(least)` returns, so many signals of its launch have arrived. -/
  waited : ∀ rank launch least t, Step network kernel s (.waited rank launch least) t →
    trace.count (.arrived rank launch) = least ∧ (s.rank rank).signal = least
  /-- No signal arrives after `resetSignal` in its launch. -/
  not_reset : ∀ rank launch t, Step network kernel s (.arrived rank launch) t →
    .reset rank launch ∉ trace
  /-- The barrier opens on clear signals. -/
  barrier : ∀ t, Step network kernel s .barrier t → s.Clear
  /-- So does the first of the two launches. -/
  launched : ∀ rank launch t, Step network kernel s (.launched rank launch) t →
    .launched (peer rank) launch ∉ trace → s.Clear
  /-- The ranks do not wait for each other for ever. -/
  progress : Finished s ∨ ∃ event t, Step network kernel s event t
  /-- Nor do they go on for ever. -/
  length_le : trace.length ≤ (initial program).work kernel

section Promise

variable {network : Network} {kernel : Kernel} {program : HostProgram} {launch numElems : Nat}
  {iters : Int} {after host : List HostOp} {party : Rank → Party} {trace : List Event} {s : State}

theorem Idle.neverLoses (idle : Idle launch host trace s)
    (progress : Finished s ∨ ∃ event t, Step network kernel s event t)
    (length_le : trace.length ≤ (initial program).work kernel) :
    NeverLoses network kernel program trace s where
  sent_le := idle.sent_le
  inFlight_le := by
    rw [idle.inFlight]
    exact Nat.zero_le _
  waited rank k least t step := by
    obtain ⟨⟨stream, head⟩, -⟩ := step.of_waited
    rw [idle.rank_eq] at head
    cases head
  not_reset rank k t step := by
    have sent := step.of_arrived
    rw [idle.inFlight] at sent
    cases sent
  barrier _ _ := idle.clear
  launched _ _ _ _ _ := idle.clear
  progress := progress
  length_le := length_le

theorem Playing.neverLoses (playing : Playing kernel launch numElems iters after party trace s)
    (length_le : trace.length ≤ (initial program).work kernel) :
    NeverLoses network kernel program trace s where
  sent_le := playing.sent_le
  inFlight_le := playing.inFlight_le
  waited rank k least t step := by
    obtain ⟨⟨stream, head⟩, ready⟩ := step.of_waited
    exact playing.waited head ready
  not_reset rank k t step reset := by
    obtain ⟨own, -, opened⟩ := playing.of_mem step.of_arrived
    obtain rfl : k = launch + 1 := own
    have closed := playing.reset rank reset
    rw [opened] at closed
    cases closed
  barrier t step := by
    obtain ⟨hosts, heads⟩ := step.of_barrier
    exact (playing.close heads).clear
  launched rank k t step alone := by
    obtain ⟨rfl, _, _, _, head⟩ := step.of_launched
    exact playing.clear head alone
  progress := .inr playing.progress
  length_le := length_le

end Promise

/-- **Ping-pong never loses or reuses a signal**: at every point of every run of either
kernel, for any program whose launches are separated by a wait for the stream and a barrier,
any counts of iterations and any delay of signals and flushes.

A run is always between two launches or inside one (`Inv`), where each rank is somewhere in a
rally that rank 1 opens: it sends only after the signal before has come, so that neither gets
ahead of the other by more than one, and both clear their signal after the last one. -/
theorem pingPong_neverLoses (bench : Bench) (args : Args) (network : Network)
    (program : HostProgram) {trace : List Event} {s : State}
    (run : Run network (bench.run args) program trace s) :
    NeverLoses network (bench.run args) program trace s := by
  have length_le : trace.length ≤ (initial program).work (bench.run args) :=
    (Nat.le_add_right _ _).trans run.length_add_work_le
  cases run.inv (bench.plays args) with
  | finished idle =>
    have done (rank : Rank) : (s.rank rank).host = [] ∧ (s.rank rank).stream = [] := by
      rw [idle.rank_eq]
      exact ⟨rfl, rfl⟩
    exact idle.neverLoses (.inl ⟨done, idle.inFlight⟩) length_le
  | @meeting _ after separated idle =>
    have heads (rank : Rank) : (s.rank rank).host = .barrier :: after := by rw [idle.rank_eq]
    exact idle.neverLoses (.inr ⟨_, _, .barrier heads⟩) length_le
  | playing separated playing => exact playing.neverLoses length_le

/-- A warm-up and a measured launch of two iterations each, up to the point where rank 0 has its
second signal in the second launch, and its wait for two returns. -/
theorem pingPong_neverLoses_two :
    let args : Args := ⟨4, 4, 2, 0, 2, 2, false, false, 1024⟩
    let network : Network := ⟨fun _ _ => True, fun _ _ _ => trivial⟩
    let program : HostProgram :=
      ⟨sizeOps args 4 ++ [.barrier], .sizeOps_append args 4 (.barrier .nil)⟩
    ∃ (trace : List Event) (s t : State), Run network (Bench.ginSignal.run args) program trace s ∧
      Step network (Bench.ginSignal.run args) s (.waited 0 2 2) t ∧
      trace.count (.arrived 0 1) = 2 ∧ trace.count (.arrived 0 2) = 2 ∧ (s.rank 0).signal = 2 := by
  intro args network program
  let kernel := Bench.ginSignal.run args
  have launch {trace : List Event} {s : State} (rank : Rank) {numElems : Nat} {iters : Int}
      {host : List HostOp} (run : Run network kernel program trace s)
      (head : (s.rank rank).host = .launch numElems iters :: host) := run.step (.launch head)
  have device {trace : List Event} {s : State} (rank : Rank) {k : Nat} {op : GinOp}
      {stream : List (Nat × GinOp)} (run : Run network kernel program trace s)
      (head : (s.rank rank).stream = (k, op) :: stream) (ready : op.Ready network s rank) :=
    run.step (.device head ready)
  have deliver {trace : List Event} {s : State} (dst : Rank) {k : Nat}
      {inFlight : Multiset Message} (run : Run network kernel program trace s)
      (sent : s.inFlight = {⟨dst, k⟩} + inFlight) :=
    run.step (@Step.deliver _ _ _ ⟨dst, k⟩
      (sent ▸ Multiset.mem_add.2 (.inl (Multiset.mem_singleton_self _))))
  have synchronize {trace : List Event} {s : State} (rank : Rank) {host : List HostOp}
      (run : Run network kernel program trace s)
      (head : (s.rank rank).host = .streamSynchronize :: host) (idle : (s.rank rank).stream = []) :=
    run.step (.streamSynchronize head idle)
  have waits {trace : List Event} {s t : State} (run : Run network kernel program trace s)
      (warm : trace.count (.arrived 0 1) = 2) (wait : Step network kernel s (.waited 0 2 2) t) :
      ∃ (trace : List Event) (s t : State), Run network kernel program trace s ∧
        Step network kernel s (.waited 0 2 2) t ∧ trace.count (.arrived 0 1) = 2 ∧
        trace.count (.arrived 0 2) = 2 ∧ (s.rank 0).signal = 2 :=
    ⟨trace, s, t, run, wait, warm,
      (pingPong_neverLoses .ginSignal args network program run).waited 0 2 2 t wait⟩
  -- the warm-up, and the barrier behind it
  have served := deliver 0 (device 1 (launch 0 (launch 1 .init rfl) rfl) rfl trivial) rfl
  have answered := deliver 1 (device 0 (device 0 served rfl le_rfl) rfl trivial) rfl
  have served := deliver 0 (device 1 (device 1 answered rfl le_rfl) rfl trivial) rfl
  have answered := deliver 1 (device 0 (device 0 served rfl le_rfl) rfl trivial) rfl
  have reset := device 1 (device 0 (device 1 answered rfl le_rfl) rfl trivial) rfl trivial
  have flushed := device 1 (device 0 reset rfl trivial) rfl trivial
  have idle := synchronize 1 (synchronize 0 flushed rfl rfl) rfl rfl
  have met := idle.step (@Step.barrier _ _ _ (fun _ => _) (Fin.forall_fin_two.2 ⟨rfl, rfl⟩))
  -- the measured launch, up to the second signal of rank 1
  have served := deliver 0 (device 1 (launch 0 (launch 1 met rfl) rfl) rfl trivial) rfl
  have answered := deliver 1 (device 0 (device 0 served rfl le_rfl) rfl trivial) rfl
  have served := deliver 0 (device 1 (device 1 answered rfl le_rfl) rfl trivial) rfl
  exact waits served rfl (@Step.device _ _ _ 0 2 (.waitSignal 2) _ rfl (le_refl 2))

end NcclTests.Gin
