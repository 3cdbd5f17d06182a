import Mathlib

/-!
# A rally of counted signals

Two parties send signals to each other in turn. A party counts the signals that
have arrived and waits for the next one by its absolute number; one of the two sends
first. `Follows` is the discipline that the operations of a party keep: it sends and waits
alternately, `n` times each, and closes when it has done both.

The discipline and the fact that nothing arrives before it is sent are all that
`Inv` says of a rally. From it:

* `Inv.inFlight_le`: at most one signal is under way;
* `Inv.arrived_of_wait`: a wait that returns has got exactly what it asked for;
* `Inv.not_closed`: nothing arrives at a party that has closed;
* `Inv.exists_ready`: the parties never wait for each other.
-/

namespace Rally

/-- What a party does; `pass` has no part in the rally. -/
inductive Op
  | wait (least : Nat)
  | send
  | close
  | pass

/-- The operations left to a party that has sent and waited so many times. Whoever
sends first is ahead of its waits, the other one behind. -/
def Follows (first : Bool) (n : Nat) : Nat → Nat → Bool → List Op → Prop
  | sent, waited, closed, [] => sent = n ∧ waited = n ∧ closed = true
  | sent, waited, closed, .wait least :: ops =>
    least = waited + 1 ∧ sent = waited + first.toNat ∧ waited < n ∧ closed = false ∧
      Follows first n sent (waited + 1) closed ops
  | sent, waited, closed, .send :: ops =>
    waited + first.toNat = sent + 1 ∧ sent < n ∧ closed = false ∧
      Follows first n (sent + 1) waited closed ops
  | sent, waited, closed, .close :: ops =>
    sent = n ∧ waited = n ∧ closed = false ∧ Follows first n sent waited true ops
  | sent, waited, closed, .pass :: ops => Follows first n sent waited closed ops

/-- Where a party is. -/
structure Party where
  sent : Nat
  waited : Nat
  arrived : Nat
  closed : Bool
  rest : List Op

def Party.Follows (p : Party) (first : Bool) (n : Nat) : Prop :=
  Rally.Follows first n p.sent p.waited p.closed p.rest

/-- The party after its next operation. -/
def Party.perform (p : Party) (rest : List Op) : Op → Party
  | .wait _ => { p with waited := p.waited + 1, rest := rest }
  | .send => { p with sent := p.sent + 1, rest := rest }
  | .close => { p with closed := true, rest := rest }
  | .pass => { p with rest := rest }

def Op.sends : Op → Nat
  | .send => 1
  | _ => 0

def Op.closes : Op → Bool
  | .close => true
  | _ => false

section Perform

variable (p : Party) (rest : List Op) (op : Op)

@[simp] theorem Party.perform_rest : (p.perform rest op).rest = rest := by cases op <;> rfl

@[simp] theorem Party.perform_arrived : (p.perform rest op).arrived = p.arrived := by
  cases op <;> rfl

@[simp] theorem Party.perform_sent : (p.perform rest op).sent = p.sent + op.sends := by
  cases op <;> rfl

@[simp] theorem Party.perform_closed : (p.perform rest op).closed = (p.closed || op.closes) := by
  cases op <;> simp [perform, Op.closes]

end Perform

def Party.receive (p : Party) : Party := { p with arrived := p.arrived + 1 }

/-- A wait returns once as many signals have arrived. -/
def Party.Ready (p : Party) : Op → Prop
  | .wait least => least ≤ p.arrived
  | _ => True

/-- Who plays whom, and who begins. -/
structure Pairing (ι : Type*) where
  peer : ι → ι
  first : ι → Bool
  peer_peer : ∀ i, peer (peer i) = i
  first_peer : ∀ i, first (peer i) = !first i

variable {ι : Type*} {pairing : Pairing ι} {n : Nat}

theorem Pairing.peer_ne (pairing : Pairing ι) (i : ι) : pairing.peer i ≠ i := by
  intro same
  have flip := pairing.first_peer i
  rw [same] at flip
  cases first : pairing.first i <;> simp [first] at flip

/-- A party sends first, or its peer does. -/
theorem Pairing.first_or (pairing : Pairing ι) (i : ι) :
    pairing.first i = true ∨ ∃ j, pairing.first j = true ∧ i = pairing.peer j := by
  cases first : pairing.first i with
  | true => exact .inl rfl
  | false =>
    refine .inr ⟨pairing.peer i, ?_, (pairing.peer_peer i).symm⟩
    rw [pairing.first_peer, first]
    rfl

/-! ## The discipline -/

section Discipline

variable {first : Bool} {sent waited : Nat} {closed : Bool} {ops : List Op}

/-- A party's sends and waits are never further apart than one turn. -/
theorem Follows.turn (follows : Follows first n sent waited closed ops) :
    sent ≤ waited + first.toNat ∧ waited + first.toNat ≤ sent + 1 := by
  induction ops generalizing sent waited closed with
  | nil =>
    obtain ⟨rfl, rfl, -⟩ := follows
    have := first.toNat_le
    omega
  | cons op ops ih =>
    have := first.toNat_le
    cases op with
    | wait least =>
      obtain ⟨-, level, -⟩ := follows
      omega
    | send =>
      obtain ⟨ahead, -⟩ := follows
      omega
    | close =>
      obtain ⟨rfl, rfl, -⟩ := follows
      omega
    | pass => exact ih follows

theorem Follows.le (follows : Follows first n sent waited closed ops) :
    sent ≤ n ∧ waited ≤ n := by
  induction ops generalizing sent waited closed with
  | nil =>
    obtain ⟨rfl, rfl, -⟩ := follows
    omega
  | cons op ops ih =>
    cases op with
    | wait least =>
      obtain ⟨-, -, less, -, rest⟩ := follows
      exact ⟨(ih rest).1, less.le⟩
    | send =>
      obtain ⟨-, less, -, rest⟩ := follows
      exact ⟨less.le, (ih rest).2⟩
    | close =>
      obtain ⟨rfl, rfl, -⟩ := follows
      omega
    | pass => exact ih follows

/-- A party closes when all is done. -/
theorem Follows.closed_done (follows : Follows first n sent waited true ops) :
    sent = n ∧ waited = n := by
  induction ops generalizing sent waited with
  | nil => exact ⟨follows.1, follows.2.1⟩
  | cons op ops ih =>
    cases op with
    | wait least => exact absurd follows.2.2.2.1 (by decide)
    | send => exact absurd follows.2.2.1 (by decide)
    | close => exact absurd follows.2.2.1 (by decide)
    | pass => exact ih follows

theorem Party.Follows.perform {p : Party} {op : Op} (follows : p.Follows first n)
    (head : p.rest = op :: ops) : (p.perform ops op).Follows first n := by
  rw [Party.Follows, head] at follows
  cases op with
  | wait least => exact follows.2.2.2.2
  | send => exact follows.2.2.2
  | close => exact follows.2.2.2
  | pass => exact follows

end Discipline

/-! ## The invariant -/

/-- Both parties keep the discipline, and nothing arrives before it is sent. -/
structure Inv (pairing : Pairing ι) (n : Nat) (party : ι → Party) : Prop where
  follows : ∀ i, (party i).Follows (pairing.first i) n
  waited_le : ∀ i, (party i).waited ≤ (party i).arrived
  arrived_le : ∀ i, (party i).arrived ≤ (party (pairing.peer i)).sent

section Rules

variable {party : ι → Party} {i : ι} {op : Op} {ops : List Op}

/-- A rally that is about to begin. -/
theorem Inv.start {rest : ι → List Op}
    (follows : ∀ i, Follows (pairing.first i) n 0 0 false (rest i)) :
    Inv pairing n fun i => ⟨0, 0, 0, false, rest i⟩ where
  follows := follows
  waited_le _ := le_rfl
  arrived_le _ := le_rfl

variable [DecidableEq ι]

/-- Replacing one party. -/
theorem Inv.update (inv : Inv pairing n party) {now : Party}
    (follows : now.Follows (pairing.first i) n) (waited_le : now.waited ≤ now.arrived)
    (arrived_le : now.arrived ≤ (party (pairing.peer i)).sent)
    (sent_le : (party i).sent ≤ now.sent) :
    Inv pairing n (Function.update party i now) where
  follows j := by
    rcases eq_or_ne j i with rfl | other
    · rwa [Function.update_self]
    · rw [Function.update_of_ne other]
      exact inv.follows j
  waited_le j := by
    rcases eq_or_ne j i with rfl | other
    · rwa [Function.update_self]
    · rw [Function.update_of_ne other]
      exact inv.waited_le j
  arrived_le j := by
    rcases eq_or_ne j i with rfl | other
    · rwa [Function.update_self, Function.update_of_ne (pairing.peer_ne j)]
    · rw [Function.update_of_ne other]
      refine (inv.arrived_le j).trans ?_
      rcases eq_or_ne (pairing.peer j) i with same | apart
      · rwa [same, Function.update_self]
      · rw [Function.update_of_ne apart]

/-- An operation that is ready keeps the invariant. -/
theorem Inv.perform (inv : Inv pairing n party) (head : (party i).rest = op :: ops)
    (ready : (party i).Ready op) :
    Inv pairing n (Function.update party i ((party i).perform ops op)) := by
  have follows := (inv.follows i).perform head
  have waited := inv.waited_le i
  have arrived := inv.arrived_le i
  cases op with
  | wait least =>
    have next := inv.follows i
    rw [Party.Follows, head] at next
    exact inv.update follows (next.1 ▸ ready) arrived le_rfl
  | send => exact inv.update follows waited arrived (Nat.le_succ _)
  | close => exact inv.update follows waited arrived le_rfl
  | pass => exact inv.update follows waited arrived le_rfl

/-- An arrival keeps the invariant. -/
theorem Inv.receive (inv : Inv pairing n party)
    (sent : (party i).arrived < (party (pairing.peer i)).sent) :
    Inv pairing n (Function.update party i (party i).receive) :=
  inv.update (inv.follows i) ((inv.waited_le i).trans (Nat.le_succ _)) sent le_rfl

end Rules

/-! ## What follows from it -/

section Consequences

variable {party : ι → Party} {i : ι} {ops : List Op}

/-- The counts of both parties in the order in which a signal passes through them, from
the waits of the one that sends first to its sends. -/
theorem Inv.chain (inv : Inv pairing n party) (first : pairing.first i = true) :
    (party i).waited ≤ (party i).arrived ∧
    (party i).arrived ≤ (party (pairing.peer i)).sent ∧
    (party (pairing.peer i)).sent ≤ (party (pairing.peer i)).waited ∧
    (party (pairing.peer i)).waited ≤ (party (pairing.peer i)).arrived ∧
    (party (pairing.peer i)).arrived ≤ (party i).sent ∧
    (party i).sent ≤ (party i).waited + 1 := by
  have own := (inv.follows i).turn
  have others := (inv.follows (pairing.peer i)).turn
  have back := inv.arrived_le (pairing.peer i)
  rw [pairing.first_peer] at others
  rw [pairing.peer_peer] at back
  rw [first] at own others
  exact ⟨inv.waited_le i, inv.arrived_le i, others.1, inv.waited_le _, back, own.1⟩

/-- Neither party is ahead by more than one signal. -/
theorem Inv.sent_le (inv : Inv pairing n party) (i : ι) :
    (party i).sent ≤ (party (pairing.peer i)).sent + 1 := by
  rcases pairing.first_or i with first | ⟨j, first, rfl⟩
  · have := inv.chain first
    omega
  · have := inv.chain first
    rw [pairing.peer_peer]
    omega

/-- At most one signal is under way. -/
theorem Inv.inFlight_le (inv : Inv pairing n party) (i : ι) :
    (party (pairing.peer i)).sent - (party i).arrived +
      ((party i).sent - (party (pairing.peer i)).arrived) ≤ 1 := by
  rcases pairing.first_or i with first | ⟨j, first, rfl⟩
  · have := inv.chain first
    omega
  · have := inv.chain first
    rw [pairing.peer_peer]
    omega

/-- A wait returns at the very number that it asks for. -/
theorem Inv.arrived_of_wait (inv : Inv pairing n party) {least : Nat}
    (head : (party i).rest = .wait least :: ops) (enough : least ≤ (party i).arrived) :
    (party i).arrived = least := by
  have follows := inv.follows i
  rw [Party.Follows, head] at follows
  obtain ⟨next, level, -⟩ := follows
  rcases pairing.first_or i with first | ⟨j, first, rfl⟩
  · have := inv.chain first
    omega
  · have := inv.chain first
    omega

/-- A party with a signal under way to it has not closed. -/
theorem Inv.not_closed (inv : Inv pairing n party)
    (sent : (party i).arrived < (party (pairing.peer i)).sent) : (party i).closed = false := by
  by_contra shut
  have follows := inv.follows i
  rw [Party.Follows, Bool.eq_true_of_not_eq_false shut] at follows
  have done := follows.closed_done.2
  have most := (inv.follows (pairing.peer i)).le.1
  have waited := inv.waited_le i
  omega

/-- When nothing is under way, a party that waits has a peer that need not: the peer has
an operation left, and it is ready. -/
theorem Inv.exists_ready (inv : Inv pairing n party)
    (still : ∀ j, (party j).arrived = (party (pairing.peer j)).sent) {least : Nat}
    (head : (party i).rest = .wait least :: ops) (blocked : (party i).arrived < least) :
    ∃ op rest, (party (pairing.peer i)).rest = op :: rest ∧
      (party (pairing.peer i)).Ready op := by
  have follows := inv.follows i
  rw [Party.Follows, head] at follows
  obtain ⟨next, level, less, -⟩ := follows
  have others := inv.follows (pairing.peer i)
  have hereStill := still i
  have thereStill := still (pairing.peer i)
  rw [pairing.peer_peer] at thereStill
  match rest : (party (pairing.peer i)).rest with
  | [] =>
    rw [Party.Follows, rest] at others
    have sent : _ = n := others.1
    omega
  | .wait other :: rest' =>
    refine ⟨_, _, rfl, ?_⟩
    rw [Party.Follows, rest, pairing.first_peer] at others
    obtain ⟨otherNext, otherLevel, -⟩ := others
    rw [Party.Ready]
    cases first : pairing.first i <;> rw [first] at level otherLevel <;>
      simp only [Bool.not_true, Bool.not_false, Bool.toNat_true, Bool.toNat_false] at * <;> omega
  | .send :: rest' => exact ⟨_, _, rfl, trivial⟩
  | .close :: rest' => exact ⟨_, _, rfl, trivial⟩
  | .pass :: rest' => exact ⟨_, _, rfl, trivial⟩

end Consequences

end Rally
