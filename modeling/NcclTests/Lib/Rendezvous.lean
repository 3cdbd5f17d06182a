import Mathlib

/-!
# A rendezvous on two alternating counters

A pattern for threads that meet again and again under a lock and a condition
variable. Each call of a thread uses the counter and the data of its own `epoch`,
which flips when the call returns. Entering adds the thread's share to the data and
one to the counter. One distinguished thread, `last`, waits until the counter is
full, finishes the data, puts the counter back to zero and wakes the others, who
wait for that zero.

A step holds the lock throughout: it enters and tests the condition once, or tests
it again after a wake-up. Threads asleep can also wake up for no reason. A call ends
in a step of its own, after the lock is released, and reads the data once more there.

`Inv` places every thread in one of two neighbouring rounds. From it:

* `Reachable.outcome`: what the calls of one round return is the same for all threads, the
  finished data of exactly one entry of each;
* `Reachable.entered_of_returned`, `Reachable.not_inside_earlier`: nobody returns before
  everyone has entered, and nobody enters while another is still in an earlier call of
  the same epoch;
* `Reachable.exists_step`: nothing gets stuck in a call that every thread makes;
* `Reachable.exists_returned`: steps alone, each of which lowers `measure`, bring all threads out
  of the calls that all of them make.
-/

universe u v

/-- The threads' shares, and how often each thread calls. -/
structure Rendezvous (ι : Type u) (σ : Type v) where
  last : ι
  /-- The entry of a thread in a round; the flag says that the counter was zero. -/
  enter : ι → Nat → Bool → σ → σ
  finish : Nat → σ → σ
  calls : ι → Nat

namespace Rendezvous

/-- Where a thread is: between calls, asleep, about to test its condition with the lock
held, or past the lock with the data it has copied there. -/
inductive Position (σ : Type v)
  | outside
  | asleep
  | testing
  | leaving (held : σ)

/-- A thread with the data each of its calls copied under the lock and read after it. -/
structure Thread (σ : Type v) where
  epoch : Bool
  position : Position σ
  returned : List (σ × σ)

/-- The index of the thread's current or next call. -/
def Thread.round {σ : Type v} (thread : Thread σ) : Nat := thread.returned.length

structure State (ι : Type u) (σ : Type v) where
  counter : Bool → Nat
  data : Bool → σ
  thread : ι → Thread σ

variable {ι : Type u} {σ : Type v}

def Position.wake : Position σ → Position σ
  | .asleep => .testing
  | position => position

/-- The data after the threads of a list have entered a round, in this order. -/
def entered (P : Rendezvous ι σ) (round : Nat) (data : σ) : List ι → σ
  | [] => data
  | t :: rest => rest.foldl (fun d u => P.enter u round false d) (P.enter t round true data)

theorem entered_append (P : Rendezvous ι σ) (round : Nat) (data : σ) (order : List ι) (t : ι) :
    P.entered round data (order ++ [t]) =
      P.enter t round (order.length == 0) (P.entered round data order) := by
  cases order with
  | nil => rfl
  | cons u rest => simp [entered]

namespace State

def initial (data : Bool → σ) : State ι σ := ⟨fun _ => 0, data, fun _ => ⟨false, .outside, []⟩⟩

def notifyAll (s : State ι σ) (e : Bool) : State ι σ :=
  { s with thread := fun u =>
      if (s.thread u).epoch = e then
        { s.thread u with position := (s.thread u).position.wake }
      else s.thread u }

variable (s : State ι σ) {e : Bool} {t u : ι} {p : Position σ}

@[simp] theorem notifyAll_counter : (s.notifyAll e).counter = s.counter := rfl

@[simp] theorem notifyAll_data : (s.notifyAll e).data = s.data := rfl

@[simp] theorem notifyAll_returned :
    ((s.notifyAll e).thread u).returned = (s.thread u).returned := by
  unfold notifyAll
  dsimp only
  split <;> rfl

@[simp] theorem notifyAll_round : ((s.notifyAll e).thread u).round = (s.thread u).round := by
  rw [Thread.round, Thread.round, notifyAll_returned]

@[simp] theorem notifyAll_epoch : ((s.notifyAll e).thread u).epoch = (s.thread u).epoch := by
  unfold notifyAll
  dsimp only
  split <;> rfl

theorem notifyAll_position (same : (s.thread u).epoch = e) :
    ((s.notifyAll e).thread u).position = (s.thread u).position.wake := by
  simp [notifyAll, same]

theorem notifyAll_position_of_ne (apart : (s.thread u).epoch ≠ e) :
    ((s.notifyAll e).thread u).position = (s.thread u).position := by
  simp [notifyAll, apart]

/-- Waking looks at one thread at a time. -/
theorem notifyAll_thread_congr {s s' : State ι σ} (same : s'.thread u = s.thread u) :
    (s'.notifyAll e).thread u = (s.notifyAll e).thread u := by
  simp only [notifyAll, same]

variable [DecidableEq ι]

def move (s : State ι σ) (t : ι) (position : Position σ) : State ι σ :=
  { s with thread := Function.update s.thread t { s.thread t with position := position } }

/-- The end of a call. -/
def leave (s : State ι σ) (t : ι) (held : σ) : State ι σ :=
  let e := (s.thread t).epoch
  let thread : Thread σ :=
    { epoch := !e
      position := .outside
      returned := (s.thread t).returned ++ [(held, s.data e)] }
  { s with thread := Function.update s.thread t thread }

@[simp] theorem move_counter : (s.move t p).counter = s.counter := rfl

@[simp] theorem move_data : (s.move t p).data = s.data := rfl

@[simp] theorem move_thread_self : (s.move t p).thread t = { s.thread t with position := p } := by
  simp [move]

theorem move_thread_of_ne (apart : u ≠ t) : (s.move t p).thread u = s.thread u := by
  simp [move, apart]

@[simp] theorem move_returned : ((s.move t p).thread u).returned = (s.thread u).returned := by
  rcases eq_or_ne u t with rfl | apart
  · rw [move_thread_self]
  · rw [move_thread_of_ne s apart]

@[simp] theorem move_round : ((s.move t p).thread u).round = (s.thread u).round := by
  rw [Thread.round, Thread.round, move_returned]

@[simp] theorem move_epoch : ((s.move t p).thread u).epoch = (s.thread u).epoch := by
  rcases eq_or_ne u t with rfl | apart
  · rw [move_thread_self]
  · rw [move_thread_of_ne s apart]

end State

/-! ## The steps -/

section

variable [Fintype ι] [DecidableEq ι] (P : Rendezvous ι σ)

/-- A thread adds its share and counts itself. -/
def arrive (s : State ι σ) (t : ι) : State ι σ :=
  let e := (s.thread t).epoch
  let s' : State ι σ :=
    { s with
      data := Function.update s.data e
        (P.enter t (s.thread t).round (s.counter e == 0) (s.data e))
      counter := Function.update s.counter e (s.counter e + 1) }
  if s.counter e + 1 = Fintype.card ι then (s'.move t .testing).notifyAll e
  else s'.move t .testing

/-- The last thread finds the counter full. -/
def release (s : State ι σ) (t : ι) : State ι σ :=
  let e := (s.thread t).epoch
  let finished := P.finish (s.thread t).round (s.data e)
  let s' : State ι σ :=
    { s with
      data := Function.update s.data e finished
      counter := Function.update s.counter e 0 }
  (s'.move t (.leaving finished)).notifyAll e

/-- A thread tests its condition and goes on or to sleep. -/
def check (s : State ι σ) (t : ι) : State ι σ :=
  let e := (s.thread t).epoch
  if t = P.last then
    if s.counter e = Fintype.card ι then P.release s t else s.move t .asleep
  else if s.counter e = 0 then s.move t (.leaving (s.data e)) else s.move t .asleep

inductive Step : State ι σ → State ι σ → Prop
  | enter {s : State ι σ} {t : ι} : (s.thread t).position = .outside →
    (s.thread t).round < P.calls t → Step s (P.check (P.arrive s t) t)
  | retry {s : State ι σ} {t : ι} : (s.thread t).position = .testing → Step s (P.check s t)
  | leave {s : State ι σ} {t : ι} {held : σ} : (s.thread t).position = .leaving held →
    Step s (s.leave t held)

/-- The states some interleaving leads to, spurious wake-ups included. -/
inductive Reachable (data : Bool → σ) : State ι σ → Prop
  | initial : Reachable data (.initial data)
  | step {s s' : State ι σ} : Reachable data s → P.Step s s' → Reachable data s'
  | spurious {s : State ι σ} {t : ι} : Reachable data s → (s.thread t).position = .asleep →
    Reachable data (s.move t .testing)

end

/-! ## The invariant -/

/-- The place of a thread while `R` rounds are finished and `order` has entered the next. -/
def Place (P : Rendezvous ι σ) (R : Nat) (order : List ι) (outcomes : List σ) (t : ι)
    (thread : Thread σ) : Prop :=
  match thread.position with
  | .outside => thread.round = R ∧ t ∉ order
  | .asleep => thread.round = R ∧ t ∈ order
  | .testing => thread.round = R ∧ t ∈ order ∨ thread.round + 1 = R ∧ t ∉ order ∧ t ≠ P.last
  | .leaving held => thread.round + 1 = R ∧ t ∉ order ∧ outcomes[thread.round]? = some held

/-- `R` rounds are finished, with these outcomes, and `order` has entered the next one. -/
structure Inv (P : Rendezvous ι σ) (s : State ι σ) (R : Nat) (order : List ι)
    (outcomes : List σ) : Prop where
  rounds : outcomes.length = R
  place : ∀ t, Place P R order outcomes t (s.thread t)
  epoch : ∀ t, (s.thread t).epoch = (s.thread t).round.bodd
  nodup : order.Nodup
  counter : s.counter R.bodd = order.length
  counter_prev : s.counter (!R.bodd) = 0
  data : order ≠ [] → ∃ d, s.data R.bodd = P.entered R d order
  data_prev : ∀ (k : Nat) (d : σ), k + 1 = R → outcomes[k]? = some d → s.data (!R.bodd) = d
  outcome : ∀ (k : Nat) (d : σ), outcomes[k]? = some d →
    ∃ d₀ l, l.Nodup ∧ (∀ t, t ∈ l) ∧ d = P.finish k (P.entered k d₀ l)
  returned : ∀ (t : ι) (k : Nat) (r : σ × σ), (s.thread t).returned[k]? = some r →
    outcomes[k]? = some r.1 ∧ r.2 = r.1

/-- The last thread sleeps only while someone is missing. -/
def Alert [Fintype ι] (P : Rendezvous ι σ) (s : State ι σ) (order : List ι) : Prop :=
  (s.thread P.last).position = .asleep → order.length < Fintype.card ι

variable {P : Rendezvous ι σ} {s : State ι σ} {R : Nat} {order : List ι} {outcomes : List σ}
  {t : ι}

theorem Inv.initial (data : Bool → σ) :
    Inv P (.initial data) 0 [] [] where
  rounds := rfl
  place _ := ⟨rfl, List.not_mem_nil⟩
  epoch _ := by simp [State.initial, Thread.round]
  nodup := List.nodup_nil
  counter := rfl
  counter_prev := rfl
  data empty := absurd rfl empty
  data_prev _ _ last := absurd last (Nat.succ_ne_zero _)
  outcome _ _ got := by cases got
  returned _ _ _ got := by cases got

/-- Only the round and the position of a thread matter for its place. -/
theorem Place.congr {thread thread' : Thread σ} (place : Place P R order outcomes t thread)
    (round : thread'.round = thread.round) (position : thread'.position = thread.position) :
    Place P R order outcomes t thread' := by
  unfold Place at place ⊢
  rw [position, round]
  exact place

theorem Place.wake {thread thread' : Thread σ} (place : Place P R order outcomes t thread)
    (round : thread'.round = thread.round)
    (position : thread'.position = thread.position.wake) :
    Place P R order outcomes t thread' := by
  unfold Place at place ⊢
  rw [position, round]
  cases at_ : thread.position with
  | asleep =>
    rw [at_] at place
    exact Or.inl place
  | outside => simpa [at_, Position.wake] using place
  | testing => simpa [at_, Position.wake] using place
  | leaving held => simpa [at_, Position.wake] using place

theorem Inv.notifyAll (inv : Inv P s R order outcomes) (e : Bool) :
    Inv P (s.notifyAll e) R order outcomes where
  rounds := inv.rounds
  place u := by
    by_cases same : (s.thread u).epoch = e
    · exact (inv.place u).wake s.notifyAll_round (s.notifyAll_position same)
    · exact (inv.place u).congr s.notifyAll_round (s.notifyAll_position_of_ne same)
  epoch u := by
    rw [State.notifyAll_epoch, State.notifyAll_round]
    exact inv.epoch u
  nodup := inv.nodup
  counter := inv.counter
  counter_prev := inv.counter_prev
  data := inv.data
  data_prev := inv.data_prev
  outcome := inv.outcome
  returned u k r got := inv.returned u k r (by rwa [State.notifyAll_returned] at got)

theorem Place.of_mem_iff {order' : List ι} {thread : Thread σ}
    (place : Place P R order outcomes t thread) (same : t ∈ order' ↔ t ∈ order) :
    Place P R order' outcomes t thread := by
  unfold Place at place ⊢
  rw [same]
  exact place

theorem Inv.outside (inv : Inv P s R order outcomes) (outside : (s.thread t).position = .outside) :
    (s.thread t).round = R ∧ t ∉ order := by
  have place := inv.place t
  rwa [Place, outside] at place

theorem Inv.epoch_eq (inv : Inv P s R order outcomes) (round : (s.thread t).round = R) :
    (s.thread t).epoch = R.bodd := by rw [inv.epoch, round]

theorem Inv.epoch_of_closed (inv : Inv P s R order outcomes)
    (round : (s.thread t).round + 1 = R) : (s.thread t).epoch = !R.bodd := by
  rw [inv.epoch, ← round, Nat.bodd_succ, Bool.not_not]

/-- Everyone asleep waits in the open round, and is woken with it. -/
theorem Inv.not_asleep_notifyAll (inv : Inv P s R order outcomes) :
    ((s.notifyAll R.bodd).thread t).position ≠ .asleep := by
  by_cases same : (s.thread t).epoch = R.bodd
  · rw [s.notifyAll_position same]
    cases (s.thread t).position <;> exact nofun
  · rw [s.notifyAll_position_of_ne same]
    intro asleep
    have place := inv.place t
    rw [Place, asleep] at place
    exact same (inv.epoch_eq place.1)

/-- The entries of a list with one more at its end. -/
theorem getElem?_concat_cases {α : Type*} {l : List α} {d d' : α} {k : Nat}
    (got : (l ++ [d])[k]? = some d') : l[k]? = some d' ∨ k = l.length ∧ d' = d := by
  rcases Nat.lt_or_ge k l.length with earlier | late
  · rw [List.getElem?_append_left earlier] at got
    exact .inl got
  · rw [List.getElem?_append_right late, List.getElem?_singleton] at got
    split at got
    case isTrue last => exact .inr ⟨by omega, (Option.some.inj got).symm⟩
    case isFalse => cases got

/-- The thread that closes the round leaves with its outcome. -/
theorem Place.closed {thread : Thread σ} {d : σ} (rounds : outcomes.length = R)
    (round : thread.round = R) :
    Place P (R + 1) [] (outcomes ++ [d]) t { thread with position := .leaving d } := by
  refine ⟨congrArg Nat.succ round, List.not_mem_nil, ?_⟩
  have index : Thread.round { thread with position := .leaving d } = outcomes.length :=
    round.trans rounds.symm
  rw [index, List.getElem?_concat_length]

/-- A thread of the open round, before and after its end, other than the last one. -/
theorem Place.next_round {thread : Thread σ} {d : σ} (place : Place P R order outcomes t thread)
    (entered : t ∈ order) (awake : thread.position ≠ .asleep) (notLast : t ≠ P.last) :
    Place P (R + 1) [] (outcomes ++ [d]) t thread := by
  unfold Place at place ⊢
  cases at_ : thread.position with
  | asleep => exact absurd at_ awake
  | outside =>
    rw [at_] at place
    exact absurd entered place.2
  | leaving held =>
    rw [at_] at place
    exact absurd entered place.2.1
  | testing =>
    rw [at_] at place
    rcases place with ⟨round, -⟩ | ⟨-, absent, -⟩
    · exact Or.inr ⟨by rw [round], List.not_mem_nil, notLast⟩
    · exact absurd entered absent

/-- The thread has entered its call number `k`. -/
def Thread.Entered (thread : Thread σ) (k : Nat) : Prop :=
  k < thread.round ∨ k = thread.round ∧ thread.position ≠ .outside

theorem Inv.round_le (inv : Inv P s R order outcomes) (t : ι) : (s.thread t).round ≤ R := by
  have place := inv.place t
  unfold Place at place
  split at place <;> omega

theorem Inv.le_round (inv : Inv P s R order outcomes) (t : ι) : R ≤ (s.thread t).round + 1 := by
  have place := inv.place t
  unfold Place at place
  split at place <;> omega

theorem Inv.entered (inv : Inv P s R order outcomes) {k : Nat} (closed : k < R) (t : ι) :
    (s.thread t).Entered k := by
  have place := inv.place t
  unfold Place at place
  unfold Thread.Entered
  split at place
  · left
    omega
  · left
    omega
  · next testing =>
    rw [testing]
    refine (Nat.lt_or_ge k (s.thread t).round).imp_right fun late => ⟨by omega, nofun⟩
  · next leaving =>
    rw [leaving]
    refine (Nat.lt_or_ge k (s.thread t).round).imp_right fun late => ⟨by omega, nofun⟩

variable [DecidableEq ι]

/-- Moving one thread to a place of its own changes nothing else. -/
theorem Inv.move (inv : Inv P s R order outcomes) {p : Position σ}
    (place : Place P R order outcomes t { s.thread t with position := p }) :
    Inv P (s.move t p) R order outcomes where
  rounds := inv.rounds
  place u := by
    rcases eq_or_ne u t with rfl | apart
    · rwa [State.move_thread_self]
    · rw [State.move_thread_of_ne s apart]
      exact inv.place u
  epoch u := by
    rw [State.move_epoch, State.move_round]
    exact inv.epoch u
  nodup := inv.nodup
  counter := inv.counter
  counter_prev := inv.counter_prev
  data := inv.data
  data_prev := inv.data_prev
  outcome := inv.outcome
  returned u k r got := inv.returned u k r (by rwa [State.move_returned] at got)

/-- Entering joins the open round. -/
theorem Inv.join (inv : Inv P s R order outcomes) (outside : (s.thread t).position = .outside) :
    Inv P
      (State.move
        { s with
          data := Function.update s.data R.bodd
            (P.enter t R (s.counter R.bodd == 0) (s.data R.bodd))
          counter := Function.update s.counter R.bodd (s.counter R.bodd + 1) } t .testing)
      R (order ++ [t]) outcomes where
  rounds := inv.rounds
  place u := by
    rcases eq_or_ne u t with rfl | apart
    · rw [State.move_thread_self]
      exact Or.inl ⟨(inv.outside outside).1, by simp⟩
    · rw [State.move_thread_of_ne _ apart]
      exact (inv.place u).of_mem_iff (by simp [apart])
  epoch u := by
    rw [State.move_epoch, State.move_round]
    exact inv.epoch u
  nodup := by
    rw [List.nodup_append]
    refine ⟨inv.nodup, List.nodup_singleton t, ?_⟩
    rintro u entered _ (_ | ⟨_, ⟨⟩⟩) rfl
    exact (inv.outside outside).2 entered
  counter := by simp [inv.counter]
  counter_prev := by simp [inv.counter_prev]
  data _ := by
    have first : (s.counter R.bodd == 0) = (order.length == 0) := by rw [inv.counter]
    simp only [State.move_data, Function.update_self, first]
    by_cases empty : order = []
    · subst empty
      exact ⟨s.data R.bodd, rfl⟩
    · obtain ⟨d, eq⟩ := inv.data empty
      exact ⟨d, by rw [entered_append, ← eq]⟩
  data_prev k d last outcome := by
    simpa using inv.data_prev k d last outcome
  outcome := inv.outcome
  returned u k r got := inv.returned u k r (by simpa using got)

/-- A call that returns reads the outcome of its round. -/
theorem Inv.leave (inv : Inv P s R order outcomes) {held : σ}
    (leaving : (s.thread t).position = .leaving held) :
    Inv P (s.leave t held) R order outcomes := by
  have place := inv.place t
  rw [Place, leaving] at place
  obtain ⟨round, absent, outcome⟩ := place
  have epoch := inv.epoch_of_closed round
  have read : s.data (s.thread t).epoch = held := by
    rw [epoch]
    exact inv.data_prev _ _ round outcome
  have self : (s.leave t held).thread t = ⟨!(s.thread t).epoch, .outside,
      (s.thread t).returned ++ [(held, held)]⟩ := by
    simp [State.leave, read]
  have others {u : ι} (apart : u ≠ t) : (s.leave t held).thread u = s.thread u := by
    simp [State.leave, apart]
  have round_self : ((s.leave t held).thread t).round = R := by
    rw [self, Thread.round, List.length_append]
    exact round
  refine { inv with place := fun u => ?_, epoch := fun u => ?_, returned := fun u k r got => ?_ }
  · rcases eq_or_ne u t with rfl | apart
    · rw [Place, self]
      exact ⟨self ▸ round_self, absent⟩
    · rw [others apart]
      exact inv.place u
  · rcases eq_or_ne u t with rfl | apart
    · rw [round_self, self, epoch, Bool.not_not]
    · rw [others apart]
      exact inv.epoch u
  · rcases eq_or_ne u t with rfl | apart
    · rw [self] at got
      rcases getElem?_concat_cases got with earlier | ⟨rfl, rfl⟩
      · exact inv.returned u k r earlier
      · exact ⟨outcome, rfl⟩
    · rw [others apart] at got
      exact inv.returned u k r got

variable [Fintype ι]

theorem Inv.arrive (inv : Inv P s R order outcomes)
    (outside : (s.thread t).position = .outside) :
    Inv P (P.arrive s t) R (order ++ [t]) outcomes ∧ Alert P (P.arrive s t) (order ++ [t]) ∧
      ((P.arrive s t).thread t).position = .testing := by
  obtain ⟨round, absent⟩ := inv.outside outside
  have joined := inv.join outside
  unfold Rendezvous.arrive
  rw [inv.epoch_eq round, round]
  dsimp only
  split
  · next full =>
    refine ⟨joined.notifyAll _, fun asleep => absurd asleep joined.not_asleep_notifyAll, ?_⟩
    rw [State.notifyAll_position _ (by simp [inv.epoch_eq round])]
    simp [Position.wake]
  · next missing =>
    refine ⟨joined, fun _ => ?_, by simp⟩
    have le := joined.nodup.length_le_card
    rw [List.length_append, List.length_singleton] at le ⊢
    rw [inv.counter] at missing
    omega

/-- With a full counter everyone has entered. -/
theorem Inv.mem_of_full (inv : Inv P s R order outcomes)
    (full : order.length = Fintype.card ι) (u : ι) : u ∈ order := by
  have all : order.toFinset = Finset.univ := by
    rw [← Finset.card_eq_iff_eq_univ, List.toFinset_card_of_nodup inv.nodup, full]
  rw [← List.mem_toFinset, all]
  exact Finset.mem_univ u

/-- The last thread closes the round. -/
theorem Inv.release (inv : Inv P s R order outcomes) (round : (s.thread P.last).round = R)
    (full : order.length = Fintype.card ι) :
    Inv P (P.release s P.last) (R + 1) []
      (outcomes ++ [P.finish R (s.data R.bodd)]) := by
  have everyone := inv.mem_of_full full
  obtain ⟨d, entered⟩ := inv.data (List.ne_nil_of_mem (everyone P.last))
  unfold Rendezvous.release
  rw [inv.epoch_eq round, round]
  dsimp only
  refine ⟨by simp [inv.rounds], ?_, ?_, List.nodup_nil, ?_, ?_, fun h => absurd rfl h, ?_, ?_, ?_⟩
  · intro u
    rcases eq_or_ne u P.last with rfl | notLast
    · refine (Place.closed inv.rounds round).congr (by simp [Thread.round]) ?_
      rw [State.notifyAll_position _ (by simp [inv.epoch_eq round])]
      simp [Position.wake]
    · rw [State.notifyAll_thread_congr (State.move_thread_of_ne _ notLast)]
      exact ((inv.notifyAll R.bodd).place u).next_round (everyone u) inv.not_asleep_notifyAll
        notLast
  · intro u
    rw [State.notifyAll_epoch, State.notifyAll_round, State.move_epoch, State.move_round]
    exact inv.epoch u
  · simp [Nat.bodd_succ, inv.counter_prev]
  · simp [Nat.bodd_succ]
  · intro k d' last outcome
    obtain rfl : k = R := by omega
    rw [← inv.rounds, List.getElem?_concat_length] at outcome
    simpa [Nat.bodd_succ, ← inv.rounds] using Option.some.inj outcome
  · intro k d' outcome
    rcases getElem?_concat_cases outcome with earlier | ⟨rfl, rfl⟩
    · exact inv.outcome k d' earlier
    · exact ⟨d, order, inv.nodup, everyone, by rw [inv.rounds, ← entered]⟩
  · intro u k r got
    obtain ⟨outcome, same⟩ := inv.returned u k r (by simpa using got)
    have below : k < outcomes.length := (List.getElem?_eq_some_iff.1 outcome).1
    exact ⟨by rw [List.getElem?_append_left below, outcome], same⟩

theorem Alert.move {p : Position σ} (alert : Alert P s order)
    (awake : t = P.last → p = .asleep → order.length < Fintype.card ι) :
    Alert P (s.move t p) order := by
  intro asleep
  rcases eq_or_ne t P.last with rfl | apart
  · rw [State.move_thread_self] at asleep
    exact awake rfl asleep
  · rw [State.move_thread_of_ne s apart.symm] at asleep
    exact alert asleep

/-- Testing the condition, by the last thread or another, with a round open or just closed. -/
theorem Inv.check (inv : Inv P s R order outcomes) (alert : Alert P s order)
    (testing : (s.thread t).position = .testing) :
    ∃ R' order' outcomes', Inv P (P.check s t) R' order' outcomes' ∧
      Alert P (P.check s t) order' := by
  have place := inv.place t
  rw [Place, testing] at place
  unfold Rendezvous.check
  dsimp only
  by_cases isLast : t = P.last
  · rw [if_pos isLast]
    subst isLast
    obtain ⟨round, entered⟩ : (s.thread P.last).round = R ∧ P.last ∈ order :=
      place.resolve_right fun closed => closed.2.2 rfl
    rw [inv.epoch_eq round, inv.counter]
    split
    · next full =>
      refine ⟨R + 1, [], _, inv.release round full, fun asleep => ?_⟩
      have place := (inv.release round full).place P.last
      rw [Place, asleep] at place
      exact absurd place.2 List.not_mem_nil
    · next missing =>
      have fewer : order.length < Fintype.card ι :=
        lt_of_le_of_ne inv.nodup.length_le_card missing
      exact ⟨R, order, outcomes, inv.move ⟨round, entered⟩, alert.move fun _ _ => fewer⟩
  · rw [if_neg isLast]
    rcases place with ⟨round, entered⟩ | ⟨round, absent, -⟩
    -- the round is still open: the counter shows at least this thread
    · have counted : s.counter (s.thread t).epoch ≠ 0 := by
        rw [inv.epoch_eq round, inv.counter]
        exact (List.length_pos_of_mem entered).ne'
      rw [if_neg counted]
      exact ⟨R, order, outcomes, inv.move ⟨round, entered⟩,
        alert.move fun last => absurd last isLast⟩
    · rw [inv.epoch_of_closed round, if_pos inv.counter_prev]
      refine ⟨R, order, outcomes, inv.move ⟨round, absent, ?_⟩,
        alert.move fun last => absurd last isLast⟩
      have below : (s.thread t).round < outcomes.length := by
        rw [inv.rounds]
        omega
      rw [inv.data_prev _ _ round (List.getElem?_eq_getElem below)]
      exact List.getElem?_eq_getElem below

theorem Inv.step {s' : State ι σ} (inv : Inv P s R order outcomes) (alert : Alert P s order)
    (step : P.Step s s') :
    ∃ R' order' outcomes', Inv P s' R' order' outcomes' ∧ Alert P s' order' := by
  cases step with
  | enter outside _ =>
    obtain ⟨arrived, alert', testing⟩ := inv.arrive outside
    exact arrived.check alert' testing
  | retry testing => exact inv.check alert testing
  | @leave t held leaving =>
    refine ⟨R, order, outcomes, inv.leave leaving, fun asleep => alert ?_⟩
    rcases eq_or_ne P.last t with rfl | apart
    · simp [State.leave] at asleep
    · simpa [State.leave, apart] using asleep

theorem Reachable.inv {data : Bool → σ} (reachable : P.Reachable data s) :
    ∃ R order outcomes, Inv P s R order outcomes ∧ Alert P s order := by
  induction reachable with
  | initial => exact ⟨0, [], [], .initial data, fun asleep => nomatch asleep⟩
  | step _ step ih =>
    obtain ⟨R, order, outcomes, inv, alert⟩ := ih
    exact inv.step alert step
  | @spurious s t _ asleep ih =>
    obtain ⟨R, order, outcomes, inv, alert⟩ := ih
    have place := inv.place t
    rw [Place, asleep] at place
    exact ⟨R, order, outcomes, inv.move (Or.inl place), alert.move nofun⟩

/-! ## What holds of every run -/

variable {data : Bool → σ}

/-- Nobody returns from a call before everyone has entered it. -/
theorem Reachable.entered_of_returned (reachable : P.Reachable data s) {k : Nat}
    (returned : k < (s.thread t).round) (u : ι) : (s.thread u).Entered k := by
  obtain ⟨R, order, outcomes, inv, -⟩ := reachable.inv
  exact inv.entered (returned.trans_le (inv.round_le t)) u

/-- A thread about to enter finds nobody in an earlier call of the same epoch. -/
theorem Reachable.not_inside_earlier (reachable : P.Reachable data s)
    (outside : (s.thread t).position = .outside) (u : ι)
    (earlier : (s.thread u).round < (s.thread t).round) :
    (s.thread u).epoch ≠ (s.thread t).epoch := by
  obtain ⟨R, order, outcomes, inv, -⟩ := reachable.inv
  have round := (inv.outside outside).1
  have previous : (s.thread u).round + 1 = R := by
    have := inv.le_round u
    omega
  rw [inv.epoch, inv.epoch, round, ← previous, Nat.bodd_succ]
  exact fun same => by cases h : (s.thread u).round.bodd <;> simp [h] at same

/-- What a call returns under the lock and after it: the finished data of a round that
every thread has entered once, in some order. -/
theorem Reachable.outcome (reachable : P.Reachable data s) (k : Nat) :
    ∃ d l, l.Nodup ∧ (∀ t, t ∈ l) ∧ ∀ (t : ι) (r : σ × σ), (s.thread t).returned[k]? = some r →
      r = (P.finish k (P.entered k d l), P.finish k (P.entered k d l)) := by
  obtain ⟨R, order, outcomes, inv, -⟩ := reachable.inv
  rcases Nat.lt_or_ge k outcomes.length with closed | future
  · obtain ⟨d, l, nodup, all, eq⟩ := inv.outcome k _ (List.getElem?_eq_getElem closed)
    refine ⟨d, l, nodup, all, fun t r got => ?_⟩
    obtain ⟨outcome, same⟩ := inv.returned t k r got
    rw [List.getElem?_eq_getElem closed] at outcome
    rw [← eq, Option.some.inj outcome]
    exact Prod.ext rfl same
  · refine ⟨data false, Finset.univ.toList, Finset.nodup_toList _, fun t => by simp, ?_⟩
    intro t r got
    have absent := (inv.returned t k r got).1
    rw [List.getElem?_eq_none future] at absent
    cases absent

/-- While some thread is in a call or about to make one, and every thread makes that
call, some thread can step without a spurious wake-up. -/
theorem Reachable.exists_step (reachable : P.Reachable data s)
    (everyone : ∀ u, (s.thread t).round < P.calls u) : ∃ s', P.Step s s' := by
  obtain ⟨R, order, outcomes, inv, alert⟩ := reachable.inv
  by_contra stuck
  have round : (s.thread t).round = R := by
    have place := inv.place t
    unfold Place at place
    split at place
    · exact place.1
    · exact place.1
    · next testing => exact absurd ⟨_, Step.retry testing⟩ stuck
    · next leaving => exact absurd ⟨_, Step.leave leaving⟩ stuck
  have asleep (u : ι) : (s.thread u).position = .asleep ∧ u ∈ order := by
    have place := inv.place u
    unfold Place at place
    split at place
    · next outside =>
      have more : (s.thread u).round < P.calls u := by
        rw [place.1, ← round]
        exact everyone u
      exact absurd ⟨_, Step.enter outside more⟩ stuck
    · next asleep => exact ⟨asleep, place.2⟩
    · next testing => exact absurd ⟨_, Step.retry testing⟩ stuck
    · next leaving => exact absurd ⟨_, Step.leave leaving⟩ stuck
  have full : Fintype.card ι ≤ order.length := by
    rw [← List.toFinset_card_of_nodup inv.nodup]
    exact Finset.card_le_card fun u _ => List.mem_toFinset.2 (asleep u).2
  exact absurd (alert (asleep P.last).1) full.not_gt

/-! ## Every call returns -/

section Progress

variable (P) in
/-- What is left of a call that a thread is in. The last thread wakes the others once, and
whoever fills the counter wakes it. -/
def weight (t : ι) : Position σ → Nat
  | .outside => 0
  | .leaving _ => 1
  | .asleep => if t = P.last then Fintype.card ι + 3 else 2
  | .testing => if t = P.last then Fintype.card ι + 4 else 3

/-- The calls a position stands for: one unless the thread is between calls. -/
def Position.begun : Position σ → Nat
  | .outside => 0
  | _ => 1

theorem Position.begun_of_inside {p : Position σ} (inside : p ≠ .outside) : p.begun = 1 := by
  cases p with
  | outside => exact absurd rfl inside
  | _ => rfl

variable (P) in
/-- What is left of all calls of a thread, the one it is in weighed by its position. -/
def left (t : ι) (thread : Thread σ) : Nat :=
  (P.calls t - (thread.round + thread.position.begun)) * (2 * Fintype.card ι + 6) +
    P.weight t thread.position

variable (P) in
def measure (s : State ι σ) : Nat := ∑ t, P.left t (s.thread t)

/-- Inside a call only the weight depends on the position. -/
theorem left_inside {thread : Thread σ} {p : Position σ} (inside : p ≠ .outside) :
    P.left t { thread with position := p } =
      (P.calls t - (thread.round + 1)) * (2 * Fintype.card ι + 6) + P.weight t p := by
  rw [left, Position.begun_of_inside inside]
  rfl

/-- Two states that differ in one thread differ by what is left of it. -/
theorem measure_of_thread {s' : State ι σ} (t : ι)
    (others : ∀ u, u ≠ t → s'.thread u = s.thread u) :
    P.measure s' + P.left t (s.thread t) = P.measure s + P.left t (s'.thread t) := by
  have rest : ∑ u ∈ Finset.univ.erase t, P.left u (s'.thread u) =
      ∑ u ∈ Finset.univ.erase t, P.left u (s.thread u) :=
    Finset.sum_congr rfl fun u mem => by rw [others u (Finset.ne_of_mem_erase mem)]
  have before := Finset.add_sum_erase Finset.univ (fun u => P.left u (s.thread u))
    (Finset.mem_univ t)
  have after := Finset.add_sum_erase Finset.univ (fun u => P.left u (s'.thread u))
    (Finset.mem_univ t)
  rw [rest] at after
  unfold measure
  omega

theorem left_wake_le (thread : Thread σ) :
    P.left t { thread with position := thread.position.wake } ≤ P.left t thread + 1 := by
  rcases thread with ⟨epoch, position, returned⟩
  cases position with
  | outside => exact Nat.le_succ _
  | testing => exact Nat.le_succ _
  | leaving held => exact Nat.le_succ _
  | asleep =>
    dsimp only [Position.wake, left, weight, Thread.round, Position.begun]
    split_ifs <;> omega

/-- Waking costs at most one for each thread. -/
theorem measure_notifyAll_le (s : State ι σ) (e : Bool) :
    P.measure (s.notifyAll e) ≤ P.measure s + Fintype.card ι := by
  have each (u : ι) : P.left u ((s.notifyAll e).thread u) ≤ P.left u (s.thread u) + 1 := by
    rw [State.notifyAll]
    dsimp only
    split
    · exact left_wake_le _
    · exact Nat.le_succ _
  calc P.measure (s.notifyAll e)
      ≤ ∑ u, (P.left u (s.thread u) + 1) := Finset.sum_le_sum fun u _ => each u
    _ = P.measure s + Fintype.card ι := by
      rw [Finset.sum_add_distrib, Finset.sum_const, Finset.card_univ, smul_eq_mul, mul_one]
      rfl

/-- Inside a call a move changes the measure by the weights alone. -/
theorem measure_move {p q : Position σ} (at_ : (s.thread t).position = q)
    (inside : q ≠ .outside) (inside' : p ≠ .outside) :
    P.measure (s.move t p) + P.weight t q = P.measure s + P.weight t p := by
  have moved := measure_of_thread (P := P) t fun u apart => State.move_thread_of_ne s (p := p) apart
  rw [State.move_thread_self, left_inside inside'] at moved
  have before : P.left t ⟨(s.thread t).epoch, q, (s.thread t).returned⟩ = _ := left_inside inside
  rw [← at_] at before
  change P.left t (s.thread t) = _ at before
  rw [at_] at before
  omega

theorem weight_asleep : P.weight t .asleep + 1 = P.weight t .testing := by
  dsimp only [weight]
  split_ifs <;> omega

/-- The last thread has enough left when it tests to wake everyone. -/
theorem measure_release_lt (testing : (s.thread P.last).position = .testing) :
    P.measure (P.release s P.last) < P.measure s := by
  unfold Rendezvous.release
  dsimp only
  set finished := P.finish (s.thread P.last).round (s.data (s.thread P.last).epoch)
  set s' : State ι σ := ⟨_, _, s.thread⟩
  have moved : P.measure (s'.move P.last (.leaving finished)) + P.weight P.last .testing =
      P.measure s + 1 := measure_move (s := s') testing nofun nofun
  have woken := measure_notifyAll_le (P := P) (s'.move P.last (.leaving finished))
    (s.thread P.last).epoch
  have share : P.weight P.last (.testing : Position σ) = Fintype.card ι + 4 := if_pos rfl
  omega

theorem measure_check_lt (testing : (s.thread t).position = .testing) :
    P.measure (P.check s t) < P.measure s := by
  have asleep := measure_move (P := P) (p := .asleep) testing nofun nofun
  have weight := weight_asleep (P := P) (t := t)
  unfold Rendezvous.check
  dsimp only
  split_ifs with isLast full empty
  · subst isLast
    exact measure_release_lt testing
  · omega
  · have moved : P.measure (s.move t (.leaving (s.data (s.thread t).epoch))) +
        P.weight t .testing = P.measure s + 1 := measure_move testing nofun nofun
    have share : P.weight t (.testing : Position σ) = 3 := if_neg isLast
    omega
  · omega

theorem arrive_testing : ((P.arrive s t).thread t).position = .testing := by
  unfold Rendezvous.arrive
  dsimp only
  split
  · rw [State.notifyAll_position _ (by simp)]
    simp [Position.wake]
  · simp

/-- A call that begins pays for its own steps and for the wake-up it may owe. -/
theorem measure_arrive_lt (outside : (s.thread t).position = .outside)
    (more : (s.thread t).round < P.calls t) : P.measure (P.arrive s t) < P.measure s := by
  unfold Rendezvous.arrive
  dsimp only
  set s' : State ι σ := ⟨_, _, s.thread⟩
  have begun : P.measure (s'.move t .testing) + P.left t (s.thread t) = P.measure s +
      ((P.calls t - ((s.thread t).round + 1)) * (2 * Fintype.card ι + 6) +
        P.weight t .testing) := by
    have moved := measure_of_thread (P := P) t fun u apart =>
      State.move_thread_of_ne s' (p := .testing) apart
    rw [State.move_thread_self, left_inside (p := .testing) nofun] at moved
    exact moved
  have before : P.left t (s.thread t) =
      (P.calls t - (s.thread t).round) * (2 * Fintype.card ι + 6) := by
    rw [left, outside]
    rfl
  have whole : (P.calls t - (s.thread t).round) * (2 * Fintype.card ι + 6) =
      (P.calls t - ((s.thread t).round + 1)) * (2 * Fintype.card ι + 6) +
        (2 * Fintype.card ι + 6) := by
    rw [← Nat.succ_mul]
    congr 1
    omega
  have share : P.weight t (.testing : Position σ) ≤ Fintype.card ι + 4 := by
    dsimp only [weight]
    split_ifs <;> omega
  have woken := measure_notifyAll_le (P := P) (s'.move t .testing) (s.thread t).epoch
  split_ifs <;> omega

theorem measure_leave_lt {held : σ} (leaving : (s.thread t).position = .leaving held) :
    P.measure (s.leave t held) < P.measure s := by
  have others : ∀ u, u ≠ t → (s.leave t held).thread u = s.thread u := by
    intro u apart
    simp [State.leave, apart]
  have moved := measure_of_thread (P := P) t others
  have before : P.left t (s.thread t) =
      (P.calls t - ((s.thread t).round + 1)) * (2 * Fintype.card ι + 6) + 1 := by
    rw [left, leaving]
    rfl
  have after : P.left t ((s.leave t held).thread t) =
      (P.calls t - ((s.thread t).round + 1)) * (2 * Fintype.card ι + 6) := by
    simp [State.leave, left, weight, Thread.round, Position.begun]
  omega

/-- Without spurious wake-ups there are only finitely many steps. -/
theorem Step.measure_lt {s' : State ι σ} (step : P.Step s s') : P.measure s' < P.measure s := by
  cases step with
  | enter outside more =>
    exact (measure_check_lt arrive_testing).trans (measure_arrive_lt outside more)
  | retry testing => exact measure_check_lt testing
  | leave leaving => exact measure_leave_lt leaving

/-- Steps alone, from any point of a run, bring every thread out of its first `N` calls. -/
theorem Reachable.exists_returned (reachable : P.Reachable data s) {N : Nat}
    (everyone : ∀ u, N ≤ P.calls u) :
    ∃ s', Relation.ReflTransGen P.Step s s' ∧ ∀ u, N ≤ (s'.thread u).round := by
  induction measured : P.measure s using Nat.strong_induction_on generalizing s with
  | _ m ih =>
    by_cases done : ∀ u, N ≤ (s.thread u).round
    · exact ⟨s, .refl, done⟩
    · obtain ⟨t, early⟩ := not_forall.1 done
      obtain ⟨s', step⟩ := reachable.exists_step (t := t) fun u =>
        (Nat.lt_of_not_le early).trans_le (everyone u)
      obtain ⟨s'', steps, returned⟩ := ih _ (measured ▸ step.measure_lt) (reachable.step step) rfl
      exact ⟨s'', .head step steps, returned⟩

theorem Reachable.steps {s' : State ι σ} (reachable : P.Reachable data s)
    (steps : Relation.ReflTransGen P.Step s s') : P.Reachable data s' := by
  induction steps with
  | refl => exact reachable
  | tail _ step ih => exact ih.step step

end Progress

end Rendezvous
