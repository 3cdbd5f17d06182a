import Mathlib
import NcclTests.Lib.SignalNet

/-!
# Counting signals behind a barrier

Every rank has a member in each group, and the members run rounds. In a round a member
reads its counter, meets its group at a barrier, puts, waits until its counter has grown
by what it awaits, flushes, and may meet its group again. A rank starts a round when all
its members are through with the last one. A put arrives some time later, in no
particular order, and adds one to the counter of the member of its group at its target.

Counters are never reset, and without the second barrier a member can be in its next round
while others are still in the last one. Still, if the puts of a group to each member
are as many as it awaits, a member that has waited has received all of its round and
nothing of the next one (`Inv.counter_eq`, `Inv.released`), and no run gets stuck
(`Balanced.progress`, `Step.measure_lt`).
-/

namespace SignalBarrier

variable {ι κ : Type*}

/-- A put, with its round, source, target and group. -/
structure Put (ι κ : Type*) where
  round : Nat
  src : ι
  dst : ι
  group : κ
  deriving DecidableEq

structure Net (ι κ : Type*) where
  ranks : Finset ι
  groups : Finset κ
  /-- The targets of a member's puts in every round. -/
  puts : ι → κ → Multiset ι
  /-- How far the counter has to grow, for a member that waits. -/
  awaits : ι → κ → Option Nat
  /-- Whether there is a second barrier. -/
  closing : Bool
  rounds : Nat
  /-- The counters before the first round. -/
  initial : ι → κ → Nat
  /-- Whether a flush of a member can return while certain puts have not arrived. -/
  flushed : Multiset (Put ι κ) → ι → κ → Prop

/-- Where a member is in a round: it has not begun, it has read `base` and arrived at the
barrier, it puts and waits, or it has arrived at the second barrier. -/
inductive Phase (ι : Type*)
  | idle
  | arrived (base : Nat)
  | sending (base : Nat) (pending : Multiset ι) (released : Bool)
  | closing

def Phase.stage : Phase ι → Nat
  | idle => 0
  | arrived _ => 1
  | sending _ _ released => 2 + released.toNat
  | closing => 4

theorem Phase.stage_lt (phase : Phase ι) : phase.stage < 5 := by
  cases phase with
  | sending base pending released =>
    have := released.toNat_le
    rw [stage]
    omega
  | _ => simp [stage]

/-- The rounds that a member has completed, and where it is in the next one. -/
structure Local (ι : Type*) where
  done : Nat
  phase : Phase ι

namespace Local

variable (l : Local ι) (round : Nat)

/-- All stages that a member has been through. -/
def time : Nat := 5 * l.done + l.phase.stage

/-- The member has read its counter in a round, and has arrived at the barrier. -/
def HasRead : Prop := 5 * round + 1 ≤ l.time

/-- The member has passed the barrier of a round. -/
def HasEntered : Prop := 5 * round + 2 ≤ l.time

/-- The member has waited in a round. -/
def HasWaited : Prop := 5 * round + 3 ≤ l.time

/-- The member has arrived at the second barrier of a round. -/
def HasFlushed : Prop := 5 * round + 4 ≤ l.time

instance : Decidable (l.HasEntered round) := inferInstanceAs (Decidable (_ ≤ _))

/-- The puts of a round that a member is to issue by now. -/
def due (puts : Multiset ι) : Multiset ι := if l.HasEntered round then puts else 0

/-- The puts of a round that a member has not issued yet, though it has passed the barrier. -/
def left : Multiset ι :=
  match l.phase with
  | .sending _ pending _ => if l.done = round then pending else 0
  | _ => 0

variable {round} in
@[simp] theorem left_sending {n base : Nat} {pending : Multiset ι} {released : Bool} :
    left ⟨n, .sending base pending released⟩ round = if n = round then pending else 0 := rfl

variable {l round} in
theorem due_of_entered {puts : Multiset ι} (entered : l.HasEntered round) :
    l.due round puts = puts := if_pos entered

variable {l round} in
theorem due_of_not_entered {puts : Multiset ι} (early : ¬ l.HasEntered round) :
    l.due round puts = 0 := if_neg early

theorem due_le (puts : Multiset ι) : l.due round puts ≤ puts := by
  unfold due
  split
  · exact le_rfl
  · exact Multiset.zero_le _

/-- The value that a member has read in its round. -/
def base? : Option Nat :=
  match l.phase with
  | .arrived base => some base
  | .sending base _ _ => some base
  | _ => none

end Local

structure State (ι κ : Type*) where
  at_ : ι × κ → Local ι
  counter : ι × κ → Nat
  inFlight : Multiset (Put ι κ)
  /-- The puts that have arrived. -/
  delivered : Multiset (Put ι κ)

section Semantics

variable [DecidableEq ι] [DecidableEq κ]

def init (net : Net ι κ) : State ι κ :=
  ⟨fun _ => ⟨0, .idle⟩, fun m => net.initial m.1 m.2, 0, 0⟩

/-- What follows a flush. -/
def Net.afterFlush (net : Net ι κ) (round : Nat) : Local ι :=
  if net.closing then ⟨round, .closing⟩ else ⟨round + 1, .idle⟩

inductive Step (net : Net ι κ) : State ι κ → State ι κ → Prop
  | read {s : State ι κ} {i : ι} {c : κ} {round : Nat} (memI : i ∈ net.ranks)
      (memC : c ∈ net.groups) (idle : s.at_ (i, c) = ⟨round, .idle⟩) (more : round < net.rounds)
      (ordered : ∀ c' ∈ net.groups, round ≤ (s.at_ (i, c')).done) :
      Step net s { s with
        at_ := Function.update s.at_ (i, c) ⟨round, .arrived (s.counter (i, c))⟩ }
  | enter {s : State ι κ} {i : ι} {c : κ} {round base : Nat} (memI : i ∈ net.ranks)
      (memC : c ∈ net.groups) (head : s.at_ (i, c) = ⟨round, .arrived base⟩)
      (met : ∀ j ∈ net.ranks, (s.at_ (j, c)).HasRead round) :
      Step net s { s with
        at_ := Function.update s.at_ (i, c) ⟨round, .sending base (net.puts i c) false⟩ }
  | put {s : State ι κ} {i dst : ι} {c : κ} {round base : Nat} {pending : Multiset ι}
      {released : Bool} (memI : i ∈ net.ranks) (memC : c ∈ net.groups)
      (head : s.at_ (i, c) = ⟨round, .sending base pending released⟩) (mem : dst ∈ pending) :
      Step net s { s with
        at_ := Function.update s.at_ (i, c)
          ⟨round, .sending base (pending.erase dst) released⟩
        inFlight := ⟨round, i, dst, c⟩ ::ₘ s.inFlight }
  | deliver {s : State ι κ} {put : Put ι κ} (sent : put ∈ s.inFlight) :
      Step net s { s with
        counter := Function.update s.counter (put.dst, put.group)
          (s.counter (put.dst, put.group) + 1)
        inFlight := s.inFlight.erase put
        delivered := put ::ₘ s.delivered }
  | wait {s : State ι κ} {i : ι} {c : κ} {round base : Nat} {pending : Multiset ι}
      (memI : i ∈ net.ranks) (memC : c ∈ net.groups)
      (head : s.at_ (i, c) = ⟨round, .sending base pending false⟩)
      (reached : ∀ n ∈ net.awaits i c, base + n ≤ s.counter (i, c)) :
      Step net s { s with
        at_ := Function.update s.at_ (i, c) ⟨round, .sending base pending true⟩ }
  | flush {s : State ι κ} {i : ι} {c : κ} {round base : Nat} (memI : i ∈ net.ranks)
      (memC : c ∈ net.groups) (head : s.at_ (i, c) = ⟨round, .sending base 0 true⟩)
      (flushed : net.flushed s.inFlight i c) :
      Step net s { s with at_ := Function.update s.at_ (i, c) (net.afterFlush round) }
  | close {s : State ι κ} {i : ι} {c : κ} {round : Nat} (memI : i ∈ net.ranks)
      (memC : c ∈ net.groups) (head : s.at_ (i, c) = ⟨round, .closing⟩)
      (met : ∀ j ∈ net.ranks, (s.at_ (j, c)).HasFlushed round) :
      Step net s { s with at_ := Function.update s.at_ (i, c) ⟨round + 1, .idle⟩ }

/-- Every member has run all rounds. -/
def Finished (net : Net ι κ) (s : State ι κ) : Prop :=
  ∀ i ∈ net.ranks, ∀ c ∈ net.groups, s.at_ (i, c) = ⟨net.rounds, .idle⟩

def Reachable (net : Net ι κ) (s : State ι κ) : Prop :=
  Relation.ReflTransGen (Step net) (init net) s

/-- The puts of a round that have arrived at a member. -/
def State.received (net : Net ι κ) (s : State ι κ) (round : Nat) (d : ι) (c : κ) : Nat :=
  ∑ i ∈ net.ranks, s.delivered.count ⟨round, i, d, c⟩

/-- The puts to a member in every round. -/
def Net.total (net : Net ι κ) (d : ι) (c : κ) : Nat := ∑ i ∈ net.ranks, (net.puts i c).count d

/-- Members await as many puts as their group has for them, all targets are ranks, and a
flush returns at the latest when all puts of the member have arrived. -/
structure Balanced (net : Net ι κ) : Prop where
  awaited : ∀ d ∈ net.ranks, ∀ c ∈ net.groups, net.total d c = (net.awaits d c).getD 0
  targets : ∀ i ∈ net.ranks, ∀ c ∈ net.groups, ∀ d ∈ net.puts i c, d ∈ net.ranks
  flush : ∀ inFlight i c, (∀ put ∈ inFlight, ¬(put.src = i ∧ put.group = c)) →
    net.flushed inFlight i c

end Semantics

/-! ## What holds in every reachable state -/

section Invariant

variable [DecidableEq ι] [DecidableEq κ] {net : Net ι κ} {s t : State ι κ} {i j d : ι} {c : κ}
  {round : Nat}

/-- * `bounded`: no member is past the last round;
* `barrier`: who has passed the barrier of a round has met all members of its group there;
* `accounted`: of the puts of a member in a round each is in flight, delivered or left;
* `senders`: there are no other puts;
* `counted`: the counters count the puts that have arrived;
* `base`: what a member has read is what its former rounds have brought;
* `waited`: who has waited in a round has received its puts. -/
structure Inv (net : Net ι κ) (s : State ι κ) : Prop where
  bounded : ∀ i ∈ net.ranks, ∀ c ∈ net.groups, (s.at_ (i, c)).time ≤ 5 * net.rounds
  barrier : ∀ i ∈ net.ranks, ∀ j ∈ net.ranks, ∀ c ∈ net.groups, ∀ round,
    (s.at_ (i, c)).HasEntered round → (s.at_ (j, c)).HasRead round
  accounted : ∀ i ∈ net.ranks, ∀ c ∈ net.groups, ∀ round d,
    s.inFlight.count ⟨round, i, d, c⟩ + s.delivered.count ⟨round, i, d, c⟩ +
      ((s.at_ (i, c)).left round).count d = ((s.at_ (i, c)).due round (net.puts i c)).count d
  senders : ∀ put ∈ s.inFlight + s.delivered, put.src ∈ net.ranks ∧ put.group ∈ net.groups
  counted : ∀ d ∈ net.ranks, ∀ c ∈ net.groups, s.counter (d, c) =
    net.initial d c + ∑ round ∈ Finset.range net.rounds, s.received net round d c
  base : ∀ d ∈ net.ranks, ∀ c ∈ net.groups, ∀ base, (s.at_ (d, c)).base? = some base →
    base = net.initial d c + (s.at_ (d, c)).done * net.total d c
  waited : ∀ d ∈ net.ranks, ∀ c ∈ net.groups, ∀ round, (s.at_ (d, c)).HasWaited round →
    ∀ i ∈ net.ranks, s.delivered.count ⟨round, i, d, c⟩ = (net.puts i c).count d

theorem Inv.init : Inv net (init net) where
  bounded _ _ _ _ := Nat.zero_le _
  barrier i _ j _ c _ round entered := by
    change 5 * round + 2 ≤ 0 at entered
    omega
  accounted i _ c _ round d := by
    have early : ¬ ((SignalBarrier.init net).at_ (i, c)).HasEntered round := by
      change ¬ 5 * round + 2 ≤ 0
      omega
    rw [Local.due_of_not_entered early]
    rfl
  senders put mem := absurd mem (Multiset.notMem_zero put)
  counted d _ c _ := by
    simp [SignalBarrier.init, State.received]
  base d _ c _ base some_ := by cases some_
  waited d _ c _ round waited := by
    change 5 * round + 3 ≤ 0 at waited
    omega

/-- A sum of steps of one height, a last step, and nothing behind it. -/
theorem sum_steps {f : Nat → Nat} {n k v : Nat} (le : k ≤ n) (before : ∀ x < k, f x = v)
    (after : ∀ x, k < x → f x = 0) (last : k = n → f k = 0) :
    ∑ x ∈ Finset.range n, f x = k * v + f k := by
  have steps : ∑ x ∈ Finset.range k, f x = k * v := by
    rw [Finset.sum_congr rfl fun x mem => before x (Finset.mem_range.1 mem), Finset.sum_const,
      Finset.card_range, smul_eq_mul]
  rcases Nat.eq_or_lt_of_le le with all | less
  · rw [last all, ← all, steps, Nat.add_zero]
  · obtain ⟨m, rfl⟩ := Nat.exists_eq_add_of_le less
    rw [Finset.sum_range_add, Finset.sum_range_succ, steps, Finset.sum_eq_zero, Nat.add_zero]
    intro x _
    exact after _ (by omega)

theorem Inv.entered_of_put (inv : Inv net s) {put : Put ι κ}
    (mem : put ∈ s.inFlight + s.delivered) :
    (s.at_ (put.src, put.group)).HasEntered put.round := by
  obtain ⟨memI, memC⟩ := inv.senders put mem
  obtain ⟨round, i, d, c⟩ := put
  have account := inv.accounted i memI c memC round d
  by_contra early
  rw [Local.due_of_not_entered early, Multiset.count_zero] at account
  have some_ := Multiset.count_pos.2 mem
  rw [Multiset.count_add] at some_
  omega

/-- The puts that are in flight, have arrived or are left are puts of the member. -/
theorem Inv.account_le (inv : Inv net s) (memI : i ∈ net.ranks) (memC : c ∈ net.groups) :
    s.inFlight.count ⟨round, i, d, c⟩ + s.delivered.count ⟨round, i, d, c⟩ ≤
      (net.puts i c).count d := by
  have account := inv.accounted i memI c memC round d
  have due := Multiset.count_le_of_le d ((s.at_ (i, c)).due_le round (net.puts i c))
  omega

theorem Inv.target_of_put (inv : Inv net s) {put : Put ι κ}
    (mem : put ∈ s.inFlight + s.delivered) : put.dst ∈ net.puts put.src put.group := by
  obtain ⟨memI, memC⟩ := inv.senders put mem
  have some_ := Multiset.count_pos.2 mem
  rw [Multiset.count_add] at some_
  exact Multiset.count_pos.1 (some_.trans_le (inv.account_le memI memC))

/-- Nothing of a round is on the way to a member before it has read its counter there. -/
theorem Inv.read_of_put (inv : Inv net s) {put : Put ι κ} (mem : put ∈ s.inFlight + s.delivered)
    (memD : put.dst ∈ net.ranks) : (s.at_ (put.dst, put.group)).HasRead put.round := by
  obtain ⟨memI, memC⟩ := inv.senders put mem
  exact inv.barrier put.src memI put.dst memD put.group memC put.round (inv.entered_of_put mem)

theorem Inv.delivered_le (inv : Inv net s) (memI : i ∈ net.ranks) (memC : c ∈ net.groups) :
    s.delivered.count ⟨round, i, d, c⟩ ≤ (net.puts i c).count d :=
  (Nat.le_add_left _ _).trans (inv.account_le memI memC)

/-- When all puts of a member to a target have arrived, none is in flight. -/
theorem Inv.not_inFlight (inv : Inv net s) (memI : i ∈ net.ranks) (memC : c ∈ net.groups)
    (all : s.delivered.count ⟨round, i, d, c⟩ = (net.puts i c).count d) :
    (⟨round, i, d, c⟩ : Put ι κ) ∉ s.inFlight := by
  intro sent
  have some_ := Multiset.count_pos.2 sent
  have account : s.inFlight.count ⟨round, i, d, c⟩ + s.delivered.count ⟨round, i, d, c⟩ ≤
      (net.puts i c).count d := inv.account_le memI memC
  omega

/-- A member never receives more in a round than its group has for it. -/
theorem Inv.received_le (inv : Inv net s) (memC : c ∈ net.groups) :
    s.received net round d c ≤ net.total d c :=
  Finset.sum_le_sum fun _ memI => inv.delivered_le memI memC

theorem Inv.received_of_waited (inv : Inv net s) (memD : d ∈ net.ranks) (memC : c ∈ net.groups)
    (waited : (s.at_ (d, c)).HasWaited round) : s.received net round d c = net.total d c :=
  Finset.sum_congr rfl fun i memI => inv.waited d memD c memC round waited i memI

theorem Inv.received_of_not_read (inv : Inv net s) (memD : d ∈ net.ranks)
    (early : ¬ (s.at_ (d, c)).HasRead round) : s.received net round d c = 0 := by
  refine Finset.sum_eq_zero fun i _ => Multiset.count_eq_zero.2 fun arrived => early ?_
  have mem : (⟨round, i, d, c⟩ : Put ι κ) ∈ s.inFlight + s.delivered :=
    Multiset.mem_add.2 (.inr arrived)
  exact inv.read_of_put mem memD

/-- The counter of a member has grown by its former rounds and what has arrived of its
present one, and by nothing of the next. -/
theorem Inv.counter_eq (inv : Inv net s) (memD : d ∈ net.ranks) (memC : c ∈ net.groups) :
    s.counter (d, c) = net.initial d c + ((s.at_ (d, c)).done * net.total d c +
      s.received net (s.at_ (d, c)).done d c) := by
  have bounded := inv.bounded d memD c memC
  have stage_lt := (s.at_ (d, c)).phase.stage_lt
  rw [Local.time] at bounded
  rw [inv.counted d memD c memC, sum_steps (k := (s.at_ (d, c)).done) (v := net.total d c)]
  · omega
  · intro earlier less
    refine inv.received_of_waited memD memC ?_
    rw [Local.HasWaited, Local.time]
    omega
  · intro later more
    refine inv.received_of_not_read memD ?_
    rw [Local.HasRead, Local.time]
    omega
  · intro all
    refine inv.received_of_not_read memD ?_
    rw [Local.HasRead, Local.time]
    omega

/-! ## Steps keep the invariant -/

/-- A member that goes on, perhaps with a put, keeps the invariant if it accounts for it. -/
theorem Inv.move (inv : Inv net s) (memI : i ∈ net.ranks) (memC : c ∈ net.groups)
    {now : Local ι} {inFlight : Multiset (Put ι κ)} (later : (s.at_ (i, c)).time ≤ now.time)
    (bounded : now.time ≤ 5 * net.rounds)
    (barrier : ∀ round, now.HasEntered round →
      (s.at_ (i, c)).HasEntered round ∨ ∀ j ∈ net.ranks, (s.at_ (j, c)).HasRead round)
    (others : ∀ put : Put ι κ, ¬(put.src = i ∧ put.group = c) →
      inFlight.count put = s.inFlight.count put)
    (account : ∀ round d, inFlight.count ⟨round, i, d, c⟩ +
        s.delivered.count ⟨round, i, d, c⟩ + (now.left round).count d =
      (now.due round (net.puts i c)).count d)
    (base : ∀ base, now.base? = some base →
      base = net.initial i c + now.done * net.total i c)
    (waited : ∀ round, now.HasWaited round → ¬ (s.at_ (i, c)).HasWaited round →
      ∀ j ∈ net.ranks, s.delivered.count ⟨round, j, i, c⟩ = (net.puts j c).count i) :
    Inv net { s with at_ := Function.update s.at_ (i, c) now, inFlight := inFlight } := by
  have later_ {j : ι} {c' : κ} {round : Nat} (read : (s.at_ (j, c')).HasRead round) :
      (Function.update s.at_ (i, c) now (j, c')).HasRead round := by
    rcases eq_or_ne (j, c') (i, c) with same | other
    · rw [same, Function.update_self]
      rw [same] at read
      exact le_trans read later
    · rwa [Function.update_of_ne other]
  constructor
  · intro j memJ c' memC'
    dsimp only
    rcases eq_or_ne (j, c') (i, c) with same | other
    · rwa [same, Function.update_self]
    · rw [Function.update_of_ne other]
      exact inv.bounded j memJ c' memC'
  · intro j memJ k memK c' memC' round entered
    dsimp only at entered ⊢
    rcases eq_or_ne (j, c') (i, c) with same | other
    · rw [same, Function.update_self] at entered
      obtain ⟨rfl, rfl⟩ := Prod.mk.inj same
      rcases barrier round entered with before | all
      · exact later_ (inv.barrier j memJ k memK c' memC' round before)
      · exact later_ (all k memK)
    · rw [Function.update_of_ne other] at entered
      exact later_ (inv.barrier j memJ k memK c' memC' round entered)
  · intro j memJ c' memC' round d
    dsimp only
    rcases eq_or_ne (j, c') (i, c) with same | other
    · rw [same, Function.update_self]
      obtain ⟨rfl, rfl⟩ := Prod.mk.inj same
      exact account round d
    · rw [Function.update_of_ne other, others]
      · exact inv.accounted j memJ c' memC' round d
      · rintro ⟨rfl, rfl⟩
        exact other rfl
  · intro put mem
    by_cases own : put.src = i ∧ put.group = c
    · rw [own.1, own.2]
      exact ⟨memI, memC⟩
    · refine inv.senders put (Multiset.mem_add.2 ?_)
      refine (Multiset.mem_add.1 mem).imp_left fun sent => ?_
      rw [← Multiset.count_pos] at sent ⊢
      rwa [← others put own]
  · exact inv.counted
  · intro d memD c' memC' b some_
    dsimp only at some_ ⊢
    rcases eq_or_ne (d, c') (i, c) with same | other
    · rw [same, Function.update_self] at some_ ⊢
      obtain ⟨rfl, rfl⟩ := Prod.mk.inj same
      exact base b some_
    · rw [Function.update_of_ne other] at some_ ⊢
      exact inv.base d memD c' memC' b some_
  · intro d memD c' memC' round waited_ j memJ
    dsimp only at waited_ ⊢
    rcases eq_or_ne (d, c') (i, c) with same | other
    · rw [same, Function.update_self] at waited_
      obtain ⟨rfl, rfl⟩ := Prod.mk.inj same
      by_cases before : (s.at_ (d, c')).HasWaited round
      · exact inv.waited d memD c' memC' round before j memJ
      · exact waited round waited_ before j memJ
    · rw [Function.update_of_ne other] at waited_
      exact inv.waited d memD c' memC' round waited_ j memJ

/-- A member that goes on without puts and without passing the barrier. -/
theorem Inv.advance (inv : Inv net s) (memI : i ∈ net.ranks) (memC : c ∈ net.groups)
    {now : Local ι} (later : (s.at_ (i, c)).time ≤ now.time) (bounded : now.time ≤ 5 * net.rounds)
    (left : ∀ round, now.left round = (s.at_ (i, c)).left round)
    (entered : ∀ round, now.HasEntered round ↔ (s.at_ (i, c)).HasEntered round)
    (base : ∀ base, now.base? = some base →
      base = net.initial i c + now.done * net.total i c)
    (waited : ∀ round, now.HasWaited round → ¬ (s.at_ (i, c)).HasWaited round →
      ∀ j ∈ net.ranks, s.delivered.count ⟨round, j, i, c⟩ = (net.puts j c).count i) :
    Inv net { s with at_ := Function.update s.at_ (i, c) now } := by
  refine inv.move memI memC later bounded (fun round past => .inl ((entered round).1 past))
    (fun _ _ => rfl) (fun round d => ?_) base waited
  have due : now.due round (net.puts i c) = (s.at_ (i, c)).due round (net.puts i c) :=
    if_congr (entered round) rfl rfl
  rw [left, due]
  exact inv.accounted i memI c memC round d

theorem Inv.read (inv : Inv net s) (memI : i ∈ net.ranks) (memC : c ∈ net.groups)
    (idle : s.at_ (i, c) = ⟨round, .idle⟩) (more : round < net.rounds) :
    Inv net { s with
      at_ := Function.update s.at_ (i, c) ⟨round, .arrived (s.counter (i, c))⟩ } := by
  have counter := inv.counter_eq memI memC
  have none_ : s.received net round i c = 0 := by
    refine inv.received_of_not_read memI ?_
    rw [idle]
    exact Nat.not_succ_le_self _
  rw [idle] at counter
  refine inv.advance memI memC ?_ ?_ ?_ ?_ ?_ ?_ <;>
    simp only [idle, Local.time, Local.HasEntered, Local.HasWaited, Phase.stage]
  · omega
  · omega
  · intro _
    rfl
  · omega
  · rintro _ ⟨⟩
    rw [counter, none_, Nat.add_zero]
  · omega

theorem Inv.enter (inv : Inv net s) {base : Nat} (memI : i ∈ net.ranks)
    (memC : c ∈ net.groups) (head : s.at_ (i, c) = ⟨round, .arrived base⟩)
    (met : ∀ j ∈ net.ranks, (s.at_ (j, c)).HasRead round) :
    Inv net { s with
      at_ := Function.update s.at_ (i, c) ⟨round, .sending base (net.puts i c) false⟩ } := by
  have bounded := inv.bounded i memI c memC
  have oldBase := inv.base i memI c memC base
  rw [head] at bounded oldBase
  simp only [Local.time, Phase.stage] at bounded
  refine inv.move memI memC ?_ ?_ (fun r entered => ?_) (fun _ _ => rfl) (fun r d => ?_) ?_
    fun r waited early => ?_
  · simp only [head, Local.time, Phase.stage, Bool.toNat_false]
    omega
  · simp only [Local.time, Phase.stage, Bool.toNat_false]
    omega
  · by_cases now : r = round
    · rw [now]
      exact .inr met
    · left
      simp only [head, Local.HasEntered, Local.time, Phase.stage, Bool.toNat_false] at entered ⊢
      omega
  · have account := inv.accounted i memI c memC r d
    rw [head] at account
    by_cases now : r = round
    · subst now
      rw [Local.due_of_not_entered (by simp [Local.HasEntered, Local.time, Phase.stage]),
        Multiset.count_zero] at account
      rw [Local.due_of_entered (by simp [Local.HasEntered, Local.time, Phase.stage]),
        Local.left_sending, if_pos rfl]
      omega
    · have same : Local.due ⟨round, .sending base (net.puts i c) false⟩ r (net.puts i c) =
          Local.due ⟨round, .arrived base⟩ r (net.puts i c) := by
        refine if_congr ?_ rfl rfl
        simp only [Local.HasEntered, Local.time, Phase.stage, Bool.toNat_false]
        omega
      rw [same, ← account, Local.left_sending, if_neg (Ne.symm now)]
      rfl
  · rintro _ ⟨⟩
    exact oldBase rfl
  · simp only [head, Local.HasWaited, Local.time, Phase.stage, Bool.toNat_false] at waited early
    omega

theorem Inv.put (inv : Inv net s) {dst : ι} {base : Nat} {pending : Multiset ι} {released : Bool}
    (memI : i ∈ net.ranks) (memC : c ∈ net.groups)
    (head : s.at_ (i, c) = ⟨round, .sending base pending released⟩) (mem : dst ∈ pending) :
    Inv net { s with
      at_ := Function.update s.at_ (i, c) ⟨round, .sending base (pending.erase dst) released⟩
      inFlight := ⟨round, i, dst, c⟩ ::ₘ s.inFlight } := by
  have bounded := inv.bounded i memI c memC
  have oldBase := inv.base i memI c memC base
  rw [head] at bounded oldBase
  refine inv.move memI memC ?_ bounded (fun r entered => .inl ?_) (fun put own => ?_)
    (fun r d => ?_) ?_ fun r waited early => ?_
  · rw [head]
    exact le_rfl
  · rw [head]
    exact entered
  · refine Multiset.count_cons_of_ne ?_ _
    rintro rfl
    exact own ⟨rfl, rfl⟩
  · have account := inv.accounted i memI c memC r d
    rw [head] at account
    refine Eq.trans ?_ account
    simp only [Local.left_sending, Multiset.count_cons, Put.mk.injEq, true_and, and_true]
    by_cases now : round = r
    · subst now
      rcases eq_or_ne d dst with rfl | other
      · have some_ := Multiset.count_pos.2 mem
        simp only [if_true, and_true, Multiset.count_erase_self]
        omega
      · simp only [if_true, other, and_false, if_false, Multiset.count_erase_of_ne other]
        omega
    · simp only [now, Ne.symm now, if_false, false_and]
      omega
  · rintro _ ⟨⟩
    exact oldBase rfl
  · rw [head] at early
    exact absurd waited early

/-- An arrival counts for one member and one round. -/
theorem sum_received_cons {put : Put ι κ} (memI : put.src ∈ net.ranks)
    (less : put.round < net.rounds) (delivered : Multiset (Put ι κ)) :
    ∑ round ∈ Finset.range net.rounds, ∑ j ∈ net.ranks,
        (put ::ₘ delivered).count ⟨round, j, d, c⟩ =
      ∑ round ∈ Finset.range net.rounds, ∑ j ∈ net.ranks, delivered.count ⟨round, j, d, c⟩ +
        if (d, c) = (put.dst, put.group) then 1 else 0 := by
  obtain ⟨r, i, d', c'⟩ := put
  simp only [Multiset.count_cons, Finset.sum_add_distrib, Put.mk.injEq, Prod.mk.injEq]
  congr 1
  by_cases target : d = d' ∧ c = c'
  · rw [if_pos target, Finset.sum_eq_single_of_mem r (Finset.mem_range.2 less),
      Finset.sum_eq_single_of_mem i memI]
    · exact if_pos ⟨rfl, rfl, target⟩
    · intro j _ other
      exact if_neg fun same => other same.2.1
    · intro round _ other
      exact Finset.sum_eq_zero fun j _ => if_neg fun same => other same.1
  · rw [if_neg target]
    exact Finset.sum_eq_zero fun round _ => Finset.sum_eq_zero fun j _ =>
      if_neg fun same => target same.2.2

theorem Inv.deliver (inv : Inv net s) {put : Put ι κ} (sent : put ∈ s.inFlight) :
    Inv net { s with
      counter := Function.update s.counter (put.dst, put.group)
        (s.counter (put.dst, put.group) + 1)
      inFlight := s.inFlight.erase put
      delivered := put ::ₘ s.delivered } := by
  have sent_ := Multiset.count_pos.2 sent
  have inAll : put ∈ s.inFlight + s.delivered := Multiset.mem_add.2 (.inl sent)
  obtain ⟨memI, memC⟩ := inv.senders put inAll
  have entered := inv.entered_of_put inAll
  constructor
  · exact inv.bounded
  · exact inv.barrier
  · intro j memJ c' memC' round d
    have account := inv.accounted j memJ c' memC' round d
    dsimp only
    rcases eq_or_ne ⟨round, j, d, c'⟩ put with same | other
    · rw [same, Multiset.count_erase_self, Multiset.count_cons_self]
      rw [same] at account
      omega
    · rw [Multiset.count_erase_of_ne other, Multiset.count_cons_of_ne other]
      exact account
  · intro other mem
    dsimp only at mem
    refine inv.senders other ?_
    rcases Multiset.mem_add.1 mem with still | arrived
    · exact Multiset.mem_add.2 (.inl (Multiset.mem_of_mem_erase still))
    · rcases Multiset.mem_cons.1 arrived with rfl | before
      · exact inAll
      · exact Multiset.mem_add.2 (.inr before)
  · intro d memD c' memC'
    have counted := inv.counted d memD c' memC'
    have less : put.round < net.rounds := by
      have bounded := inv.bounded put.src memI put.group memC
      rw [Local.HasEntered] at entered
      omega
    have arrival := sum_received_cons (d := d) (c := c') memI less s.delivered
    simp only [State.received] at counted ⊢
    rw [arrival, ← Nat.add_assoc, ← counted]
    by_cases target : (d, c') = (put.dst, put.group)
    · rw [if_pos target, target, Function.update_self]
    · rw [if_neg target, Function.update_of_ne target, Nat.add_zero]
  · exact inv.base
  · intro d memD c' memC' round waited j memJ
    have before := inv.waited d memD c' memC' round waited j memJ
    dsimp only
    rcases eq_or_ne ⟨round, j, d, c'⟩ put with same | other
    · exact absurd (same ▸ sent) (inv.not_inFlight memJ memC' before)
    · rw [Multiset.count_cons_of_ne other]
      exact before

theorem Inv.wait (inv : Inv net s) (net_ok : Balanced net) {base : Nat}
    {pending : Multiset ι} (memI : i ∈ net.ranks) (memC : c ∈ net.groups)
    (head : s.at_ (i, c) = ⟨round, .sending base pending false⟩)
    (reached : ∀ n ∈ net.awaits i c, base + n ≤ s.counter (i, c)) :
    Inv net { s with
      at_ := Function.update s.at_ (i, c) ⟨round, .sending base pending true⟩ } := by
  have bounded := inv.bounded i memI c memC
  have oldBase := inv.base i memI c memC base
  have counter := inv.counter_eq memI memC
  have total := net_ok.awaited i memI c memC
  rw [head] at bounded oldBase counter
  have base_eq := oldBase rfl
  simp only [Local.time, Phase.stage, Bool.toNat_false] at bounded counter base_eq
  have all : net.total i c ≤ s.received net round i c := by
    cases awaits : net.awaits i c with
    | none =>
      rw [total, awaits]
      exact Nat.zero_le _
    | some n =>
      have grown := reached n awaits
      rw [awaits, Option.getD_some] at total
      omega
  refine inv.advance memI memC ?_ ?_ (fun r => ?_) (fun r => ?_) ?_ fun r waited early => ?_
  · simp only [head, Local.time, Phase.stage, Bool.toNat_false, Bool.toNat_true]
    omega
  · simp only [Local.time, Phase.stage, Bool.toNat_true]
    omega
  · rw [head]
    rfl
  · simp only [head, Local.HasEntered, Local.time, Phase.stage, Bool.toNat_false,
      Bool.toNat_true]
    omega
  · rintro _ ⟨⟩
    exact base_eq
  · simp only [head, Local.HasWaited, Local.time, Phase.stage, Bool.toNat_false,
      Bool.toNat_true] at waited early
    obtain rfl : r = round := by omega
    -- no member has more puts delivered than it issues, so none has fewer
    exact (Finset.sum_eq_sum_iff_of_le fun j memJ => inv.delivered_le memJ memC).1
      (Nat.le_antisymm (inv.received_le memC) all)

theorem Inv.flush (inv : Inv net s) {base : Nat} (memI : i ∈ net.ranks) (memC : c ∈ net.groups)
    (head : s.at_ (i, c) = ⟨round, .sending base 0 true⟩) :
    Inv net { s with at_ := Function.update s.at_ (i, c) (net.afterFlush round) } := by
  have time : 5 * round + 4 ≤ (net.afterFlush round : Local ι).time ∧
      (net.afterFlush round : Local ι).time ≤ 5 * round + 5 := by
    unfold Net.afterFlush
    split <;> simp [Local.time, Phase.stage]; omega
  have bounded := inv.bounded i memI c memC
  have old : (s.at_ (i, c)).time = 5 * round + 3 := by
    rw [head]
    rfl
  refine inv.advance memI memC ?_ ?_ (fun r => ?_) (fun r => ?_) ?_ fun r waited early => ?_
  · omega
  · omega
  · rw [head, Local.left_sending, ite_self, Net.afterFlush]
    split <;> rfl
  · rw [Local.HasEntered, Local.HasEntered]
    omega
  · intro b some_
    unfold Net.afterFlush at some_
    split at some_ <;> cases some_
  · rw [Local.HasWaited] at waited early
    omega

theorem Inv.close (inv : Inv net s) (memI : i ∈ net.ranks) (memC : c ∈ net.groups)
    (head : s.at_ (i, c) = ⟨round, .closing⟩) :
    Inv net { s with at_ := Function.update s.at_ (i, c) ⟨round + 1, .idle⟩ } := by
  have bounded := inv.bounded i memI c memC
  have old : (s.at_ (i, c)).time = 5 * round + 4 := by
    rw [head]
    rfl
  have time : (⟨round + 1, .idle⟩ : Local ι).time = 5 * round + 5 := rfl
  refine inv.advance memI memC ?_ ?_ (fun r => ?_) (fun r => ?_) ?_ fun r waited early => ?_
  · omega
  · omega
  · rw [head]
    rfl
  · rw [Local.HasEntered, Local.HasEntered]
    omega
  · rintro _ ⟨⟩
  · rw [Local.HasWaited] at waited early
    omega

theorem Inv.step (inv : Inv net s) (net_ok : Balanced net) (step : Step net s t) : Inv net t := by
  cases step with
  | read memI memC idle more ordered => exact inv.read memI memC idle more
  | enter memI memC head met => exact inv.enter memI memC head met
  | put memI memC head mem => exact inv.put memI memC head mem
  | deliver sent => exact inv.deliver sent
  | wait memI memC head reached => exact inv.wait net_ok memI memC head reached
  | flush memI memC head flushed => exact inv.flush memI memC head
  | close memI memC head met => exact inv.close memI memC head

theorem Reachable.inv (net_ok : Balanced net) (reach : Reachable net s) : Inv net s := by
  induction reach with
  | refl => exact Inv.init
  | tail _ step ih => exact ih.step net_ok step

/-! ## No run gets stuck -/

/-- When nothing is on the way and nobody can put, who has met its group at the barrier has
been sent everything. -/
theorem Inv.received_of_still (inv : Inv net s) (halt : ∀ t, ¬ Step net s t)
    (memC : c ∈ net.groups)
    (met : ∀ j ∈ net.ranks, (s.at_ (j, c)).HasEntered round) :
    s.received net round d c = net.total d c := by
  have still : s.inFlight = 0 := by
    by_contra sent
    obtain ⟨put, mem⟩ := Multiset.exists_mem_of_ne_zero sent
    exact halt _ (.deliver mem)
  refine Finset.sum_congr rfl fun j memJ => ?_
  have issued : (s.at_ (j, c)).left round = 0 := by
    rcases at_eq : s.at_ (j, c) with ⟨done, phase⟩
    cases phase with
    | sending base pending released =>
      have none_ : pending = 0 := by
        by_contra some_
        obtain ⟨dst, mem⟩ := Multiset.exists_mem_of_ne_zero some_
        exact halt _ (.put memJ memC at_eq mem)
      rw [Local.left_sending, none_, ite_self]
    | _ => rfl
  have account := inv.accounted j memJ c memC round d
  rw [still, issued, Local.due_of_entered (met j memJ), Multiset.count_zero,
    Multiset.count_zero, Nat.zero_add, Nat.add_zero] at account
  exact account

/-- Of the members that are not through, one that is the least far can go on. -/
theorem Inv.step_of_least (inv : Inv net s) (net_ok : Balanced net) (memI : i ∈ net.ranks)
    (memC : c ∈ net.groups) (more : (s.at_ (i, c)).time < 5 * net.rounds)
    (least : ∀ j ∈ net.ranks, ∀ c' ∈ net.groups,
      (s.at_ (i, c)).time ≤ (s.at_ (j, c')).time) : ∃ t, Step net s t := by
  by_contra none_
  have halt : ∀ t, ¬ Step net s t := fun t step => none_ ⟨t, step⟩
  rcases at_eq : s.at_ (i, c) with ⟨round, phase⟩
  rw [at_eq] at more least
  cases phase with
  | idle =>
    refine halt _ (.read memI memC at_eq ?_ fun c' memC' => ?_)
    · simp only [Local.time, Phase.stage] at more
      omega
    · have stage := (s.at_ (i, c')).phase.stage_lt
      have before : 5 * round + 0 ≤
          5 * (s.at_ (i, c')).done + (s.at_ (i, c')).phase.stage := least i memI c' memC'
      omega
  | arrived base => exact halt _ (.enter memI memC at_eq fun j memJ => least j memJ c memC)
  | closing => exact halt _ (.close memI memC at_eq fun j memJ => least j memJ c memC)
  | sending base pending released =>
    have none_ : pending = 0 := by
      by_contra some_
      obtain ⟨dst, mem⟩ := Multiset.exists_mem_of_ne_zero some_
      exact halt _ (.put memI memC at_eq mem)
    subst none_
    cases released with
    | true =>
      refine halt _ (.flush memI memC at_eq (net_ok.flush _ _ _ fun put sent => ?_))
      exact absurd (Step.deliver sent) (halt _)
    | false =>
      refine halt _ (.wait memI memC at_eq fun n awaits => ?_)
      have counter := inv.counter_eq memI memC
      have base_eq := inv.base i memI c memC base
      have total := net_ok.awaited i memI c memC
      have all := @Inv.received_of_still _ _ _ _ net s i c round inv halt memC fun j memJ =>
        least j memJ c memC
      rw [at_eq] at counter base_eq
      rw [Option.mem_def.1 awaits, Option.getD_some] at total
      have base_eq := base_eq rfl
      dsimp only at counter base_eq all
      omega

/-- A run that is not finished can go on. -/
theorem Balanced.progress (net_ok : Balanced net) (reach : Reachable net s)
    (unfinished : ¬ Finished net s) : ∃ t, Step net s t := by
  have inv := reach.inv net_ok
  obtain ⟨waiting, memW, notThrough⟩ : ∃ m ∈ net.ranks ×ˢ net.groups,
      s.at_ m ≠ ⟨net.rounds, .idle⟩ := by
    by_contra none_
    push Not at none_
    exact unfinished fun i memI c memC => none_ (i, c) (Finset.mem_product.2 ⟨memI, memC⟩)
  obtain ⟨⟨i, c⟩, mem, least⟩ := Finset.exists_min_image (net.ranks ×ˢ net.groups)
    (fun m => (s.at_ m).time) ⟨waiting, memW⟩
  obtain ⟨memI, memC⟩ := Finset.mem_product.1 mem
  refine inv.step_of_least net_ok memI memC ?_ fun j memJ c' memC' =>
    least (j, c') (Finset.mem_product.2 ⟨memJ, memC'⟩)
  refine lt_of_le_of_lt (least waiting memW) ?_
  obtain ⟨memJ, memC'⟩ := Finset.mem_product.1 memW
  refine lt_of_le_of_ne (inv.bounded waiting.1 memJ waiting.2 memC') fun last => notThrough ?_
  -- a member at the end of the last round is idle
  rcases at_eq : s.at_ waiting with ⟨done, phase⟩
  rw [at_eq] at last
  have stage := phase.stage_lt
  simp only [Local.time] at last
  cases phase with
  | idle =>
    obtain rfl : done = net.rounds := by
      simp only [Phase.stage] at last
      omega
    rfl
  | _ =>
    simp only [Phase.stage] at last stage
    omega

omit [DecidableEq ι] [DecidableEq κ] in
theorem Finished.hasWaited (finished : Finished net s) (memI : i ∈ net.ranks)
    (memC : c ∈ net.groups) (less : round < net.rounds) : (s.at_ (i, c)).HasWaited round := by
  rw [finished i memI c memC]
  change 5 * round + 3 ≤ 5 * net.rounds + 0
  omega

/-- When all members are through, nothing is on the way. -/
theorem Inv.clean (inv : Inv net s) (net_ok : Balanced net) (finished : Finished net s) :
    s.inFlight = 0 := by
  by_contra sent
  obtain ⟨put, mem⟩ := Multiset.exists_mem_of_ne_zero sent
  have inAll : put ∈ s.inFlight + s.delivered := Multiset.mem_add.2 (.inl mem)
  obtain ⟨memI, memC⟩ := inv.senders put inAll
  have memD := net_ok.targets put.src memI put.group memC put.dst (inv.target_of_put inAll)
  have less : put.round < net.rounds := by
    have entered := inv.entered_of_put inAll
    rw [finished put.src memI put.group memC] at entered
    change 5 * put.round + 2 ≤ 5 * net.rounds + 0 at entered
    omega
  have waited := finished.hasWaited memD memC less
  exact inv.not_inFlight memI memC
    (inv.waited put.dst memD put.group memC put.round waited put.src memI) mem

/-! ## Every run ends -/

/-- What a member has left to do, a put counting for its arrival as well. -/
def left (net : Net ι κ) (m : ι × κ) (l : Local ι) : Nat :=
  let whole := 2 * (net.puts m.1 m.2).card + 5
  match l.phase with
  | .idle => (net.rounds - l.done) * whole
  | .arrived _ => (net.rounds - (l.done + 1)) * whole + (2 * (net.puts m.1 m.2).card + 4)
  | .sending _ pending released =>
    (net.rounds - (l.done + 1)) * whole + (2 * pending.card + (3 - released.toNat))
  | .closing => (net.rounds - (l.done + 1)) * whole + 1

def measure (net : Net ι κ) (s : State ι κ) : Nat :=
  ∑ m ∈ net.ranks ×ˢ net.groups, left net m (s.at_ m) + s.inFlight.card

/-- A member that has less left to do. -/
theorem measure_move {now : Local ι} {inFlight : Multiset (Put ι κ)} (memI : i ∈ net.ranks)
    (memC : c ∈ net.groups)
    (less : left net (i, c) now + inFlight.card <
      left net (i, c) (s.at_ (i, c)) + s.inFlight.card) :
    measure net { s with at_ := Function.update s.at_ (i, c) now, inFlight := inFlight } <
      measure net s := by
  have moved := SignalNet.sum_update_add (net.ranks ×ˢ net.groups) (left net) s.at_
    (Finset.mk_mem_product memI memC) now
  unfold measure
  dsimp only
  omega

/-- Every step uses up something, so no run goes on for ever. -/
theorem Step.measure_lt (step : Step net s t) : measure net t < measure net s := by
  cases step with
  | @read i c round memI memC idle more ordered =>
    refine measure_move memI memC (Nat.add_lt_add_right ?_ _)
    obtain ⟨m, hm⟩ := Nat.exists_eq_add_of_lt more
    have rounds : net.rounds - round = net.rounds - (round + 1) + 1 := by omega
    simp only [idle, left, rounds, Nat.succ_mul]
    omega
  | enter memI memC head met =>
    refine measure_move memI memC (Nat.add_lt_add_right ?_ _)
    simp only [head, left, Bool.toNat_false]
    omega
  | @put i dst c round base pending released memI memC head mem =>
    refine measure_move memI memC ?_
    have card := Multiset.card_erase_add_one mem
    simp only [head, left, Multiset.card_cons]
    omega
  | deliver sent =>
    have card := Multiset.card_erase_add_one sent
    unfold measure
    dsimp only
    omega
  | wait memI memC head reached =>
    refine measure_move memI memC (Nat.add_lt_add_right ?_ _)
    simp only [head, left, Bool.toNat_false, Bool.toNat_true]
    omega
  | flush memI memC head flushed =>
    refine measure_move memI memC (Nat.add_lt_add_right ?_ _)
    unfold Net.afterFlush
    split <;> simp only [head, left, Multiset.card_zero, Bool.toNat_true] <;> omega
  | close memI memC head met =>
    refine measure_move memI memC (Nat.add_lt_add_right ?_ _)
    simp only [head, left]
    omega

/-- Every run can be finished, and by `Step.measure_lt` none can put it off for ever. -/
theorem Balanced.finishes (net_ok : Balanced net) (reach : Reachable net s) :
    ∃ t, Relation.ReflTransGen (Step net) s t ∧ Finished net t := by
  induction run : measure net s using Nat.strong_induction_on generalizing s with
  | _ n ih =>
    by_cases finished : Finished net s
    · exact ⟨s, .refl, finished⟩
    · obtain ⟨t, step⟩ := net_ok.progress reach finished
      obtain ⟨u, rest, done⟩ := ih _ (run ▸ step.measure_lt) (reach.tail step) rfl
      exact ⟨u, .head step rest, done⟩

end Invariant

end SignalBarrier
