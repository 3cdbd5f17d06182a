import Mathlib
import NcclTests.Lib.SignalBarrier

/-!
# The data behind counting signals

A put carries data: it copies certain locations to others while it is on the way, one at a
time and in any order, and arrives when all are copied. A member may copy as well, between
the barrier and its flush. All movers of all ranks are interleaved.

If the copies of a round are those of an exchange (`Carries`), the locations of a rank that
is between two rounds hold what the exchanges of its rounds make of the first memory one
after another (`DataReachable.mem_eq`), although other ranks may be a round behind or ahead.
The data holds up no run (`DataReachable.finishes`).
-/

namespace SignalBarrier

variable {ι κ L V : Type*}

/-! ## One member's view of a step -/

section Order

variable {net : Net ι κ} {s t : State ι κ}

theorem time_afterFlush (round : Nat) :
    (net.afterFlush round).time = if net.closing then 5 * round + 4 else 5 * round + 5 := by
  unfold Net.afterFlush
  split <;> rfl

theorem done_afterFlush (round : Nat) :
    (net.afterFlush round).done = if net.closing then round else round + 1 := by
  unfold Net.afterFlush
  split <;> rfl

theorem Local.done_eq (l : Local ι) : l.done = l.time / 5 := by
  have := l.phase.stage_lt
  unfold Local.time
  omega

/-- What a step does to the member that takes it. -/
inductive Move (net : Net ι κ) (s : State ι κ) (m : ι × κ) : Local ι → Local ι → Prop
  | read {round base : Nat} (ordered : ∀ c ∈ net.groups, round ≤ (s.at_ (m.1, c)).done) :
      Move net s m ⟨round, .idle⟩ ⟨round, .arrived base⟩
  | enter {round base : Nat} :
      Move net s m ⟨round, .arrived base⟩ ⟨round, .sending base (net.puts m.1 m.2) false⟩
  | send {round base : Nat} {pending pending' : Multiset ι} {released released' : Bool}
      (mono : released.toNat ≤ released'.toNat) :
      Move net s m ⟨round, .sending base pending released⟩
        ⟨round, .sending base pending' released'⟩
  | flush {round base : Nat} {pending : Multiset ι} :
      Move net s m ⟨round, .sending base pending true⟩ (net.afterFlush round)
  | close {round : Nat} (met : ∀ j ∈ net.ranks, (s.at_ (j, m.2)).HasFlushed round) :
      Move net s m ⟨round, .closing⟩ ⟨round + 1, .idle⟩

/-- * `ordered`: a rank begins a round when all its members are through with the last one;
* `closed`: with a second barrier, who is through with a round has met all members of its
group there. -/
structure Ordered (net : Net ι κ) (s : State ι κ) : Prop where
  ordered : ∀ i, ∀ c, ∀ c' ∈ net.groups, ∀ round,
    (s.at_ (i, c)).HasRead round → round ≤ (s.at_ (i, c')).done
  closed : net.closing = true → ∀ i, ∀ c, ∀ j ∈ net.ranks, ∀ round,
    round < (s.at_ (i, c)).done → (s.at_ (j, c)).HasFlushed round

theorem Ordered.init : Ordered net (init net) where
  ordered i c c' _ round read := by
    change 5 * round + 1 ≤ 0 at read
    omega
  closed _ i c j _ round less := absurd less (Nat.not_lt_zero round)

variable [DecidableEq ι] [DecidableEq κ]

/-- Who does not take a step stays where it is. -/
theorem Step.at_cases (step : Step net s t) (m : ι × κ) :
    t.at_ m = s.at_ m ∨ m.1 ∈ net.ranks ∧ m.2 ∈ net.groups ∧
      Move net s m (s.at_ m) (t.at_ m) := by
  have moved {i : ι} {c : κ} {old now : Local ι} (memI : i ∈ net.ranks) (memC : c ∈ net.groups)
      (head : s.at_ (i, c) = old) (move : Move net s (i, c) old now) :
      Function.update s.at_ (i, c) now m = s.at_ m ∨ m.1 ∈ net.ranks ∧ m.2 ∈ net.groups ∧
        Move net s m (s.at_ m) (Function.update s.at_ (i, c) now m) := by
    rcases eq_or_ne m (i, c) with rfl | other
    · right
      rw [Function.update_self, head]
      exact ⟨memI, memC, move⟩
    · left
      exact Function.update_of_ne other _ _
  cases step with
  | read memI memC idle more ordered => exact moved memI memC idle (.read ordered)
  | enter memI memC head met => exact moved memI memC head .enter
  | put memI memC head mem => exact moved memI memC head (.send le_rfl)
  | deliver sent => exact .inl rfl
  | wait memI memC head reached => exact moved memI memC head (.send (Nat.zero_le _))
  | flush memI memC head flushed => exact moved memI memC head .flush
  | close memI memC head met => exact moved memI memC head (.close met)

theorem Step.time_le (step : Step net s t) (m : ι × κ) : (s.at_ m).time ≤ (t.at_ m).time := by
  rcases step.at_cases m with same | ⟨-, -, move⟩
  · rw [same]
  · generalize s.at_ m = old, t.at_ m = now at move
    cases move with
    | flush =>
      rw [time_afterFlush]
      simp only [Local.time, Phase.stage, Bool.toNat_true]
      split <;> omega
    | _ =>
      simp only [Local.time, Phase.stage, Bool.toNat_false]
      omega

theorem Step.done_le (step : Step net s t) (m : ι × κ) : (s.at_ m).done ≤ (t.at_ m).done := by
  rw [Local.done_eq, Local.done_eq]
  exact Nat.div_le_div_right (step.time_le m)

theorem Ordered.step (order : Ordered net s) (step : Step net s t) : Ordered net t where
  ordered i c c' memC' round read := by
    refine le_trans ?_ (step.done_le (i, c'))
    rcases step.at_cases (i, c) with same | ⟨-, -, move⟩
    · rw [same] at read
      exact order.ordered i c c' memC' round read
    · have before := order.ordered i c c' memC' round
      generalize s.at_ (i, c) = old, t.at_ (i, c) = now at move read before
      cases move with
      | @read round' base ordered =>
        have le : round ≤ round' := by
          simp only [Local.HasRead, Local.time, Phase.stage] at read
          omega
        exact le.trans (ordered c' memC')
      | flush =>
        refine before ?_
        rw [Local.HasRead, time_afterFlush] at read
        simp only [Local.HasRead, Local.time, Phase.stage, Bool.toNat_true]
        split at read <;> omega
      | @send round' base pending pending' released released' =>
        refine before ?_
        have := released'.toNat_le
        simp only [Local.HasRead, Local.time, Phase.stage] at read ⊢
        omega
      | _ =>
        refine before ?_
        simp only [Local.HasRead, Local.time, Phase.stage, Bool.toNat_false] at read ⊢
        omega
  closed closing i c j memJ round less := by
    have flushed : (s.at_ (j, c)).HasFlushed round := by
      rcases step.at_cases (i, c) with same | ⟨-, -, move⟩
      · rw [same] at less
        exact order.closed closing i c j memJ round less
      · have before := order.closed closing i c j memJ round
        generalize s.at_ (i, c) = old, t.at_ (i, c) = now at move less before
        cases move with
        | flush =>
          rw [done_afterFlush, if_pos closing] at less
          exact before less
        | @close round' met =>
          rcases Nat.lt_or_eq_of_le (Nat.le_of_lt_succ less) with earlier | rfl
          · exact before earlier
          · exact met j memJ
        | _ => exact before less
    exact flushed.trans (step.time_le (j, c))

theorem Reachable.order (reach : Reachable net s) : Ordered net s := by
  induction reach with
  | refl => exact Ordered.init
  | tail _ step ih => exact ih.step step

end Order

/-! ## Movers -/

/-- Who moves data: a put, or a member in a round. -/
inductive Mover (ι κ : Type*)
  | put (put : Put ι κ)
  | member (round : Nat) (i : ι) (c : κ)

def Mover.round : Mover ι κ → Nat
  | .put p => p.round
  | .member round _ _ => round

/-- The puts and the members of a net. -/
def Net.Has (net : Net ι κ) : Mover ι κ → Prop
  | .put put => put.src ∈ net.ranks ∧ put.group ∈ net.groups ∧
      put.dst ∈ net.puts put.src put.group
  | .member _ i c => i ∈ net.ranks ∧ c ∈ net.groups

/-- A put moves data while it is on the way, a member between the barrier and its flush. -/
def State.Active (net : Net ι κ) (s : State ι κ) : Mover ι κ → Prop
  | .put put => put ∈ s.inFlight
  | .member round i c => i ∈ net.ranks ∧ c ∈ net.groups ∧
      ∃ base pending released, s.at_ (i, c) = ⟨round, .sending base pending released⟩

/-- The mover is active, or has been. -/
def State.Begun (net : Net ι κ) (s : State ι κ) : Mover ι κ → Prop
  | .put put => put ∈ s.inFlight + s.delivered
  | .member round i c => i ∈ net.ranks ∧ c ∈ net.groups ∧ (s.at_ (i, c)).HasEntered round

section Movers

variable {net : Net ι κ} {s t : State ι κ} {mover : Mover ι κ}

theorem not_begun_init : ¬ (init net).Begun net mover := by
  cases mover with
  | put put => exact Multiset.notMem_zero put
  | member round i c =>
    intro begun
    have entered : 5 * round + 2 ≤ 0 := begun.2.2
    omega

variable [DecidableEq ι] [DecidableEq κ]

theorem Step.puts_le (step : Step net s t) :
    s.inFlight + s.delivered ≤ t.inFlight + t.delivered := by
  cases step with
  | put memI memC head mem =>
    rw [Multiset.cons_add]
    exact Multiset.le_cons_self _ _
  | deliver sent =>
    dsimp only
    rw [Multiset.add_cons, ← Multiset.cons_add, Multiset.cons_erase sent]
  | _ => exact le_rfl

theorem Step.begun (step : Step net s t) (begun : s.Begun net mover) : t.Begun net mover := by
  cases mover with
  | put put => exact Multiset.mem_of_le step.puts_le begun
  | member round i c =>
    obtain ⟨memI, memC, entered⟩ := begun
    exact ⟨memI, memC, entered.trans (step.time_le (i, c))⟩

/-- What begins in a step is active after it. -/
theorem Step.begun_cases (step : Step net s t) (begun : t.Begun net mover) :
    s.Begun net mover ∨ t.Active net mover := by
  cases mover with
  | put put =>
    cases step with
    | @put i dst c round base pending released memI memC head mem =>
      change put ∈ (_ ::ₘ s.inFlight) + s.delivered at begun
      rw [Multiset.cons_add] at begun
      rcases Multiset.mem_cons.1 begun with rfl | before
      · exact .inr (Multiset.mem_cons_self _ _)
      · exact .inl before
    | @deliver put' sent =>
      change put ∈ s.inFlight.erase put' + put' ::ₘ s.delivered at begun
      rw [Multiset.add_cons, ← Multiset.cons_add, Multiset.cons_erase sent] at begun
      exact .inl begun
    | _ => exact .inl begun
  | member round i c =>
    obtain ⟨memI, memC, entered⟩ := begun
    rcases step.at_cases (i, c) with same | ⟨-, -, move⟩
    · rw [same] at entered
      exact .inl ⟨memI, memC, entered⟩
    · suffices (s.at_ (i, c)).HasEntered round ∨ ∃ base pending released,
          t.at_ (i, c) = ⟨round, .sending base pending released⟩ by
        rcases this with before | sending
        · exact .inl ⟨memI, memC, before⟩
        · exact .inr ⟨memI, memC, sending⟩
      generalize s.at_ (i, c) = old, t.at_ (i, c) = now at move entered
      cases move with
      | @enter round' base =>
        rcases Nat.lt_trichotomy round round' with earlier | rfl | later
        · left
          simp only [Local.HasEntered, Local.time, Phase.stage]
          omega
        · exact .inr ⟨_, _, _, rfl⟩
        · exfalso
          simp only [Local.HasEntered, Local.time, Phase.stage, Bool.toNat_false] at entered
          omega
      | @send round' base pending pending' released released' =>
        left
        have := released'.toNat_le
        simp only [Local.HasEntered, Local.time, Phase.stage] at entered ⊢
        omega
      | flush =>
        left
        rw [Local.HasEntered, time_afterFlush] at entered
        simp only [Local.HasEntered, Local.time, Phase.stage, Bool.toNat_true]
        split at entered <;> omega
      | _ =>
        left
        simp only [Local.HasEntered, Local.time, Phase.stage] at entered ⊢
        omega

/-- A step is one member's, which may put, or the arrival of a put. -/
theorem Step.frame (step : Step net s t) :
    (∃ m, s.inFlight ≤ t.inFlight ∧ ∀ m' ≠ m, t.at_ m' = s.at_ m') ∨
      ∃ put, t.inFlight = s.inFlight.erase put ∧ t.at_ = s.at_ := by
  cases step with
  | deliver sent => exact .inr ⟨_, rfl, rfl⟩
  | put memI memC head mem =>
    exact .inl ⟨_, Multiset.le_cons_self _ _, fun _ other => Function.update_of_ne other _ _⟩
  | _ => exact .inl ⟨_, le_rfl, fun _ other => Function.update_of_ne other _ _⟩

/-- At most one mover ends in a step. -/
theorem Step.ends_unique (step : Step net s t) {a b : Mover ι κ} (activeA : s.Active net a)
    (endsA : ¬ t.Active net a) (activeB : s.Active net b) (endsB : ¬ t.Active net b) : a = b := by
  rcases step.frame with ⟨m, le, others⟩ | ⟨put, erase, same⟩
  · -- the member that takes the step
    have own {a : Mover ι κ} (active : s.Active net a) (ends : ¬ t.Active net a) :
        ∃ round base pending released, a = .member round m.1 m.2 ∧
          s.at_ m = ⟨round, .sending base pending released⟩ := by
      cases a with
      | put put => exact absurd (Multiset.mem_of_le le active) ends
      | member round i c =>
        obtain ⟨memI, memC, base, pending, released, sending⟩ := active
        rcases eq_or_ne (i, c) m with rfl | other
        · exact ⟨round, base, pending, released, rfl, sending⟩
        · refine absurd ⟨memI, memC, base, pending, released, ?_⟩ ends
          rw [others _ other, sending]
    obtain ⟨round, base, pending, released, rfl, sending⟩ := own activeA endsA
    obtain ⟨round', base', pending', released', rfl, sending'⟩ := own activeB endsB
    rw [sending] at sending'
    rw [(Local.mk.inj sending').1]
  · -- the put that arrives
    have own {a : Mover ι κ} (active : s.Active net a) (ends : ¬ t.Active net a) :
        a = .put put := by
      cases a with
      | put put' =>
        by_contra other
        refine ends ?_
        change put' ∈ t.inFlight
        rw [erase]
        exact (Multiset.mem_erase_of_ne fun eq => other (congrArg _ eq)).2 active
      | member round i c =>
        refine absurd ?_ ends
        change i ∈ net.ranks ∧ c ∈ net.groups ∧ ∃ base pending released,
          t.at_ (i, c) = ⟨round, .sending base pending released⟩
        rw [same]
        exact active
    rw [own activeA endsA, own activeB endsB]

/-! ### Movers and the rank they write to -/

/-- Whether a mover may write to a rank: a put writes to its target, and a member to any rank
if there is a second barrier. -/
def Net.Reaches (net : Net ι κ) (d : ι) : Mover ι κ → Prop
  | .put put => put.dst = d
  | .member _ _ _ => net.closing = true

variable {d : ι}

theorem Inv.has_of_begun (inv : Inv net s) (begun : s.Begun net mover) : net.Has mover := by
  cases mover with
  | put put =>
    obtain ⟨memI, memC⟩ := inv.senders put begun
    exact ⟨memI, memC, inv.target_of_put begun⟩
  | member round i c => exact ⟨begun.1, begun.2.1⟩

/-- The rank that is written to has begun the round. -/
theorem Inv.read_of_begun (inv : Inv net s) (memD : d ∈ net.ranks) (begun : s.Begun net mover)
    (reaches : net.Reaches d mover) : ∃ c ∈ net.groups, (s.at_ (d, c)).HasRead mover.round := by
  cases mover with
  | put put =>
    cases reaches
    exact ⟨put.group, (inv.senders put begun).2, inv.read_of_put begun memD⟩
  | member round i c =>
    obtain ⟨memI, memC, entered⟩ := begun
    exact ⟨c, memC, inv.barrier i memI d memD c memC round entered⟩

/-- When a rank is through with a round, all is written that is written to it there. -/
theorem Inv.over (inv : Inv net s) (order : Ordered net s) (memD : d ∈ net.ranks)
    (has : net.Has mover) (reaches : net.Reaches d mover)
    (through : ∀ c ∈ net.groups, mover.round < (s.at_ (d, c)).done) :
    s.Begun net mover ∧ ¬ s.Active net mover := by
  cases mover with
  | put put =>
    obtain ⟨round, i, dst, c⟩ := put
    obtain ⟨memI, memC, target⟩ := has
    cases reaches
    have waited : (s.at_ (dst, c)).HasWaited round := by
      have less : round < (s.at_ (dst, c)).done := through c memC
      unfold Local.HasWaited Local.time
      omega
    have all := inv.waited dst memD c memC round waited i memI
    refine ⟨Multiset.mem_add.2 (.inr ?_), inv.not_inFlight memI memC all⟩
    rw [← Multiset.count_pos, all]
    exact Multiset.count_pos.2 target
  | member round i c =>
    obtain ⟨memI, memC⟩ := has
    have flushed : (s.at_ (i, c)).HasFlushed round :=
      order.closed reaches d c i memI round (through c memC)
    refine ⟨⟨memI, memC, ?_⟩, ?_⟩
    · unfold Local.HasFlushed at flushed
      unfold Local.HasEntered
      omega
    · intro active
      obtain ⟨-, -, base, pending, released, sending⟩ := active
      have := released.toNat_le
      rw [sending, Local.HasFlushed] at flushed
      simp only [Local.time, Phase.stage] at flushed
      omega

end Movers

/-! ## Copies -/

/-- The memory, and the copies that have been made. -/
structure DataState (ι κ L V : Type*) where
  signals : State ι κ
  mem : L → V
  copied : Set (Mover ι κ × L × L)

/-- What a mover copies, each a location and where it is copied to. -/
abbrev Copies (ι κ L : Type*) := Mover ι κ → List (L × L)

section Data

variable [DecidableEq ι] [DecidableEq κ] [DecidableEq L] {net : Net ι κ}
  {copies : Copies ι κ L} {rank : L → ι} {source : Nat → L → Option L} {m : L → V}
  {s s' : DataState ι κ L V} {t : State ι κ} {mover : Mover ι κ} {d : ι} {x y : L} {n : Nat}

/-- A mover ends when all its copies are made, some of them perhaps more than once. -/
inductive DataStep (net : Net ι κ) (copies : Copies ι κ L) :
    DataState ι κ L V → DataState ι κ L V → Prop
  | signal {s : DataState ι κ L V} {t : State ι κ} (step : Step net s.signals t)
      (through : ∀ mover, s.signals.Active net mover → ¬ t.Active net mover →
        ∀ copy ∈ copies mover, (mover, copy) ∈ s.copied) :
      DataStep net copies s { s with signals := t }
  | copy {s : DataState ι κ L V} {mover : Mover ι κ} {x y : L}
      (active : s.signals.Active net mover) (mem : (y, x) ∈ copies mover) :
      DataStep net copies s { s with
        mem := Function.update s.mem x (s.mem y)
        copied := insert (mover, y, x) s.copied }

abbrev DataRun (net : Net ι κ) (copies : Copies ι κ L) :
    DataState ι κ L V → DataState ι κ L V → Prop :=
  Relation.ReflTransGen (DataStep net copies)

def DataReachable (net : Net ι κ) (copies : Copies ι κ L) (m : L → V)
    (s : DataState ι κ L V) : Prop :=
  DataRun net copies ⟨init net, m, ∅⟩ s

/-- Each round moves data to the locations that have a source in it. -/
def exchange (source : Nat → L → Option L) (round : Nat) (m : L → V) : L → V := fun x =>
  match source round x with
  | some y => m y
  | none => m x

/-- The first `n` rounds one after another. -/
def exchanges (source : Nat → L → Option L) (m : L → V) : Nat → L → V
  | 0 => m
  | n + 1 => exchange source n (exchanges source m n)

/-- The movers copy to each location that has a source in a round, and from there, and to no
others. Nothing is copied from a location that is ever copied to, and a copy of a member
needs the second barrier. -/
structure Carries (net : Net ι κ) (copies : Copies ι κ L) (rank : L → ι)
    (source : Nat → L → Option L) : Prop where
  source_eq : ∀ mover, net.Has mover → ∀ y x, (y, x) ∈ copies mover →
    source mover.round x = some y
  mover_of : ∀ round x y, source round x = some y →
    ∃ mover, net.Has mover ∧ mover.round = round ∧ (y, x) ∈ copies mover
  apart : ∀ round x y, source round x = some y → ∀ round', source round' y = none
  reaches : ∀ mover, net.Has mover → ∀ y x, (y, x) ∈ copies mover →
    rank x ∈ net.ranks ∧ net.Reaches (rank x) mover

/-! ### The exchanges -/

omit [DecidableEq L] in
theorem exchanges_of_none (never : ∀ round < n, source round x = none) :
    exchanges source m n x = m x := by
  induction n with
  | zero => rfl
  | succ n ih =>
    rw [exchanges, exchange, never n n.lt_succ_self]
    exact ih fun round less => never round (less.trans n.lt_succ_self)

omit [DecidableEq L] in
theorem exchanges_succ (unwritten : ∀ round, source round y = none) (some_ : source n x = some y) :
    exchanges source m (n + 1) x = m y := by
  rw [exchanges, exchange, some_]
  exact exchanges_of_none fun round _ => unwritten round

omit [DecidableEq L] in
/-- A location holds what the last round that writes it has brought. -/
theorem exchanges_cases
    (apart : ∀ round x y, source round x = some y → ∀ round', source round' y = none)
    (m : L → V) (x : L) (n : Nat) :
    (exchanges source m n x = m x ∧ ∀ round < n, source round x = none) ∨
      ∃ round < n, ∃ y, source round x = some y ∧ exchanges source m n x = m y ∧
        ∀ later < n, round < later → source later x = none := by
  induction n with
  | zero => exact .inl ⟨rfl, fun round less => absurd less (Nat.not_lt_zero round)⟩
  | succ n ih =>
    rcases written : source n x with _ | y
    · have same : exchanges source m (n + 1) x = exchanges source m n x := by
        rw [exchanges, exchange, written]
      rw [same]
      have still {P : Nat → Prop} (before : ∀ later < n, P later → source later x = none) :
          ∀ later < n + 1, P later → source later x = none := by
        intro later less holds
        rcases Nat.lt_or_eq_of_le (Nat.le_of_lt_succ less) with earlier | rfl
        · exact before later earlier holds
        · exact written
      rcases ih with ⟨eq, none_⟩ | ⟨round, less, y, some_, eq, last⟩
      · left
        have all := @still (fun _ => True) fun later less _ => none_ later less
        exact ⟨eq, fun round less => all round less trivial⟩
      · right
        exact ⟨round, less.trans n.lt_succ_self, y, some_, eq, still last⟩
    · right
      refine ⟨n, n.lt_succ_self, y, written, ?_, fun later less more => ?_⟩
      · exact exchanges_succ (apart n x y written) written
      · exact absurd (Nat.le_of_lt_succ less) (Nat.not_le_of_lt more)

/-! ### What holds in every reachable state -/

/-- * `reachable`: the data makes no new runs of the signals;
* `copied`: what is copied is a copy of a mover that has begun;
* `through`: a mover that has ended has made all its copies;
* `fresh`: where nothing is copied to the memory is what it was;
* `last`: elsewhere it is what the last round has copied there. -/
structure DataInv (net : Net ι κ) (copies : Copies ι κ L) (m : L → V)
    (s : DataState ι κ L V) : Prop where
  reachable : Reachable net s.signals
  copied : ∀ mover y x, (mover, y, x) ∈ s.copied →
    (y, x) ∈ copies mover ∧ s.signals.Begun net mover
  through : ∀ mover, s.signals.Begun net mover → ¬ s.signals.Active net mover →
    ∀ copy ∈ copies mover, (mover, copy) ∈ s.copied
  fresh : ∀ x, (∀ mover y, (mover, y, x) ∉ s.copied) → s.mem x = m x
  last : ∀ mover y x, (mover, y, x) ∈ s.copied →
    (∀ other z, (other, z, x) ∈ s.copied → other.round ≤ mover.round) → s.mem x = m y

omit [DecidableEq L] in
theorem DataInv.init : DataInv net copies m ⟨SignalBarrier.init net, m, ∅⟩ where
  reachable := .refl
  copied _ _ _ mem := absurd mem (Set.notMem_empty _)
  through _ begun := absurd begun not_begun_init
  fresh _ _ := rfl
  last _ _ _ mem := absurd mem (Set.notMem_empty _)

omit [DecidableEq L] in
theorem DataInv.signal (inv : DataInv net copies m s) (step : Step net s.signals t)
    (through : ∀ mover, s.signals.Active net mover → ¬ t.Active net mover →
      ∀ copy ∈ copies mover, (mover, copy) ∈ s.copied) :
    DataInv net copies m { s with signals := t } where
  reachable := inv.reachable.tail step
  copied mover y x mem := by
    obtain ⟨copy, begun⟩ := inv.copied mover y x mem
    exact ⟨copy, step.begun begun⟩
  through mover begun ended := by
    by_cases active : s.signals.Active net mover
    · exact through mover active ended
    · rcases step.begun_cases begun with before | now
      · exact inv.through mover before active
      · exact absurd now ended
  fresh := inv.fresh
  last := inv.last

omit [DecidableEq ι] [DecidableEq κ] in
theorem State.Active.begun {s : State ι κ} (active : s.Active net mover) :
    s.Begun net mover := by
  cases mover with
  | put put => exact Multiset.mem_add.2 (.inl active)
  | member round i c =>
    obtain ⟨memI, memC, base, pending, released, sending⟩ := active
    refine ⟨memI, memC, ?_⟩
    rw [sending]
    simp only [Local.HasEntered, Local.time, Phase.stage]
    omega

omit [DecidableEq L] in
/-- What is written to a rank in a round is written by the time that the rank begins a later
one. -/
theorem DataInv.round_le (inv : DataInv net copies m s) (net_ok : Balanced net)
    (carries : Carries net copies rank source) (active : s.signals.Active net mover)
    (copy : (y, x) ∈ copies mover) {other : Mover ι κ} {z : L}
    (mem : (other, z, x) ∈ s.copied) : other.round ≤ mover.round := by
  have signals := inv.reachable.inv net_ok
  have order := inv.reachable.order
  have has := signals.has_of_begun active.begun
  obtain ⟨memD, reaches⟩ := carries.reaches mover has y x copy
  obtain ⟨copy', begun'⟩ := inv.copied other z x mem
  obtain ⟨-, reaches'⟩ := carries.reaches other (signals.has_of_begun begun') z x copy'
  obtain ⟨c, -, read⟩ := signals.read_of_begun memD begun' reaches'
  by_contra later
  refine (signals.over order memD has reaches fun c' memC' => ?_).2 active
  exact (Nat.lt_of_not_le later).trans_le (order.ordered _ c c' memC' _ read)

theorem DataInv.copy (inv : DataInv net copies m s) (net_ok : Balanced net)
    (carries : Carries net copies rank source) (active : s.signals.Active net mover)
    (mem : (y, x) ∈ copies mover) :
    DataInv net copies m { s with
      mem := Function.update s.mem x (s.mem y)
      copied := insert (mover, y, x) s.copied } := by
  have signals := inv.reachable.inv net_ok
  have sourceOf : source mover.round x = some y :=
    carries.source_eq mover (signals.has_of_begun active.begun) y x mem
  -- the source is what it was in the beginning
  have value : s.mem y = m y := by
    refine inv.fresh y fun other z mem' => ?_
    obtain ⟨copy', begun'⟩ := inv.copied other z y mem'
    have written := carries.source_eq other (signals.has_of_begun begun') z y copy'
    rw [carries.apart mover.round x y sourceOf other.round] at written
    cases written
  refine ⟨inv.reachable, ?_, ?_, ?_, ?_⟩
  · intro other z w copied
    rcases Set.mem_insert_iff.1 copied with same | before
    · cases same
      exact ⟨mem, active.begun⟩
    · exact inv.copied other z w before
  · intro other begun ended copy memCopy
    exact Set.mem_insert_of_mem _ (inv.through other begun ended copy memCopy)
  · intro w untouched
    have other : w ≠ x := by
      rintro rfl
      exact untouched mover y (Set.mem_insert _ _)
    dsimp only
    rw [Function.update_of_ne other]
    exact inv.fresh w fun mover' z mem' => untouched mover' z (Set.mem_insert_of_mem _ mem')
  · intro other z w copied last
    rcases eq_or_ne w x with rfl | elsewhere
    · dsimp only
      rw [Function.update_self, value]
      -- both copies are of one round, and so from one source
      have least : mover.round ≤ other.round := last mover y (Set.mem_insert _ _)
      suffices source other.round w = some z ∧ other.round ≤ mover.round by
        obtain ⟨sourceOf', le⟩ := this
        rw [le_antisymm le least, sourceOf] at sourceOf'
        rw [Option.some.inj sourceOf']
      rcases Set.mem_insert_iff.1 copied with same | before
      · cases same
        exact ⟨sourceOf, le_rfl⟩
      · obtain ⟨copy', begun'⟩ := inv.copied other z w before
        exact ⟨carries.source_eq other (signals.has_of_begun begun') z w copy',
          inv.round_le net_ok carries active mem before⟩
    · have before : (other, z, w) ∈ s.copied := by
        rcases Set.mem_insert_iff.1 copied with same | before
        · cases same
          exact absurd rfl elsewhere
        · exact before
      dsimp only
      rw [Function.update_of_ne elsewhere]
      exact inv.last other z w before fun other' z' mem' =>
        last other' z' (Set.mem_insert_of_mem _ mem')

theorem DataReachable.inv (net_ok : Balanced net) (carries : Carries net copies rank source)
    (reach : DataReachable net copies m s) : DataInv net copies m s := by
  induction reach with
  | refl => exact DataInv.init
  | tail _ step ih =>
    cases step with
    | signal step through => exact ih.signal step through
    | copy active mem => exact ih.copy net_ok carries active mem

/-- **A rank between two rounds has the data of all its rounds.** -/
theorem DataReachable.mem_eq (net_ok : Balanced net) (carries : Carries net copies rank source)
    (reach : DataReachable net copies m s) (memD : rank x ∈ net.ranks)
    (idle : ∀ c ∈ net.groups, s.signals.at_ (rank x, c) = ⟨n, .idle⟩) :
    s.mem x = exchanges source m n x := by
  have inv := reach.inv net_ok carries
  have signals := inv.reachable.inv net_ok
  -- what has been copied there is of one of these rounds
  have early {mover : Mover ι κ} {y : L} (mem : (mover, y, x) ∈ s.copied) :
      mover.round < n ∧ source mover.round x = some y := by
    obtain ⟨copy, begun⟩ := inv.copied mover y x mem
    have has := signals.has_of_begun begun
    obtain ⟨c, memC, read⟩ :=
      signals.read_of_begun memD begun (carries.reaches mover has y x copy).2
    rw [idle c memC, Local.HasRead] at read
    simp only [Local.time, Phase.stage] at read
    exact ⟨by omega, carries.source_eq mover has y x copy⟩
  -- and all of these rounds have been copied there
  have late {round : Nat} {y : L} (less : round < n) (some_ : source round x = some y) :
      ∃ mover, mover.round = round ∧ (mover, y, x) ∈ s.copied := by
    obtain ⟨mover, has, rfl, copy⟩ := carries.mover_of round x y some_
    refine ⟨mover, rfl, ?_⟩
    obtain ⟨begun, ended⟩ := signals.over inv.reachable.order memD has
      (carries.reaches mover has y x copy).2 fun c memC => by rwa [idle c memC]
    exact inv.through mover begun ended (y, x) copy
  rcases exchanges_cases carries.apart m x n with
    ⟨eq, none_⟩ | ⟨round, less, y, some_, eq, last⟩
  · rw [eq]
    refine inv.fresh x fun mover y mem => ?_
    obtain ⟨less, some_⟩ := early mem
    rw [none_ _ less] at some_
    cases some_
  · obtain ⟨mover, rfl, mem⟩ := late less some_
    rw [eq]
    refine inv.last mover y x mem fun other z mem' => ?_
    obtain ⟨less', some'⟩ := early mem'
    by_contra later
    rw [last _ less' (Nat.lt_of_not_le later)] at some'
    cases some'

/-- What no round writes stays as it is. -/
theorem DataReachable.mem_of_unwritten (net_ok : Balanced net)
    (carries : Carries net copies rank source) (reach : DataReachable net copies m s)
    (unwritten : ∀ round, source round x = none) : s.mem x = m x := by
  have inv := reach.inv net_ok carries
  refine inv.fresh x fun mover y mem => ?_
  obtain ⟨copy, begun⟩ := inv.copied mover y x mem
  have written := carries.source_eq mover
    ((inv.reachable.inv net_ok).has_of_begun begun) y x copy
  rw [unwritten] at written
  cases written

/-! ### The data holds up no run -/

/-- A mover that is active can make all its copies. -/
theorem exists_copied (active : s.signals.Active net mover) (todo : List (L × L))
    (sub : ∀ copy ∈ todo, copy ∈ copies mover) :
    ∃ s', DataRun net copies s s' ∧ s'.signals = s.signals ∧
      ∀ copy ∈ todo, (mover, copy) ∈ s'.copied := by
  induction todo with
  | nil => exact ⟨s, .refl, rfl, fun copy mem => absurd mem List.not_mem_nil⟩
  | cons copy todo ih =>
    obtain ⟨s', run, same, all⟩ := ih fun copy' mem => sub copy' (List.mem_cons_of_mem _ mem)
    rw [← same] at active
    refine ⟨_, run.tail (.copy active (sub copy List.mem_cons_self)), same, ?_⟩
    intro copy' mem
    rcases List.mem_cons.1 mem with rfl | mem
    · exact Set.mem_insert _ _
    · exact Set.mem_insert_of_mem _ (all copy' mem)

/-- Every step of the signals can be taken, after some copies. -/
theorem exists_signal (step : Step net s.signals t) :
    ∃ s', DataRun net copies s s' ∧ s'.signals = t := by
  by_cases ends : ∃ mover, s.signals.Active net mover ∧ ¬ t.Active net mover
  · obtain ⟨mover, active, ended⟩ := ends
    obtain ⟨s', run, same, all⟩ :=
      @exists_copied ι κ L V _ _ _ net copies s mover active (copies mover) fun _ mem => mem
    rw [← same] at step active
    refine ⟨_, run.tail (.signal step fun other active' ended' copy mem => ?_), rfl⟩
    obtain rfl := step.ends_unique active' ended' active ended
    exact all copy mem
  · refine ⟨_, .single (.signal step fun mover active ended => ?_), rfl⟩
    exact absurd ⟨mover, active, ended⟩ ends

theorem exists_signals (run : Relation.ReflTransGen (Step net) s.signals t) :
    ∃ s', DataRun net copies s s' ∧ s'.signals = t := by
  induction run with
  | refl => exact ⟨s, .refl, rfl⟩
  | tail _ step ih =>
    obtain ⟨s', run, rfl⟩ := ih
    obtain ⟨s'', rest, same⟩ := exists_signal step
    exact ⟨s'', run.trans rest, same⟩

theorem DataReachable.finishes (net_ok : Balanced net)
    (carries : Carries net copies rank source) (reach : DataReachable net copies m s) :
    ∃ s', DataRun net copies s s' ∧ Finished net s'.signals := by
  obtain ⟨t, run, finished⟩ := net_ok.finishes (reach.inv net_ok carries).reachable
  obtain ⟨s', run, rfl⟩ := exists_signals run
  exact ⟨s', run, finished⟩

end Data

end SignalBarrier
