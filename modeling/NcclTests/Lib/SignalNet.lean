import Mathlib

/-!
# Signals between puts and waits

Members run rounds of puts followed by waits. A put sends a signal that arrives
some time later, in no particular order; a wait consumes arrived signals. When
every round of all members posts exactly the signals that it awaits, and every
signal is awaited by one member only, no run of any number of rounds gets stuck
and none leaves a signal over: `Balanced.progress`, `Step.measure_lt` and
`Balanced.clean`.
-/

/-- An operation on signals of type `κ`. -/
inductive SignalOp (κ : Type*)
  | put (signal : κ)
  | wait (need : Multiset κ)

namespace SignalNet

variable {ι κ : Type*}

/-- What a member does in one round. -/
structure Round (κ : Type*) where
  puts : List κ
  waits : List (Multiset κ)

def Round.ops (round : Round κ) : List (SignalOp κ) :=
  round.puts.map .put ++ round.waits.map .wait

/-- The signals that operations post. -/
def posted : List (SignalOp κ) → Multiset κ
  | [] => 0
  | .put signal :: ops => {signal} + posted ops
  | .wait _ :: ops => posted ops

/-- The signals that operations await. -/
def awaited : List (SignalOp κ) → Multiset κ
  | [] => 0
  | .put _ :: ops => awaited ops
  | .wait need :: ops => need + awaited ops

/-- The members, the rounds of each and how many of them they run. -/
structure Net (ι κ : Type*) where
  members : Finset ι
  round : Nat → ι → Round κ
  rounds : Nat
  receiver : κ → ι

/-- Where a member is: rounds started and operations left in the last one. -/
structure Local (κ : Type*) where
  started : Nat
  rest : List (SignalOp κ)

structure State (ι κ : Type*) where
  at_ : ι → Local κ
  inFlight : Multiset κ
  arrived : Multiset κ

section Semantics

variable [DecidableEq ι] [DecidableEq κ]

def init : State ι κ := ⟨fun _ => ⟨0, []⟩, 0, 0⟩

inductive Step (net : Net ι κ) : State ι κ → State ι κ → Prop
  | start {s : State ι κ} {i : ι} {t : Nat} (mem : i ∈ net.members) (idle : s.at_ i = ⟨t, []⟩)
      (more : t < net.rounds) :
      Step net s { s with at_ := Function.update s.at_ i ⟨t + 1, (net.round t i).ops⟩ }
  | put {s : State ι κ} {i : ι} {t : Nat} {signal : κ} {rest : List (SignalOp κ)}
      (mem : i ∈ net.members) (head : s.at_ i = ⟨t, .put signal :: rest⟩) :
      Step net s { s with
        at_ := Function.update s.at_ i ⟨t, rest⟩
        inFlight := {signal} + s.inFlight }
  | deliver {s : State ι κ} {signal : κ} (sent : signal ∈ s.inFlight) :
      Step net s { s with
        inFlight := s.inFlight.erase signal
        arrived := {signal} + s.arrived }
  | wait {s : State ι κ} {i : ι} {t : Nat} {need : Multiset κ} {rest : List (SignalOp κ)}
      (mem : i ∈ net.members) (head : s.at_ i = ⟨t, .wait need :: rest⟩)
      (ready : need ≤ s.arrived) :
      Step net s { s with
        at_ := Function.update s.at_ i ⟨t, rest⟩
        arrived := s.arrived - need }

/-- Every member has run all its rounds. -/
def Finished (net : Net ι κ) (s : State ι κ) : Prop :=
  ∀ i ∈ net.members, s.at_ i = ⟨net.rounds, []⟩

def Reachable (net : Net ι κ) (s : State ι κ) : Prop := Relation.ReflTransGen (Step net) init s

end Semantics

/-- A round of all members posts what it awaits, and a signal is awaited by its
receiver only. -/
structure Balanced (net : Net ι κ) : Prop where
  balanced : ∀ r, ∑ i ∈ net.members, posted (net.round r i).ops =
    ∑ i ∈ net.members, awaited (net.round r i).ops
  receiver : ∀ r, ∀ i ∈ net.members, ∀ signal ∈ awaited (net.round r i).ops,
    net.receiver signal = i

/-! ## One member at a time -/

/-- Changing one term of a sum. -/
theorem sum_update_add {M A : Type*} [AddCommMonoid M] [DecidableEq ι] (members : Finset ι)
    (f : ι → A → M) (at_ : ι → A) {i : ι} (mem : i ∈ members) (now : A) :
    ∑ j ∈ members, f j (Function.update at_ i now j) + f i (at_ i) =
      ∑ j ∈ members, f j (at_ j) + f i now := by
  rw [← Finset.add_sum_erase members _ mem,
    ← Finset.add_sum_erase members (fun j => f j (at_ j)) mem, Function.update_self]
  have others : ∑ j ∈ members.erase i, f j (Function.update at_ i now j) =
      ∑ j ∈ members.erase i, f j (at_ j) := by
    refine Finset.sum_congr rfl fun j other => ?_
    rw [Function.update_of_ne (Finset.ne_of_mem_erase other)]
  rw [others]
  abel

theorem posted_append (ops ops' : List (SignalOp κ)) :
    posted (ops ++ ops') = posted ops + posted ops' := by
  induction ops with
  | nil => exact (zero_add _).symm
  | cons op ops ih =>
    cases op with
    | put signal => simp only [List.cons_append, posted, ih, add_assoc]
    | wait need => exact ih

theorem awaited_append (ops ops' : List (SignalOp κ)) :
    awaited (ops ++ ops') = awaited ops + awaited ops' := by
  induction ops with
  | nil => exact (zero_add _).symm
  | cons op ops ih =>
    cases op with
    | put signal => exact ih
    | wait need => simp only [List.cons_append, awaited, ih, add_assoc]

theorem posted_map_wait (waits : List (Multiset κ)) : posted (waits.map SignalOp.wait) = 0 := by
  induction waits with
  | nil => rfl
  | cons _ _ ih => exact ih

theorem awaited_map_put (puts : List κ) : awaited (puts.map SignalOp.put) = 0 := by
  induction puts with
  | nil => rfl
  | cons _ _ ih => exact ih

/-- A round posts its puts. -/
theorem Round.posted_ops (round : Round κ) : posted round.ops = round.puts := by
  rw [ops, posted_append, posted_map_wait, add_zero]
  induction round.puts with
  | nil => rfl
  | cons signal puts ih =>
    rw [List.map_cons, posted, ih]
    rfl

/-- A round awaits its waits. -/
theorem Round.awaited_ops (round : Round κ) : awaited round.ops = round.waits.sum := by
  rw [ops, awaited_append, awaited_map_put, zero_add]
  induction round.waits with
  | nil => rfl
  | cons need waits ih => rw [List.map_cons, awaited, ih, List.sum_cons]

/-- Once a member waits, it has no put left in its round. -/
theorem Round.posted_of_wait {round : Round κ} {need : Multiset κ} {rest : List (SignalOp κ)}
    (suffix_ : .wait need :: rest <:+ round.ops) : posted (.wait need :: rest) = 0 := by
  rcases round with ⟨puts, waits⟩
  induction puts with
  | nil =>
    rcases suffix_ with ⟨before, split_⟩
    have all : posted (Round.ops ⟨[], waits⟩) = 0 := posted_map_wait waits
    rw [← split_, posted_append] at all
    exact (add_eq_zero.mp all).2
  | cons signal puts ih =>
    rcases List.suffix_cons_iff.mp suffix_ with whole | inside
    · cases whole
    · exact ih inside

theorem awaited_le_of_suffix {rest ops : List (SignalOp κ)} (suffix_ : rest <:+ ops) :
    awaited rest ≤ awaited ops := by
  rcases suffix_ with ⟨before, rfl⟩
  rw [awaited_append]
  exact Multiset.le_add_left _ _

section Invariant

variable {net : Net ι κ} {s t : State ι κ}

/-- What a member has posted so far is what its rounds post less what is left;
with signs moved so that nothing is subtracted, the signals left to post and the
signals awaited in its rounds. -/
def owed (net : Net ι κ) (i : ι) (l : Local κ) : Multiset κ :=
  ∑ r ∈ Finset.range l.started, awaited (net.round r i).ops + posted l.rest

/-- The signals posted in its rounds and the signals left to await. -/
def due (net : Net ι κ) (i : ι) (l : Local κ) : Multiset κ :=
  ∑ r ∈ Finset.range l.started, posted (net.round r i).ops + awaited l.rest

/-- The operations left are the end of the round started last. -/
def InRound (net : Net ι κ) (i : ι) (l : Local κ) : Prop :=
  l.rest = [] ∨ ∃ r, l.started = r + 1 ∧ l.rest <:+ (net.round r i).ops

theorem InRound.tail {i : ι} {n : Nat} {op : SignalOp κ} {rest : List (SignalOp κ)}
    (inRound : InRound net i ⟨n, op :: rest⟩) : InRound net i ⟨n, rest⟩ := by
  rcases inRound with none_ | ⟨r, last, suffix_⟩
  · cases none_
  · exact .inr ⟨r, last, (List.suffix_cons _ _).trans suffix_⟩

/-- Signals are neither lost nor made up, and every member is inside its round. -/
structure Inv (net : Net ι κ) (s : State ι κ) : Prop where
  conserved : s.inFlight + s.arrived + ∑ i ∈ net.members, owed net i (s.at_ i) =
    ∑ i ∈ net.members, due net i (s.at_ i)
  inRound : ∀ i ∈ net.members, InRound net i (s.at_ i)
  bounded : ∀ i ∈ net.members, (s.at_ i).started ≤ net.rounds

theorem Inv.init : Inv net (init : State ι κ) where
  conserved := by simp [SignalNet.init, owed, due, posted, awaited]
  inRound _ _ := .inl rfl
  bounded _ _ := Nat.zero_le _

variable [DecidableEq ι] [DecidableEq κ]

/-- A member that moves keeps the invariant if it accounts for its signals. -/
theorem Inv.move (inv : Inv net s) {i : ι} (mem : i ∈ net.members) {now : Local κ}
    {inFlight arrived : Multiset κ}
    (account : inFlight + arrived + owed net i now + due net i (s.at_ i) =
      s.inFlight + s.arrived + owed net i (s.at_ i) + due net i now)
    (inRound : InRound net i now) (bounded : now.started ≤ net.rounds) :
    Inv net ⟨Function.update s.at_ i now, inFlight, arrived⟩ := by
  constructor
  · have owedAll := sum_update_add net.members (owed net) s.at_ mem now
    have dueAll := sum_update_add net.members (due net) s.at_ mem now
    have before := inv.conserved
    ext signal
    have accountAt := congrArg (Multiset.count signal) account
    have owedAt := congrArg (Multiset.count signal) owedAll
    have dueAt := congrArg (Multiset.count signal) dueAll
    have beforeAt := congrArg (Multiset.count signal) before
    simp only [Multiset.count_add] at accountAt owedAt dueAt beforeAt ⊢
    omega
  · intro j memJ
    change InRound net j (Function.update s.at_ i now j)
    rcases eq_or_ne j i with rfl | other
    · rw [Function.update_self]
      exact inRound
    · rw [Function.update_of_ne other]
      exact inv.inRound j memJ
  · intro j memJ
    change (Function.update s.at_ i now j).started ≤ _
    rcases eq_or_ne j i with rfl | other
    · rw [Function.update_self]
      exact bounded
    · rw [Function.update_of_ne other]
      exact inv.bounded j memJ

/-- Every step keeps the invariant. -/
theorem Inv.step (inv : Inv net s) (step : Step net s t) : Inv net t := by
  cases step with
  | @start i n mem idle more =>
    refine inv.move mem ?_ (.inr ⟨n, rfl, List.suffix_refl _⟩) more
    rw [idle]
    simp only [owed, due, posted, awaited, Finset.sum_range_succ]
    abel
  | @put i n signal rest mem head =>
    have inRound := inv.inRound i mem
    have bounded := inv.bounded i mem
    rw [head] at inRound bounded
    refine inv.move mem ?_ inRound.tail bounded
    rw [head]
    simp only [owed, due, posted, awaited]
    abel
  | @deliver signal sent =>
    refine ⟨?_, inv.inRound, inv.bounded⟩
    have before := inv.conserved
    rw [← Multiset.cons_erase sent, ← Multiset.singleton_add] at before
    rw [← before]
    ext other
    simp only [Multiset.count_add]
    omega
  | @wait i n need rest mem head ready =>
    have inRound := inv.inRound i mem
    have bounded := inv.bounded i mem
    rw [head] at inRound bounded
    refine inv.move mem ?_ inRound.tail bounded
    rw [head]
    simp only [owed, due, posted, awaited]
    have split_ : s.arrived - need + need = s.arrived := Multiset.sub_add_cancel ready
    ext other
    have splitAt := congrArg (Multiset.count other) split_
    simp only [Multiset.count_add] at splitAt ⊢
    omega

theorem Reachable.inv (reach : Reachable net s) : Inv net s := by
  induction reach with
  | refl => exact Inv.init
  | tail _ step ih => exact ih.step step

/-! ## No run gets stuck -/

/-- The signals of a net in which nobody can move: a member is through, or it waits
for a signal that has not arrived. -/
structure Stuck (net : Net ι κ) (s : State ι κ) : Prop where
  delivered : s.inFlight = 0
  blocked : ∀ i ∈ net.members, s.at_ i = ⟨net.rounds, []⟩ ∨
    ∃ t need rest, s.at_ i = ⟨t, .wait need :: rest⟩ ∧ ¬ need ≤ s.arrived

theorem Inv.stuck (inv : Inv net s) (halt : ∀ t, ¬ Step net s t) : Stuck net s := by
  constructor
  · by_contra sent
    rcases Multiset.exists_mem_of_ne_zero sent with ⟨signal, mem⟩
    exact halt _ (.deliver mem)
  · intro i mem
    have bounded := inv.bounded i mem
    rcases at_eq : s.at_ i with ⟨t, rest⟩
    rw [at_eq] at bounded
    rcases rest with _ | ⟨op, rest⟩
    · rcases Nat.eq_or_lt_of_le bounded with rfl | more
      · exact .inl rfl
      · exact absurd (Step.start mem at_eq more) (halt _)
    · cases op with
      | put signal => exact absurd (Step.put mem at_eq) (halt _)
      | wait need => exact .inr ⟨t, need, rest, rfl, fun ready => halt _ (.wait mem at_eq ready)⟩

omit [DecidableEq ι] in
/-- Of the waiting members, one that is the least far has what it waits for. -/
theorem Balanced.ready_of_least (net_ok : Balanced net) (inv : Inv net s) (stuck : Stuck net s)
    {i : ι} (mem : i ∈ net.members) {t : Nat} {need : Multiset κ} {rest : List (SignalOp κ)}
    (head : s.at_ i = ⟨t, .wait need :: rest⟩)
    (least : ∀ j ∈ net.members, t ≤ (s.at_ j).started) : need ≤ s.arrived := by
  rw [Multiset.le_iff_count]
  intro signal
  rcases Nat.eq_zero_or_pos (need.count signal) with none_ | some_
  · rw [none_]
    exact Nat.zero_le _
  have needed : need.count signal ≤ (awaited (s.at_ i).rest).count signal := by
    rw [head]
    exact Multiset.count_le_of_le signal (Multiset.le_add_right _ _)
  have isReceiver : net.receiver signal = i := by
    rcases inv.inRound i mem with none_ | ⟨r, -, suffix_⟩
    · rw [head] at none_
      cases none_
    · refine net_ok.receiver r i mem signal
        (Multiset.mem_of_le (awaited_le_of_suffix suffix_) (Multiset.count_pos.mp ?_))
      exact some_.trans_le needed
  -- nobody else awaits the signal, so its balance is that of `i` alone
  have others : ∀ r, ∀ j ∈ net.members, j ≠ i →
      (awaited (net.round r j).ops).count signal = 0 := by
    intro r j memJ other
    refine Multiset.count_eq_zero.mpr fun awaitsJ => other ?_
    rw [← net_ok.receiver r j memJ signal awaitsJ, isReceiver]
  have nothingOwed : ∀ j ∈ net.members, (posted (s.at_ j).rest).count signal = 0 := by
    intro j memJ
    rcases stuck.blocked j memJ with through | ⟨u, needJ, restJ, headJ, -⟩
    · rw [through]
      rfl
    · rcases inv.inRound j memJ with none_ | ⟨r, -, suffixJ⟩
      · rw [none_]
        rfl
      · rw [headJ] at suffixJ ⊢
        rw [Round.posted_of_wait suffixJ, Multiset.count_zero]
  have owedAll : ∑ j ∈ net.members, (owed net j (s.at_ j)).count signal =
      ∑ r ∈ Finset.range t, (awaited (net.round r i).ops).count signal := by
    rw [Finset.sum_eq_single_of_mem i mem]
    · simp only [owed, Multiset.count_add, Multiset.count_sum', nothingOwed i mem]
      rw [head, add_zero]
    · intro j memJ other
      simp only [owed, Multiset.count_add, Multiset.count_sum', nothingOwed j memJ, add_zero]
      exact Finset.sum_eq_zero fun r _ => others r j memJ other
  have dueAll : ∑ r ∈ Finset.range t, (awaited (net.round r i).ops).count signal +
      (awaited (s.at_ i).rest).count signal ≤
      ∑ j ∈ net.members, (due net j (s.at_ j)).count signal := by
    have balance : ∀ r, (awaited (net.round r i).ops).count signal =
        ∑ j ∈ net.members, (posted (net.round r j).ops).count signal := by
      intro r
      rw [← Multiset.count_sum', net_ok.balanced r, Multiset.count_sum',
        Finset.sum_eq_single_of_mem i mem (others r)]
    simp only [balance, due, Multiset.count_add, Multiset.count_sum', Finset.sum_add_distrib]
    rw [Finset.sum_comm]
    refine Nat.add_le_add (Finset.sum_le_sum fun j memJ => ?_) ?_
    · exact Finset.sum_le_sum_of_subset (Finset.range_subset_range.2 (least j memJ))
    · exact Finset.single_le_sum
        (f := fun j => (awaited (s.at_ j).rest).count signal) (fun _ _ => Nat.zero_le _) mem
  have conserved := congrArg (Multiset.count signal) inv.conserved
  rw [stuck.delivered] at conserved
  simp only [Multiset.count_add, Multiset.count_sum', Multiset.count_zero] at conserved
  omega

/-- A run that is not finished can go on. -/
theorem Balanced.progress (net_ok : Balanced net) (reach : Reachable net s)
    (unfinished : ¬ Finished net s) : ∃ t, Step net s t := by
  by_contra halt
  rw [not_exists] at halt
  have inv := reach.inv
  have stuck := inv.stuck halt
  obtain ⟨waiting, memWaiting, notThrough⟩ :
      ∃ i ∈ net.members, s.at_ i ≠ ⟨net.rounds, []⟩ := by
    by_contra none
    push Not at none
    exact unfinished none
  obtain ⟨i, mem, least⟩ := Finset.exists_min_image net.members
    (fun j => (s.at_ j).started) ⟨waiting, memWaiting⟩
  rcases stuck.blocked i mem with through | ⟨t, need, rest, head, short⟩
  · -- the least far is through, so everybody waits in the last round
    rcases stuck.blocked waiting memWaiting with throughW | ⟨t, need, rest, head, short⟩
    · exact notThrough throughW
    · refine short (net_ok.ready_of_least inv stuck memWaiting head fun j memJ => ?_)
      have bounded := inv.bounded waiting memWaiting
      have far := least j memJ
      rw [head] at bounded
      rw [through] at far
      exact bounded.trans far
  · refine short (net_ok.ready_of_least inv stuck mem head fun j memJ => ?_)
    have far := least j memJ
    rw [head] at far
    exact far

/-- When all members have run the same number of rounds, no signal is left over. -/
theorem Balanced.clean (net_ok : Balanced net) (reach : Reachable net s) {r : Nat}
    (level : ∀ i ∈ net.members, s.at_ i = ⟨r, []⟩) : s.inFlight = 0 ∧ s.arrived = 0 := by
  have conserved := reach.inv.conserved
  have owedAll : ∑ i ∈ net.members, owed net i (s.at_ i) =
      ∑ u ∈ Finset.range r, ∑ i ∈ net.members, awaited (net.round u i).ops := by
    rw [Finset.sum_comm]
    refine Finset.sum_congr rfl fun i mem => ?_
    rw [level i mem]
    exact add_zero _
  have dueAll : ∑ i ∈ net.members, due net i (s.at_ i) =
      ∑ u ∈ Finset.range r, ∑ i ∈ net.members, posted (net.round u i).ops := by
    rw [Finset.sum_comm]
    refine Finset.sum_congr rfl fun i mem => ?_
    rw [level i mem]
    exact add_zero _
  rw [owedAll, dueAll, Finset.sum_congr rfl fun u _ => net_ok.balanced u, add_eq_right]
    at conserved
  exact add_eq_zero.mp conserved

/-! ## Every run ends -/

/-- What a member has left to do, with one more for the start of each round. -/
def left (net : Net ι κ) (i : ι) (l : Local κ) : Nat :=
  ∑ r ∈ Finset.Ico l.started net.rounds, ((net.round r i).ops.length + 1) + l.rest.length

/-- What is left to do, with every put counted again for its delivery. -/
def measure (net : Net ι κ) (s : State ι κ) : Nat :=
  2 * ∑ i ∈ net.members, left net i (s.at_ i) + s.inFlight.card

theorem Step.measure_lt (step : Step net s t) : measure net t < measure net s := by
  unfold measure
  cases step with
  | @start i n mem idle more =>
    have moved := sum_update_add net.members (left net) s.at_ mem ⟨n + 1, (net.round n i).ops⟩
    rw [idle] at moved
    have less : left net i ⟨n + 1, (net.round n i).ops⟩ < left net i ⟨n, []⟩ := by
      simp only [left, Finset.sum_eq_sum_Ico_succ_bot more, List.length_nil]
      omega
    dsimp only
    omega
  | @put i n signal rest mem head =>
    have moved := sum_update_add net.members (left net) s.at_ mem ⟨n, rest⟩
    rw [head] at moved
    have less : left net i ⟨n, rest⟩ + 1 = left net i ⟨n, .put signal :: rest⟩ := rfl
    dsimp only
    rw [Multiset.card_add, Multiset.card_singleton]
    omega
  | @deliver signal sent =>
    have card := Multiset.card_erase_add_one sent
    dsimp only
    omega
  | @wait i n need rest mem head ready =>
    have moved := sum_update_add net.members (left net) s.at_ mem ⟨n, rest⟩
    rw [head] at moved
    have less : left net i ⟨n, rest⟩ + 1 = left net i ⟨n, .wait need :: rest⟩ := rfl
    dsimp only
    omega

/-- Every run can be completed. -/
theorem Balanced.exists_finished (net_ok : Balanced net) (reach : Reachable net s) :
    ∃ t, Reachable net t ∧ Finished net t := by
  induction size : measure net s using Nat.strong_induction_on generalizing s with
  | _ n ih =>
    by_cases finished : Finished net s
    · exact ⟨s, reach, finished⟩
    · obtain ⟨next, step⟩ := net_ok.progress reach finished
      exact ih _ (size ▸ step.measure_lt) (reach.tail step) rfl

end Invariant

end SignalNet
