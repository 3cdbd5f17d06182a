import Mathlib
import NcclTests.Lib.MachineInt
import NcclTests.CommOps.Timers

/-!
# The statistics of the timers

The records of all ranks of a communicator, with what they buffer, and the totals that rank 0
keeps for each type of timer. The ranks record in lockstep, with times of their own. Every
`flush_interval` records they reduce their buffers to rank 0, and once more at the end, when
only a part of the buffers is filled: `statistics_exact`.
-/

namespace NcclTests.CommOps

/-- `double`, and the reductions of MPI, which treat each element of a buffer alike. -/
structure Doubles (nranks : Nat) where
  Double : Type
  zero : Double
  ofUint64 : UInt64 → Double
  add : Double → Double → Double
  /-- `std::max`. -/
  max : Double → Double → Double
  /-- `pow(x, 2.0)`. -/
  square : Double → Double
  mpiMax : (Fin nranks → Double) → Double
  mpiSum : (Fin nranks → Double) → Double

/-- What all ranks record in one call each. -/
structure Round (nranks : Nat) where
  id : Timer
  elapsed : Fin nranks → UInt64
  record : Fin nranks → Bool

/-- A call that all ranks make. -/
inductive TimerEvent (nranks : Nat)
  | setTimerEnabled (enabled : Bool)
  | recordTimer (round : Round nranks)

/-- The rounds made while the timers are enabled. -/
def enabledRounds {nranks : Nat} : Bool → List (TimerEvent nranks) → List (Round nranks)
  | _, [] => []
  | _, .setTimerEnabled enabled :: events => enabledRounds enabled events
  | true, .recordTimer round :: events => round :: enabledRounds true events
  | false, .recordTimer _ :: events => enabledRounds false events

section Statistics

variable {nranks : Nat} (D : Doubles nranks)

/-- The arrays sorted by type of timer. -/
structure ByType where
  roundsByType : Timer → Int
  sumByType : Timer → D.Double
  sumsqByType : Timer → D.Double
  maxByType : Timer → D.Double
  participantCountByType : Timer → Int

/-- What a rank writes itself. -/
structure LocalRecord where
  currentlyEnabled : Bool
  count : Nat
  times : Nat → D.Double
  timesSq : Nat → D.Double
  id : Nat → Timer
  participated : Nat → Int

/-- The records of a communicator; the reduced arrays and the totals are those of rank 0. -/
structure RecordGroup where
  flushInterval : Nat
  /-- `comm != MPI_COMM_NULL`. -/
  comm : Bool
  local_ : Fin nranks → LocalRecord D
  max : Nat → D.Double
  sum : Nat → D.Double
  sumsq : Nat → D.Double
  participantCount : Nat → Int
  byType : ByType D
  mainRetVal : Int

variable {D}

/-- One round more, unless nobody took part. -/
def ByType.add (totals : ByType D) (id : Timer) (sum sumsq max : D.Double)
    (participants : Int) : ByType D :=
  if participants > 0 then
    { roundsByType := Function.update totals.roundsByType id
        (int32 (totals.roundsByType id + 1))
      sumByType := Function.update totals.sumByType id (D.add (totals.sumByType id) sum)
      sumsqByType := Function.update totals.sumsqByType id (D.add (totals.sumsqByType id) sumsq)
      maxByType := Function.update totals.maxByType id (D.max (totals.maxByType id) max)
      participantCountByType := Function.update totals.participantCountByType id
        (int32 (totals.participantCountByType id + participants)) }
  else totals

def ByType.zero : ByType D :=
  ⟨fun _ => 0, fun _ => D.zero, fun _ => D.zero, fun _ => D.zero, fun _ => 0⟩

/-- `record_timer` before the test for a full buffer. -/
def LocalRecord.append (timing : LocalRecord D) (flushInterval : Nat) (elapsed : UInt64)
    (id : Timer) (record : Bool) : LocalRecord D :=
  let k := timing.count
  let time := D.ofUint64 elapsed
  if k < flushInterval then
    { timing with
      count := k + 1
      times := Function.update timing.times k time
      id := Function.update timing.id k id
      participated := Function.update timing.participated k (if record then 1 else 0)
      timesSq := Function.update timing.timesSq k (D.square time) }
  else { timing with count := k + 1 }

namespace RecordGroup

variable [NeZero nranks] (group : RecordGroup D)

/-- `gather_timing` of all ranks, with the communicator set. -/
def gatherTiming : RecordGroup D :=
  let reduced := { group with
    max := fun i => D.mpiMax fun r => (group.local_ r).times i
    sum := fun i => D.mpiSum fun r => (group.local_ r).times i
    participantCount := fun i => ∑ r, (group.local_ r).participated i
    sumsq := fun i => D.mpiSum fun r => (group.local_ r).timesSq i }
  let root := group.local_ 0
  let allMatch := ∀ r, (group.local_ r).count = root.count
  { reduced with
    byType := (List.range root.count).foldl (fun totals jj =>
      totals.add (root.id jj) (reduced.sum jj) (reduced.sumsq jj) (reduced.max jj)
        (reduced.participantCount jj)) group.byType
    mainRetVal :=
      if ¬ allMatch ∨ root.count > group.flushInterval then 1 else group.mainRetVal }

/-- `flush_timing` of all ranks. -/
def flushTiming : RecordGroup D :=
  let gathered := if group.comm then group.gatherTiming else group
  { gathered with local_ := fun r => { gathered.local_ r with count := 0 } }

/-- `record_timer` of all ranks, who flush together. -/
def recordTimer (round : Round nranks) : RecordGroup D :=
  let appended := { group with
    local_ := fun r =>
      if (group.local_ r).currentlyEnabled then
        (group.local_ r).append group.flushInterval (round.elapsed r) round.id (round.record r)
      else group.local_ r }
  if ∀ r, (group.local_ r).currentlyEnabled ∧
      (appended.local_ r).count = group.flushInterval then appended.flushTiming
  else appended

def step : TimerEvent nranks → RecordGroup D
  | .setTimerEnabled enabled =>
    { group with local_ := fun r => { group.local_ r with currentlyEnabled := enabled } }
  | .recordTimer round => group.recordTimer round

def run (events : List (TimerEvent nranks)) : RecordGroup D := events.foldl step group

/-- `timing_set_comm`. -/
def timingSetComm : RecordGroup D := { group with comm := true }

/-- `timing_allocate` without a communicator; what it allocates is not initialised. -/
def timingAllocate (flush : Nat) (memory : RecordGroup D) : RecordGroup D :=
  { memory with
    flushInterval := flush
    comm := false
    local_ := fun r => { memory.local_ r with currentlyEnabled := true, count := 0 }
    byType := .zero }

end RecordGroup

/-! ## Every round on its own -/

/-- A round reduced over the ranks. -/
def ByType.addRound (totals : ByType D) (round : Round nranks) : ByType D :=
  totals.add round.id (D.mpiSum fun r => D.ofUint64 (round.elapsed r))
    (D.mpiSum fun r => D.square (D.ofUint64 (round.elapsed r)))
    (D.mpiMax fun r => D.ofUint64 (round.elapsed r))
    (∑ r, if round.record r then 1 else 0)

/-- The totals of the rounds, without buffers. -/
def aggregate (rounds : List (Round nranks)) : ByType D := rounds.foldl ByType.addRound .zero

/-- Whether the timers are enabled after an event. -/
def TimerEvent.enabledAfter (enabled : Bool) : TimerEvent nranks → Bool
  | .setTimerEnabled enabled => enabled
  | .recordTimer _ => enabled

theorem enabledRounds_cons (enabled : Bool) (event : TimerEvent nranks)
    (events : List (TimerEvent nranks)) : enabledRounds enabled (event :: events) =
      enabledRounds enabled [event] ++ enabledRounds (event.enabledAfter enabled) events := by
  cases event with
  | setTimerEnabled now => cases enabled <;> rfl
  | recordTimer round => cases enabled <;> rfl

/-- Whether the timers are enabled after several events. -/
def enabledAfter (enabled : Bool) (events : List (TimerEvent nranks)) : Bool :=
  events.foldl TimerEvent.enabledAfter enabled

theorem enabledRounds_append (enabled : Bool) (first second : List (TimerEvent nranks)) :
    enabledRounds enabled (first ++ second) =
      enabledRounds enabled first ++ enabledRounds (enabledAfter enabled first) second := by
  induction first generalizing enabled with
  | nil => cases enabled <;> rfl
  | cons event first ih =>
    rw [List.cons_append, enabledRounds_cons, ih, enabledRounds_cons enabled event first,
      List.append_assoc]
    rfl

/-! ## The buffers -/

/-- Rank `r` has the round in the places `k` of its arrays. -/
structure LocalRecord.Holds (timing : LocalRecord D) (k : Nat) (round : Round nranks)
    (r : Fin nranks) : Prop where
  times : timing.times k = D.ofUint64 (round.elapsed r)
  timesSq : timing.timesSq k = D.square (D.ofUint64 (round.elapsed r))
  id : timing.id k = round.id
  participated : timing.participated k = if round.record r then 1 else 0

/-- `append` as a rank calls it for a round. -/
def LocalRecord.appendRound (timing : LocalRecord D) (flushInterval : Nat) (round : Round nranks)
    (r : Fin nranks) : LocalRecord D :=
  timing.append flushInterval (round.elapsed r) round.id (round.record r)

theorem LocalRecord.holds_appendRound {timing : LocalRecord D} {flushInterval : Nat}
    (room : timing.count < flushInterval) (round : Round nranks) (r : Fin nranks) :
    (timing.appendRound flushInterval round r).Holds timing.count round r := by
  rw [appendRound, append, if_pos room]
  constructor <;> exact Function.update_self _ _ _

/-- Earlier places stay. -/
theorem LocalRecord.Holds.appendRound {timing : LocalRecord D} {k : Nat} {earlier : Round nranks}
    {r : Fin nranks} (holds : timing.Holds k earlier r) (below : k < timing.count)
    (flushInterval : Nat) (round : Round nranks) :
    (timing.appendRound flushInterval round r).Holds k earlier r := by
  rw [LocalRecord.appendRound, append]
  split
  · constructor
    · exact (Function.update_of_ne below.ne _ _).trans holds.times
    · exact (Function.update_of_ne below.ne _ _).trans holds.timesSq
    · exact (Function.update_of_ne below.ne _ _).trans holds.id
    · exact (Function.update_of_ne below.ne _ _).trans holds.participated
  · exact ⟨holds.times, holds.timesSq, holds.id, holds.participated⟩

theorem LocalRecord.count_appendRound (timing : LocalRecord D) (flushInterval : Nat)
    (round : Round nranks) (r : Fin nranks) :
    (timing.appendRound flushInterval round r).count = timing.count + 1 := by
  rw [appendRound, append]
  split <;> rfl

theorem LocalRecord.currentlyEnabled_appendRound (timing : LocalRecord D) (flushInterval : Nat)
    (round : Round nranks) (r : Fin nranks) :
    (timing.appendRound flushInterval round r).currentlyEnabled = timing.currentlyEnabled := by
  rw [appendRound, append]
  split <;> rfl

/-- All ranks have the rounds `pending` in their buffers, and those of `flushed` are in the
totals. -/
structure Buffered (ret : Int) (flushed pending : List (Round nranks)) (enabled : Bool)
    (group : RecordGroup D) : Prop where
  enabled : ∀ r, (group.local_ r).currentlyEnabled = enabled
  count : ∀ r, (group.local_ r).count = pending.length
  holds : ∀ (k : Nat) (round : Round nranks), pending[k]? = some round →
    ∀ r, (group.local_ r).Holds k round r
  byType : group.byType = aggregate flushed
  mainRetVal : group.mainRetVal = ret

/-- A loop over the places of a list that does at each what another does at the element. -/
theorem foldl_range_of_getElem? {α β : Type*} {f : β → Nat → β} {g : β → α → β} {xs : List α}
    (same : ∀ (k : Nat) (x : α), xs[k]? = some x → ∀ acc, f acc k = g acc x) (z : β) :
    (List.range xs.length).foldl f z = xs.foldl g z := by
  induction xs using List.reverseRecOn with
  | nil => rfl
  | append_singleton xs x ih =>
    have last := same xs.length x (by rw [List.getElem?_append_right le_rfl]; simp)
    have before := ih fun k y at_k => same k y <| by
      rw [List.getElem?_append_left (List.getElem?_eq_some_iff.1 at_k).1, at_k]
    rw [List.length_append, List.length_singleton, List.range_succ, List.foldl_append,
      List.foldl_append, before, List.foldl_cons, List.foldl_nil, List.foldl_cons,
      List.foldl_nil, last]

variable {group : RecordGroup D} {flushed pending rounds : List (Round nranks)} {enabled : Bool}
  {ret : Int}

/-- The records with one round more in the buffers. -/
def RecordGroup.appendRound (group : RecordGroup D) (round : Round nranks) : RecordGroup D :=
  { group with
    local_ := fun r => (group.local_ r).appendRound group.flushInterval round r }

theorem Buffered.appendRound (buffered : Buffered ret flushed pending enabled group)
    (room : pending.length < group.flushInterval) (round : Round nranks) :
    Buffered ret flushed (pending ++ [round]) enabled (group.appendRound round) where
  enabled r := by
    rw [RecordGroup.appendRound, LocalRecord.currentlyEnabled_appendRound]
    exact buffered.enabled r
  count r := by
    rw [RecordGroup.appendRound, LocalRecord.count_appendRound, buffered.count r,
      List.length_append, List.length_singleton]
  holds := by
    intro k other at_k r
    rcases Nat.lt_trichotomy k pending.length with before | rfl | after
    · rw [List.getElem?_append_left before] at at_k
      refine (buffered.holds k other at_k r).appendRound ?_ _ round
      rwa [buffered.count r]
    · rw [List.getElem?_append_right le_rfl, Nat.sub_self] at at_k
      obtain rfl := Option.some.inj at_k
      rw [← buffered.count r]
      refine LocalRecord.holds_appendRound ?_ _ r
      rwa [buffered.count r]
    · rw [List.getElem?_eq_none (by rw [List.length_append, List.length_singleton]; omega)] at at_k
      cases at_k
  byType := buffered.byType
  mainRetVal := buffered.mainRetVal

section Runs

variable [NeZero nranks]

/-- **A gather adds the rounds in the buffers**, whatever is behind them. -/
theorem Buffered.gatherTiming (buffered : Buffered ret flushed pending enabled group)
    (room : pending.length ≤ group.flushInterval) :
    group.gatherTiming.byType = aggregate (flushed ++ pending) ∧
      group.gatherTiming.mainRetVal = ret := by
  constructor
  · rw [RecordGroup.gatherTiming, aggregate, List.foldl_append, ← aggregate, ← buffered.byType]
    dsimp only
    rw [buffered.count 0]
    apply foldl_range_of_getElem?
    intro k round at_k totals
    have holds := buffered.holds k round at_k
    rw [ByType.addRound, (holds 0).id]
    congr 1
    · exact congrArg D.mpiSum (funext fun r => (holds r).times)
    · exact congrArg D.mpiSum (funext fun r => (holds r).timesSq)
    · exact congrArg D.mpiMax (funext fun r => (holds r).times)
    · exact Finset.sum_congr rfl fun r _ => (holds r).participated
  · rw [RecordGroup.gatherTiming]
    dsimp only
    rw [← buffered.mainRetVal]
    apply if_neg
    rintro (mismatch | exceeded)
    · apply mismatch
      intro r
      rw [buffered.count, buffered.count]
    · rw [buffered.count] at exceeded
      omega

/-- The buffers are empty after a flush with a communicator. -/
theorem Buffered.flushTiming (buffered : Buffered ret flushed pending enabled group)
    (room : pending.length ≤ group.flushInterval) (comm : group.comm = true) :
    Buffered ret (flushed ++ pending) [] enabled group.flushTiming where
  enabled := by
    intro r
    rw [RecordGroup.flushTiming, if_pos comm]
    exact buffered.enabled r
  count _ := rfl
  holds := by
    intro k round at_k
    cases at_k
  byType := by
    rw [RecordGroup.flushTiming, if_pos comm]
    exact (buffered.gatherTiming room).1
  mainRetVal := by
    rw [RecordGroup.flushTiming, if_pos comm]
    exact (buffered.gatherTiming room).2

theorem flushTiming_flushInterval (group : RecordGroup D) :
    group.flushTiming.flushInterval = group.flushInterval := by
  rw [RecordGroup.flushTiming]
  dsimp only
  split <;> rfl

theorem flushTiming_comm (group : RecordGroup D) : group.flushTiming.comm = group.comm := by
  rw [RecordGroup.flushTiming]
  dsimp only
  split <;> rfl

/-- All rounds are in the totals or in buffers that are not full. -/
def Recorded (ret : Int) (rounds : List (Round nranks)) (enabled : Bool)
    (group : RecordGroup D) : Prop :=
  ∃ flushed pending, rounds = flushed ++ pending ∧ pending.length < group.flushInterval ∧
    (group.comm = false → flushed = []) ∧ Buffered ret flushed pending enabled group

theorem recordTimer_of_enabled (all : ∀ r, (group.local_ r).currentlyEnabled = true)
    (round : Round nranks) : group.recordTimer round =
      if ∀ r, ((group.appendRound round).local_ r).count = group.flushInterval then
        (group.appendRound round).flushTiming
      else group.appendRound round := by
  simp only [RecordGroup.recordTimer, RecordGroup.appendRound, LocalRecord.appendRound, all,
    if_true, true_and]
  exact if_congr Iff.rfl rfl rfl

theorem recordTimer_of_disabled (all : ∀ r, (group.local_ r).currentlyEnabled = false)
    (round : Round nranks) : group.recordTimer round = group := by
  simp [RecordGroup.recordTimer, all]

/-- A round goes to the buffers, or with them to the totals. -/
theorem Recorded.recordTimer (recorded : Recorded ret rounds true group) (round : Round nranks)
    (kept : group.comm = true ∨ (rounds ++ [round]).length < group.flushInterval) :
    Recorded ret (rounds ++ [round]) true (group.recordTimer round) := by
  obtain ⟨flushed, pending, rfl, room, no_comm, buffered⟩ := recorded
  have appended := buffered.appendRound room round
  rw [recordTimer_of_enabled buffered.enabled]
  split
  · next full =>
    have full_length : (pending ++ [round]).length = group.flushInterval := by
      rw [← appended.count 0]
      exact full 0
    have comm : group.comm = true := by
      rcases kept with comm | fits
      · exact comm
      · by_contra missing
        rw [no_comm (Bool.eq_false_of_not_eq_true missing), List.nil_append] at fits
        omega
    refine ⟨flushed ++ (pending ++ [round]), [], ?_, ?_, ?_,
      appended.flushTiming full_length.le comm⟩
    · rw [List.append_nil, List.append_assoc]
    · rw [flushTiming_flushInterval]
      exact Nat.zero_lt_of_lt room
    · intro missing
      rw [flushTiming_comm] at missing
      exact absurd (comm.symm.trans missing) Bool.noConfusion
  · next not_full =>
    refine ⟨flushed, pending ++ [round], List.append_assoc _ _ _, ?_, no_comm, appended⟩
    have other : (pending ++ [round]).length ≠ group.flushInterval := by
      intro full
      apply not_full
      intro r
      rw [appended.count r, full]
    rw [List.length_append, List.length_singleton] at other ⊢
    exact lt_of_le_of_ne room other

theorem recordTimer_flushInterval (group : RecordGroup D) (round : Round nranks) :
    (group.recordTimer round).flushInterval = group.flushInterval := by
  rw [RecordGroup.recordTimer]
  dsimp only
  split
  · rw [flushTiming_flushInterval]
  · rfl

theorem recordTimer_comm (group : RecordGroup D) (round : Round nranks) :
    (group.recordTimer round).comm = group.comm := by
  rw [RecordGroup.recordTimer]
  dsimp only
  split
  · rw [flushTiming_comm]
  · rfl

theorem step_flushInterval (group : RecordGroup D) (event : TimerEvent nranks) :
    (group.step event).flushInterval = group.flushInterval := by
  cases event with
  | setTimerEnabled => rfl
  | recordTimer round => exact recordTimer_flushInterval group round

theorem step_comm (group : RecordGroup D) (event : TimerEvent nranks) :
    (group.step event).comm = group.comm := by
  cases event with
  | setTimerEnabled => rfl
  | recordTimer round => exact recordTimer_comm group round

/-- **What one call of all ranks keeps.** -/
theorem Recorded.step (recorded : Recorded ret rounds enabled group) (event : TimerEvent nranks)
    (kept : group.comm = true ∨
      (rounds ++ enabledRounds enabled [event]).length < group.flushInterval) :
    Recorded ret (rounds ++ enabledRounds enabled [event]) (event.enabledAfter enabled)
      (group.step event) := by
  cases event with
  | setTimerEnabled now =>
    obtain ⟨flushed, pending, split_, room, no_comm, buffered⟩ := recorded
    have same : rounds ++ enabledRounds enabled [.setTimerEnabled now] = rounds := by
      cases enabled <;> exact List.append_nil rounds
    rw [same]
    exact ⟨flushed, pending, split_, room, no_comm,
      ⟨fun _ => rfl, buffered.count, fun k round at_k r =>
        let holds := buffered.holds k round at_k r
        ⟨holds.times, holds.timesSq, holds.id, holds.participated⟩,
        buffered.byType, buffered.mainRetVal⟩⟩
  | recordTimer round =>
    cases enabled with
    | true => exact recorded.recordTimer round kept
    | false =>
      obtain ⟨flushed, pending, split_, room, no_comm, buffered⟩ := recorded
      change Recorded ret (rounds ++ []) false (group.recordTimer round)
      rw [List.append_nil, recordTimer_of_disabled buffered.enabled]
      exact ⟨flushed, pending, split_, room, no_comm, buffered⟩

/-- **What a run of calls keeps.** -/
theorem Recorded.run (events : List (TimerEvent nranks))
    (recorded : Recorded ret rounds enabled group)
    (kept : group.comm = true ∨
      (rounds ++ enabledRounds enabled events).length < group.flushInterval) :
    Recorded ret (rounds ++ enabledRounds enabled events) (enabledAfter enabled events)
      (group.run events) := by
  induction events generalizing group rounds enabled with
  | nil =>
    rw [enabledRounds, List.append_nil]
    exact recorded
  | cons event events ih =>
    rw [enabledRounds_cons, ← List.append_assoc] at kept ⊢
    have kept_step : group.comm = true ∨
        (rounds ++ enabledRounds enabled [event]).length < group.flushInterval := by
      refine kept.imp_right fun fits => ?_
      rw [List.length_append] at fits
      omega
    apply ih (recorded.step event kept_step)
    rwa [step_comm, step_flushInterval]

/-- A record that gets its communicator later, before its buffers are full. -/
theorem recorded_of_early {flush : Nat} (memory : RecordGroup D)
    (early events : List (TimerEvent nranks)) (room : (enabledRounds true early).length < flush) :
    Recorded memory.mainRetVal (enabledRounds true (early ++ events))
      (enabledAfter (enabledAfter true early) events)
      (((RecordGroup.timingAllocate flush memory).run early).timingSetComm.run events) := by
  have allocated :
      Recorded memory.mainRetVal [] true (RecordGroup.timingAllocate flush memory) := by
    refine ⟨[], [], rfl, Nat.zero_lt_of_lt room, fun _ => rfl, fun _ => rfl, fun _ => rfl, ?_,
      rfl, rfl⟩
    intro k round at_k
    cases at_k
  have filled := allocated.run early (.inr room)
  rw [enabledRounds_append]
  refine Recorded.run events ?_ (.inl rfl)
  obtain ⟨flushed, pending, split_, less, -, buffered⟩ := filled
  refine ⟨flushed, pending, split_, less, ?_, ⟨buffered.enabled, buffered.count, buffered.holds,
    buffered.byType, buffered.mainRetVal⟩⟩
  intro missing
  cases missing

/-- **No flush interval matters**: the totals after the last gather are those of every round
added on its own, and the ranks' counts have agreed. A record may get its communicator after
some events that do not fill its buffers (`room`); one allocated with it has no such events.

A gather takes the times from the buffers and adds them by type, and the buffers are empty after
it: the rounds added and the rounds buffered are together those that have been enabled, before and
after every event. -/
theorem statistics_exact (nranks : Nat) [NeZero nranks] (D : Doubles nranks) (flush : Nat)
    (memory : RecordGroup D) (early events : List (TimerEvent nranks))
    (room : (enabledRounds true early).length < flush) :
    let group := ((RecordGroup.timingAllocate flush memory).run early).timingSetComm.run events
    group.gatherTiming.byType = aggregate (enabledRounds true (early ++ events)) ∧
      group.gatherTiming.mainRetVal = memory.mainRetVal := by
  obtain ⟨flushed, pending, split_, less, -, buffered⟩ :=
    recorded_of_early memory early events room
  rw [split_]
  exact buffered.gatherTiming less.le

end Runs

end Statistics

/-- Whole numbers for `double`. -/
def wholeDoubles (nranks : Nat) : Doubles nranks where
  Double := Int
  zero := 0
  ofUint64 x := x.toNat
  add x y := x + y
  max x y := Max.max x y
  square x := x ^ 2
  mpiMax f := Finset.univ.fold Max.max 0 f
  mpiSum f := ∑ r, f r

/-- Both ranks take part in the first call, the second one finds the timers disabled, and the
third one leaves out a rank. -/
def threeCalls : List (TimerEvent 2) :=
  [.recordTimer ⟨.ncclInit, fun r => if r.val = 0 then 5 else 7, fun _ => true⟩,
    .setTimerEnabled false, .recordTimer ⟨.ncclSplit, fun _ => 3, fun _ => true⟩,
    .setTimerEnabled true,
    .recordTimer ⟨.ncclSplit, fun r => if r.val = 0 then 4 else 0, fun r => r.val = 0⟩]

/-- What memory holds before it is written. -/
def blankMemory : RecordGroup (wholeDoubles 2) :=
  let blank : Nat → Int := fun _ => 9
  ⟨0, false, fun _ => ⟨false, 0, blank, blank, fun _ => .mpiInit, blank⟩, blank, blank, blank,
    blank, .zero, 0⟩

/-- A record that is flushed after every second call, the first one before it has a
communicator. -/
theorem statistics_exact_two :
    let group := ((RecordGroup.timingAllocate 2 blankMemory).run
      [.recordTimer ⟨.mpiInit, fun _ => 1, fun _ => true⟩]).timingSetComm.run threeCalls
    group.gatherTiming.byType = aggregate (enabledRounds true
      ([.recordTimer ⟨.mpiInit, fun _ => 1, fun _ => true⟩] ++ threeCalls)) ∧
      group.gatherTiming.mainRetVal = blankMemory.mainRetVal :=
  statistics_exact 2 (wholeDoubles 2) 2 blankMemory
    [.recordTimer ⟨.mpiInit, fun _ => 1, fun _ => true⟩] threeCalls (by decide)

end NcclTests.CommOps
