import Mathlib

/-!
# A record that the first event of a busy period writes

Events count themselves in when they start and out when they stop. An event that finds the
counter at zero starts a busy period and writes the record; the one that takes the counter
back to zero publishes it. A stop looks at the record first and does nothing while none has
ever been written. A reader loads the flag of the publication and, where it is set, the parts of
the record one by one. Anyone may take the publication back.

Counting in and writing are two steps, and so are counting out and publishing: other events
start and stop in between.
`Run.read_eq`: what a reader finds is nonetheless what the history of the starts and stops says,
`Periods.report`, if no event starts while it reads, unless a stop was lost before the first
write, after which nothing is ever published.
-/

namespace BusyPeriod

variable {δ : Type*}

/-- `writers` are the starts that found the counter at zero and have not written yet, `held`
counts the events that have started and may stop, `publishers` the stops that have taken the
counter to zero and not published yet, and `lost` the stops without effect. -/
structure State (δ : Type*) where
  count : Int
  record : Option δ
  ready : Bool
  writers : List δ
  held : Nat
  publishers : Nat
  lost : Nat

def State.init : State δ := ⟨0, none, false, [], 0, 0, 0⟩

inductive Action (δ : Type*)
  | start (d : δ)
  | write (d : δ)
  | stop
  | publish
  | clear

inductive Step : State δ → Action δ → State δ → Prop
  | first {s : State δ} {d : δ} : s.count = 0 →
    Step s (.start d) { s with count := s.count + 1, writers := d :: s.writers }
  | next {s : State δ} {d : δ} : s.count ≠ 0 →
    Step s (.start d) { s with count := s.count + 1, held := s.held + 1 }
  | write {s : State δ} {d : δ} {before after : List δ} : s.writers = before ++ d :: after →
    Step s (.write d)
      { s with record := some d, writers := before ++ after, held := s.held + 1 }
  | stop {s : State δ} {d : δ} {held : Nat} : s.held = held + 1 → s.record = some d →
    Step s .stop
      { s with
        count := s.count - 1
        held
        publishers := if s.count = 1 then s.publishers + 1 else s.publishers }
  | lost {s : State δ} {held : Nat} : s.held = held + 1 → s.record = none →
    Step s .stop { s with held, lost := s.lost + 1 }
  | publish {s : State δ} {publishers : Nat} : s.publishers = publishers + 1 →
    Step s .publish { s with publishers, ready := true }
  | clear {s : State δ} : Step s .clear { s with ready := false }

inductive Run : State δ → List (Action δ) → State δ → Prop
  | nil {s : State δ} : Run s [] s
  | snoc {s t u : State δ} {acts : List (Action δ)} {act : Action δ} :
    Run s acts t → Step t act u → Run s (acts ++ [act]) u

/-- A reader that loads the flag in one state and a part of the record in a later one. -/
def read {α : Type*} (s t : State δ) (part : δ → α) : Option α :=
  if s.ready then t.record.map part else none

/-! ## What the history says -/

/-- The first event of the last period, how many events are under way, and whether the end of a
period has been published since the last clear. -/
structure Periods (δ : Type*) where
  first : Option δ
  under : Nat
  ended : Bool

def Periods.init : Periods δ := ⟨none, 0, false⟩

def Periods.after (p : Periods δ) : Action δ → Periods δ
  | .start d => { p with first := if p.under = 0 then some d else p.first, under := p.under + 1 }
  | .stop => { p with under := p.under - 1 }
  | .publish => { p with ended := true }
  | .clear => { p with ended := false }
  | .write _ => p

def Periods.of (acts : List (Action δ)) : Periods δ := acts.foldl after init

def Periods.report (p : Periods δ) : Option δ := if p.ended then p.first else none

theorem Periods.of_snoc (acts : List (Action δ)) (act : Action δ) :
    Periods.of (acts ++ [act]) = (Periods.of acts).after act := by
  rw [Periods.of, List.foldl_append]
  rfl

/-- The first event of a period is one that has started. -/
theorem Periods.start_mem {acts : List (Action δ)} {d : δ} (first : (of acts).first = some d) :
    Action.start d ∈ acts := by
  induction acts using List.reverseRecOn with
  | nil => cases first
  | append_singleton acts act ih =>
    rw [of_snoc] at first
    rw [List.mem_append, List.mem_singleton]
    cases act with
    | start e =>
      rw [after] at first
      dsimp only at first
      split at first
      · rw [Option.some.inj first]
        exact Or.inr rfl
      · exact Or.inl (ih first)
    | write | stop | publish | clear => exact Or.inl (ih first)

/-- After a clear it takes another publication. -/
theorem Periods.publish_mem {before rest : List (Action δ)}
    (ended : (of (before ++ .clear :: rest)).ended = true) : Action.publish ∈ rest := by
  induction rest using List.reverseRecOn with
  | nil =>
    rw [of_snoc] at ended
    cases ended
  | append_singleton rest act ih =>
    rw [← List.cons_append, ← List.append_assoc, of_snoc] at ended
    rw [List.mem_append, List.mem_singleton]
    cases act with
    | publish => exact Or.inr rfl
    | clear => cases ended
    | start | write | stop => exact Or.inl (ih ended)

/-! ## The invariant -/

/-- The counter is what the history says, and the lost stops on top. The record is that of
the last period once its writer is through. -/
structure Inv (s : State δ) (p : Periods δ) : Prop where
  count : s.count = p.under + s.lost
  under : p.under = s.held + s.writers.length
  single : s.writers.length ≤ 1
  blank : s.record = none → s.ready = false
  fresh : s.record = none → s.writers = [] → s.count = 0
  silent : s.record = none → s.publishers = 0
  unpublished : 0 < s.lost → s.ready = false ∧ s.publishers = 0
  ready : s.lost = 0 → s.ready = p.ended
  record : s.lost = 0 → s.writers = [] → s.record = p.first
  writer : s.lost = 0 → ∀ d ∈ s.writers, p.first = some d

theorem inv_init : Inv (State.init : State δ) Periods.init where
  count := rfl
  under := rfl
  single := Nat.zero_le _
  blank _ := rfl
  fresh _ _ := rfl
  silent _ := rfl
  unpublished _ := ⟨rfl, rfl⟩
  ready _ := rfl
  record _ _ := rfl
  writer _ _ member := absurd member List.not_mem_nil

namespace Step

variable {s t : State δ} {p : Periods δ} {act : Action δ}

/-- An event that finds the counter at zero is the first of its period. -/
theorem inv_first {d : δ} (inv : Inv s p) (zero : s.count = 0) :
    Inv { s with count := s.count + 1, writers := d :: s.writers } (p.after (.start d)) := by
  have count := inv.count
  have under := inv.under
  have idle : p.under = 0 := by omega
  have nobody : s.writers = [] := List.length_eq_zero_iff.1 (by omega)
  refine ⟨?_, ?_, ?_, inv.blank, ?_, inv.silent, inv.unpublished, inv.ready, ?_, ?_⟩
  · simp only [Periods.after]
    omega
  · simp only [Periods.after, List.length_cons]
    omega
  · rw [List.length_cons, nobody]
    exact le_rfl
  · intro _ none_
    cases none_
  · intro _ none_
    cases none_
  · intro _ e member
    rw [nobody, List.mem_singleton] at member
    rw [member, Periods.after]
    exact if_pos idle

theorem inv_next {d : δ} (inv : Inv s p) (some_ : s.count ≠ 0) :
    Inv { s with count := s.count + 1, held := s.held + 1 } (p.after (.start d)) := by
  have count := inv.count
  have under := inv.under
  -- an event is under way, unless a stop was lost
  have busy : s.lost = 0 → (p.after (.start d)).first = p.first := by
    intro kept
    exact if_neg (by omega)
  refine ⟨?_, ?_, inv.single, inv.blank, ?_, inv.silent, inv.unpublished, inv.ready, ?_, ?_⟩
  · simp only [Periods.after]
    omega
  · simp only [Periods.after]
    omega
  · intro never nobody
    exact absurd (inv.fresh never nobody) some_
  · intro kept nobody
    rw [busy kept]
    exact inv.record kept nobody
  · intro kept
    rw [busy kept]
    exact inv.writer kept

theorem inv_write {d : δ} {before after : List δ} (inv : Inv s p)
    (shape : s.writers = before ++ d :: after) :
    Inv { s with record := some d, writers := before ++ after, held := s.held + 1 } p := by
  have single := inv.single
  have under := inv.under
  rw [shape, List.length_append, List.length_cons] at single under
  have left : before = [] := List.length_eq_zero_iff.1 (by omega)
  have right : after = [] := List.length_eq_zero_iff.1 (by omega)
  subst left right
  refine ⟨inv.count, ?_, Nat.zero_le _, ?_, ?_, ?_, inv.unpublished, inv.ready, ?_, ?_⟩
  · simp only [List.length_nil, List.append_nil] at under ⊢
    omega
  · intro none_
    cases none_
  · intro none_
    cases none_
  · intro none_
    cases none_
  · intro kept _
    refine (inv.writer kept d ?_).symm
    rw [shape]
    exact List.mem_cons_self
  · intro _ e member
    cases member

/-- The last event of a period is about to publish the record. -/
theorem inv_stop {d : δ} {held : Nat} (inv : Inv s p) (out : s.held = held + 1)
    (written : s.record = some d) :
    Inv { s with
      count := s.count - 1
      held
      publishers := if s.count = 1 then s.publishers + 1 else s.publishers } (p.after .stop) := by
  have count := inv.count
  have under := inv.under
  have never : s.record ≠ none := by
    rw [written]
    exact Option.some_ne_none d
  refine ⟨?_, ?_, inv.single, inv.blank, fun none_ => absurd none_ never,
    fun none_ => absurd none_ never, ?_, inv.ready, inv.record, inv.writer⟩
  · simp only [Periods.after]
    omega
  · simp only [Periods.after]
    omega
  · intro some_
    have more : s.count ≠ 1 := by
      dsimp only at some_
      omega
    dsimp only
    rw [if_neg more]
    exact inv.unpublished some_

theorem inv_publish {publishers : Nat} (inv : Inv s p) (due : s.publishers = publishers + 1) :
    Inv { s with publishers, ready := true } (p.after .publish) := by
  have written : s.record ≠ none := by
    intro none_
    have silent := inv.silent none_
    omega
  refine ⟨inv.count, inv.under, inv.single, fun none_ => absurd none_ written, inv.fresh,
    fun none_ => absurd none_ written, ?_, fun _ => rfl, inv.record, inv.writer⟩
  intro some_
  have silent := (inv.unpublished some_).2
  omega

theorem inv_lost {held : Nat} (inv : Inv s p) (out : s.held = held + 1) (blank : s.record = none) :
    Inv { s with held, lost := s.lost + 1 } (p.after .stop) := by
  have count := inv.count
  have under := inv.under
  refine ⟨?_, ?_, inv.single, inv.blank, inv.fresh, inv.silent, ?_, ?_, ?_, ?_⟩
  · simp only [Periods.after]
    omega
  · simp only [Periods.after]
    omega
  · intro _
    exact ⟨inv.blank blank, inv.silent blank⟩
  · intro kept
    cases kept
  · intro kept
    cases kept
  · intro kept
    cases kept

theorem inv (step : Step s act t) (inv : Inv s p) : Inv t (p.after act) := by
  cases step with
  | first zero => exact inv_first inv zero
  | next some_ => exact inv_next inv some_
  | write shape => exact inv_write inv shape
  | stop out written => exact inv_stop inv out written
  | lost out blank => exact inv_lost inv out blank
  | publish due => exact inv_publish inv due
  | clear =>
    exact ⟨inv.count, inv.under, inv.single, fun _ => rfl, inv.fresh, inv.silent,
      fun some_ => ⟨rfl, (inv.unpublished some_).2⟩, fun _ => rfl, inv.record, inv.writer⟩

end Step

/-! ## Lost stops -/

/-- No event stops before a record has been written. -/
def Lossless (acts : List (Action δ)) : Prop :=
  ∀ before after, acts = before ++ .stop :: after → ∃ d, Action.write d ∈ before

theorem lossless_nil : Lossless ([] : List (Action δ)) := by
  intro before after shape
  exact absurd shape.symm (List.append_ne_nil_of_right_ne_nil _ (List.cons_ne_nil _ _))

theorem lossless_snoc {acts : List (Action δ)} {act : Action δ} :
    Lossless (acts ++ [act]) ↔
      Lossless acts ∧ (act = .stop → ∃ d, Action.write d ∈ acts) := by
  constructor
  · intro lossless
    refine ⟨fun before after shape => ?_, fun stop => ?_⟩
    · apply lossless before (after ++ [act])
      rw [shape, List.append_assoc, List.cons_append]
    · exact lossless acts [] (by rw [stop])
  · intro lossless before after shape
    obtain ⟨earlier, last⟩ := lossless
    rcases List.eq_nil_or_concat after with rfl | ⟨after, act', rfl⟩
    · obtain ⟨rfl, same⟩ := List.append_inj' shape rfl
      exact last (List.singleton_inj.1 same)
    · rw [List.concat_eq_append, ← List.cons_append, ← List.append_assoc] at shape
      exact earlier before after (List.append_inj' shape rfl).1

/-! ## Runs -/

namespace Run

variable {s t : State δ} {acts : List (Action δ)}

theorem inv (run : Run State.init acts s) : Inv s (Periods.of acts) := by
  generalize start : (State.init : State δ) = s₀ at run
  induction run with
  | nil =>
    rw [← start]
    exact inv_init
  | snoc _ step ih =>
    rw [Periods.of_snoc]
    exact step.inv ih

/-- A record stays written, and only a write makes one. -/
theorem record_isSome_iff (run : Run State.init acts s) :
    s.record.isSome = true ↔ ∃ d, Action.write d ∈ acts := by
  generalize start : (State.init : State δ) = s₀ at run
  induction run with
  | nil =>
    rw [← start]
    simp [State.init]
  | snoc _ step ih =>
    simp only [List.mem_append, List.mem_singleton, exists_or, ← ih]
    cases step <;> simp

theorem lost_eq_zero_iff (run : Run State.init acts s) : s.lost = 0 ↔ Lossless acts := by
  generalize start : (State.init : State δ) = s₀ at run
  induction run with
  | nil =>
    rw [← start]
    exact iff_of_true rfl lossless_nil
  | snoc run step ih =>
    subst start
    rw [lossless_snoc, ← ih, ← run.record_isSome_iff]
    cases step with
    | stop _ written => simp [written]
    | lost _ blank => simp [blank]
    | first | next | write | publish | clear => simp

/-- While no event starts, nobody comes to write. -/
theorem quiet (run : Run s acts t) (through : s.writers = [])
    (none_starts : ∀ d, Action.start d ∉ acts) : t.writers = [] ∧ t.record = s.record := by
  induction run with
  | nil => exact ⟨through, rfl⟩
  | snoc _ step ih =>
    obtain ⟨writers, record⟩ := ih fun d mem => none_starts d (List.mem_append_left _ mem)
    cases step with
    | first => exact absurd (List.mem_append_right _ List.mem_cons_self) (none_starts _)
    | next => exact absurd (List.mem_append_right _ List.mem_cons_self) (none_starts _)
    | write shape =>
      rw [writers] at shape
      exact absurd shape.symm (List.append_ne_nil_of_right_ne_nil _ (List.cons_ne_nil _ _))
    | stop => exact ⟨writers, record⟩
    | lost => exact ⟨writers, record⟩
    | publish => exact ⟨writers, record⟩
    | clear => exact ⟨writers, record⟩

/-- **What is read is what the history says**, once the writer is through and while no event
starts: every part is one of the same record. -/
theorem read_eq {α : Type*} {during : List (Action δ)} (run : Run State.init acts s)
    (lossless : Lossless acts) (through : s.writers = []) (line : Run s during t)
    (none_starts : ∀ d, Action.start d ∉ during) (part : δ → α) :
    read s t part = (Periods.of acts).report.map part := by
  have kept := run.lost_eq_zero_iff.2 lossless
  have inv := run.inv
  rw [read, (line.quiet through none_starts).2, inv.ready kept, inv.record kept through,
    Periods.report]
  split <;> rfl

/-- After a stop was lost nothing is ever found. -/
theorem read_eq_none {α : Type*} (run : Run State.init acts s) (lossy : ¬Lossless acts)
    (part : δ → α) : read s t part = none := by
  have lost : 0 < s.lost := Nat.pos_of_ne_zero (run.lost_eq_zero_iff.not.2 lossy)
  rw [read, (run.inv.unpublished lost).1, if_neg Bool.false_ne_true]

end Run

end BusyPeriod
