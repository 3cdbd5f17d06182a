import Mathlib

/-!
# Loops that test, run their body and advance

`LoopRun keep next x visited`: the loop `for (; keep x; x = next x)` started at `x`
ends, having run its body at the values `visited`, in order. `next` may be
undefined, and a loop that gets there has no run.

* `LoopRun.exists_of_measure` and `LoopRun.not_of_closed` settle termination, by a
  measure or by a set of values the loop cannot leave.
* `LoopRun.pairwise` orders the visited values by a relation every step respects.
-/

universe u

variable {α : Type u}

/-- The loop started at the first argument ends after the values in the list. -/
inductive LoopRun (keep : α → Prop) (next : α → Option α) : α → List α → Prop
  | stop {x : α} : ¬ keep x → LoopRun keep next x []
  | body {x y : α} {visited : List α} : keep x → next x = some y →
    LoopRun keep next y visited → LoopRun keep next x (x :: visited)

/-- The values at which the loop started at the first argument runs its body, ending or not. -/
inductive LoopVisits (keep : α → Prop) (next : α → Option α) (start : α) : α → Prop
  | start : keep start → LoopVisits keep next start start
  | step {x y : α} : LoopVisits keep next start x → next x = some y → keep y →
    LoopVisits keep next start y

namespace LoopRun

variable {keep : α → Prop} {next : α → Option α}

/-- A loop that cannot leave a set of values it is kept at does not end. -/
theorem not_of_closed {P : α → Prop} (kept : ∀ x, P x → keep x)
    (closed : ∀ x y, P x → next x = some y → P y) {x : α} (inside : P x)
    (visited : List α) : ¬ LoopRun keep next x visited := by
  intro run
  induction run with
  | stop done => exact done (kept _ inside)
  | body _ step _ ih => exact ih (closed _ _ inside step)

/-- A loop whose defined steps lower a measure ends. -/
theorem exists_of_measure {P : α → Prop} (measure : α → Nat)
    (steps : ∀ x, P x → keep x → ∃ y, next x = some y ∧ P y ∧ measure y < measure x)
    {x : α} (start : P x) : ∃ visited, LoopRun keep next x visited := by
  induction hn : measure x using Nat.strong_induction_on generalizing x with
  | _ n ih =>
    by_cases kept : keep x
    · obtain ⟨y, step, holds_y, less⟩ := steps x start kept
      obtain ⟨visited, run⟩ := ih (measure y) (hn ▸ less) holds_y rfl
      exact ⟨x :: visited, .body kept step run⟩
    · exact ⟨[], .stop kept⟩

/-- What every step preserves holds at every visited value. -/
theorem forall_visited {P : α → Prop}
    (closed : ∀ x y, P x → keep x → next x = some y → P y) {x : α} {visited : List α}
    (run : LoopRun keep next x visited) (start : P x) : ∀ y ∈ visited, P y ∧ keep y := by
  induction run with
  | stop => simp
  | body kept step _ ih =>
    rintro z (_ | ⟨_, later⟩)
    · exact ⟨start, kept⟩
    · exact ih (closed _ _ start kept step) z later

/-- The values a run visits are those the loop reaches. -/
theorem visits {x : α} {visited : List α} (run : LoopRun keep next x visited) :
    ∀ y, LoopVisits keep next x y → y ∈ visited ∧ (next y).isSome := by
  intro y reached
  induction run generalizing y with
  | stop done =>
    exfalso
    induction reached with
    | start kept => exact done kept
    | step _ _ _ ih => exact ih
  | @body x x' rest kept step run ih =>
    have later : ∀ y, LoopVisits keep next x y → y = x ∨ LoopVisits keep next x' y := by
      intro y reached
      induction reached with
      | start => exact Or.inl rfl
      | @step u v _ next_u kept_v before =>
        rcases before with rfl | before
        · obtain rfl : x' = v := Option.some.inj (step.symm.trans next_u)
          exact Or.inr (.start kept_v)
        · exact Or.inr (.step before next_u kept_v)
    rcases later y reached with rfl | after
    · exact ⟨List.mem_cons_self, by simp [step]⟩
    · exact ⟨List.mem_cons_of_mem _ (ih y after).1, (ih y after).2⟩

/-- Values visited one after the other are related when every step is, through a
transitive relation. -/
theorem pairwise {R : α → α → Prop} [IsTrans α R] {P : α → Prop}
    (closed : ∀ x y, P x → keep x → next x = some y → P y ∧ R x y) {x : α}
    {visited : List α} (run : LoopRun keep next x visited) (start : P x) :
    visited.Pairwise R ∧ ∀ y ∈ visited, y = x ∨ R x y := by
  induction run with
  | stop => simp
  | @body x x' rest kept step run ih =>
    obtain ⟨holds', related⟩ := closed _ _ start kept step
    obtain ⟨sorted, from_⟩ := ih holds'
    have after : ∀ y ∈ rest, R x y := by
      intro y member
      rcases from_ y member with rfl | further
      · exact related
      · exact IsTrans.trans _ _ _ related further
    refine ⟨List.pairwise_cons.2 ⟨after, sorted⟩, ?_⟩
    rintro y (_ | ⟨_, member⟩)
    · exact Or.inl rfl
    · exact Or.inr (after y member)

/-- A loop whose every visited value has a successor of lower measure ends, and never
visits a value twice. -/
theorem exists_nodup_of_measure {start : α} (measure : α → Nat)
    (steps : ∀ x, LoopVisits keep next start x → ∃ y, next x = some y ∧ measure y < measure x) :
    ∃ visited, LoopRun keep next start visited ∧ visited.Nodup ∧
      ∀ x ∈ visited, LoopVisits keep next start x := by
  let good : α → Prop := fun x => keep x → LoopVisits keep next start x
  have reached_next {x y : α} (good_x : good x) (kept : keep x) (step : next x = some y) : good y :=
    fun kept_y => .step (good_x kept) step kept_y
  obtain ⟨visited, run⟩ : ∃ visited, LoopRun keep next start visited := by
    refine exists_of_measure (P := good) measure ?_ .start
    intro x good_x kept
    obtain ⟨y, step, less⟩ := steps x (good_x kept)
    exact ⟨y, step, reached_next good_x kept step, less⟩
  have trans : IsTrans α fun x y => measure y < measure x :=
    ⟨fun _ _ _ first second => lt_trans second first⟩
  have sorted : visited.Pairwise fun x y => measure y < measure x := by
    refine (run.pairwise (P := good) ?_ .start).1
    intro x y good_x kept step
    obtain ⟨z, step', less⟩ := steps x (good_x kept)
    obtain rfl := Option.some.inj (step.symm.trans step')
    exact ⟨reached_next good_x kept step, less⟩
  refine ⟨visited, run, sorted.imp fun less same => (same ▸ less).false, ?_⟩
  intro x member
  obtain ⟨good_x, kept⟩ := run.forall_visited (P := good)
    (fun _ _ => reached_next) .start x member
  exact good_x kept

/-- A loop with a total step ends exactly when some iterate fails the test. -/
theorem exists_iff_iterate {step : α → α} {x : α} :
    (∃ visited, LoopRun keep (fun y => some (step y)) x visited) ↔
      ∃ k, ¬ keep (step^[k] x) := by
  constructor
  · rintro ⟨visited, run⟩
    induction run with
    | stop done => exact ⟨0, done⟩
    | body _ next_ _ ih =>
      obtain ⟨k, done⟩ := ih
      obtain rfl := Option.some.inj next_
      exact ⟨k + 1, done⟩
  · rintro ⟨k, done⟩
    induction k generalizing x with
    | zero => exact ⟨[], .stop done⟩
    | succ k ih =>
      by_cases kept : keep x
      · obtain ⟨visited, run⟩ := ih done
        exact ⟨x :: visited, .body kept rfl run⟩
      · exact ⟨[], .stop kept⟩

end LoopRun
