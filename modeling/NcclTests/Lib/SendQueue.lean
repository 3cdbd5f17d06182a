import Mathlib

/-!
# A queue drained by its threads together

The threads of a group post entries to one queue, each at its own pace. They meet where all of
them synchronize and where all of them flush, and a flush empties the queue.

A thread is `Paced` by a number when it never posts more between two flushes; the queue then
never holds more than these numbers add up to, however the threads interleave
(`Reaches.posted_le`).
-/

namespace SendQueue

variable {ι : Type*}

inductive Instr
  | post (entries : Nat)
  | sync
  | flush
  | pass
  deriving DecidableEq, Repr

/-- What a thread posts before its next flush. -/
def due : List Instr → Nat
  | [] => 0
  | .post entries :: rest => entries + due rest
  | .flush :: _ => 0
  | .sync :: rest => due rest
  | .pass :: rest => due rest

/-- After every flush at most `bound` entries are posted before the next. -/
def Paced (bound : Nat) : List Instr → Prop
  | [] => True
  | .flush :: rest => due rest ≤ bound ∧ Paced bound rest
  | .post _ :: rest => Paced bound rest
  | .sync :: rest => Paced bound rest
  | .pass :: rest => Paced bound rest

/-- What is left of the threads, and the entries since the last flush. -/
structure State (ι : Type*) where
  rest : ι → List Instr
  posted : Nat

section Semantics

variable [DecidableEq ι]

inductive Step : State ι → State ι → Prop
  | post {s : State ι} {i : ι} {entries : Nat} {rest : List Instr}
      (head : s.rest i = .post entries :: rest) :
      Step s ⟨Function.update s.rest i rest, s.posted + entries⟩
  | pass {s : State ι} {i : ι} {rest : List Instr} (head : s.rest i = .pass :: rest) :
      Step s ⟨Function.update s.rest i rest, s.posted⟩
  | sync {s : State ι} {rest : ι → List Instr} (heads : ∀ i, s.rest i = .sync :: rest i) :
      Step s ⟨rest, s.posted⟩
  | flush {s : State ι} {rest : ι → List Instr} (heads : ∀ i, s.rest i = .flush :: rest i) :
      Step s ⟨rest, 0⟩

/-- The states from a program for each thread on, with an empty queue at first. -/
def Reaches (prog : ι → List Instr) (s : State ι) : Prop :=
  Relation.ReflTransGen Step ⟨prog, 0⟩ s

end Semantics

/-! ## Bounds -/

section Bounds

variable {bound : ι → Nat}

theorem paced_update [DecidableEq ι] {rest : ι → List Instr} {i : ι} {now : List Instr}
    (paced : ∀ j, Paced (bound j) (rest j)) (paced_now : Paced (bound i) now) (j : ι) :
    Paced (bound j) (Function.update rest i now j) := by
  by_cases same : j = i
  · subst same
    rwa [Function.update_self]
  · rw [Function.update_of_ne same]
    exact paced j

variable [Fintype ι]

/-- What is in the queue and what comes to it before the next flush fits the bounds. -/
structure Inv (bound : ι → Nat) (s : State ι) : Prop where
  total : s.posted + ∑ i, due (s.rest i) ≤ ∑ i, bound i
  paced : ∀ i, Paced (bound i) (s.rest i)

variable [DecidableEq ι]

theorem sum_due_update (rest : ι → List Instr) (i : ι) (now : List Instr) :
    ∑ j, due (Function.update rest i now j) + due (rest i) = ∑ j, due (rest j) + due now := by
  rw [Finset.sum_eq_add_sum_sdiff_singleton_of_mem (Finset.mem_univ i),
    Finset.sum_eq_add_sum_sdiff_singleton_of_mem (f := fun j => due (rest j)) (Finset.mem_univ i),
    Function.update_self]
  have others : ∑ j ∈ Finset.univ \ {i}, due (Function.update rest i now j) =
      ∑ j ∈ Finset.univ \ {i}, due (rest j) := by
    apply Finset.sum_congr rfl
    intro j outside
    rw [Function.update_of_ne (by simpa using outside)]
  omega

theorem Inv.step {s t : State ι} (inv : Inv bound s) (step : Step s t) : Inv bound t := by
  have total := inv.total
  cases step with
  | @post i entries rest head =>
    have moved := sum_due_update s.rest i rest
    have paced := inv.paced i
    rw [head] at moved paced
    refine ⟨?_, paced_update inv.paced paced⟩
    simp only [due] at moved
    dsimp only
    omega
  | @pass i rest head =>
    have moved := sum_due_update s.rest i rest
    have paced := inv.paced i
    rw [head] at moved paced
    refine ⟨?_, paced_update inv.paced paced⟩
    simp only [due] at moved
    dsimp only
    omega
  | @sync rest heads =>
    refine ⟨?_, ?_⟩
    · simpa only [heads, due] using total
    · intro i
      have paced := inv.paced i
      rwa [heads i] at paced
  | @flush rest heads =>
    have paced (i : ι) : due (rest i) ≤ bound i ∧ Paced (bound i) (rest i) := by
      have before := inv.paced i
      rwa [heads i] at before
    refine ⟨?_, fun i => (paced i).2⟩
    rw [Nat.zero_add]
    exact Finset.sum_le_sum fun i _ => (paced i).1

/-- **The queue never holds more than its threads are paced by.** -/
theorem Reaches.posted_le {prog : ι → List Instr} {s : State ι} (reaches : Reaches prog s)
    (bound : ι → Nat) (first : ∀ i, due (prog i) ≤ bound i)
    (paced : ∀ i, Paced (bound i) (prog i)) :
    s.posted ≤ ∑ i, bound i := by
  have inv : Inv bound s := by
    induction reaches with
    | refl => exact ⟨(Nat.zero_add _).trans_le (Finset.sum_le_sum fun i _ => first i), paced⟩
    | tail _ step ih => exact ih.step step
  exact (Nat.le_add_right _ _).trans inv.total

end Bounds

/-! ## Reaching a bound -/

section Peaks

variable [DecidableEq ι]

/-- One thread posts all it can. -/
theorem posts_one (i : ι) (entries : List Nat) (after : List Instr) (s : State ι)
    (head : s.rest i = entries.map .post ++ after) :
    Relation.ReflTransGen Step s ⟨Function.update s.rest i after, s.posted + entries.sum⟩ := by
  induction entries generalizing s with
  | nil =>
    have same : Function.update s.rest i after = s.rest := by
      rw [Function.update_eq_self_iff, head]
      rfl
    rw [same]
    exact .refl
  | cons w entries ih =>
    have posts : Step s ⟨Function.update s.rest i (entries.map .post ++ after), s.posted + w⟩ :=
      .post head
    have later := ih ⟨Function.update s.rest i (entries.map .post ++ after), s.posted + w⟩
      (Function.update_self _ _ _)
    rw [Function.update_idem, Nat.add_assoc] at later
    exact .head posts later

/-- All threads post all they can. -/
theorem posts_all [Fintype ι] (entries : ι → List Nat) (after : ι → List Instr) (posted : Nat) :
    Relation.ReflTransGen Step ⟨fun i => (entries i).map .post ++ after i, posted⟩
      ⟨after, posted + ∑ i, (entries i).sum⟩ := by
  have some_of : ∀ done : Finset ι, Relation.ReflTransGen Step
      ⟨fun i => (entries i).map .post ++ after i, posted⟩
      ⟨fun i => if i ∈ done then after i else (entries i).map .post ++ after i,
        posted + ∑ i ∈ done, (entries i).sum⟩ := by
    intro done
    induction done using Finset.induction_on with
    | empty => simpa using Relation.ReflTransGen.refl
    | insert i done outside ih =>
      refine ih.trans ?_
      have one := posts_one i (entries i) (after i)
        ⟨fun j => if j ∈ done then after j else (entries j).map .post ++ after j,
          posted + ∑ j ∈ done, (entries j).sum⟩ (if_neg outside)
      have now : Function.update
          (fun j => if j ∈ done then after j else (entries j).map .post ++ after j) i (after i) =
          fun j => if j ∈ insert i done then after j else (entries j).map .post ++ after j := by
        funext j
        by_cases same : j = i
        · subst same
          simp
        · simp [same]
      rw [now] at one
      rw [Finset.sum_insert outside, Nat.add_comm (entries i).sum, ← Nat.add_assoc]
      exact one
  simpa using some_of Finset.univ

end Peaks

end SendQueue
