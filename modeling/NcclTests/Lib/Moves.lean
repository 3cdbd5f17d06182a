import Mathlib

/-!
# Moves in any order

A move copies one location of a memory to another. `Moves.Consistent` says that
moves do not race: moves to one location come from one source, and a location
that is read is at most moved onto itself. Running consistent moves in any order
has the effect of performing them all at once (`run_of_mem`, `run_of_forall_ne`).
`Moves.Assigns` compares moves with an assignment that they are to carry out.
-/

/-- Copy the content of `src` to `dst`. -/
structure Move (L : Type*) where
  dst : L
  src : L
  deriving DecidableEq

namespace Moves

variable {L β : Type*} [DecidableEq L]

/-- Perform the moves one after the other. -/
def run (moves : List (Move L)) (m : L → β) : L → β :=
  moves.foldl (fun m move => Function.update m move.dst (m move.src)) m

@[simp] theorem run_nil (m : L → β) : run [] m = m := rfl

@[simp] theorem run_cons (move : Move L) (moves : List (Move L)) (m : L → β) :
    run (move :: moves) m = run moves (Function.update m move.dst (m move.src)) := rfl

/-- Moves that do not race. -/
structure Consistent (moves : List (Move L)) : Prop where
  once : ∀ a ∈ moves, ∀ b ∈ moves, a.dst = b.dst → a.src = b.src
  fresh : ∀ a ∈ moves, ∀ b ∈ moves, a.dst = b.src → a.dst = a.src

omit [DecidableEq L] in
theorem Consistent.perm {moves moves' : List (Move L)} (ok : Consistent moves)
    (perm : moves'.Perm moves) : Consistent moves' where
  once a ha b hb := ok.once a (perm.subset ha) b (perm.subset hb)
  fresh a ha b hb := ok.fresh a (perm.subset ha) b (perm.subset hb)

/-- What no move writes stays. -/
theorem run_of_forall_ne {moves : List (Move L)} {m : L → β} {l : L}
    (untouched : ∀ move ∈ moves, move.dst ≠ l) : run moves m l = m l := by
  induction moves generalizing m with
  | nil => rfl
  | cons move moves ih =>
    rw [run_cons, ih fun other mem => untouched other (List.mem_cons_of_mem _ mem)]
    exact Function.update_of_ne (untouched move List.mem_cons_self).symm _ _

section Sources

variable {all : List (Move L)}

/-- The memories that agree at every source. -/
def SameSources (all : List (Move L)) (m m' : L → β) : Prop :=
  ∀ move ∈ all, m move.src = m' move.src

/-- One consistent move changes no source. -/
theorem SameSources.step (ok : Consistent all) {m m' : L → β} (same : SameSources all m m')
    {move : Move L} (mem : move ∈ all) :
    SameSources all (Function.update m move.dst (m move.src)) m' := by
  intro other memOther
  by_cases read : other.src = move.dst
  · rw [read, Function.update_self, same move mem, ok.fresh move mem other memOther read.symm]
  · rw [Function.update_of_ne read]
    exact same other memOther

/-- Consistent moves deliver what their sources held at the start. -/
theorem run_dst (ok : Consistent all) {moves : List (Move L)} (sub : moves ⊆ all)
    {m m' : L → β} (same : SameSources all m m') {move : Move L} (mem : move ∈ moves) :
    run moves m move.dst = m' move.src := by
  induction moves generalizing m move with
  | nil => exact absurd mem List.not_mem_nil
  | cons first moves ih =>
    obtain ⟨firstMem, rest⟩ := List.cons_subset.1 sub
    rw [run_cons]
    by_cases again : ∃ later ∈ moves, later.dst = move.dst
    · obtain ⟨later, laterMem, target⟩ := again
      rw [← target, ← ok.once later (rest laterMem) move (sub mem) target]
      exact ih rest (same.step ok firstMem) laterMem
    · have untouched : ∀ later ∈ moves, later.dst ≠ move.dst :=
        fun later laterMem target => again ⟨later, laterMem, target⟩
      have isFirst : move = first := by
        rcases List.mem_cons.1 mem with eq | inRest
        · exact eq
        · exact absurd rfl (untouched move inRest)
      rw [run_of_forall_ne untouched, isFirst, Function.update_self]
      exact same first firstMem

end Sources

/-- **Consistent moves in any order act at once**: a destination ends up with
what its source held before. -/
theorem run_of_mem {moves order : List (Move L)} (ok : Consistent moves)
    (perm : order.Perm moves) (m : L → β) {move : Move L} (mem : move ∈ moves) :
    run order m move.dst = m move.src :=
  run_dst ok perm.subset (fun _ _ => rfl) (perm.mem_iff.2 mem)

/-! ## Carrying out an assignment -/

/-- The moves assign `src i` to `dst i` for every `i` of `dom`: there is a move for
each `i`, unless it would be from a location to itself, and there are no others. -/
structure Assigns {ι : Type*} (moves : List (Move L)) (dom : Set ι) (dst src : ι → L) : Prop where
  sound : ∀ move ∈ moves, ∃ i ∈ dom, move = ⟨dst i, src i⟩
  complete : ∀ i ∈ dom, dst i = src i ∨ ⟨dst i, src i⟩ ∈ moves
  once : ∀ i ∈ dom, ∀ j ∈ dom, dst i = dst j → src i = src j
  fresh : ∀ i ∈ dom, ∀ j ∈ dom, dst i = src j → dst i = src i

section Assigns

variable {ι : Type*} {moves order : List (Move L)} {dom : Set ι} {dst src : ι → L}

omit [DecidableEq L] in
theorem Assigns.consistent (ok : Assigns moves dom dst src) : Consistent moves := by
  constructor
  · intro a memA b memB same
    obtain ⟨i, memI, rfl⟩ := ok.sound a memA
    obtain ⟨j, memJ, rfl⟩ := ok.sound b memB
    exact ok.once i memI j memJ same
  · intro a memA b memB same
    obtain ⟨i, memI, rfl⟩ := ok.sound a memA
    obtain ⟨j, memJ, rfl⟩ := ok.sound b memB
    exact ok.fresh i memI j memJ same

/-- In any order, the assignment is carried out on what memory held before. -/
theorem Assigns.run_dst (ok : Assigns moves dom dst src) (perm : order.Perm moves) (m : L → β)
    {i : ι} (mem : i ∈ dom) : run order m (dst i) = m (src i) := by
  by_cases moved : ⟨dst i, src i⟩ ∈ moves
  · exact run_of_mem ok.consistent perm m moved
  · have still : dst i = src i := (ok.complete i mem).resolve_right moved
    rw [← still]
    refine run_of_forall_ne fun move memMove same => ?_
    obtain ⟨j, memJ, rfl⟩ := ok.sound move (perm.subset memMove)
    -- a move to the location would be the one that is missing
    refine moved ?_
    rw [← same, ← ok.once j memJ i mem same]
    exact perm.subset memMove

/-- Nothing else changes. -/
theorem Assigns.run_frame (ok : Assigns moves dom dst src) (perm : order.Perm moves) (m : L → β)
    {l : L} (outside : ∀ i ∈ dom, dst i ≠ l) : run order m l = m l := by
  refine run_of_forall_ne fun move memMove => ?_
  obtain ⟨i, mem, rfl⟩ := ok.sound move (perm.subset memMove)
  exact outside i mem

end Assigns

end Moves
