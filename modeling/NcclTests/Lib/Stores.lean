import Mathlib

/-!
# Stores in any order

Stores to different places leave their values there, whatever their order.
-/

namespace Stores

variable {L β : Type*} [DecidableEq L]

/-- Perform the stores one after the other. -/
def run (stores : List (L × β)) (m : L → β) : L → β :=
  stores.foldl (fun m store => Function.update m store.1 store.2) m

variable {stores order : List (L × β)} {m : L → β} {l : L} {value : β}

@[simp] theorem run_nil (m : L → β) : run [] m = m := rfl

@[simp] theorem run_cons (store : L × β) (stores : List (L × β)) (m : L → β) :
    run (store :: stores) m = run stores (Function.update m store.1 store.2) := rfl

/-- What no store is to stays. -/
theorem run_frame (outside : l ∉ stores.map Prod.fst) : run stores m l = m l := by
  induction stores generalizing m with
  | nil => rfl
  | cons store stores ih =>
    rw [List.map_cons, List.mem_cons, not_or] at outside
    rw [run_cons, ih outside.2]
    exact Function.update_of_ne outside.1 _ _

theorem run_of_mem (nodup : (stores.map Prod.fst).Nodup) (mem : (l, value) ∈ stores) :
    run stores m l = value := by
  induction stores generalizing m with
  | nil => exact absurd mem List.not_mem_nil
  | cons store stores ih =>
    rw [List.map_cons, List.nodup_cons] at nodup
    rw [run_cons]
    rcases List.mem_cons.1 mem with rfl | later
    · rw [run_frame nodup.1]
      exact Function.update_self _ _ _
    · exact ih nodup.2 later

/-- What all stores to a place agree on is there in the end. -/
theorem run_of_forall (mem : (l, value) ∈ stores)
    (agree : ∀ other, (l, other) ∈ stores → other = value) : run stores m l = value := by
  induction stores generalizing m with
  | nil => exact absurd mem List.not_mem_nil
  | cons store stores ih =>
    rw [run_cons]
    have agree_later : ∀ other, (l, other) ∈ stores → other = value :=
      fun other later => agree other (List.mem_cons_of_mem _ later)
    by_cases later : (l, value) ∈ stores
    · exact ih later agree_later
    · rcases List.mem_cons.1 mem with rfl | mem
      · rw [run_frame]
        · exact Function.update_self _ _ _
        · intro again
          obtain ⟨⟨place, other⟩, stored, same⟩ := List.mem_map.1 again
          change place = l at same
          rw [same] at stored
          rw [agree_later other stored] at stored
          exact later stored
      · exact absurd mem later

/-- **The order does not matter**: stores of `value` to the places of a set, each once, leave
these values and nothing else. -/
theorem run_perm {places : List L} {value : L → β} (nodup : places.Nodup)
    (perm : order.Perm (places.map fun l => (l, value l))) (m : L → β) :
    run order m = fun l => if l ∈ places then value l else m l := by
  have targets : (order.map Prod.fst).Perm places := by
    have mapped := perm.map Prod.fst
    rwa [List.map_map, Function.comp_def, List.map_id'] at mapped
  funext l
  split
  · next inside =>
    exact run_of_mem (targets.nodup_iff.2 nodup)
      (perm.mem_iff.2 (List.mem_map.2 ⟨l, inside, rfl⟩))
  · next outside => exact run_frame fun mem => outside (targets.mem_iff.1 mem)

end Stores
