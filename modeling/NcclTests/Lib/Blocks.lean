import Mathlib

/-!
# Numbers in blocks

A number below `n * b` is a block `r < n` and a place `i < b` in it.
-/

section Blocks

variable {r r' n b i i' x : Nat}

theorem block_div (less : i < b) : (r * b + i) / b = r := by
  rw [Nat.mul_comm, Nat.mul_add_div (by omega), Nat.div_eq_of_lt less, Nat.add_zero]

theorem block_mod (less : i < b) : (r * b + i) % b = i := by
  rw [Nat.mul_comm, Nat.mul_add_mod, Nat.mod_eq_of_lt less]

theorem block_lt (mem : r < n) (less : i < b) : r * b + i < n * b := by
  have next := Nat.mul_le_mul_right b mem
  rw [Nat.succ_mul] at next
  omega

theorem block_inj (less : i < b) (less' : i' < b) (same : r * b + i = r' * b + i') :
    r = r' ∧ i = i' := by
  have blocks := congrArg (· / b) same
  have places := congrArg (· % b) same
  simp only [block_div less, block_div less', block_mod less, block_mod less'] at blocks places
  exact ⟨blocks, places⟩

theorem exists_block (inside : x < n * b) : ∃ r < n, ∃ i < b, x = r * b + i := by
  have pos : 0 < b := Nat.pos_of_ne_zero fun zero => by simp [zero] at inside
  exact ⟨x / b, Nat.div_lt_of_lt_mul (by rwa [Nat.mul_comm]), x % b, Nat.mod_lt _ pos,
    (Nat.div_add_mod' x b).symm⟩

/-- Numbered blocks number the places in them. -/
theorem bijOn_block {α : Type*} {S : Set α} {f : α → Nat} (blocks : Set.BijOn f S (Set.Iio n))
    (b : Nat) : Set.BijOn (fun x : α × Nat => f x.1 * b + x.2) (S ×ˢ Set.Iio b)
      (Set.Iio (n * b)) := by
  refine ⟨?_, ?_, ?_⟩
  · intro x inside
    exact block_lt (blocks.mapsTo inside.1) inside.2
  · intro x inside y inside' same
    obtain ⟨block, place⟩ := block_inj inside.2 inside'.2 same
    exact Prod.ext (blocks.injOn inside.1 inside'.1 block) place
  · intro k below
    obtain ⟨r, less, i, inside, rfl⟩ := exists_block below
    obtain ⟨a, member, rfl⟩ := blocks.surjOn less
    exact ⟨(a, i), ⟨member, inside⟩, rfl⟩

/-- One loop over all places, and one loop over the blocks. -/
theorem map_range_block {α : Type*} (f : Nat → α) (n b : Nat) : (List.range (n * b)).map f =
    (List.range n).flatMap fun r => (List.range b).map fun i => f (r * b + i) := by
  induction n with
  | zero => simp
  | succ n ih =>
    rw [Nat.succ_mul, List.range_add, List.map_append, ih, List.range_succ, List.flatMap_append,
      List.flatMap_singleton, List.map_map]
    rfl

/-- Rows of one length in a row. -/
theorem getElem?_flatten_block {α : Type*} {rows : List (List α)} {j : Nat}
    (lengths : ∀ row ∈ rows, row.length = b) (less : j < b) :
    rows.flatten[i * b + j]? = rows[i]?.bind (·[j]?) := by
  induction rows generalizing i with
  | nil => simp
  | cons row rows ih =>
    obtain ⟨first, others⟩ := List.forall_mem_cons.1 lengths
    rw [List.flatten_cons]
    cases i with
    | zero =>
      rw [Nat.zero_mul, Nat.zero_add, List.getElem?_append_left (by omega)]
      rfl
    | succ i =>
      rw [List.getElem?_append_right (by rw [first, Nat.succ_mul]; omega), List.getElem?_cons_succ,
        ← ih others, first, Nat.succ_mul]
      congr 1
      omega

end Blocks
