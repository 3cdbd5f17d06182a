import Mathlib

/-!
# Segments of different sizes in a row

Segment `k` has `size k` places and starts behind all segments before it. Every place
below the end of the last one is in exactly one segment.
-/

namespace Segments

open Finset

/-- Where segment `k` starts. -/
def start (size : Nat → Nat) (k : Nat) : Nat := ∑ j ∈ range k, size j

variable {size : Nat → Nat} {j k x y : Nat}

@[simp] theorem start_zero : start size 0 = 0 := sum_range_zero _

theorem start_succ : start size (k + 1) = start size k + size k := sum_range_succ _ _

theorem start_mono (le : j ≤ k) : start size j ≤ start size k :=
  sum_le_sum_of_subset (range_subset_range.2 le)

/-- A segment ends before a later one starts. -/
theorem start_add_le (less : j < k) : start size j + size j ≤ start size k := by
  rw [← start_succ]
  exact start_mono less

theorem start_mul (c : Nat) : start (fun k => size k * c) k = start size k * c :=
  (sum_mul _ _ _).symm

/-- Segments do not overlap. -/
theorem place_inj (inside : x < size j) (inside' : y < size k)
    (same : start size j + x = start size k + y) : j = k ∧ x = y := by
  rcases Nat.lt_trichotomy j k with less | rfl | more
  · have : start size j + size j ≤ start size k := start_add_le less
    omega
  · exact ⟨rfl, by omega⟩
  · have : start size k + size k ≤ start size j := start_add_le more
    omega

/-- Segments cover what they add up to. -/
theorem exists_place {n : Nat} (inside : y < start size n) :
    ∃ k < n, ∃ x < size k, y = start size k + x := by
  induction n with
  | zero => simp at inside
  | succ n ih =>
    rcases Nat.lt_or_ge y (start size n) with before | last
    · obtain ⟨k, less, x, inside, place⟩ := ih before
      exact ⟨k, less.trans (Nat.lt_succ_self n), x, inside, place⟩
    · rw [start_succ] at inside
      exact ⟨n, Nat.lt_succ_self n, y - start size n, by omega, by omega⟩

end Segments
