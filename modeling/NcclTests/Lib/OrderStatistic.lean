import Mathlib

/-!
# Order statistics

The `k`-th element of a sorted list, counted from zero, is the least one that `k + 1` elements do
not exceed. It depends on the elements alone, whatever their order was.
-/

namespace OrderStatistic

variable {α : Type*} [LinearOrder α] {l : List α} {k : Nat}

theorem getElem_mono (sorted : l.Pairwise (· ≤ ·)) {i j : Nat} (le : i ≤ j) (hj : j < l.length) :
    l[i] ≤ l[j] := by
  rcases le.eq_or_lt with rfl | less
  · exact le_rfl
  · exact List.pairwise_iff_getElem.1 sorted i j (le.trans_lt hj) hj less

theorem isLeast_first {samples : List α} (sorted : l.Pairwise (· ≤ ·)) (perm : l.Perm samples)
    (pos : 0 < l.length) : IsLeast {v | v ∈ samples} l[0] := by
  refine ⟨perm.subset (List.getElem_mem pos), ?_⟩
  intro v mem
  obtain ⟨i, inside, rfl⟩ := List.mem_iff_getElem.1 (perm.symm.subset mem)
  exact getElem_mono sorted (Nat.zero_le i) inside

theorem isGreatest_last {samples : List α} (sorted : l.Pairwise (· ≤ ·)) (perm : l.Perm samples)
    (inside : k < l.length) (last : k + 1 = l.length) :
    IsGreatest {v | v ∈ samples} l[k] := by
  refine ⟨perm.subset (List.getElem_mem _), ?_⟩
  intro v mem
  obtain ⟨i, inside, rfl⟩ := List.mem_iff_getElem.1 (perm.symm.subset mem)
  exact getElem_mono sorted (by omega) _

/-- That many elements are not above it. -/
theorem succ_le_countP (sorted : l.Pairwise (· ≤ ·)) (hk : k < l.length) :
    k + 1 ≤ l.countP (· ≤ l[k]) := by
  have all : ∀ v ∈ l.take (k + 1), decide (v ≤ l[k]) = true := by
    intro v mem
    obtain ⟨i, hi, rfl⟩ := List.mem_take_iff_getElem.1 mem
    exact decide_eq_true (getElem_mono sorted (by omega) hk)
  have whole : (l.take (k + 1)).countP (fun v => decide (v ≤ l[k])) = (l.take (k + 1)).length :=
    List.countP_eq_length.2 all
  have part : (l.take (k + 1)).countP (fun v => decide (v ≤ l[k])) ≤
      l.countP (fun v => decide (v ≤ l[k])) := (List.take_sublist (k + 1) l).countP_le
  rw [whole, List.length_take] at part
  omega

/-- Fewer are not above anything less. -/
theorem countP_le (sorted : l.Pairwise (· ≤ ·)) (hk : k < l.length) {v : α} (less : v < l[k]) :
    l.countP (· ≤ v) ≤ k := by
  have none_ : ∀ w ∈ l.drop k, ¬decide (w ≤ v) = true := by
    intro w mem
    obtain ⟨i, hi, rfl⟩ := List.mem_drop_iff_getElem.1 mem
    rw [decide_eq_true_iff, not_le]
    exact less.trans_le (getElem_mono sorted (Nat.le_add_right k i) _)
  calc l.countP (· ≤ v) = (l.take k ++ l.drop k).countP (· ≤ v) := by rw [List.take_append_drop]
    _ = (l.take k).countP (· ≤ v) := by
      rw [List.countP_append, List.countP_eq_zero.2 none_, Nat.add_zero]
    _ ≤ (l.take k).length := List.countP_le_length
    _ ≤ k := List.length_take_le _ _

/-- **The `k`-th element is the least one that `k + 1` elements do not exceed.** -/
theorem isLeast_getElem {samples : List α} (sorted : l.Pairwise (· ≤ ·)) (perm : l.Perm samples)
    (hk : k < l.length) :
    IsLeast {v | v ∈ samples ∧ k + 1 ≤ samples.countP (· ≤ v)} l[k] := by
  refine ⟨⟨perm.subset (List.getElem_mem hk), ?_⟩, ?_⟩
  · rw [← perm.countP_eq]
    exact succ_le_countP sorted hk
  · rintro v ⟨-, enough⟩
    by_contra above
    rw [← perm.countP_eq] at enough
    have few := countP_le sorted hk (not_le.1 above)
    omega

end OrderStatistic
