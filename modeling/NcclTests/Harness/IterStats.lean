import Mathlib
import NcclTests.Lib.MachineInt
import NcclTests.Lib.OrderStatistic
import NcclTests.Harness.Report

/-!
# Statistics of the iterations

`computeIterStats`, which reads order statistics out of a sorted copy of the times. A read outside
an array and an `int` that overflows have no result.
-/

namespace NcclTests.Harness

open BinaryFloat

/-! ## computeIterStats -/

def cmpDouble (da db : Value) : Int :=
  (if Value.lt db da then 1 else 0) - (if Value.lt da db then 1 else 0)

/-- Which way elements that compare equal come out is not specified. -/
def qsort (times : List Value) : List Value := times.mergeSort fun a b => cmpDouble a b ≤ 0

def percentileIndex (n percentile : Int) : Option Int := do
  let last ← checkedInt (n - 1)
  let product ← checkedInt (n * percentile)
  let sum ← checkedInt (product + 99)
  some (min last (sum.tdiv 100 - 1))

/-- `sorted[i]`. -/
def element (sorted : List Value) (i : Int) : Option Value :=
  if 0 ≤ i then sorted[i.toNat]? else none

/-- The loops that follow the percentiles, and `sqrt`. -/
def sampleAvg (sorted : List Value) (n : Int) : Value :=
  Value.div binary64 (sorted.foldl (Value.add binary64) (.finite 0)) (.finite n)

def sampleStdev (sorted : List Value) (n : Int) (avg : Value) : Value :=
  let var := sorted.foldl (fun var time =>
    let d := Value.sub binary64 time avg
    Value.add binary64 var (Value.mul binary64 d d)) (.finite 0)
  Value.sqrt binary64 (Value.div binary64 var (.finite n))

/-- `times` is what can be read from the pointer on. -/
def computeIterStats (times : List Value) (n : Int) : Option IterStats :=
  if 0 ≤ n ∧ n ≤ times.length then do
    let sorted := qsort (times.take n.toNat)
    let min ← element sorted 0
    let max ← element sorted (n - 1)
    let p50 ← element sorted (n.tdiv 2)
    let p95 ← element sorted (← percentileIndex n 95)
    let p99 ← element sorted (← percentileIndex n 99)
    let avg := sampleAvg sorted n
    some { min, max, avg, p50, p95, p99, stdev := sampleStdev sorted n avg }
  else none

/-! ## The indices -/

/-- The rank of a percentile, counted from one. -/
def rank (n percentile : Nat) : Nat := (n * percentile + 99) / 100

theorem rank_eq_ceil (n percentile : Nat) : rank n percentile = ⌈(n * percentile : ℚ) / 100⌉₊ := by
  refine eq_of_forall_ge_iff fun c => ?_
  have cast : (n * percentile : ℚ) ≤ c * 100 ↔ n * percentile ≤ c * 100 := by exact_mod_cast Iff.rfl
  rw [Nat.ceil_le, div_le_iff₀ (by norm_num), cast, rank]
  omega

theorem rank_pos {n percentile : Nat} (pos : 1 ≤ n) (some_ : 1 ≤ percentile) :
    1 ≤ rank n percentile := by
  have product := Nat.mul_le_mul pos some_
  rw [rank]
  omega

theorem rank_le {n percentile : Nat} (part : percentile ≤ 99) : rank n percentile ≤ n := by
  have product := Nat.mul_le_mul_left n part
  rw [rank]
  omega

theorem rank_sub_one_lt {n percentile : Nat} (pos : 1 ≤ n) (part : percentile ≤ 99) :
    rank n percentile - 1 < n := by
  have le := rank_le (n := n) part
  omega

theorem rank_mono {n p q : Nat} (le : p ≤ q) : rank n p ≤ rank n q := by
  have product := Nat.mul_le_mul_left n le
  exact Nat.div_le_div_right (by omega)

theorem half_lt_rank {n : Nat} (pos : 1 ≤ n) : n / 2 < rank n 95 := by
  rw [rank]
  omega

/-- The clamp to the last sample is never reached. -/
theorem percentileIndex_eq {n percentile : Nat} (pos : 1 ≤ n) (some_ : 1 ≤ percentile)
    (part : percentile ≤ 99) (small : 99 * n + 99 < 2 ^ 31) :
    percentileIndex n percentile = some ↑(rank n percentile - 1) := by
  have high : n * percentile ≤ n * 99 := Nat.mul_le_mul_left n part
  have low : 1 ≤ n * percentile := Nat.mul_le_mul pos some_
  have last : checkedInt (n - 1) = some ((n : Int) - 1) := checkedInt_eq_some (by omega) (by omega)
  have product : checkedInt (n * percentile) = some ((n * percentile : Nat) : Int) :=
    checkedInt_eq_some (by omega) (by omega)
  have sum :
      checkedInt ((n * percentile : Nat) + 99) = some (((n * percentile : Nat) : Int) + 99) :=
    checkedInt_eq_some (by omega) (by omega)
  have quotient : (((n * percentile : Nat) : Int) + 99).tdiv 100 = (rank n percentile : Nat) := by
    rw [Int.tdiv_eq_ediv_of_nonneg (by omega), rank]
    omega
  have inside := rank_sub_one_lt pos part
  have least := rank_pos pos some_
  have value : min ((n : Int) - 1) (rank n percentile - 1) = (rank n percentile - 1 : Nat) := by
    omega
  rw [percentileIndex, last, Option.bind_eq_bind, Option.bind_some, product, Option.bind_some,
    sum, Option.bind_some, quotient, value]

theorem percentileIndex_eq_none {n : Int} (large : 2 ^ 31 ≤ 99 * n + 99) :
    percentileIndex n 99 = none := by
  rw [percentileIndex]
  rcases le_or_gt (2 ^ 31) (n * 99) with above | fits
  · rw [checkedInt_eq_none above]
    cases checkedInt (n - 1) <;> rfl
  · have product : checkedInt (n * 99) = some (n * 99) := checkedInt_eq_some (by omega) fits
    have sum : checkedInt (n * 99 + 99) = none := checkedInt_eq_none (by omega)
    simp only [product, sum, Option.bind_eq_bind, Option.bind_some, Option.bind_none]
    cases checkedInt (n - 1) <;> rfl

/-! ## Which samples are reported -/

theorem length_qsort (times : List Value) : (qsort times).length = times.length :=
  List.length_mergeSort _

theorem element_eq {sorted : List Value} {i : Nat} (inside : i < sorted.length) :
    element sorted i = some sorted[i] := by
  rw [element, if_pos (Int.natCast_nonneg i), Int.toNat_natCast, List.getElem?_eq_getElem inside]

/-- The statistics of a sorted sample. -/
def sampleStats (sorted : List Value) (nonempty : 1 ≤ sorted.length) : IterStats :=
  have index95 : rank sorted.length 95 - 1 < sorted.length := rank_sub_one_lt nonempty (by norm_num)
  have index99 : rank sorted.length 99 - 1 < sorted.length := rank_sub_one_lt nonempty (by norm_num)
  let avg := sampleAvg sorted sorted.length
  { min := sorted[0]
    max := sorted[sorted.length - 1]
    avg
    p50 := sorted[sorted.length / 2]
    p95 := sorted[rank sorted.length 95 - 1]
    p99 := sorted[rank sorted.length 99 - 1]
    stdev := sampleStdev sorted sorted.length avg }

theorem computeIterStats_eq {times sorted : List Value} {n : Nat} (le : n ≤ times.length)
    (small : 99 * n + 99 < 2 ^ 31) (qsorted : qsort (times.take n) = sorted)
    (nonempty : 1 ≤ sorted.length) :
    computeIterStats times n = some (sampleStats sorted nonempty) := by
  have length : n = sorted.length := by
    rw [← qsorted, length_qsort, List.length_take, min_eq_left le]
  rw [computeIterStats, if_pos ⟨Int.natCast_nonneg n, Int.ofNat_le.2 le⟩, Int.toNat_natCast,
    qsorted]
  clear qsorted
  subst length
  have last : (sorted.length : Int) - 1 = (sorted.length - 1 : Nat) := by omega
  have half : (sorted.length : Int).tdiv 2 = (sorted.length / 2 : Nat) := by
    rw [Int.tdiv_eq_ediv_of_nonneg (by omega)]
    omega
  have min : element sorted 0 = some sorted[0] := element_eq nonempty
  have max : element sorted (sorted.length - 1 : Nat) = some sorted[sorted.length - 1] :=
    element_eq (by omega)
  have p50 : element sorted (sorted.length / 2 : Nat) = some sorted[sorted.length / 2] :=
    element_eq (by omega)
  have p95 := element_eq (rank_sub_one_lt nonempty (by norm_num : 95 ≤ 99))
  have p99 := element_eq (rank_sub_one_lt nonempty (by norm_num : 99 ≤ 99))
  have index95 : percentileIndex sorted.length 95 = some ↑(rank sorted.length 95 - 1) :=
    percentileIndex_eq nonempty (by norm_num) (by norm_num) small
  have index99 : percentileIndex sorted.length 99 = some ↑(rank sorted.length 99 - 1) :=
    percentileIndex_eq nonempty (by norm_num) (by norm_num) small
  dsimp only
  rw [min, last, max, half, p50, index95, index99]
  simp only [Option.bind_eq_bind, Option.bind_some, p95, p99]
  rfl

/-- There is nothing to read in an empty sample. -/
theorem computeIterStats_eq_none {times : List Value} {n : Int}
    (outside : n < 1 ∨ 2 ^ 31 ≤ 99 * n + 99) : computeIterStats times n = none := by
  rw [computeIterStats]
  split
  · rcases outside with empty | large
    · obtain rfl : n = 0 := by omega
      have nothing : qsort (times.take (Int.toNat 0)) = [] := List.mergeSort_nil
      rw [nothing]
      rfl
    · rw [percentileIndex_eq_none large]
      simp
  · rfl

/-! ## Samples that are numbers -/

theorem cmpDouble_finite (p q : ℚ) : cmpDouble (.finite p) (.finite q) ≤ 0 ↔ p ≤ q := by
  simp only [cmpDouble, Value.lt, decide_eq_true_eq]
  rcases lt_trichotomy p q with less | rfl | greater
  · simp [less, less.le, less.le.not_gt]
  · simp
  · simp [greater, greater.le.not_gt, greater.not_ge]

/-- The samples in increasing order. -/
def sortedSamples (times : List ℚ) : List ℚ := times.mergeSort (· ≤ ·)

theorem qsort_map_finite (times : List ℚ) :
    qsort (times.map .finite) = (sortedSamples times).map .finite := by
  refine (List.map_mergeSort ?_).symm
  intro p _ q _
  exact decide_eq_decide.2 (cmpDouble_finite p q).symm

theorem sortedSamples_perm (times : List ℚ) : (sortedSamples times).Perm times :=
  List.mergeSort_perm times _

theorem pairwise_sortedSamples (times : List ℚ) : (sortedSamples times).Pairwise (· ≤ ·) :=
  List.pairwise_mergeSort' _ times

/-- The order in which the samples come does not matter. -/
theorem sortedSamples_eq_of_perm {times other : List ℚ} (perm : times.Perm other) :
    sortedSamples times = sortedSamples other := by
  refine List.Perm.eq_of_pairwise' (pairwise_sortedSamples times) (pairwise_sortedSamples other) ?_
  exact (sortedSamples_perm times).trans (perm.trans (sortedSamples_perm other).symm)

/-- `v` is the nearest-rank percentile: the least sample that so many samples do not exceed. -/
def IsPercentile (times : List ℚ) (percentile : Nat) (v : ℚ) : Prop :=
  IsLeast {v | v ∈ times ∧ ⌈(times.length * percentile : ℚ) / 100⌉₊ ≤ times.countP (· ≤ v)} v

theorem isPercentile_sortedSamples {times : List ℚ} {percentile : Nat} (nonempty : 1 ≤ times.length)
    (some_ : 1 ≤ percentile)
    (inside : rank times.length percentile - 1 < (sortedSamples times).length) :
    IsPercentile times percentile (sortedSamples times)[rank times.length percentile - 1] := by
  have least := OrderStatistic.isLeast_getElem (pairwise_sortedSamples times)
    (sortedSamples_perm times) inside
  rw [Nat.sub_add_cancel (rank_pos nonempty some_)] at least
  rw [IsPercentile, ← rank_eq_ceil]
  exact least

/-- **The order statistics are true ones.** They depend on the samples alone, not on their order;
each is a sample, they come in order, and the percentiles are the nearest-rank percentiles.

`small` keeps the product with 99 in an `int`. Sorting takes a permutation of the samples to the
same list, and the index `(n * p + 99) / 100 - 1` in it is that of the nearest rank
(`rank_eq_ceil`). -/
theorem computeIterStats_orderStatistics (times : List ℚ) (nonempty : 1 ≤ times.length)
    (small : 99 * times.length + 99 < 2 ^ 31) :
    ∃ s : IterStats,
      (∀ other : List ℚ, other.Perm times →
        computeIterStats (other.map .finite) times.length = some s) ∧
      ∃ min p50 p95 p99 max : ℚ,
        (s.min = .finite min ∧ s.p50 = .finite p50 ∧ s.p95 = .finite p95 ∧ s.p99 = .finite p99 ∧
          s.max = .finite max) ∧
        (min ≤ p50 ∧ p50 ≤ p95 ∧ p95 ≤ p99 ∧ p99 ≤ max) ∧
        (IsLeast {v | v ∈ times} min ∧ IsGreatest {v | v ∈ times} max) ∧
        (p50 ∈ times ∧ p95 ∈ times ∧ p99 ∈ times) ∧
        IsPercentile times 95 p95 ∧ IsPercentile times 99 p99 := by
  have length : (sortedSamples times).length = times.length := (sortedSamples_perm times).length_eq
  have sorted := pairwise_sortedSamples times
  have index95 : rank times.length 95 - 1 < (sortedSamples times).length :=
    (rank_sub_one_lt nonempty (by norm_num)).trans_eq length.symm
  have index99 : rank times.length 99 - 1 < (sortedSamples times).length :=
    (rank_sub_one_lt nonempty (by norm_num)).trans_eq length.symm
  have half := half_lt_rank nonempty
  have ranks : rank times.length 95 ≤ rank times.length 99 := rank_mono (by norm_num)
  have mem {i : Nat} (inside : i < (sortedSamples times).length) :
      (sortedSamples times)[i] ∈ times :=
    (sortedSamples_perm times).subset (List.getElem_mem inside)
  have first : 0 < (sortedSamples times).length := by omega
  have last : times.length - 1 < (sortedSamples times).length := by omega
  have middle : times.length / 2 < (sortedSamples times).length := by omega
  refine ⟨sampleStats ((sortedSamples times).map .finite) (by rwa [List.length_map]), ?_,
    (sortedSamples times)[0], (sortedSamples times)[times.length / 2],
    (sortedSamples times)[rank times.length 95 - 1],
    (sortedSamples times)[rank times.length 99 - 1],
    (sortedSamples times)[times.length - 1], ?_, ?_, ⟨?_, ?_⟩,
    ⟨mem middle, mem index95, mem index99⟩, isPercentile_sortedSamples nonempty (by norm_num) _,
    isPercentile_sortedSamples nonempty (by norm_num) _⟩
  · intro other perm
    have whole : (other.map Value.finite).take times.length = other.map .finite :=
      List.take_of_length_le (by rw [List.length_map, perm.length_eq])
    apply computeIterStats_eq (by rw [List.length_map, perm.length_eq]) small
    rw [whole, qsort_map_finite, sortedSamples_eq_of_perm perm]
  · simp [sampleStats, length]
  · refine ⟨?_, ?_, ?_, ?_⟩ <;> apply OrderStatistic.getElem_mono sorted <;> omega
  · exact OrderStatistic.isLeast_first sorted (sortedSamples_perm times) first
  · exact OrderStatistic.isGreatest_last sorted (sortedSamples_perm times) last (by omega)

/-- Three samples, two of them equal. -/
theorem computeIterStats_orderStatistics_three :
    ∃ s : IterStats,
      (∀ other : List ℚ, other.Perm [3, 1, 3] →
        computeIterStats (other.map .finite) ([3, 1, 3] : List ℚ).length = some s) ∧
      ∃ min p50 p95 p99 max : ℚ,
        (s.min = .finite min ∧ s.p50 = .finite p50 ∧ s.p95 = .finite p95 ∧ s.p99 = .finite p99 ∧
          s.max = .finite max) ∧
        (min ≤ p50 ∧ p50 ≤ p95 ∧ p95 ≤ p99 ∧ p99 ≤ max) ∧
        (IsLeast {v | v ∈ ([3, 1, 3] : List ℚ)} min ∧
          IsGreatest {v | v ∈ ([3, 1, 3] : List ℚ)} max) ∧
        (p50 ∈ ([3, 1, 3] : List ℚ) ∧ p95 ∈ ([3, 1, 3] : List ℚ) ∧ p99 ∈ ([3, 1, 3] : List ℚ)) ∧
        IsPercentile [3, 1, 3] 95 p95 ∧ IsPercentile [3, 1, 3] 99 p99 :=
  computeIterStats_orderStatistics [3, 1, 3] (by decide) (by decide)

end NcclTests.Harness
