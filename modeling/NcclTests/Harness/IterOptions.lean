import Mathlib
import NcclTests.Lib.Numeral
import NcclTests.Harness.IterStats

/-!
# Per-iteration timing

The options of `main` that decide which times `computeIterStats` is given, and what `main` makes of
them before `run`. `sampled_iff` says for which command lines there is a sample, with every read of
it inside.
-/

namespace NcclTests.Harness

open BinaryFloat

/-! ## main -/

/-- The options, by their letters `n`, `I`, `K`, `G` and `z`. No other one touches what they set. -/
inductive IterOption
  | iters
  | per_iter_timing
  | per_iter_skip
  | cudagraph
  | blocking
  deriving DecidableEq, Repr

/-- The variables they set, with their defaults. -/
structure IterOptions where
  iters : Int := 20
  per_iter_timing : Int := 0
  per_iter_skip : Int := 0
  cudaGraphLaunches : Int := 0
  blocking_coll : Int := 0
  deriving DecidableEq, Repr

namespace IterOptions

/-- A case of the `switch`. CUDA graphs need the versions that `graphs` stands for. -/
def set (graphs : Bool) (o : IterOptions) (arg : IterOption × List Char) : IterOptions :=
  let value := int32 (Numeral.strtol 0 arg.2).result
  match arg.1 with
  | .iters => { o with iters := value }
  | .per_iter_timing => { o with per_iter_timing := value }
  | .per_iter_skip => { o with per_iter_skip := value }
  | .cudagraph => if graphs then { o with cudaGraphLaunches := value } else o
  | .blocking => { o with blocking_coll := value }

/-- The options of a command line, in its order. -/
def parse (graphs : Bool) (args : List (IterOption × List Char)) : IterOptions :=
  args.foldl (set graphs) {}

/-- What follows the loop over the options; what it prints is left out. -/
def fixUps (o : IterOptions) : IterOptions :=
  let o := if o.per_iter_timing ≠ 0 ∧ o.per_iter_timing ≠ 1 then { o with per_iter_timing := 0 }
    else o
  let o := if o.per_iter_timing ≠ 0 ∧ o.cudaGraphLaunches ≥ 1 then { o with per_iter_timing := 0 }
    else o
  let o := if o.blocking_coll = 3 ∧ o.cudaGraphLaunches ≥ 1 then { o with blocking_coll := 0 }
    else o
  let o := if o.per_iter_skip < 0 ∨ o.per_iter_skip ≥ o.iters then { o with per_iter_skip := 0 }
    else o
  if o.per_iter_skip ≠ 0 ∧ ¬o.per_iter_timing ≠ 0 then { o with per_iter_skip := 0 } else o

/-! ## BenchTime -/

/-- The end of `BenchTime`; `iterTimes` are those of all iterations. -/
def summary (o : IterOptions) (iterTimes : List Value) : Option IterStats := do
  let summaryIters ← checkedInt (o.iters - o.per_iter_skip)
  if 0 ≤ o.per_iter_skip then computeIterStats (iterTimes.drop o.per_iter_skip.toNat) summaryIters
  else none

/-- There is a sample, and no read leaves it. -/
def IsSampled (o : IterOptions) : Prop :=
  o.per_iter_timing = 1 →
    0 ≤ o.per_iter_skip ∧ o.per_iter_skip < o.iters ∧
      ∀ iterTimes : List Value, (iterTimes.length : Int) = o.iters → (o.summary iterTimes).isSome

/-! ## Which options leave a sample -/

/-- How many iterations are left out when timing is on. -/
def skipped (o : IterOptions) : Int :=
  if 0 ≤ o.per_iter_skip ∧ o.per_iter_skip < o.iters then o.per_iter_skip else 0

theorem fixUps_iters (o : IterOptions) : o.fixUps.iters = o.iters := by
  simp only [fixUps]
  split_ifs <;> rfl

theorem fixUps_per_iter_timing (o : IterOptions) :
    o.fixUps.per_iter_timing = 1 ↔ o.per_iter_timing = 1 ∧ o.cudaGraphLaunches < 1 := by
  simp only [fixUps]
  split_ifs <;> simp_all

theorem fixUps_per_iter_skip {o : IterOptions} (timing : o.fixUps.per_iter_timing = 1) :
    o.fixUps.per_iter_skip = o.skipped := by
  obtain ⟨on, graphs⟩ := (fixUps_per_iter_timing o).1 timing
  simp only [fixUps, skipped, on]
  split_ifs <;> simp_all <;> omega

theorem summary_eq_none {o : IterOptions} {iterTimes : List Value}
    (large : 2 ^ 31 ≤ 99 * (o.iters - o.per_iter_skip) + 99) : o.summary iterTimes = none := by
  rw [summary, checkedInt]
  split
  · rw [Option.bind_eq_bind, Option.bind_some, computeIterStats_eq_none (.inr large), ite_self]
  · rfl

/-- With an empty sample, or so large a one that an index overflows, there is no result. -/
theorem isSampled_iff {o : IterOptions} (timing : o.per_iter_timing = 1) :
    o.IsSampled ↔ 0 ≤ o.per_iter_skip ∧ o.per_iter_skip < o.iters ∧
      99 * (o.iters - o.per_iter_skip) + 99 < 2 ^ 31 := by
  constructor
  · intro sampled
    obtain ⟨low, high, each⟩ := sampled timing
    refine ⟨low, high, ?_⟩
    by_contra large
    have length : ((List.replicate o.iters.toNat (Value.finite 0)).length : Int) = o.iters := by
      rw [List.length_replicate, Int.toNat_of_nonneg (by omega)]
    have defined := each _ length
    rw [summary_eq_none (not_lt.1 large)] at defined
    cases defined
  · rintro ⟨low, high, small⟩ -
    refine ⟨low, high, ?_⟩
    intro iterTimes length
    obtain ⟨skip, skip_eq⟩ := Int.eq_ofNat_of_zero_le low
    obtain ⟨n, n_eq⟩ := Int.eq_ofNat_of_zero_le (sub_nonneg.2 high.le)
    have le : n ≤ (iterTimes.drop skip).length := by
      rw [List.length_drop]
      omega
    have nonempty : 1 ≤ (qsort ((iterTimes.drop skip).take n)).length := by
      rw [length_qsort, List.length_take]
      omega
    rw [summary, n_eq, checkedInt_eq_some (by omega) (by omega), Option.bind_eq_bind,
      Option.bind_some, if_pos low, skip_eq, Int.toNat_natCast,
      computeIterStats_eq le (by omega) rfl nonempty]
    rfl

/-- **When the statistics have a sample.** After the fix-ups of `main` the statistics of an
iteration are computed only without CUDA graphs, and then from the iterations that are not skipped.
There is at least one if there is an iteration at all, since a skip of all of them is undone, and
the product in the index of the last percentile must fit an `int`. -/
theorem sampled_iff (graphs : Bool) (args : List (IterOption × List Char)) :
    (parse graphs args).fixUps.IsSampled ↔
      ((parse graphs args).per_iter_timing = 1 → (parse graphs args).cudaGraphLaunches < 1 →
        1 ≤ (parse graphs args).iters ∧
          99 * ((parse graphs args).iters - (parse graphs args).skipped) + 99 < 2 ^ 31) := by
  generalize parse graphs args = o
  by_cases timing : o.fixUps.per_iter_timing = 1
  · obtain ⟨on, launches⟩ := (fixUps_per_iter_timing o).1 timing
    rw [isSampled_iff timing, fixUps_iters, fixUps_per_iter_skip timing]
    rw [skipped]
    split_ifs <;> constructor <;> intro h <;> omega
  · refine iff_of_true (fun on => absurd on timing) ?_
    intro on launches
    exact absurd ((fixUps_per_iter_timing o).2 ⟨on, launches⟩) timing

theorem not_sampled_zero_iterations :
    ¬(parse true [(.iters, "0".toList), (.per_iter_timing, "1".toList)]).fixUps.IsSampled := by
  intro sampled
  obtain ⟨low, high, each⟩ := sampled (by decide)
  exact absurd high (by decide)

end IterOptions

end NcclTests.Harness
