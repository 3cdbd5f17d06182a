import Mathlib
import NcclTests.Gin.Throughput

/-!
# The sizes of the network benchmarks

The loop of `gin_perf_run` as it runs, with its `break`, and what follows for the buffer: sizes
are multiples of `sizeof(int)` between `minbytes` and `maxbytes`, however the steps wrap around,
so every thread of a throughput kernel finds a slot inside what `gin_devComm_create` registers.
-/

namespace NcclTests.Gin

/-! ## gin_devComm_create -/

/-- `ncclDevCommRequirements_t`, with the one resource that is required. -/
structure DevCommRequirements where
  ginContextCount : Int
  ginQueueDepth : Int
  ginSignalCount : Nat
  ginCounterCount : Nat
  ginStrongSignalsRequired : Bool
  ginVaSignalsRequired : Bool
  bufferSize : Nat

def ginDevCommCreate (args : ArgsT) : DevCommRequirements where
  ginContextCount := args.numCtas
  ginQueueDepth := args.queueDepth
  ginSignalCount := 1
  ginCounterCount := 1
  ginStrongSignalsRequired := args.ginStrongSignal
  ginVaSignalsRequired := false
  bufferSize := args.maxbytes

/-! ## The loop -/

/-- The loop from a size on ends, having measured the sizes in the list. -/
inductive SweepRun (args : Args) : Nat → List Nat → Prop
  | done {size : Nat} : ¬ size ≤ args.maxbytes → SweepRun args size []
  | stuck {size : Nat} : size ≤ args.maxbytes → nextSize args size ≤ size →
      SweepRun args size [size]
  | step {size : Nat} {visited : List Nat} : size ≤ args.maxbytes → ¬ nextSize args size ≤ size →
      SweepRun args (nextSize args size) visited → SweepRun args size (size :: visited)

section Loop

variable {args : Args} {size : Nat} {visited : List Nat}

/-- The loop ends: a size that does not grow leaves it. -/
theorem sweepRun_sweep (args : Args) (size : Nat) : SweepRun args size (sweep args size) := by
  induction size using sweep.induct args with
  | case1 size below next ih =>
    rw [sweep, if_pos below]
    by_cases stuck : nextSize args size ≤ size
    · simp only [if_pos stuck]
      exact .stuck below stuck
    · simp only [if_neg stuck]
      exact .step below stuck (ih stuck)
  | case2 size above =>
    rw [sweep, if_neg above]
    exact .done above

/-- Sizes grow, and stay below the limit. -/
theorem SweepRun.sorted (run : SweepRun args size visited) :
    visited.Pairwise (· < ·) ∧ ∀ s ∈ visited, size ≤ s ∧ s ≤ args.maxbytes := by
  induction run with
  | done => exact ⟨List.Pairwise.nil, fun s mem => absurd mem List.not_mem_nil⟩
  | stuck below _ =>
    refine ⟨List.pairwise_singleton _ _, ?_⟩
    intro s mem
    rw [List.mem_singleton.1 mem]
    exact ⟨le_rfl, below⟩
  | step below grows _ ih =>
    obtain ⟨sorted, bounds⟩ := ih
    refine ⟨List.pairwise_cons.2 ⟨fun s mem => ?_, sorted⟩, ?_⟩
    · exact (not_le.1 grows).trans_le (bounds s mem).1
    · intro s mem
      rcases List.mem_cons.1 mem with rfl | later
      · exact ⟨le_rfl, below⟩
      · exact ⟨(not_le.1 grows).le.trans (bounds s later).1, (bounds s later).2⟩

/-- Wrapping around keeps the multiples of a power of two. -/
theorem nextSize_multiple (step : 4 ∣ args.stepbytes) (multiple : 4 ∣ size) :
    4 ∣ nextSize args size := by
  have word : (4 : Nat) ∣ 2 ^ 64 := by norm_num
  unfold nextSize
  split
  · exact (Nat.dvd_mod_iff word).2 (multiple.add step)
  · exact (Nat.dvd_mod_iff word).2 (multiple.mul_right _)

theorem SweepRun.multiple (run : SweepRun args size visited) (step : 4 ∣ args.stepbytes)
    (multiple : 4 ∣ size) : ∀ s ∈ visited, 4 ∣ s := by
  induction run with
  | done => exact fun s mem => absurd mem List.not_mem_nil
  | stuck _ _ =>
    intro s mem
    rwa [List.mem_singleton.1 mem]
  | step _ _ _ ih =>
    intro s mem
    rcases List.mem_cons.1 mem with rfl | later
    · exact multiple
    · exact ih (nextSize_multiple step multiple) s later

end Loop

/-! ## The buffer -/

/-- The elements an operation touches are among the first ones of the buffer. -/
def BwOp.Inside (elems : Nat) : BwOp → Prop
  | put offset numElems _ _ _ => offset + numElems ≤ elems
  | get offset numElems _ => offset + numElems ≤ elems
  | _ => True

/-- A slot and its elements. -/
theorem bufOffset_add_le {maxElems numElems : Nat} (threadIdx : Nat) (pos : 0 < numElems)
    (fits : numElems ≤ maxElems) (small : maxElems < 2 ^ 64) :
    bufOffset maxElems numElems threadIdx = threadIdx % (maxElems / numElems) * numElems ∧
      bufOffset maxElems numElems threadIdx + numElems ≤ maxElems := by
  have slots : 0 < maxElems / numElems := Nat.div_pos fits pos
  have slot := Nat.mod_lt threadIdx slots
  have inside : threadIdx % (maxElems / numElems) * numElems + numElems ≤ maxElems := by
    calc threadIdx % (maxElems / numElems) * numElems + numElems
        = (threadIdx % (maxElems / numElems) + 1) * numElems := by ring
      _ ≤ maxElems / numElems * numElems := Nat.mul_le_mul_right numElems slot
      _ ≤ maxElems := Nat.div_mul_le_self maxElems numElems
  have exact_ : bufOffset maxElems numElems threadIdx =
      threadIdx % (maxElems / numElems) * numElems := Nat.mod_eq_of_lt (by omega)
  exact ⟨exact_, exact_ ▸ inside⟩

theorem bwLoop_inside {skipCreditCheck aggregateRequests early late : Bool} {flushEvery : Int}
    {issue : Bool → BwOp} {elems : Nat} (inside : ∀ b, (issue b).Inside elems)
    (remaining i : Nat) :
    ∀ op ∈ bwLoop skipCreditCheck aggregateRequests early late flushEvery issue remaining i,
      op.Inside elems := by
  induction remaining generalizing i with
  | zero => exact fun op mem => absurd mem List.not_mem_nil
  | succ remaining ih =>
    intro op mem
    rw [bwLoop] at mem
    rcases List.mem_append.1 mem with now | later
    · have known : op = issue true ∨ op = issue false ∨ op = .syncthreads ∨ op = .flush := by
        unfold bwIteration at now
        split_ifs at now <;> simp at now <;> tauto
      rcases known with rfl | rfl | rfl | rfl
      · exact inside true
      · exact inside false
      · trivial
      · trivial
    · exact ih (i + 1) op later

/-- What a put kernel does is inside the buffer where its slot is. -/
theorem BwBench.run_inside (bench : BwBench) (args : ArgsT) (iters : Int)
    {numElems threadIdx elems : Nat}
    (inside : bufOffset (args.maxbytes / 4) numElems threadIdx + numElems ≤ elems) :
    ∀ op ∈ bench.run args iters numElems threadIdx, op.Inside elems := by
  intro op mem
  cases bench with
  | ginPut =>
    rcases List.mem_append.1 mem with loop | last
    · refine bwLoop_inside ?_ _ _ op loop
      exact fun _ => inside
    · rw [List.mem_singleton.1 last]
      trivial
  | ginPutSignal =>
    rcases List.mem_append.1 mem with loop | last
    · refine bwLoop_inside ?_ _ _ op loop
      exact fun _ => inside
    · rw [List.mem_singleton.1 last]
      trivial
  | ginPutCounter =>
    rcases List.mem_append.1 mem with loop | last
    · refine bwLoop_inside ?_ _ _ op loop
      exact fun _ => inside
    · rw [List.mem_cons, List.mem_singleton] at last
      rcases last with rfl | rfl
      · trivial
      · trivial
  | ginGet =>
    rcases List.mem_append.1 mem with loop | last
    · refine bwLoop_inside ?_ _ _ op loop
      exact fun _ => inside
    · rw [List.mem_singleton.1 last]
      trivial
  | ginSignal =>
    rcases List.mem_append.1 mem with loop | last
    · refine bwLoop_inside ?_ _ _ op loop
      exact fun _ => trivial
    · rw [List.mem_singleton.1 last]
      trivial

/-- **The sweep stays inside the buffer.** For all arguments that are accepted (`parsed`), the sweep
ends, and its sizes are increasing positive multiples of `sizeof(int)` between `minbytes` and
`maxbytes`; every thread of a throughput kernel has a slot for each of them, which lies inside the
registered buffer, as does all the kernel puts, gets or signals.

`minbytes`, the step and the factor are checked after they are parsed, so that the loop moves on by
at least one `int`, and `maxbytes` is far enough from `2 ^ 64` for its sums. A slot is the index of
the thread modulo the number of whole slots, of which there is one at least. -/
theorem ginSweep_in_bounds {options : List Opt} {positional : List (List Char)} {args : ArgsT}
    (parsed : parseArgs options positional = .ok args) :
    (∃ visited, SweepRun args.toArgs args.minbytes visited) ∧
    ∀ visited, SweepRun args.toArgs args.minbytes visited →
      visited.Pairwise (· < ·) ∧
      ∀ size ∈ visited, args.minbytes ≤ size ∧ size ≤ args.maxbytes ∧ 0 < size ∧ 4 ∣ size ∧
        1 ≤ args.maxbytes / 4 / (size / 4) ∧
        ∀ threadIdx,
          bufOffset (args.maxbytes / 4) (size / 4) threadIdx =
            threadIdx % (args.maxbytes / 4 / (size / 4)) * (size / 4) ∧
          4 * (bufOffset (args.maxbytes / 4) (size / 4) threadIdx + size / 4) ≤
            (ginDevCommCreate args).bufferSize ∧
          ∀ (bench : BwBench) (iters : Int), ∀ op ∈ bench.run args iters (size / 4) threadIdx,
            op.Inside ((ginDevCommCreate args).bufferSize / 4) := by
  obtain ⟨valid, -⟩ := parseArgs_valid parsed
  refine ⟨⟨_, sweepRun_sweep args.toArgs args.minbytes⟩, ?_⟩
  intro visited run
  obtain ⟨sorted, bounds⟩ := run.sorted
  have multiples := run.multiple valid.stepbytes_multiple valid.minbytes_multiple
  refine ⟨sorted, ?_⟩
  intro size mem
  obtain ⟨low, high⟩ := bounds size mem
  have multiple := multiples size mem
  have pos : 0 < size := valid.minbytes_pos.trans_le low
  have elems_pos : 0 < size / 4 := by omega
  have elems_le : size / 4 ≤ args.maxbytes / 4 := Nat.div_le_div_right high
  have limit := valid.maxbytes_le
  have small : args.maxbytes / 4 < 2 ^ 64 := by
    unfold ginMaxBufferBytes at limit
    omega
  refine ⟨low, high, pos, multiple, Nat.div_pos elems_le elems_pos, ?_⟩
  intro threadIdx
  obtain ⟨exact_, inside⟩ := bufOffset_add_le threadIdx elems_pos elems_le small
  refine ⟨exact_, ?_, ?_⟩
  · calc 4 * (bufOffset (args.maxbytes / 4) (size / 4) threadIdx + size / 4)
        ≤ 4 * (args.maxbytes / 4) := Nat.mul_le_mul_left 4 inside
      _ ≤ args.maxbytes := Nat.mul_div_le _ _
  · intro bench iters
    exact bench.run_inside args iters inside

/-- `-b 4 -e 16` visits three sizes. With two elements there are two slots, of which thread 37 of
a get has the second. -/
theorem ginSweep_in_bounds_three : ∃ args : ArgsT,
    parseArgs [.minbytes "4".toList, .maxbytes "16".toList] [] = .ok args ∧
    SweepRun args.toArgs args.minbytes [4, 8, 16] ∧
    1 ≤ args.maxbytes / 4 / (8 / 4) ∧ bufOffset (args.maxbytes / 4) (8 / 4) 37 = 2 ∧
    4 * (2 + 8 / 4) ≤ (ginDevCommCreate args).bufferSize ∧
    ∀ op ∈ BwBench.ginGet.run args 3 (8 / 4) 37,
      op.Inside ((ginDevCommCreate args).bufferSize / 4) := by
  have parsed : parseArgs [.minbytes "4".toList, .maxbytes "16".toList] [] =
      .ok { ArgsT.defaults with minbytes := 4, maxbytes := 16 } := rfl
  have run : SweepRun { ArgsT.defaults with minbytes := 4, maxbytes := 16 }.toArgs 4 [4, 8, 16] :=
    .step (by decide) (by decide) (.step (by decide) (by decide)
      (.step (by decide) (by decide) (.done (by decide))))
  obtain ⟨-, bounds⟩ := (ginSweep_in_bounds parsed).2 [4, 8, 16] run
  obtain ⟨-, -, -, -, slots, threads⟩ := bounds 8 (by decide)
  obtain ⟨offset, registered, kernels⟩ := threads 37
  refine ⟨_, parsed, run, slots, offset, ?_, kernels .ginGet 3⟩
  rwa [offset] at registered

end NcclTests.Gin
