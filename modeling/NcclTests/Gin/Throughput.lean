import Mathlib
import NcclTests.Lib.MachineInt
import NcclTests.Lib.SendQueue
import NcclTests.Gin.Options

/-!
# Throughput kernels

The kernels that put, get and signal as fast as they can, as the operations of each thread of a CTA.
Every CTA has its own queue and runs the same program, so one of them is enough.

With the credit check skipped nothing but the cadence of the flushes keeps the queue from
overrunning. A flush follows iteration 0 and then every `flushEvery`-th, a quotient that is
clamped at one: a CTA whose one iteration does not fit overruns the queue nevertheless
(`respectsQueue_iff`).
-/

namespace NcclTests.Gin

open SendQueue

/-! ## The kernels -/

/-- What a thread does; a put or a get covers `numElems` elements of both buffers from `offset`
on. -/
inductive BwOp
  | put (offset numElems : Nat) (signal : Option SignalInc) (counter aggregate : Bool)
  | get (offset numElems : Nat) (aggregate : Bool)
  | signal (inc : SignalInc) (aggregate : Bool)
  | syncthreads
  | flush
  | resetCounter
  deriving DecidableEq, Repr

/-- `blockDim.x * wqesPerOp`, as an `int`. -/
def wqesPerIter (blockDim wqesPerOp : Nat) : Int := int32 (uint32 (blockDim * wqesPerOp))

/-- `(queueDepth / 2) / wqesPerIter < 1 ? 1 : (queueDepth / 2) / wqesPerIter`. -/
def bwFlushEvery (queueDepth wqesPerIter : Int) : Int :=
  if Int.tdiv (Int.tdiv queueDepth 2) wqesPerIter < 1 then 1
  else Int.tdiv (Int.tdiv queueDepth 2) wqesPerIter

/-- `(threadIdx.x % slots) * numElems`, in `size_t`. -/
def bufOffset (maxElems numElems threadIdx : Nat) : Nat :=
  threadIdx % (maxElems / numElems) * numElems % 2 ^ 64

/-- `(int)(blockDim.x - 1)`. -/
def lastActive (blockDim : Nat) : Int := int32 (uint32 (blockDim + (2 ^ 32 - 1)))

section Loop

variable (skipCreditCheck aggregateRequests early late : Bool) (flushEvery : Int)
  (issue : Bool → BwOp)

/-- One iteration; of the aggregated requests `early` ones come before the barrier and `late`
ones after it. -/
def bwIteration (i : Nat) : List BwOp :=
  (if aggregateRequests then
    (if early then [issue true] else []) ++ .syncthreads :: (if late then [issue false] else [])
  else [issue false]) ++
  if skipCreditCheck then (if Int.tmod i flushEvery = 0 then [.flush] else []) else [.syncthreads]

/-- The iterations from `i` on, so many of them. -/
def bwLoop : (remaining i : Nat) → List BwOp
  | 0, _ => []
  | remaining + 1, i =>
    bwIteration skipCreditCheck aggregateRequests early late flushEvery issue i ++
      bwLoop remaining (i + 1)

end Loop

section Kernels

variable (skipCreditCheck aggregateRequests : Bool) (queueDepth : Int) (blockDim : Nat)

/-- The loop of the put and get kernels, which compare `threadIdx.x` with `lastActive` as
`unsigned`. -/
def putBwLoop (wqesPerOp : Nat) (issue : Bool → BwOp) (iters : Int) (threadIdx : Nat) :
    List BwOp :=
  bwLoop skipCreditCheck aggregateRequests (threadIdx ≠ lastActive blockDim % 2 ^ 32)
    (threadIdx = lastActive blockDim % 2 ^ 32)
    (bwFlushEvery queueDepth (wqesPerIter blockDim wqesPerOp)) issue iters.toNat 0

def ginPutBwKernel (maxElems : Nat) (iters : Int) (numElems threadIdx : Nat) : List BwOp :=
  putBwLoop skipCreditCheck aggregateRequests queueDepth blockDim 1
    (.put (bufOffset maxElems numElems threadIdx) numElems none false) iters threadIdx ++ [.flush]

def ginPutSignalBwKernel (strongSignal : Bool) (maxElems : Nat) (iters : Int)
    (numElems threadIdx : Nat) : List BwOp :=
  putBwLoop skipCreditCheck aggregateRequests queueDepth blockDim 2
    (.put (bufOffset maxElems numElems threadIdx) numElems
      (some (if strongSignal then .strong else .weak)) false) iters threadIdx ++ [.flush]

def ginPutCounterBwKernel (maxElems : Nat) (iters : Int) (numElems threadIdx : Nat) :
    List BwOp :=
  putBwLoop skipCreditCheck aggregateRequests queueDepth blockDim 2
    (.put (bufOffset maxElems numElems threadIdx) numElems none true) iters threadIdx ++
    [.flush, .resetCounter]

def ginGetBwKernel (maxElems : Nat) (iters : Int) (numElems threadIdx : Nat) : List BwOp :=
  putBwLoop skipCreditCheck aggregateRequests queueDepth blockDim 1
    (.get (bufOffset maxElems numElems threadIdx) numElems) iters threadIdx ++ [.flush]

/-- Here the comparisons are with `blockDim.x - 1`. -/
def ginSignalBwKernel (strongSignal : Bool) (iters : Int) (threadIdx : Nat) : List BwOp :=
  bwLoop skipCreditCheck aggregateRequests (threadIdx < uint32 (blockDim + (2 ^ 32 - 1)))
    (threadIdx = uint32 (blockDim + (2 ^ 32 - 1)))
    (bwFlushEvery queueDepth (wqesPerIter blockDim 1))
    (.signal (if strongSignal then .strong else .weak)) iters.toNat 0 ++ [.flush]

end Kernels

/-! ## The binaries -/

inductive BwBench
  | ginPut | ginPutSignal | ginPutCounter | ginGet | ginSignal
  deriving DecidableEq, Repr

/-- The entries an operation takes, as the kernels count them. -/
def BwBench.wqesPerOp : BwBench → Nat
  | ginPut => 1
  | ginPutSignal => 2
  | ginPutCounter => 2
  | ginGet => 1
  | ginSignal => 1

/-- The launch functions: the instance of the kernel that the flags name. -/
def BwBench.run (args : ArgsT) (iters : Int) (numElems threadIdx : Nat) : BwBench → List BwOp
  | ginPut => ginPutBwKernel args.ginSkipCreditCheck args.ginAggregateRequests args.queueDepth
      args.numThreads.toNat (args.maxbytes / 4) iters numElems threadIdx
  | ginPutSignal => ginPutSignalBwKernel args.ginSkipCreditCheck args.ginAggregateRequests
      args.queueDepth args.numThreads.toNat args.ginStrongSignal (args.maxbytes / 4) iters
      numElems threadIdx
  | ginPutCounter => ginPutCounterBwKernel args.ginSkipCreditCheck args.ginAggregateRequests
      args.queueDepth args.numThreads.toNat (args.maxbytes / 4) iters numElems threadIdx
  | ginGet => ginGetBwKernel args.ginSkipCreditCheck args.ginAggregateRequests args.queueDepth
      args.numThreads.toNat (args.maxbytes / 4) iters numElems threadIdx
  | ginSignal => ginSignalBwKernel args.ginSkipCreditCheck args.ginAggregateRequests
      args.queueDepth args.numThreads.toNat args.ginStrongSignal iters threadIdx

inductive BwBinary
  | ginPutBW | ginGetBW | ginSignalBW
  deriving DecidableEq, Repr

def BwBinary.caps : BwBinary → GinTestCaps
  | ginPutBW =>
    { defaultRsm := .gpu, allowThreadRsm := false
      opMask := ginOpBit .put ||| ginOpBit .putSignal ||| ginOpBit .putCounter
      defaultOp := .put, isSignalOp := false, allowAggregateRequests := true
      allowBidirectional := true, allowMultiCtaThreads := true }
  | ginGetBW =>
    { defaultRsm := .gpu, allowThreadRsm := false, opMask := 0, defaultOp := .unset
      isSignalOp := false, allowAggregateRequests := true, allowBidirectional := true
      allowMultiCtaThreads := true }
  | ginSignalBW =>
    { defaultRsm := .gpu, allowThreadRsm := false, opMask := 0, defaultOp := .unset
      isSignalOp := true, allowAggregateRequests := true, allowBidirectional := true
      allowMultiCtaThreads := true }

def BwBinary.bench (op : GinTestOp) : BwBinary → BwBench
  | ginPutBW =>
    match op with
    | .putSignal => .ginPutSignal
    | .putCounter => .ginPutCounter
    | _ => .ginPut
  | ginGetBW => .ginGet
  | ginSignalBW => .ginSignal

/-- `main`, up to `gin_perf_run`. -/
def BwBinary.main (binary : BwBinary) (options : List Opt) (positional : List (List Char)) :
    Except ArgsError (ArgsT × BwBench) := do
  let args ← parseArgs options positional
  let args ← configureTestArgs args binary.caps
  return (args, binary.bench args.ginOp)

/-! ## The queue -/

/-- What an operation means to the queue. -/
def BwOp.toQueue (wqesPerOp : Nat) : BwOp → Instr
  | put _ _ _ _ _ => .post wqesPerOp
  | get _ _ _ => .post wqesPerOp
  | signal _ _ => .post wqesPerOp
  | syncthreads => .sync
  | flush => .flush
  | resetCounter => .pass

@[simp] theorem BwOp.toQueue_syncthreads (w : Nat) : syncthreads.toQueue w = .sync := rfl

@[simp] theorem BwOp.toQueue_flush (w : Nat) : flush.toQueue w = .flush := rfl

/-- The threads of a CTA at the queue. -/
def BwBench.queueProgram (bench : BwBench) (args : ArgsT) (iters : Int) (numElems : Nat)
    (thread : Fin args.numThreads.toNat) : List Instr :=
  (bench.run args iters numElems thread).map (BwOp.toQueue bench.wqesPerOp)

/-- No launch of the harness, warm-up or benchmark of any size, ever has more entries in the
queue of a CTA than it is deep. A launch with more threads than a block may have fails. -/
def RespectsQueue (maxThreadsPerBlock : Int) (args : ArgsT) (bench : BwBench) : Prop :=
  ∀ numElems iters, .launch numElems iters ∈ (ginPerfRun args.toArgs).ops →
    args.numThreads ≤ maxThreadsPerBlock →
    ∀ s, Reaches (bench.queueProgram args iters numElems) s → s.posted ≤ args.queueDepth

/-! ## The cadence -/

/-- The iterations from one on up to the next flush. -/
def untilFlush (F i : Nat) : Nat := if i % F = 0 then 1 else 1 + (F - i % F)

theorem untilFlush_succ {F i : Nat} (pos : 0 < F) (inside : i % F ≠ 0) :
    1 + untilFlush F (i + 1) ≤ untilFlush F i := by
  have less := Nat.mod_lt i pos
  have next : (i + 1) % F = if i % F + 1 = F then 0 else i % F + 1 := by
    rw [Nat.add_mod_eq_ite]
    by_cases one : F = 1
    · subst one
      omega
    · rw [Nat.mod_eq_of_lt (by omega : 1 < F)]
      split_ifs <;> omega
  unfold untilFlush
  rw [if_neg inside, next]
  split_ifs <;> omega

/-- After a flush the next is at most `F` iterations away. -/
theorem untilFlush_le {F i : Nat} (pos : 0 < F) (flushed : i % F = 0) :
    untilFlush F (i + 1) ≤ F := by
  have next : (i + 1) % F = 1 % F := by rw [Nat.add_mod, flushed, Nat.zero_add, Nat.mod_mod]
  unfold untilFlush
  rw [next]
  by_cases one : F = 1
  · subst one
    exact le_rfl
  · rw [Nat.mod_eq_of_lt (by omega)]
    split_ifs <;> omega

section Cadence

variable {aggregateRequests early late : Bool} {issue : Bool → BwOp} {w F : Nat}

/-- What an iteration posts, and whether it flushes. -/
theorem iteration_due (posts : ∀ b, (issue b).toQueue w = .post w) (flags : early = !late)
    (i : Nat) (rest : List Instr) :
    due ((bwIteration true aggregateRequests early late F issue i).map (BwOp.toQueue w) ++ rest) =
      w + if i % F = 0 then 0 else due rest := by
  have cadence : Int.tmod i F = 0 ↔ i % F = 0 := by
    rw [← Int.ofNat_tmod]
    exact Int.natCast_eq_zero
  subst flags
  by_cases flushed : i % F = 0
  · have now := cadence.2 flushed
    cases aggregateRequests <;> cases late <;>
      simp [bwIteration, posts, due, flushed, now]
  · have later : ¬ Int.tmod i F = 0 := fun now => flushed (cadence.1 now)
    cases aggregateRequests <;> cases late <;>
      simp [bwIteration, posts, due, flushed, later]

theorem iteration_paced (posts : ∀ b, (issue b).toQueue w = .post w) (i bound : Nat)
    (rest : List Instr) :
    Paced bound
        ((bwIteration true aggregateRequests early late F issue i).map (BwOp.toQueue w) ++ rest) ↔
      (i % F = 0 → due rest ≤ bound) ∧ Paced bound rest := by
  have cadence : Int.tmod i F = 0 ↔ i % F = 0 := by
    rw [← Int.ofNat_tmod]
    exact Int.natCast_eq_zero
  by_cases flushed : i % F = 0
  · have now := cadence.2 flushed
    cases aggregateRequests <;> cases early <;> cases late <;>
      simp [bwIteration, posts, Paced, flushed, now]
  · have later : ¬ Int.tmod i F = 0 := fun now => flushed (cadence.1 now)
    cases aggregateRequests <;> cases early <;> cases late <;>
      simp [bwIteration, posts, Paced, flushed, later]

variable {tail : List Instr}

theorem loop_due (posts : ∀ b, (issue b).toQueue w = .post w) (flags : early = !late)
    (pos : 0 < F) (remaining i : Nat) :
    due ((bwLoop true aggregateRequests early late F issue remaining i).map (BwOp.toQueue w) ++
      .flush :: tail) ≤ w * untilFlush F i := by
  induction remaining generalizing i with
  | zero => exact Nat.zero_le _
  | succ remaining ih =>
    rw [bwLoop, List.map_append, List.append_assoc, iteration_due posts flags]
    split
    · next flushed =>
      rw [untilFlush, if_pos flushed, Nat.mul_one]
      exact le_rfl
    · next inside =>
      calc w + due _ ≤ w + w * untilFlush F (i + 1) := Nat.add_le_add_left (ih (i + 1)) w
        _ = w * (1 + untilFlush F (i + 1)) := by ring
        _ ≤ w * untilFlush F i := Nat.mul_le_mul_left w (untilFlush_succ pos inside)

theorem loop_paced (posts : ∀ b, (issue b).toQueue w = .post w) (flags : early = !late)
    (pos : 0 < F) (quiet : due tail = 0) (paced : Paced (w * F) tail) (remaining i : Nat) :
    Paced (w * F) ((bwLoop true aggregateRequests early late F issue remaining i).map
      (BwOp.toQueue w) ++ .flush :: tail) := by
  induction remaining generalizing i with
  | zero => exact ⟨quiet.trans_le (Nat.zero_le _), paced⟩
  | succ remaining ih =>
    rw [bwLoop, List.map_append, List.append_assoc, iteration_paced posts]
    refine ⟨fun flushed => ?_, ih (i + 1)⟩
    exact (loop_due posts flags pos remaining (i + 1)).trans
      (Nat.mul_le_mul_left w (untilFlush_le pos flushed))

end Cadence

/-- Where one iteration fits the queue, those between two flushes do. -/
theorem bwFlushEvery_mul_le {queueDepth : Int} {load : Nat} (pos : 0 < load)
    (fits : (load : Int) ≤ queueDepth) :
    ∃ F : Nat, 0 < F ∧ bwFlushEvery queueDepth load = F ∧ (F * load : Int) ≤ queueDepth := by
  have half : Int.tdiv queueDepth 2 = queueDepth / 2 :=
    Int.tdiv_eq_ediv_of_nonneg (by omega)
  have quotient : Int.tdiv (queueDepth / 2) load = queueDepth / 2 / load :=
    Int.tdiv_eq_ediv_of_nonneg (by omega)
  unfold bwFlushEvery
  rw [half, quotient]
  split
  · exact ⟨1, Nat.one_pos, rfl, by simpa using fits⟩
  · next several =>
    obtain ⟨F, whole⟩ := Int.eq_ofNat_of_zero_le (by omega : 0 ≤ queueDepth / 2 / load)
    have product : queueDepth / 2 / load * load ≤ queueDepth / 2 :=
      Int.ediv_mul_le _ (by omega)
    rw [whole] at several product ⊢
    exact ⟨F, by omega, rfl, by omega⟩

/-! ## All kernels at once -/

/-- Every kernel is the loop, with operations that take `wqesPerOp` entries, and a flush. -/
theorem BwBench.run_eq (bench : BwBench) (args : ArgsT) (fits : args.numThreads < 2 ^ 31)
    (iters : Int) (numElems : Nat) (thread : Fin args.numThreads.toNat) :
    ∃ early late issue tail, early = !late ∧
      (∀ b, BwOp.toQueue bench.wqesPerOp (issue b) = .post bench.wqesPerOp) ∧
      due (tail.map (BwOp.toQueue bench.wqesPerOp)) = 0 ∧
      (∀ bound, Paced bound (tail.map (BwOp.toQueue bench.wqesPerOp))) ∧
      bench.run args iters numElems thread =
        bwLoop args.ginSkipCreditCheck args.ginAggregateRequests early late
          (bwFlushEvery args.queueDepth (wqesPerIter args.numThreads.toNat bench.wqesPerOp))
          issue iters.toNat 0 ++ .flush :: tail := by
  have last : uint32 (args.numThreads.toNat + (2 ^ 32 - 1)) = args.numThreads.toNat - 1 := by
    have less := thread.isLt
    rw [uint32]
    omega
  cases bench with
  | ginPut =>
    exact ⟨_, _, _, [], by rw [decide_not], fun _ => rfl, rfl, fun _ => trivial, rfl⟩
  | ginPutSignal =>
    exact ⟨_, _, _, [], by rw [decide_not], fun _ => rfl, rfl, fun _ => trivial, rfl⟩
  | ginPutCounter =>
    refine ⟨_, _, _, [.resetCounter], ?_, ?_, rfl, fun _ => trivial, rfl⟩
    · rw [decide_not]
    · exact fun _ => rfl
  | ginGet =>
    exact ⟨_, _, _, [], by rw [decide_not], fun _ => rfl, rfl, fun _ => trivial, rfl⟩
  | ginSignal =>
    refine ⟨_, _, _, [], ?_, fun _ => rfl, rfl, fun _ => trivial, rfl⟩
    have less := thread.isLt
    rw [last, ← decide_not]
    apply decide_eq_decide.2
    omega

section Bench

variable {bench : BwBench} {args : ArgsT} {iters : Int} {numElems : Nat}

theorem BwBench.wqesPerOp_pos (bench : BwBench) : 0 < bench.wqesPerOp := by
  cases bench with
  | ginPut => exact Nat.one_pos
  | ginPutSignal => exact Nat.two_pos
  | ginPutCounter => exact Nat.two_pos
  | ginGet => exact Nat.one_pos
  | ginSignal => exact Nat.one_pos

/-- Where one iteration of all threads fits the queue, the queue is respected. -/
theorem posted_le (valid : args.Valid) (range : args.InRange)
    (skip : args.ginSkipCreditCheck = true)
    (fits : args.numThreads * bench.wqesPerOp ≤ args.queueDepth)
    {s : SendQueue.State (Fin args.numThreads.toNat)}
    (reaches : Reaches (bench.queueProgram args iters numElems) s) :
    (s.posted : Int) ≤ args.queueDepth := by
  obtain ⟨n, threads⟩ := Int.eq_ofNat_of_zero_le valid.numThreads_pos.le
  have n_pos : 0 < n := by
    have := valid.numThreads_pos
    omega
  have n_eq : args.numThreads.toNat = n := by omega
  set w := bench.wqesPerOp with w_
  have load_pos : 0 < n * w := Nat.mul_pos n_pos bench.wqesPerOp_pos
  have load_fits : ((n * w : Nat) : Int) ≤ args.queueDepth := by
    rw [threads] at fits
    exact_mod_cast fits
  have small : n * w < 2 ^ 31 := by
    have := range.queueDepth
    omega
  have load : wqesPerIter n w = (n * w : Nat) := by
    rw [wqesPerIter, uint32_of_lt (by omega), int32_of_lt small]
  obtain ⟨F, F_pos, cadence, F_fits⟩ := bwFlushEvery_mul_le load_pos load_fits
  have thread_paced (t : Fin args.numThreads.toNat) :
      due (bench.queueProgram args iters numElems t) ≤ w * F ∧
        Paced (w * F) (bench.queueProgram args iters numElems t) := by
    obtain ⟨early, late, issue, tail, flags, posts, quiet, paced, program⟩ :=
      bench.run_eq args range.numThreads iters numElems t
    rw [BwBench.queueProgram, program, skip, n_eq, load, cadence, List.map_append]
    refine ⟨?_, loop_paced posts flags F_pos quiet (paced _) _ _⟩
    refine (loop_due posts flags F_pos _ _).trans (Nat.mul_le_mul_left w ?_)
    rw [untilFlush, if_pos (Nat.zero_mod F)]
    exact F_pos
  have total := reaches.posted_le (fun _ => w * F) (fun t => (thread_paced t).1)
    fun t => (thread_paced t).2
  have count : ∑ _ : Fin args.numThreads.toNat, w * F = n * (w * F) := by
    rw [Finset.sum_const, Finset.card_univ, Fintype.card_fin, smul_eq_mul, n_eq]
  calc (s.posted : Int) ≤ (n * (w * F) : Nat) := by exact_mod_cast total.trans_eq count
    _ = F * (n * w : Nat) := by
      push_cast
      ring
    _ ≤ args.queueDepth := F_fits

/-- All threads of one iteration can be in the queue at once. -/
theorem exists_full (bench : BwBench) (numElems : Nat) (range : args.InRange)
    (some_iters : 0 < iters) :
    ∃ s, Reaches (bench.queueProgram args iters numElems) s ∧
      s.posted = args.numThreads.toNat * bench.wqesPerOp := by
  obtain ⟨k, turns⟩ : ∃ k, iters.toNat = k + 1 := ⟨iters.toNat - 1, by omega⟩
  choose early late issue tail flags posts _ _ program using
    bench.run_eq args range.numThreads iters numElems
  set w := bench.wqesPerOp with w_
  set F := bwFlushEvery args.queueDepth (wqesPerIter args.numThreads.toNat w) with F_
  -- what comes after the entries of iteration 0
  let later (t : Fin args.numThreads.toNat) : List Instr :=
    ((if args.ginSkipCreditCheck then (if Int.tmod (0 : Nat) F = 0 then [BwOp.flush] else [])
      else [BwOp.syncthreads]) ++
      (bwLoop args.ginSkipCreditCheck args.ginAggregateRequests (early t) (late t) F (issue t) k
        (0 + 1) ++ .flush :: tail t)).map (BwOp.toQueue w)
  by_cases aggregate : args.ginAggregateRequests = true
  · let before (t : Fin args.numThreads.toNat) : List Nat := if early t then [w] else []
    let after (t : Fin args.numThreads.toNat) : List Nat := if late t then [w] else []
    have shape : bench.queueProgram args iters numElems = fun t =>
        (before t).map .post ++ .sync :: ((after t).map .post ++ later t) := by
      funext t
      rw [BwBench.queueProgram, program, turns, bwLoop, bwIteration, if_pos aggregate, ← w_]
      simp only [before, after, later, List.map_append, List.append_assoc, List.cons_append,
        List.map_cons, BwOp.toQueue_syncthreads]
      cases early t <;> cases late t <;>
        simp only [posts, Bool.false_eq_true, if_true, if_false, List.map_cons, List.map_nil]
    have first := posts_all before (fun t => .sync :: ((after t).map .post ++ later t)) 0
    have meet : SendQueue.Step
        ⟨fun t => .sync :: ((after t).map .post ++ later t), 0 + ∑ t, (before t).sum⟩
        ⟨fun t => (after t).map .post ++ later t, 0 + ∑ t, (before t).sum⟩ :=
      .sync fun t => rfl
    have second := posts_all after later (0 + ∑ t, (before t).sum)
    refine ⟨⟨later, 0 + ∑ t, (before t).sum + ∑ t, (after t).sum⟩, ?_, ?_⟩
    · rw [Reaches, shape]
      exact first.trans (.head meet second)
    · have each (t : Fin args.numThreads.toNat) : (before t).sum + (after t).sum = w := by
        simp only [before, after, flags t]
        cases late t <;> simp
      dsimp only
      rw [Nat.zero_add, ← Finset.sum_add_distrib, Finset.sum_congr rfl fun t _ => each t,
        Finset.sum_const, Finset.card_univ, Fintype.card_fin, smul_eq_mul]
  · have shape : bench.queueProgram args iters numElems = fun t =>
        [w].map .post ++ later t := by
      funext t
      rw [BwBench.queueProgram, program, turns, bwLoop, bwIteration, if_neg aggregate, ← w_]
      simp only [later, List.map_append, List.append_assoc, List.map_cons, List.map_nil, posts]
    refine ⟨⟨later, 0 + ∑ _ : Fin args.numThreads.toNat, [w].sum⟩, ?_, ?_⟩
    · rw [Reaches, shape]
      exact posts_all (fun _ => [w]) later 0
    · dsimp only
      rw [Nat.zero_add, List.sum_singleton, Finset.sum_const, Finset.card_univ, Fintype.card_fin,
        smul_eq_mul]

end Bench

theorem BwBinary.main_valid {binary : BwBinary} {options : List Opt}
    {positional : List (List Char)} {args : ArgsT} {bench : BwBench}
    (accepted : binary.main options positional = .ok (args, bench)) :
    args.Valid ∧ args.InRange := by
  obtain ⟨parsed, parse, rest⟩ := bind_eq_ok accepted
  obtain ⟨configured, configure, done⟩ := bind_eq_ok rest
  cases done
  obtain ⟨valid, range⟩ := parseArgs_valid parse
  exact configureTestArgs_valid configure valid range

/-- The harness measures the first size. -/
theorem mem_ginPerfRun {args : ArgsT} (valid : args.Valid) :
    .launch (args.minbytes / 4) args.iters ∈ (ginPerfRun args.toArgs).ops := by
  have first : args.minbytes ∈ sweep args.toArgs args.minbytes := by
    rw [sweep, if_pos valid.minbytes_le]
    exact List.mem_cons_self
  have measured : .launch (args.minbytes / 4) args.iters ∈ sizeOps args.toArgs args.minbytes := by
    rw [sizeOps]
    simp
  exact List.mem_append_left _ (List.mem_flatMap.2 ⟨_, first, measured⟩)

/-- **When the queue is respected.** For a command line that is accepted and skips the credit
check, no interleaving of the threads ever has more work requests posted than the queue is deep,
for any size and any launch, exactly where one operation of each thread fits it, or the launch has
more threads than the device allows and does not run at all.

The threads flush after as many operations as fit the queue, but never after less than one. Before
a flush each of them has at most that many requests outstanding, and where one each is too many,
a run that lets every thread post its first operation exceeds the queue. -/
theorem respectsQueue_iff {binary : BwBinary} {options : List Opt}
    {positional : List (List Char)} {args : ArgsT} {bench : BwBench}
    (accepted : binary.main options positional = .ok (args, bench))
    (skip : args.ginSkipCreditCheck = true) (maxThreadsPerBlock : Int) :
    RespectsQueue maxThreadsPerBlock args bench ↔
      (args.numThreads ≤ maxThreadsPerBlock →
        args.numThreads * bench.wqesPerOp ≤ args.queueDepth) := by
  obtain ⟨valid, range⟩ := BwBinary.main_valid accepted
  constructor
  · intro respects launched
    obtain ⟨s, reaches, full⟩ :=
      exists_full bench (args.minbytes / 4) range valid.iters_pos
    have bounded := respects _ _ (mem_ginPerfRun valid) launched s reaches
    have threads := Int.toNat_of_nonneg valid.numThreads_pos.le
    rw [full] at bounded
    push_cast at bounded
    rwa [threads] at bounded
  · intro fits numElems iters _ launched s reaches
    exact posted_le valid range skip (fits launched) reaches

/-- The put benchmark with one thread and the default depth. -/
theorem respectsQueue_iff_default :
    BwBinary.ginPutBW.main [.ginSkipCreditCheck] [] = .ok
      ({ ArgsT.defaults with ginSkipCreditCheck := true, ginRsm := .gpu, ginOp := .put },
        .ginPut) ∧
    (RespectsQueue 1024
      { ArgsT.defaults with ginSkipCreditCheck := true, ginRsm := .gpu, ginOp := .put } .ginPut ↔
      ((1 : Int) ≤ 1024 → (1 : Int) * (1 : Nat) ≤ 1024)) :=
  have accepted : BwBinary.ginPutBW.main [.ginSkipCreditCheck] [] = .ok
      ({ ArgsT.defaults with ginSkipCreditCheck := true, ginRsm := .gpu, ginOp := .put },
        .ginPut) := rfl
  ⟨accepted, respectsQueue_iff accepted rfl 1024⟩

/-- `--gin_skip_credit_check --gin_op put_signal -t 1024`: 2048 entries in a queue of 1024. -/
theorem putSignal_overruns :
    ¬ ∀ (binary : BwBinary) (options : List Opt) (positional : List (List Char)) (args : ArgsT)
      (bench : BwBench), binary.main options positional = .ok (args, bench) →
      args.ginSkipCreditCheck = true → ∀ maxThreadsPerBlock : Int,
      RespectsQueue maxThreadsPerBlock args bench := by
  intro respects
  let args : ArgsT :=
    { ArgsT.defaults with
      ginSkipCreditCheck := true, ginRsm := .gpu, ginOp := .putSignal, numThreads := 1024 }
  have accepted : BwBinary.ginPutBW.main
      [.ginSkipCreditCheck, .ginOp "put_signal".toList, .numThreads "1024".toList] [] =
      .ok (args, .ginPutSignal) := rfl
  obtain ⟨valid, range⟩ := BwBinary.main_valid accepted
  obtain ⟨s, reaches, full⟩ :=
    exists_full .ginPutSignal (args.minbytes / 4) range valid.iters_pos
  have bounded := respects _ _ _ _ _ accepted rfl 1024 _ _ (mem_ginPerfRun valid)
    le_rfl s reaches
  rw [full] at bounded
  exact absurd bounded (by decide)

end NcclTests.Gin
