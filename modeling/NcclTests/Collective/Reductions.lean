import Mathlib
import NcclTests.Collective.InitData
import NcclTests.Verifiable.Overloads

/-!
# The tests that reduce

All-reduce, reduce and reduce-scatter, from the data that `InitData` generates to the check
of what the collective has left. A location is an element here, since a reduction combines
whole elements, and a pointer that was computed in bytes is divided by `wordSize`.

The collective combines the contributions in any shape and order. The check passes on all
ranks if and only if it has done that: `reductions_checked`.
-/

namespace NcclTests.Collective

open Verifiable RankMem

/-- A pointer in elements. -/
def Ptr.elements (wordSize : Nat) (p : Ptr) : Ptr := ⟨p.buffer, p.offset / wordSize⟩

inductive Reduction
  | allReduce | reduce | reduceScatter
  deriving DecidableEq, Repr

def Reduction.coll : Reduction → Coll
  | allReduce => .allReduce
  | reduce => .reduce
  | reduceScatter => .reduceScatter

/-! ## Initial and expected data -/

section InitData

variable (gen : Generators) (T : DataType) (redOp : RedOp) (nranks : Nat)

/-- What `InitData` generates for a rank. -/
def inputContent (rank seed i : Nat) : T.Bits :=
  gen.genInput T (redOp.reduceFn nranks) nranks rank (BitVec.ofNat 64 seed) i

/-- What `InitDataReduce` generates. -/
def outputContent (seed i : Nat) : T.Bits :=
  gen.genOutput T (redOp.reduceFn nranks) nranks (BitVec.ofNat 64 seed) i

variable (args : ThreadArgs) (root unalign rep : Nat) (inPlace : Bool) (rank : Nat)
  (m : RankMem T.Bits)

def allReduceInitData : RankMem T.Bits :=
  let sendcount := args.sendBytes / T.sizeof
  let recvcount := args.expectedBytes / T.sizeof
  let recvbuff : Ptr := ⟨.recvbuff, unalign⟩
  let m := m.memset recvbuff (args.expectedBytes / T.sizeof)
  let data := if inPlace then recvbuff else ⟨.sendbuff, unalign⟩
  let m := m.initData (inputContent gen T redOp nranks rank) data sendcount 0 rep
  m.initData (outputContent gen T redOp nranks) expectedPtr recvcount 0 rep

def reduceInitData : RankMem T.Bits :=
  let sendcount := args.sendBytes / T.sizeof
  let recvcount := args.expectedBytes / T.sizeof
  let recvbuff : Ptr := ⟨.recvbuff, unalign⟩
  let m := m.memset recvbuff (args.expectedBytes / T.sizeof)
  let data := if inPlace then recvbuff else ⟨.sendbuff, unalign⟩
  let m := m.initData (inputContent gen T redOp nranks rank) data sendcount 0 rep
  let m := m.memcpy expectedPtr recvbuff (args.expectedBytes / T.sizeof)
  if rank = root then m.initData (outputContent gen T redOp nranks) expectedPtr recvcount 0 rep
  else m

def reduceScatterInitData : RankMem T.Bits :=
  let sendcount := args.sendBytes / T.sizeof
  let recvcount := args.expectedBytes / T.sizeof
  let recvbuff : Ptr := ⟨.recvbuff, unalign⟩
  let m := m.memset recvbuff (args.expectedBytes / T.sizeof)
  let data := if inPlace then recvbuff else ⟨.sendbuff, unalign⟩
  let m := m.initData (inputContent gen T redOp nranks rank) data sendcount 0 rep
  let m := m.memcpy expectedPtr recvbuff (args.expectedBytes / T.sizeof)
  m.initData (outputContent gen T redOp nranks) expectedPtr recvcount (rank * recvcount) rep

end InitData

/-- `RankMem.initData` is what the kernels of `InitData` and `InitDataReduce` leave behind a
pointer, however their threads are scheduled. -/
theorem initData_prepared {gen : Generators} {T : DataType} {redOp : RedOp}
    {nranks rank count offset seed : Nat} {m : RankMem T.Bits} {data : Ptr}
    {elts : Nat → T.Bits} :
    (NcclVerifiablePrepareInput gen T redOp nranks rank (BitVec.ofNat 64 seed) count offset
        (fun i => m (data.add i)) elts →
      elts = fun i => m.initData (inputContent gen T redOp nranks rank) data count offset seed
        (data.add i)) ∧
    (NcclVerifiablePrepareExpected gen T redOp nranks (BitVec.ofNat 64 seed) count offset
        (fun i => m (data.add i)) elts →
      elts = fun i => m.initData (outputContent gen T redOp nranks) data count offset seed
        (data.add i)) := by
  have filled_ (generated : Int → T.Bits) :
      filled generated count offset (fun i => m (data.add i)) = fun i =>
        m.initData (fun _ i => generated (i : Nat)) data count offset seed (data.add i) := by
    funext i
    rw [filled, RankMem.initData]
    split
    · next inside => rw [write_inside _ _ _ inside, Nat.cast_add]
    · next outside =>
      rw [write_outside]
      intro j within same
      rw [Ptr.add_inj] at same
      omega
  exact ⟨fun prepared => (Prepare.eq_filled prepared).trans (filled_ _),
    fun prepared => (Prepare.eq_filled prepared).trans (filled_ _)⟩

/-- A data check of a test that reduces: its options and what `setupArgs` is called with. -/
structure ReductionTest where
  test : Reduction
  type : DataType
  redOp : RedOp
  nranks : Nat
  root : Nat
  maxbytes : Nat
  size : Nat
  unalign : Nat
  rep : Nat
  inPlace : Bool
  deriving DecidableEq, Repr

namespace ReductionTest

variable (run : ReductionTest) (gen : Generators) (op : Functor run.type.Bits)

def args : ThreadArgs := setupArgs run.test.coll 0 run.maxbytes run.size run.type.sizeof run.nranks

/-- `collTest->initData` on one rank. -/
def initData (rank : Nat) (m : RankMem run.type.Bits) : RankMem run.type.Bits :=
  match run.test with
  | .allReduce =>
    allReduceInitData gen run.type run.redOp run.nranks run.args run.unalign run.rep run.inPlace
      rank m
  | .reduce =>
    reduceInitData gen run.type run.redOp run.nranks run.args run.root run.unalign run.rep
      run.inPlace rank m
  | .reduceScatter =>
    reduceScatterInitData gen run.type run.redOp run.nranks run.args run.unalign run.rep
      run.inPlace rank m

/-- The call of the data check, which is that of iteration 0. -/
def call (rank : Nat) : RunCollArgs :=
  startColl run.args .host run.type.sizeof run.unalign rank run.inPlace 0

/-- `sptr` of a rank. -/
def sptr (rank : Nat) : Ptr := (run.call rank).sendPtr.elements run.type.sizeof

/-- `rptr` of a rank. -/
def rptr (rank : Nat) : Ptr := (run.call rank).recvPtr.elements run.type.sizeof

/-- `count` of all ranks. -/
def count : Nat := (run.call 0).count

variable {run}

/-- A value is the reduction of the contributions of all ranks, in some shape and order. -/
def ReducesTo (contribution : Nat → run.type.Bits) (result : run.type.Bits) : Prop :=
  ∃ t : ReduceTree Nat, t.leaves.Perm (List.range run.nranks) ∧ result = reduced op contribution t

/-- What NCCL promises of element `i` of the result of a rank: `ncclAllReduce`, `ncclReduce`
and `ncclReduceScatter` from `sptr` to `rptr`. -/
def Right (before after : Mem run.type.Bits) (rank i : Nat) : Prop :=
  let result := after ((run.rptr rank).loc rank i)
  match run.test with
  | .allReduce => ReducesTo op (fun r => before ((run.sptr r).loc r i)) result
  | .reduce =>
    if rank = run.root then ReducesTo op (fun r => before ((run.sptr r).loc r i)) result
    else result = before ((run.rptr rank).loc rank i)
  | .reduceScatter =>
    ReducesTo op (fun r => before ((run.sptr r).loc r (rank * run.count + i))) result

/-- The collective has run: every element of every result is right. -/
def Ran (before after : Mem run.type.Bits) : Prop :=
  ∀ rank < run.nranks, ∀ i < run.count, Right op before after rank i

/-- `CheckDelta` on a rank may find `bad` wrong elements, as `CheckData` calls it. -/
def CheckDelta (m : Mem run.type.Bits) (rank bad : Nat) : Prop :=
  let data := (checkedPtr run.args (run.unalign * run.type.sizeof) rank run.inPlace).elements
    run.type.sizeof
  NcclVerifiableVerify gen run.type run.redOp run.nranks 0 (fun i => m (data.loc rank i))
    (some fun i => m (expectedPtr.loc rank i)) (run.args.expectedBytes / run.type.sizeof) 0 bad

/-! ## Pointers and counts -/

theorem sizeof_pos (T : DataType) : 0 < T.sizeof := by cases T <;> decide

section Counts

variable (run)

/-- The counts behind the byte counts. -/
def counts : CollByteCount :=
  run.test.coll.getCollByteCount 0 (run.size / run.type.sizeof) run.type.sizeof run.nranks

theorem args_eq : run.args = run.counts.toArgs run.maxbytes run.type.sizeof := rfl

theorem counts_offset : run.counts.sendInplaceOffset = 0 := by
  rw [counts]
  cases run.test <;> rfl

theorem counts_param : run.counts.paramcount = run.counts.recvcount := by
  rw [counts]
  cases run.test <;> rfl

theorem count_eq : run.count = run.counts.recvcount := by
  rw [← counts_param]
  exact Nat.mul_div_cancel _ (sizeof_pos _)

theorem sendBytes_div : run.args.sendBytes / run.type.sizeof = run.counts.sendcount :=
  Nat.mul_div_cancel _ (sizeof_pos _)

theorem expectedBytes_div : run.args.expectedBytes / run.type.sizeof = run.count := by
  rw [count_eq]
  exact Nat.mul_div_cancel _ (sizeof_pos _)

/-- In and out of place the contribution is where `InitData` has put it. -/
theorem sptr_eq (rank : Nat) : run.sptr rank = contributionPtr run.unalign 0 run.inPlace := by
  have offset : run.args.sendInplaceOffset = 0 := by
    rw [args_eq]
    exact (congrArg (· * _) run.counts_offset).trans (Nat.zero_mul _)
  have address : (run.call rank).sendAddress = run.unalign * run.type.sizeof := by
    rw [call, startColl_sendAddress, offset, ThreadArgs.shift, Nat.zero_mod, Nat.mul_zero,
      Nat.zero_mul, ite_self, Nat.zero_add]
  have elements : (run.call rank).sendAddress / run.type.sizeof = run.unalign := by
    rw [address, Nat.mul_div_cancel _ (sizeof_pos _)]
  have buffer : (run.call rank).sendIsRecvBuffer = run.inPlace := rfl
  rw [sptr, Ptr.elements, RunCollArgs.sendPtr, contributionPtr]
  dsimp only
  rw [elements, buffer]
  cases run.inPlace <;> rfl

theorem rptr_eq (rank : Nat) : run.rptr rank =
    ⟨.recvbuff, run.unalign + if run.inPlace then run.counts.recvInplaceOffset * rank else 0⟩ := by
  have offset : run.args.recvInplaceOffset = run.counts.recvInplaceOffset * run.type.sizeof := rfl
  rw [rptr, Ptr.elements, RunCollArgs.recvPtr, call, startColl_recvAddress, offset,
    ThreadArgs.shift, Nat.zero_mod, Nat.mul_zero, Nat.zero_add]
  congr 1
  rw [Nat.add_mul_div_right _ _ (sizeof_pos _), Nat.add_comm]
  congr 1
  split
  · rw [Nat.mul_right_comm, Nat.mul_div_cancel _ (sizeof_pos _)]
  · exact Nat.zero_div _

/-- What is checked is what the collective was told to write. -/
theorem checkedPtr_eq (rank : Nat) :
    (checkedPtr run.args (run.unalign * run.type.sizeof) rank run.inPlace).elements
      run.type.sizeof = run.rptr rank := by
  have offset : run.args.recvInplaceOffset = run.counts.recvInplaceOffset * run.type.sizeof := rfl
  rw [rptr_eq, checkedPtr, Ptr.elements, offset]
  congr 1
  rw [Nat.add_comm, Nat.add_mul_div_right _ _ (sizeof_pos _), Nat.add_comm]
  congr 1
  split
  · rw [Nat.mul_right_comm, Nat.mul_div_cancel _ (sizeof_pos _)]
  · exact Nat.zero_div _

end Counts

/-! ## What is in the buffers -/

section Contents

variable {gen : Generators} {m : RankMem run.type.Bits} {rank i : Nat}

/-- Where the data of a rank starts in what the root or its own block expects. -/
def expectedFirst (run : ReductionTest) (rank : Nat) : Nat :=
  match run.test with
  | .allReduce | .reduce => 0
  | .reduceScatter => rank * run.count

/-- The ranks that `InitDataReduce` is called for. -/
def Receives (run : ReductionTest) (rank : Nat) : Prop :=
  run.test = .reduce → rank = run.root

/-- Every rank contributes what was generated for it. -/
theorem initData_data (inside : i < run.counts.sendcount) :
    run.initData gen rank m ((run.sptr rank).add i) =
      inputContent gen run.type run.redOp run.nranks rank run.rep i := by
  have apart (j : Nat) : expectedPtr.add j ≠
      (contributionPtr run.unalign 0 run.inPlace).add i := expectedPtr_add_ne _ _ _ _ _
  have generated (m : RankMem run.type.Bits) :
      m.initData (inputContent gen run.type run.redOp run.nranks rank)
        (contributionPtr run.unalign 0 run.inPlace) run.counts.sendcount 0 run.rep
        ((contributionPtr run.unalign 0 run.inPlace).add i) =
          inputContent gen run.type run.redOp run.nranks rank run.rep i := by
    rw [RankMem.initData, write_inside _ _ _ inside, Nat.zero_add]
  rw [sptr_eq, initData]
  cases run.test with
  | allReduce =>
    dsimp only
    rw [allReduceInitData, sendBytes_div, RankMem.initData, write_outside _ _ fun j _ => apart j]
    exact generated _
  | reduce =>
    dsimp only
    rw [reduceInitData, sendBytes_div]
    split
    · rw [RankMem.initData, write_outside _ _ fun j _ => apart j, memcpy,
        write_outside _ _ fun j _ => apart j]
      exact generated _
    · rw [memcpy, write_outside _ _ fun j _ => apart j]
      exact generated _
  | reduceScatter =>
    dsimp only
    rw [reduceScatterInitData, sendBytes_div, RankMem.initData,
      write_outside _ _ fun j _ => apart j, memcpy, write_outside _ _ fun j _ => apart j]
    exact generated _

/-- A rank that receives expects the output that was generated for its part. -/
theorem initData_expected (receives : run.Receives rank) (inside : i < run.count) :
    run.initData gen rank m (expectedPtr.add i) =
      outputContent gen run.type run.redOp run.nranks run.rep (run.expectedFirst rank + i) := by
  rw [initData, expectedFirst]
  rw [Receives] at receives
  cases test : run.test with
  | allReduce =>
    dsimp only
    rw [allReduceInitData, expectedBytes_div]
    exact write_inside _ _ _ inside
  | reduce =>
    dsimp only
    rw [reduceInitData, expectedBytes_div]
    rw [if_pos (receives test)]
    exact write_inside _ _ _ inside
  | reduceScatter =>
    dsimp only
    rw [reduceScatterInitData, expectedBytes_div]
    exact write_inside _ _ _ inside

/-- The others expect that nothing happens to their receive buffer. -/
theorem initData_expected_other (test : run.test = .reduce) (other : rank ≠ run.root)
    (inside : i < run.count) :
    run.initData gen rank m (expectedPtr.add i) =
      run.initData gen rank m ((run.rptr rank).add i) := by
  have offset : run.counts.recvInplaceOffset = 0 := by
    rw [counts, test]
    rfl
  have start : run.rptr rank = ⟨.recvbuff, run.unalign⟩ := by
    rw [rptr_eq, offset, Nat.zero_mul, ite_self, Nat.add_zero]
  rw [start, initData, test]
  dsimp only
  rw [reduceInitData, expectedBytes_div]
  rw [if_neg other, memcpy, write_inside _ _ _ inside, write_outside]
  intro j _ same
  cases congrArg Ptr.buffer same

end Contents

/-! ## The check -/

section Check

variable {gen : Generators} {op : Functor run.type.Bits} {m after : Mem run.type.Bits}
  {rank i : Nat}

/-- The memory of all ranks when the collective starts. -/
def before (run : ReductionTest) (gen : Generators) (m : Mem run.type.Bits) : Mem run.type.Bits :=
  m.initEach (run.initData gen)

theorem expectedFirst_add_lt (below : rank < run.nranks) (inside : i < run.count) :
    run.expectedFirst rank + i < run.counts.sendcount := by
  rw [count_eq] at inside
  rw [expectedFirst, count_eq]
  cases test : run.test with
  | allReduce | reduce =>
    have whole : run.counts.sendcount = run.counts.recvcount := by
      rw [counts, test]
      rfl
    dsimp only
    omega
  | reduceScatter =>
    have cut : run.counts.sendcount = run.counts.recvcount * run.nranks := by
      rw [counts, test]
      rfl
    dsimp only
    rw [cut]
    nlinarith

/-- What was generated as output is the only value that a reduction may have. -/
theorem reducesTo_iff (pos : 0 < run.nranks)
    (predicts : gen.Predicts run.type run.redOp run.nranks op) {k : Nat}
    (inside : k < run.counts.sendcount) (v : run.type.Bits) :
    ReducesTo op (fun r => before run gen m ((run.sptr r).loc r k)) v ↔
      v = outputContent gen run.type run.redOp run.nranks run.rep k := by
  have contribution (r : Nat) : before run gen m ((run.sptr r).loc r k) =
      inputContent gen run.type run.redOp run.nranks r run.rep k := by
    rw [before, Mem.initEach_loc]
    exact initData_data inside
  simp only [ReducesTo, contribution]
  constructor
  · intro reduces
    obtain ⟨t, perm, rfl⟩ := reduces
    exact predicts _ _ t perm
  · intro value
    -- for instance one rank after the other
    refine ⟨_, List.Perm.of_eq (leaves_chain_ranks pos), value.trans ?_⟩
    exact (predicts _ _ _ (List.Perm.of_eq (leaves_chain_ranks pos))).symm

/-- An element is right if and only if it is the one expected. -/
theorem right_iff (pos : 0 < run.nranks)
    (predicts : gen.Predicts run.type run.redOp run.nranks op) (below : rank < run.nranks)
    (inside : i < run.count) :
    Right op (before run gen m) after rank i ↔
      after ((run.rptr rank).loc rank i) = before run gen m (expectedPtr.loc rank i) := by
  have sent := expectedFirst_add_lt below inside
  have expects (receives : run.Receives rank) : before run gen m (expectedPtr.loc rank i) =
      outputContent gen run.type run.redOp run.nranks run.rep (run.expectedFirst rank + i) := by
    rw [before, Mem.initEach_loc]
    exact initData_expected receives inside
  cases test : run.test with
  | allReduce =>
    have receives : run.Receives rank := fun other => absurd (test.symm.trans other) (by decide)
    rw [expects receives]
    rw [expectedFirst, test] at sent ⊢
    rw [Right, test]
    rw [Nat.zero_add] at sent ⊢
    exact reducesTo_iff pos predicts sent _
  | reduce =>
    rw [Right, test]
    dsimp only
    split
    · next root =>
      rw [expects fun _ => root]
      rw [expectedFirst, test] at sent ⊢
      rw [Nat.zero_add] at sent ⊢
      exact reducesTo_iff pos predicts sent _
    · next other =>
      have kept : before run gen m (expectedPtr.loc rank i) =
          before run gen m ((run.rptr rank).loc rank i) := by
        rw [before, Mem.initEach_loc, Mem.initEach_loc]
        exact initData_expected_other test other inside
      rw [kept]
  | reduceScatter =>
    have receives : run.Receives rank := fun other => absurd (test.symm.trans other) (by decide)
    rw [expects receives]
    rw [expectedFirst, test] at sent ⊢
    rw [Right, test]
    exact reducesTo_iff pos predicts sent _

open Classical in
/-- What the check counts on a rank is the elements that are not right. -/
theorem checkDelta_iff (pos : 0 < run.nranks) (exact_ : tolerance run.type run.redOp = 0)
    (predicts : gen.Predicts run.type run.redOp run.nranks op)
    (kept : ∀ rank i, after (expectedPtr.loc rank i) = before run gen m (expectedPtr.loc rank i))
    (below : rank < run.nranks) (bad : Nat) :
    CheckDelta gen after rank bad ↔ bad =
      ((Finset.range run.count).filter fun i =>
        ¬Right op (before run gen m) after rank i).card := by
  rw [CheckDelta, verify_prepared_iff, exact_, checkedPtr_eq, expectedBytes_div]
  have same : badElts 0 (fun i => after ((run.rptr rank).loc rank i))
      (fun i => after (expectedPtr.loc rank i)) run.count =
        (Finset.range run.count).filter fun i => ¬Right op (before run gen m) after rank i := by
    ext i
    rw [mem_badElts_zero, Finset.mem_filter, Finset.mem_range, kept]
    exact and_congr_right fun inside => not_congr (right_iff pos predicts below inside).symm
  rw [same]

end Check

end ReductionTest

open Classical in
/-- **The data check of a reduction is exact.** Integers with any operation, and floats with
the minimum or the maximum: whatever has run between `InitData` and `CheckData`, as long as
it left the expected data alone, the check counts on every rank the elements that are not
what NCCL promises, a reduction of all contributions in some shape and order. It counts none
on all ranks if and only if the collective has run.

`folds` says that the type and the operation are ones whose expected value is a fold, `documented`
that the intrinsics of `half` do what CUDA's documentation says, and `kept` that the expected data
is left alone. The fold is one of the reductions, all reductions have one value
(`Generators.overloads_predicts`), and the check has no tolerance for it
(`tolerance_of_functor`). -/
theorem reductions_checked (cuda : FloatLayout.Intrinsics) (documented : cuda.Documented)
    (arch : Nat) (gen : Generators) (run : ReductionTest) (pos : 0 < run.nranks)
    (op : Functor run.type.Bits)
    (folds : run.type.functor cuda arch run.redOp run.nranks = some op)
    (m after : Mem run.type.Bits)
    (kept : ∀ rank i, after (expectedPtr.loc rank i) =
      run.before (gen.overloads cuda arch) m (expectedPtr.loc rank i)) :
    (∀ rank < run.nranks, ∀ bad,
      ReductionTest.CheckDelta (gen.overloads cuda arch) after rank bad ↔
        bad = ((Finset.range run.count).filter fun i =>
          ¬ReductionTest.Right op (run.before (gen.overloads cuda arch) m) after rank i).card) ∧
    ((∀ rank < run.nranks, ReductionTest.CheckDelta (gen.overloads cuda arch) after rank 0) ↔
      ReductionTest.Ran op (run.before (gen.overloads cuda arch) m) after) := by
  have predicts := Generators.overloads_predicts arch gen documented pos folds
  have exact_ := tolerance_of_functor arch folds
  have counted := fun rank (below : rank < run.nranks) =>
    ReductionTest.checkDelta_iff pos exact_ predicts kept below
  refine ⟨counted, ?_⟩
  refine forall₂_congr fun rank below => ?_
  rw [counted rank below, eq_comm, Finset.card_eq_zero, Finset.filter_eq_empty_iff]
  simp only [Finset.mem_range, not_not]

/-- Three ranks add up what they have, from the last to the first, into the receive buffer of
each: nothing is wrong on any of them. -/
theorem reductions_checked_sum :
    let run : ReductionTest := ⟨.allReduce, .int32, .sum, 3, 0, 64, 64, 1, 5, false⟩
    let gen := indexGenerators.overloads FloatLayout.exactIntrinsics 900
    let before := run.before gen fun _ => 0
    let op := (IntegerType.int32.functor .sum 3).map (castBits IntegerType.int32.sizeof_dataType)
    let after : Mem run.type.Bits := fun loc =>
      if loc.buffer = .recvbuff then
        reduced op (fun r => before ⟨r, .sendbuff, loc.offset⟩)
          (.node (.leaf 2) (.node (.leaf 1) (.leaf 0)))
      else before loc
    run.count = 16 ∧ ∀ rank < 3, @ReductionTest.CheckDelta run gen after rank 0 := by
  intro run gen before op after
  have folds := @functor_integer FloatLayout.exactIntrinsics 900 .sum .int32 3
  have other : expectedPtr.buffer ≠ .recvbuff := by decide
  obtain ⟨-, all⟩ := reductions_checked FloatLayout.exactIntrinsics
    FloatLayout.exactIntrinsics_documented 900 indexGenerators run (by decide) op folds
    (fun _ => 0) after fun rank i => if_neg other
  refine ⟨by decide, all.2 ?_⟩
  intro rank _ i _
  have leaves : [2, 1, 0].Perm (List.range run.nranks) := by decide
  have sent (r : Nat) : (run.sptr r).loc r i = ⟨r, .sendbuff, 1 + i⟩ := by
    rw [ReductionTest.sptr_eq]
    rfl
  have received : (run.rptr rank).loc rank i = ⟨rank, .recvbuff, 1 + i⟩ := by
    rw [ReductionTest.rptr_eq]
    rfl
  change ReductionTest.ReducesTo op (fun r => before ((run.sptr r).loc r i))
    (after ((run.rptr rank).loc rank i))
  rw [received]
  simp only [sent]
  exact ⟨.node (.leaf 2) (.node (.leaf 1) (.leaf 0)), leaves, if_pos rfl⟩

end NcclTests.Collective
