import Mathlib
import NcclTests.Device.AllReduce

/-!
# The vectorised all-reduce kernel on multicast memory

An access through a multimem pointer reaches all peers: a load sums up what they
hold, and a store goes to all of them. Such accesses are implemented for floats
and vectors of four floats. The kernel is that on shared windows, but its prologue
runs up to the larger of its own length and the count.
-/

namespace NcclTests.Device.AllReduce

open Collective StrideLoop Threads

section Kernel

variable {β : Type*} [Zero β] [Add β] (ty : ElemType) (launch : Launch) (call : RunCollArgs)
  (t : ThreadId)

/-- `v = multimemLoadSum(send_ptr + offset)`, then `multimemStore(recv_ptr + offset, v)`. -/
def multimemReduce (offset : Nat) : List (Instr Loc β Register) :=
  reduceEachBody (List.range launch.nRanks) [] [(0, 0)]
    (fun peer _ => elem call.sendPtr ty.size peer offset)
    fun peer _ => elem call.recvPtr ty.size peer offset

/-- The vectors of a block that are `used`: `v[i] = multimemLoadSum(send_ptrN + offset)` for all
of them, then `multimemStore(recv_ptrN + offset, v[i])`. -/
def multimemVectorReduce (block : Int) (used : List Register) : List (Instr Loc β Register) :=
  reduceEachBody (List.range launch.nRanks) (vectorRegisters ty.unrollFactor ty.vectorFactor) used
    (vectorElem ty launch call t call.sendPtr block)
    (vectorElem ty launch call t call.recvPtr block)

def allReduceMultimemVectorizedKernel : List (Instr Loc β Register) :=
  prologue ty launch call t (multimemReduce ty launch call)
      (max (alignmentOffset ty call) call.count) ++
    wholeBlocks ty launch call (multimemVectorReduce ty launch call t) ++
    partialBlock ty launch call t (multimemVectorReduce ty launch call t) ++
    epilogue ty launch call t (multimemReduce ty launch call)

/-- What the kernel does behind the prologue. -/
def multimemRest : List (Instr Loc β Register) :=
  wholeBlocks ty launch call (multimemVectorReduce ty launch call t) ++
    partialBlock ty launch call t (multimemVectorReduce ty launch call t) ++
    epilogue ty launch call t (multimemReduce ty launch call)

theorem allReduceMultimemVectorizedKernel_eq :
    (allReduceMultimemVectorizedKernel ty launch call t : List (Instr Loc β Register)) =
      prologue ty launch call t (multimemReduce ty launch call)
        (max (alignmentOffset ty call) call.count) ++ multimemRest ty launch call t := by
  rw [allReduceMultimemVectorizedKernel, multimemRest, List.append_assoc, List.append_assoc,
    List.append_assoc]

end Kernel

section Work

variable {β : Type*} [AddCommMonoid β] {ty : ElemType} {launch : Launch} {call : RunCollArgs}
  {t : ThreadId}

theorem reduces_multimem : Reduces ty launch call t (multimemReduce (β := β) ty launch call)
    (multimemVectorReduce ty launch call t) where
  scalar offset := by
    have does : Does (allReduceWork β ty launch call) (multimemReduce ty launch call offset)
        {k | ∃ r ∈ [((0, 0) : Register)], k = offset} := by
      refine does_reduceEachBody List.nodup_range (List.nodup_singleton _) ?_
        (fun _ _ _ => Iff.rfl) (fun _ _ _ => Iff.rfl) fun _ _ _ => rfl
      intro peer _ r mem peer' _ r' mem' same
      refine ⟨(elem_inj ty.size_pos same).1, ?_⟩
      rw [List.mem_singleton.1 mem, List.mem_singleton.1 mem']
    refine does.congr ?_
    ext k
    simp only [Set.mem_ofPred_eq, List.mem_singleton, exists_eq_left, Set.mem_singleton_iff]
  vector block used nodup sub rows := by
    refine does_reduceEachBody List.nodup_range nodup ?inj ?ins ?outs ?value
    case inj => exact vectorElem_inj sub rows
    case ins =>
      intro r _ l
      simp only [vectorElem_eq]
      rfl
    case outs =>
      intro r _ l
      simp only [vectorElem_eq]
      rfl
    case value =>
      intro r _ m
      simp only [vectorElem_eq]
      rfl

/-- Every element is loaded as often as it is stored. -/
theorem balanced_multimem (peer k : Nat) :
    Balanced (elem call.sendPtr ty.size peer k) (elem call.recvPtr ty.size peer k)
      (allReduceMultimemVectorizedKernel ty launch call t : List (Instr Loc β Register)) := by
  have same : ∀ peer' k', elem call.sendPtr ty.size peer' k' = elem call.sendPtr ty.size peer k ↔
      elem call.recvPtr ty.size peer' k' = elem call.recvPtr ty.size peer k := by
    intro peer' k'
    constructor
    · intro same
      obtain ⟨rfl, rfl⟩ := elem_inj ty.size_pos same
      rfl
    · intro same
      obtain ⟨rfl, rfl⟩ := elem_inj ty.size_pos same
      rfl
  have scalar : ∀ offset, Balanced (elem call.sendPtr ty.size peer k)
      (elem call.recvPtr ty.size peer k)
      (multimemReduce ty launch call offset : List (Instr Loc β Register)) :=
    fun offset => balanced_reduceEachBody fun peer' _ => same peer' offset
  have vector : ∀ block used, Balanced (elem call.sendPtr ty.size peer k)
      (elem call.recvPtr ty.size peer k)
      (multimemVectorReduce ty launch call t block used : List (Instr Loc β Register)) := by
    refine fun block used => balanced_reduceEachBody fun peer' r => ?_
    rw [vectorElem_eq, vectorElem_eq]
    exact same peer' _
  refine ((Balanced.append ?_ ?_).append ?_).append ?_
  · rw [prologue]
    split
    · exact Balanced.flatMap fun offset _ => scalar offset
    · exact Balanced.nil
  · exact Balanced.flatMap fun block _ => vector block _
  · exact vector _ _
  · rw [epilogue]
    split
    · exact Balanced.flatMap fun offset _ => scalar _
    · exact Balanced.nil

end Work

/-! ## All threads of all ranks -/

section AllThreads

variable {β : Type*} [AddCommMonoid β] {ty : ElemType} {launch : Launch} {call : RunCollArgs}
  {t : ThreadId}

/-- All threads together load and store each element of the message once and touch nothing
else, and every interleaving of them ends with the sums over the peers. -/
structure ReducesOnce (ty : ElemType) (launch : Launch) (call : RunCollArgs)
    (prog : ThreadId → List (Instr Loc β Register)) : Prop where
  loads : ∀ k < call.count, ∀ peer < launch.nRanks,
    ∑ t ∈ launch.threads, (reads (prog t)).count (elem call.sendPtr ty.size peer k) = 1
  stores : ∀ k < call.count, ∀ peer < launch.nRanks,
    ∑ t ∈ launch.threads, (writes (prog t)).count (elem call.recvPtr ty.size peer k) = 1
  loadsOnly : ∀ t ∈ launch.threads, ∀ l ∈ reads (prog t),
    ∃ k < call.count, ∃ peer < launch.nRanks, l = elem call.sendPtr ty.size peer k
  storesOnly : ∀ t ∈ launch.threads, ∀ l ∈ writes (prog t),
    ∃ k < call.count, ∃ peer < launch.nRanks, l = elem call.recvPtr ty.size peer k
  sums : ∀ regs₀ (m₀ : Mem β) s, Reachable launch.threads prog regs₀ m₀ s →
    s.Finished launch.threads → ∀ peer < launch.nRanks, ∀ k < call.count,
      s.mem (elem call.recvPtr ty.size peer k) =
        ∑ p ∈ Finset.range launch.nRanks, m₀ (elem call.sendPtr ty.size p k)

theorem does_multimemPrologue (fits : IndexFits ty launch call) (place : InPlaceOrApart call)
    (mem : t ∈ launch.threads) (short : alignmentOffset ty call ≤ call.count) :
    Does (allReduceWork β ty launch call)
      (prologue ty launch call t (multimemReduce ty launch call)
        (max (alignmentOffset ty call) call.count))
      {k | (0 < alignmentOffset ty call ∧ k < call.count) ∧
        k % globalSize launch = globalNumber launch t} := by
  refine (reduces_multimem.does_prologue fits place mem _).congr ?_
  rw [max_eq_right short]
  ext k
  exact and_assoc.symm

/-- **Elements behind a prologue are reduced twice**: it does not end where they begin. -/
theorem sum_writes_multimem (ranks : 0 < launch.nRanks) (warps : 32 ∣ launch.blockDim)
    (fits : IndexFits ty launch call) (short : alignmentOffset ty call ≤ call.count)
    (count_lt : call.count < 2 ^ 64) (place : InPlaceOrApart call)
    (some_ : 0 < alignmentOffset ty call) (k peer : Nat) (behind : alignmentOffset ty call ≤ k)
    (inside : k < call.count) (memPeer : peer < launch.nRanks) :
    ∑ t ∈ launch.threads, (writes (allReduceMultimemVectorizedKernel ty launch call t :
      List (Instr Loc β Register))).count (elem call.recvPtr ty.size peer k) = 2 := by
  have front := shares_elements (β := β)
    {k | 0 < alignmentOffset ty call ∧ k < call.count} (fun k => k % globalSize launch)
    place (fun _ => Nat.mod_lt _ (globalSize_pos ranks))
    fun t mem => does_multimemPrologue fits place mem short
  have rest := shares_elements (β := β)
    {k | alignmentOffset ty call ≤ k ∧ k < call.count} (restOwner ty launch call) place
    (restOwner_lt warps ranks)
    fun t mem => reduces_multimem.does_rest fits warps place mem short count_lt
  have out : elem call.recvPtr ty.size peer k ∈ (allReduceWork β ty launch call).outs k :=
    ⟨peer, List.mem_range.2 memPeer, rfl⟩
  have first := front.writes_once (k := k) ⟨some_, inside⟩ out
  have second := rest.writes_once (k := k) ⟨behind, inside⟩ out
  simp only [allReduceMultimemVectorizedKernel_eq, multimemRest, writes_append, List.count_append]
    at first second ⊢
  rw [Finset.sum_add_distrib, first, second]

/-- The thread that takes element `k` if none is taken twice. -/
def multimemOwner (ty : ElemType) (launch : Launch) (call : RunCollArgs) (k : Nat) : Nat :=
  if alignmentOffset ty call = 0 then restOwner ty launch call k else k % globalSize launch

/-- Without a prologue, or with nothing behind it, a thread takes the elements that it owns. -/
theorem does_multimem (fits : IndexFits ty launch call) (warps : 32 ∣ launch.blockDim)
    (place : InPlaceOrApart call) (mem : t ∈ launch.threads)
    (short : alignmentOffset ty call ≤ call.count) (count_lt : call.count < 2 ^ 64)
    (alone : alignmentOffset ty call = 0 ∨ alignmentOffset ty call = call.count) :
    Does (allReduceWork β ty launch call) (allReduceMultimemVectorizedKernel ty launch call t)
      {k | k ∈ {k | k < call.count} ∧ multimemOwner ty launch call k = globalNumber launch t} := by
  rw [allReduceMultimemVectorizedKernel_eq]
  refine ((does_multimemPrologue fits place mem short).append
    (reduces_multimem.does_rest fits warps place mem short count_lt)
    (allReduceWork_separate place Set.univ) (Set.subset_univ _) (Set.subset_univ _) ?_).congr ?_
  · rw [Set.disjoint_left]
    rintro k ⟨⟨some_, -⟩, -⟩ ⟨⟨behind, inside⟩, -⟩
    omega
  · ext k
    simp only [multimemOwner, Set.mem_union, Set.mem_ofPred_eq]
    split
    case isTrue none_ =>
      constructor
      · rintro (⟨⟨some_, -⟩, -⟩ | ⟨⟨-, inside⟩, own⟩)
        · omega
        · exact ⟨inside, own⟩
      · rintro ⟨inside, own⟩
        exact .inr ⟨⟨by omega, inside⟩, own⟩
    case isFalse some_ =>
      constructor
      · rintro (⟨⟨-, inside⟩, own⟩ | ⟨⟨behind, inside⟩, -⟩)
        · exact ⟨inside, own⟩
        · omega
      · rintro ⟨inside, own⟩
        exact .inl ⟨⟨Nat.pos_of_ne_zero some_, inside⟩, own⟩

theorem multimemOwner_lt (warps : 32 ∣ launch.blockDim) (ranks : 0 < launch.nRanks) (k : Nat) :
    multimemOwner ty launch call k < globalSize launch := by
  rw [multimemOwner]
  split
  · exact restOwner_lt warps ranks k
  · exact Nat.mod_lt _ (globalSize_pos ranks)

/-- **When `allReduceMultimemVectorizedKernel` reduces once**: if the send offset leaves no
prologue, or the prologue is the whole message.

The prologue's loop goes to the maximum of the prologue and the count, so that where there is one
it reduces the whole message and the vectors reduce what follows the prologue again. The hypotheses
are those of `allReduceLsaVectorizedKernel_refines`. -/
theorem allReduceMultimemVectorizedKernel_once_iff (ty : ElemType) (launch : Launch)
    (call : RunCollArgs) (ranks : 0 < launch.nRanks) (warps : 32 ∣ launch.blockDim)
    (fits : IndexFits ty launch call) (short : alignmentOffset ty call ≤ call.count)
    (count_lt : call.count < 2 ^ 64) (place : InPlaceOrApart call) :
    ReducesOnce ty launch call
        (allReduceMultimemVectorizedKernel ty launch call :
          ThreadId → List (Instr Loc β Register)) ↔
      call.sendoffset % ty.vectorSize / ty.size = 0 ∨
        call.sendoffset % ty.vectorSize / ty.size = call.count := by
  constructor
  · intro once
    by_contra more
    rw [not_or] at more
    have some_ : 0 < alignmentOffset ty call := Nat.pos_of_ne_zero more.1
    have inside : alignmentOffset ty call < call.count := lt_of_le_of_ne short more.2
    have twice := sum_writes_multimem (β := β) ranks warps fits short count_lt place some_
      _ 0 (le_refl _) inside ranks
    rw [once.stores _ inside 0 ranks] at twice
    exact absurd twice (by decide)
  · intro alone
    have shares := shares_elements (β := β) {k | k < call.count}
      (multimemOwner ty launch call) place (multimemOwner_lt warps ranks) fun t mem =>
        does_multimem fits warps place mem short count_lt alone
    have stores : ∀ k < call.count, ∀ peer < launch.nRanks,
        ∑ t ∈ launch.threads, (writes (allReduceMultimemVectorizedKernel ty launch call t :
          List (Instr Loc β Register))).count (elem call.recvPtr ty.size peer k) = 1 :=
      fun k inside peer memPeer =>
        shares.writes_once inside ⟨peer, List.mem_range.2 memPeer, rfl⟩
    constructor
    case stores => exact stores
    case loads =>
      intro k inside peer memPeer
      rw [← stores k inside peer memPeer]
      exact Finset.sum_congr rfl fun t _ => balanced_multimem peer k
    case loadsOnly =>
      intro t mem l loaded
      obtain ⟨k, inside, peer, memPeer, same⟩ := (shares.touches mem).1 l loaded
      exact ⟨k, inside, peer, List.mem_range.1 memPeer, same⟩
    case storesOnly =>
      intro t mem l stored
      obtain ⟨k, inside, peer, memPeer, same⟩ := (shares.touches mem).2 l stored
      exact ⟨k, inside, peer, List.mem_range.1 memPeer, same⟩
    case sums =>
      intro regs₀ m₀ s reach finished peer memPeer k inside
      exact (shares.finished reach finished).1 k inside _ ⟨peer, List.mem_range.2 memPeer, rfl⟩

/-- Two ranks of 512 threads each reduce 1000 floats in place from an aligned address. -/
theorem allReduceMultimemVectorizedKernel_once_iff_aligned :
    ReducesOnce .float ⟨2, 1, 512, by decide, by decide⟩ ⟨true, 0, 32, 0, 32, 1000⟩
      (allReduceMultimemVectorizedKernel .float ⟨2, 1, 512, by decide, by decide⟩
        ⟨true, 0, 32, 0, 32, 1000⟩ : ThreadId → List (Instr Loc Int Register)) :=
  (allReduceMultimemVectorizedKernel_once_iff .float ⟨2, 1, 512, by decide, by decide⟩
    ⟨true, 0, 32, 0, 32, 1000⟩ (by decide) (by decide) ⟨by decide, by decide⟩ (by decide)
    (by decide) (.inl rfl)).2 (.inl rfl)

/-- Off by one float, they reduce all but the first float twice. -/
theorem multimem_float_twice :
    ¬ ReducesOnce .float ⟨2, 1, 512, by decide, by decide⟩ ⟨true, 0, 4, 0, 4, 1000⟩
      (allReduceMultimemVectorizedKernel .float ⟨2, 1, 512, by decide, by decide⟩
        ⟨true, 0, 4, 0, 4, 1000⟩ : ThreadId → List (Instr Loc Int Register)) := by
  intro once
  have fits : IndexFits .float ⟨2, 1, 512, by decide, by decide⟩ ⟨true, 0, 4, 0, 4, 1000⟩ :=
    ⟨by decide, by decide⟩
  have twice := sum_writes_multimem (β := Int) (by decide) (by decide) fits (by decide)
    (by decide) (.inl rfl) (by decide) 999 0 (by decide) (by decide) (by decide)
  rw [once.stores 999 (by decide) 0 (by decide)] at twice
  exact absurd twice (by decide)

end AllThreads

end NcclTests.Device.AllReduce
