import Mathlib
import NcclTests.Lib.Blocks
import NcclTests.Device.Launch

/-!
# Indices of the vectorised all-reduce kernels

Both kernels split a message into a prologue that is to make the rest aligned,
vectors, and a remainder, and compute the offsets of vectors as `int`s.
-/

namespace NcclTests.Device.AllReduce

open Collective

section Indices

variable (ty : ElemType) (launch : Launch) (call : RunCollArgs) (t : ThreadId)

/-- `threadIdx.x + blockDim.x * (rank + blockIdx.x * nRanks)`. -/
def globalTid : Int :=
  int32 (uint32 (t.threadIdx +
    uint32 (launch.blockDim * uint32 (t.rank + uint32 (t.blockIdx * launch.nRanks)))))

/-- `blockDim.x * gridDim.x * nRanks`. -/
def globalNthreads : Int :=
  int32 (uint32 (uint32 (launch.blockDim * launch.gridDim) * launch.nRanks))

/-- `WARP_SIZE`. -/
def warpSize : Nat := 32

def alignmentOffset : Nat := call.sendoffset % ty.vectorSize / ty.size

/-- The subtraction wraps around if the prologue is longer than the message. -/
def alignedCount : Nat := sizeT ((call.count : Int) - alignmentOffset ty call)

def vectorCount : Nat := alignedCount ty call / ty.vectorFactor

def remainder : Nat := alignedCount ty call % ty.vectorFactor

def elementsPerBlock : Int := int32 (globalNthreads launch * ty.unrollFactor)

def numBlocks : Int := int32 (vectorCount ty call / sizeT (elementsPerBlock ty launch) : Nat)

def warpId : Int := (globalTid launch t).tdiv warpSize

def laneId : Int := (globalTid launch t).tmod warpSize

/-- `warp_id * WARP_SIZE * UNROLL_FACTOR`. -/
def warpOffset : Int := int32 (int32 (warpId launch t * warpSize) * ty.unrollFactor)

def warpLaneOffset : Int := int32 (warpOffset ty launch t + laneId launch t)

/-- `block * globalNthreads * UNROLL_FACTOR` as an `int`. -/
def blockOffset (block : Int) : Int :=
  int32 (int32 (block * globalNthreads launch) * ty.unrollFactor)

/-- `warp_lane_offset + block_offset + i * WARP_SIZE` as a `size_t`. -/
def vectorOffset (block : Int) (i : Nat) : Nat :=
  sizeT (warpLaneOffset ty launch t + blockOffset ty launch block + int32 (i * warpSize : Nat))

def remainderStart : Nat :=
  sizeT (alignmentOffset ty call + vectorCount ty call * ty.vectorFactor : Nat)

end Indices

/-! ## Integers that do not overflow -/

section Integers

variable {ty : ElemType} {launch : Launch} {call : RunCollArgs} {t : ThreadId}

/-- The number of a thread among those of all ranks. -/
def globalNumber (launch : Launch) (t : ThreadId) : Nat :=
  t.threadIdx + launch.blockDim * (t.rank + t.blockIdx * launch.nRanks)

/-- The threads of all ranks. -/
def globalSize (launch : Launch) : Nat := launch.blockDim * launch.gridDim * launch.nRanks

theorem globalNumber_lt (mem : t ∈ launch.threads) : globalNumber launch t < globalSize launch := by
  obtain ⟨rank, block, thread⟩ := Launch.mem_threads.1 mem
  have row : t.blockIdx * launch.nRanks + t.rank < launch.gridDim * launch.nRanks :=
    block_lt block rank
  have place := block_lt row thread
  rw [globalNumber, globalSize, Nat.add_comm t.rank, Nat.add_comm t.threadIdx, Nat.mul_assoc,
    Nat.mul_comm launch.blockDim, Nat.mul_comm launch.blockDim]
  exact place

theorem globalNumber_inj {u : ThreadId} (memT : t ∈ launch.threads) (memU : u ∈ launch.threads)
    (same : globalNumber launch t = globalNumber launch u) : t = u := by
  obtain ⟨rankT, -, threadT⟩ := Launch.mem_threads.1 memT
  obtain ⟨rankU, -, threadU⟩ := Launch.mem_threads.1 memU
  rcases t with ⟨r, b, i⟩
  rcases u with ⟨r', b', i'⟩
  have rows : (b * launch.nRanks + r) * launch.blockDim + i =
      (b' * launch.nRanks + r') * launch.blockDim + i' := by
    simp only [globalNumber, Nat.mul_comm launch.blockDim] at same
    rw [Nat.add_comm _ i, Nat.add_comm _ i', Nat.add_comm _ r, Nat.add_comm _ r']
    exact same
  obtain ⟨blocks, rfl⟩ := block_inj threadT threadU rows
  obtain ⟨rfl, rfl⟩ := block_inj rankT rankU blocks
  rfl

/-- Every number below the number of threads is that of a thread. -/
theorem exists_globalNumber {x : Nat} (less : x < globalSize launch) :
    ∃ t ∈ launch.threads, globalNumber launch t = x := by
  rw [globalSize, Nat.mul_assoc, Nat.mul_comm] at less
  obtain ⟨row, memRow, i, memI, rfl⟩ := exists_block less
  obtain ⟨b, memB, r, memR, rfl⟩ := exists_block memRow
  refine ⟨⟨r, b, i⟩, Launch.mem_threads.2 ⟨memR, memB, memI⟩, ?_⟩
  rw [globalNumber, Nat.mul_comm launch.blockDim, Nat.add_comm i, Nat.add_comm r]

theorem globalTid_eq (small : globalSize launch < 2 ^ 31) (mem : t ∈ launch.threads) :
    globalTid launch t = globalNumber launch t := by
  have less := globalNumber_lt mem
  rw [globalNumber] at less
  have row : t.rank + t.blockIdx * launch.nRanks ≤
      launch.blockDim * (t.rank + t.blockIdx * launch.nRanks) :=
    Nat.le_mul_of_pos_left _ launch.blockDim_pos
  rw [globalTid, @uint32_of_lt (t.blockIdx * launch.nRanks) (by omega),
    @uint32_of_lt (t.rank + t.blockIdx * launch.nRanks) (by omega),
    @uint32_of_lt (launch.blockDim * (t.rank + t.blockIdx * launch.nRanks)) (by omega),
    uint32_of_lt (by omega), int32_of_lt (by omega), globalNumber]

theorem globalNthreads_eq (ranks : 0 < launch.nRanks) (small : globalSize launch < 2 ^ 31) :
    globalNthreads launch = globalSize launch := by
  have grid : launch.blockDim * launch.gridDim ≤ globalSize launch :=
    Nat.le_mul_of_pos_right _ ranks
  rw [globalNthreads, @uint32_of_lt (launch.blockDim * launch.gridDim) (by omega)]
  rw [globalSize] at small ⊢
  rw [uint32_of_lt (by omega), int32_of_lt small]

/-- The products of the index computations fit an `int`. -/
structure IndexFits (ty : ElemType) (launch : Launch) (call : RunCollArgs) : Prop where
  block : globalSize launch * ty.unrollFactor < 2 ^ 31
  lastBlock : vectorCount ty call / (globalSize launch * ty.unrollFactor) *
    (globalSize launch * ty.unrollFactor) < 2 ^ 31

namespace IndexFits

variable (fits : IndexFits ty launch call)
include fits

theorem globalSize_lt : globalSize launch < 2 ^ 31 :=
  lt_of_le_of_lt (Nat.le_mul_of_pos_right _ ty.unrollFactor_pos) fits.block

theorem sizeT_globalTid (mem : t ∈ launch.threads) :
    sizeT (globalTid launch t) = globalNumber launch t := by
  have less := globalNumber_lt mem
  have small := fits.globalSize_lt
  rw [globalTid_eq small mem, sizeT_natCast (by omega)]

theorem sizeT_globalNthreads (ranks : 0 < launch.nRanks) :
    sizeT (globalNthreads launch) = globalSize launch := by
  have small := fits.globalSize_lt
  rw [globalNthreads_eq ranks small, sizeT_natCast (by omega)]

theorem elementsPerBlock_eq (ranks : 0 < launch.nRanks) :
    elementsPerBlock ty launch = (globalSize launch * ty.unrollFactor : Nat) := by
  rw [elementsPerBlock, globalNthreads_eq ranks fits.globalSize_lt, ← Nat.cast_mul,
    int32_of_lt fits.block]

theorem numBlocks_eq (ranks : 0 < launch.nRanks) (threads : 0 < globalSize launch) :
    numBlocks ty launch call =
      (vectorCount ty call / (globalSize launch * ty.unrollFactor) : Nat) := by
  have small := fits.block
  have last := fits.lastBlock
  have few : vectorCount ty call / (globalSize launch * ty.unrollFactor) ≤
      vectorCount ty call / (globalSize launch * ty.unrollFactor) *
        (globalSize launch * ty.unrollFactor) :=
    Nat.le_mul_of_pos_right _ (Nat.mul_pos threads ty.unrollFactor_pos)
  rw [numBlocks, fits.elementsPerBlock_eq ranks, sizeT_natCast (by omega), int32_of_lt (by omega)]

theorem blockOffset_eq (ranks : 0 < launch.nRanks) {block : Nat}
    (inside : block ≤ vectorCount ty call / (globalSize launch * ty.unrollFactor)) :
    blockOffset ty launch block = (block * (globalSize launch * ty.unrollFactor) : Nat) := by
  have whole : block * (globalSize launch * ty.unrollFactor) < 2 ^ 31 :=
    (Nat.mul_le_mul_right _ inside).trans_lt fits.lastBlock
  have part : block * globalSize launch < 2 ^ 31 := by
    rw [← Nat.mul_assoc] at whole
    exact (Nat.le_mul_of_pos_right _ ty.unrollFactor_pos).trans_lt whole
  rw [blockOffset, globalNthreads_eq ranks fits.globalSize_lt, ← Nat.cast_mul, int32_of_lt part,
    ← Nat.cast_mul, Nat.mul_assoc, int32_of_lt whole]

/-- A thread begins in a block before its end. -/
theorem warpLane_lt (mem : t ∈ launch.threads) :
    globalNumber launch t / 32 * (ty.unrollFactor * 32) + globalNumber launch t % 32 < 2 ^ 31 := by
  have less := globalNumber_lt mem
  have number := Nat.div_add_mod' (globalNumber launch t) 32
  calc globalNumber launch t / 32 * (ty.unrollFactor * 32) + globalNumber launch t % 32
      = globalNumber launch t / 32 * 32 * ty.unrollFactor + globalNumber launch t % 32 := by
        rw [Nat.mul_comm ty.unrollFactor, Nat.mul_assoc]
    _ ≤ globalNumber launch t / 32 * 32 * ty.unrollFactor +
          globalNumber launch t % 32 * ty.unrollFactor :=
        Nat.add_le_add_left (Nat.le_mul_of_pos_right _ ty.unrollFactor_pos) _
    _ = globalNumber launch t * ty.unrollFactor := by rw [← Nat.add_mul, number]
    _ ≤ globalSize launch * ty.unrollFactor := Nat.mul_le_mul_right _ less.le
    _ < 2 ^ 31 := fits.block

theorem warpLaneOffset_eq (mem : t ∈ launch.threads) :
    warpLaneOffset ty launch t =
      (globalNumber launch t / 32 * (ty.unrollFactor * 32) + globalNumber launch t % 32 : Nat) := by
  have start := fits.warpLane_lt mem
  have less := globalNumber_lt mem
  have small := fits.globalSize_lt
  rw [warpLaneOffset, warpOffset, warpId, laneId, globalTid_eq small mem, warpSize,
    ← Int.ofNat_tdiv, ← Int.ofNat_tmod, ← Nat.cast_mul, int32_of_lt (by omega), ← Nat.cast_mul,
    Nat.mul_assoc, Nat.mul_comm 32, int32_of_lt (lt_of_le_of_lt (Nat.le_add_right _ _) start),
    ← Nat.cast_add, int32_of_lt start]

theorem vectorOffset_eq (ranks : 0 < launch.nRanks) (mem : t ∈ launch.threads) {block i : Nat}
    (inside : block ≤ vectorCount ty call / (globalSize launch * ty.unrollFactor))
    (row : i < ty.unrollFactor) :
    vectorOffset ty launch t block i = block * (globalSize launch * ty.unrollFactor) +
      (globalNumber launch t / 32 * (ty.unrollFactor * 32) +
        (i * 32 + globalNumber launch t % 32)) := by
  have whole : block * (globalSize launch * ty.unrollFactor) < 2 ^ 31 :=
    (Nat.mul_le_mul_right _ inside).trans_lt fits.lastBlock
  have few : ty.unrollFactor ≤ 128 := Nat.div_le_self _ _
  have start : globalNumber launch t / 32 * (ty.unrollFactor * 32) < 2 ^ 32 := by
    have less := globalNumber_lt mem
    have small := fits.block
    have := Nat.mul_le_mul_right ty.unrollFactor
      ((Nat.div_mul_le_self (globalNumber launch t) 32).trans less.le)
    rw [Nat.mul_comm _ 32, ← Nat.mul_assoc]
    omega
  rw [vectorOffset, fits.warpLaneOffset_eq mem, fits.blockOffset_eq ranks inside, warpSize,
    int32_of_lt (by omega), ← Nat.cast_add, ← Nat.cast_add, sizeT_natCast (by omega)]
  omega

end IndexFits

end Integers

/-! ## Overflow -/

section Overflow

variable {ty : ElemType} {launch : Launch} {call : RunCollArgs}

/-- A value of type `int`. -/
def IsInt (x : Int) : Prop := -2 ^ 31 ≤ x ∧ x < 2 ^ 31

instance (x : Int) : Decidable (IsInt x) := inferInstanceAs (Decidable (_ ∧ _))

theorem isInt_natCast {n : Nat} : IsInt n ↔ n < 2 ^ 31 := by
  rw [IsInt]
  omega

/-- No `int` of the index computation overflows, and the offsets come out as intended. -/
structure NoOverflow (ty : ElemType) (launch : Launch) (call : RunCollArgs) : Prop where
  elementsPerBlock : IsInt (globalSize launch * ty.unrollFactor : Nat)
  numBlocks : IsInt (vectorCount ty call / (globalSize launch * ty.unrollFactor) : Nat)
  blockOffset : ∀ block ≤ vectorCount ty call / (globalSize launch * ty.unrollFactor),
    IsInt (block * (globalSize launch * ty.unrollFactor) : Nat)
  warpLaneOffset : ∀ t ∈ launch.threads,
    IsInt (globalNumber launch t / 32 * (ty.unrollFactor * 32) + globalNumber launch t % 32 : Nat)
  vectorOffset : ∀ t ∈ launch.threads,
    ∀ block ≤ vectorCount ty call / (globalSize launch * ty.unrollFactor),
    ∀ i < ty.unrollFactor, vectorOffset ty launch t block i =
      block * (globalSize launch * ty.unrollFactor) +
        (globalNumber launch t / 32 * (ty.unrollFactor * 32) +
          (i * 32 + globalNumber launch t % 32))

theorem globalSize_pos (ranks : 0 < launch.nRanks) : 0 < globalSize launch :=
  Nat.mul_pos (Nat.mul_pos launch.blockDim_pos launch.gridDim_pos) ranks

theorem alignedCount_eq (short : alignmentOffset ty call ≤ call.count)
    (count_lt : call.count < 2 ^ 64) :
    alignedCount ty call = call.count - alignmentOffset ty call := by
  rw [alignedCount, ← Int.ofNat_sub short, sizeT_natCast (by omega)]

theorem vectorFactor_le : ty.vectorFactor ≤ 4 := by cases ty <;> decide

theorem alignmentOffset_lt : alignmentOffset ty call < ty.vectorFactor := by
  rw [alignmentOffset]
  refine Nat.div_lt_of_lt_mul ?_
  rw [Nat.mul_comm, ty.vectorFactor_mul_size]
  exact Nat.mod_lt _ (by cases ty <;> decide)

/-- If the last block begins where an `int` can, the prologue is not longer than the
message: otherwise `aligned_count` wraps around to almost 2⁶⁴. -/
theorem short_of_lastBlock (fits : IndexFits ty launch call) (ranks : 0 < launch.nRanks) :
    alignmentOffset ty call ≤ call.count := by
  by_contra long
  have block := fits.block
  have last := fits.lastBlock
  have some_ : 0 < globalSize launch * ty.unrollFactor :=
    Nat.mul_pos (globalSize_pos ranks) ty.unrollFactor_pos
  have vectors : vectorCount ty call < 2 ^ 32 := by
    have split_ := Nat.div_add_mod' (vectorCount ty call) (globalSize launch * ty.unrollFactor)
    have rest := Nat.mod_lt (vectorCount ty call) some_
    omega
  have few : alignedCount ty call < 2 ^ 34 := by
    have split_ := Nat.div_add_mod' (alignedCount ty call) ty.vectorFactor
    have rest := Nat.mod_lt (alignedCount ty call) ty.vectorFactor_pos
    have factor : ty.vectorFactor ≤ 4 := vectorFactor_le
    have whole : vectorCount ty call * ty.vectorFactor ≤ (2 ^ 32 - 1) * 4 :=
      Nat.mul_le_mul (by omega) factor
    rw [vectorCount] at whole
    omega
  have offset : alignmentOffset ty call < ty.vectorFactor := alignmentOffset_lt
  have factor : ty.vectorFactor ≤ 4 := vectorFactor_le
  rw [alignedCount, sizeT] at few
  omega

/-- **When the indices do not overflow.** The prologue must fit the message, a round of all
threads must fit an `int`, and so must the number of vectors in whole blocks.

The count left behind the prologue is a `size_t` that would wrap around; the loops over vectors
and over the tail have `int` indices, whose last value is a round past the end of their range. -/
theorem noOverflow_iff (ty : ElemType) (launch : Launch) (call : RunCollArgs)
    (ranks : 0 < launch.nRanks) (count_lt : call.count < 2 ^ 64) :
    NoOverflow ty launch call ↔
      call.sendoffset % ty.vectorSize / ty.size ≤ call.count ∧
      globalSize launch * ty.unrollFactor < 2 ^ 31 ∧
      (call.count - call.sendoffset % ty.vectorSize / ty.size) / ty.vectorFactor /
        (globalSize launch * ty.unrollFactor) * (globalSize launch * ty.unrollFactor) < 2 ^ 31 := by
  constructor
  · intro exact_
    have fits : IndexFits ty launch call :=
      ⟨isInt_natCast.1 exact_.elementsPerBlock, isInt_natCast.1 (exact_.blockOffset _ (le_refl _))⟩
    have short := short_of_lastBlock fits ranks
    have last := fits.lastBlock
    rw [vectorCount, alignedCount_eq short count_lt] at last
    exact ⟨short, fits.block, last⟩
  · rintro ⟨short, block, last⟩
    have fits : IndexFits ty launch call := by
      refine ⟨block, ?_⟩
      rw [vectorCount, alignedCount_eq short count_lt]
      exact last
    have some_ : 0 < globalSize launch * ty.unrollFactor :=
      Nat.mul_pos (globalSize_pos ranks) ty.unrollFactor_pos
    constructor
    case elementsPerBlock => exact isInt_natCast.2 block
    case numBlocks =>
      exact isInt_natCast.2 ((Nat.le_mul_of_pos_right _ some_).trans_lt fits.lastBlock)
    case blockOffset =>
      exact fun block inside =>
        isInt_natCast.2 ((Nat.mul_le_mul_right _ inside).trans_lt fits.lastBlock)
    case warpLaneOffset =>
      intro t mem
      exact isInt_natCast.2 (fits.warpLane_lt mem)
    case vectorOffset =>
      exact fun t mem block inside i row => fits.vectorOffset_eq ranks mem inside row

/-- Two ranks with one block each reduce 16 KiB. -/
theorem noOverflow_iff_small :
    NoOverflow .float ⟨2, 1, 512, by decide, by decide⟩ ⟨false, 0, 4, 0, 4, 4096⟩ :=
  (noOverflow_iff .float ⟨2, 1, 512, by decide, by decide⟩ ⟨false, 0, 4, 0, 4, 4096⟩ (by decide)
    (by decide)).2 (by decide)

/-- Two ranks of 16 blocks and a message of 4 GiB and 2 MiB in half precision: block 2048 begins
at 2³¹, where the `int` is negative and the offset is not behind any pointer. -/
theorem noOverflow_half_4GiB :
    ¬ NoOverflow .half ⟨2, 16, 512, by decide, by decide⟩ ⟨false, 0, 0, 0, 0, 2 ^ 31 + 2 ^ 20⟩ ∧
      vectorOffset .half ⟨2, 16, 512, by decide, by decide⟩ ⟨0, 0, 0⟩ 2048 0 =
        2 ^ 64 - 2 ^ 31 := by
  refine ⟨fun exact_ => ?_, by decide⟩
  exact absurd (exact_.blockOffset 2048 (by decide)) (by decide)

end Overflow

/-! ## Alignment -/

section Alignment

variable {ty : ElemType} {call : RunCollArgs}

/-- The address of the first vector in a window that is mapped at `base`. -/
def firstVectorAddress (ty : ElemType) (call : RunCollArgs) (base : Nat) : Nat :=
  base + (call.sendoffset + alignmentOffset ty call * ty.size)

/-- The prologue is part of the message and the vectors behind it are aligned. -/
def PrologueAligns (ty : ElemType) (call : RunCollArgs) (base : Nat) : Prop :=
  alignmentOffset ty call ≤ call.count ∧
    (0 < vectorCount ty call → ty.vectorSize ∣ firstVectorAddress ty call base)

instance (base : Nat) : Decidable (PrologueAligns ty call base) :=
  inferInstanceAs (Decidable (_ ∧ _))

/-- The prologue takes as many bytes as the offset is behind a multiple of the vector size. -/
theorem alignmentOffset_mul_size (whole : ty.size ∣ call.sendoffset) :
    alignmentOffset ty call * ty.size = call.sendoffset % ty.vectorSize := by
  have vector : ty.size ∣ ty.vectorSize := ⟨ty.vectorFactor, by
    rw [Nat.mul_comm, ty.vectorFactor_mul_size]⟩
  exact Nat.div_mul_cancel ((Nat.dvd_mod_iff vector).2 whole)

/-- So the first vector is twice that far behind a multiple. -/
theorem vectorSize_dvd_firstVectorAddress_iff {base : Nat} (window : ty.vectorSize ∣ base)
    (whole : ty.size ∣ call.sendoffset) :
    ty.vectorSize ∣ firstVectorAddress ty call base ↔
      call.sendoffset % ty.vectorSize = 0 ∨
        2 * (call.sendoffset % ty.vectorSize) = ty.vectorSize := by
  have pos : 0 < ty.vectorSize := by cases ty <;> decide
  have rest := Nat.mod_lt call.sendoffset pos
  have split_ := Nat.div_add_mod' call.sendoffset ty.vectorSize
  have address : firstVectorAddress ty call base = base +
      (call.sendoffset / ty.vectorSize * ty.vectorSize +
        2 * (call.sendoffset % ty.vectorSize)) := by
    rw [firstVectorAddress, alignmentOffset_mul_size whole]
    omega
  rw [address, Nat.dvd_add_right window, Nat.dvd_add_right (Nat.dvd_mul_left _ _)]
  constructor
  · rintro ⟨times, twice⟩
    have few : times < 2 := by
      by_contra many
      have more := Nat.mul_le_mul_left ty.vectorSize (Nat.le_of_not_lt many)
      omega
    interval_cases times
    · exact .inl (by omega)
    · exact .inr (by omega)
  · rintro (none_ | half)
    · rw [none_]
      exact Nat.dvd_zero _
    · rw [half]

/-- **When the prologue aligns.** It is as long as the offset is behind a multiple of the
vector size, not as the next multiple is away: that is the same only for none and for half a
vector, and otherwise the message must be too short for a vector.

The window is aligned to vectors (`window`) and the offset is one of whole elements (`whole`). The
prologue must also fit the message, since the count left for vectors is unsigned. -/
theorem prologueAligns_iff (ty : ElemType) (call : RunCollArgs) (base : Nat)
    (window : ty.vectorSize ∣ base) (whole : ty.size ∣ call.sendoffset)
    (count_lt : call.count < 2 ^ 64) :
    PrologueAligns ty call base ↔
      call.sendoffset % ty.vectorSize / ty.size ≤ call.count ∧
      (call.count < call.sendoffset % ty.vectorSize / ty.size + ty.vectorFactor ∨
        call.sendoffset % ty.vectorSize = 0 ∨
        2 * (call.sendoffset % ty.vectorSize) = ty.vectorSize) := by
  rw [PrologueAligns, vectorSize_dvd_firstVectorAddress_iff window whole]
  refine and_congr_right fun short => ?_
  have vectors : 0 < vectorCount ty call ↔
      ¬ call.count < call.sendoffset % ty.vectorSize / ty.size + ty.vectorFactor := by
    rw [vectorCount, alignedCount_eq short count_lt, Nat.div_pos_iff, alignmentOffset]
    have factor := ty.vectorFactor_pos
    rw [alignmentOffset] at short
    omega
  rw [vectors]
  exact or_iff_not_imp_left.symm

/-- Offsets of half a vector. -/
theorem prologueAligns_iff_half : PrologueAligns .float ⟨false, 0, 24, 0, 24, 1024⟩ 4096 :=
  (prologueAligns_iff .float ⟨false, 0, 24, 0, 24, 1024⟩ 4096 (by decide) (by decide)
    (by decide)).2 (by decide)

/-- One float behind a multiple of 16, a prologue of one float leads to address 8. -/
theorem prologueAligns_one_float : ¬ PrologueAligns .float ⟨false, 0, 4, 0, 4, 1024⟩ 0 := by
  decide

end Alignment

end NcclTests.Device.AllReduce
