import Mathlib
import NcclTests.Lib.Blocks
import NcclTests.Lib.StrideLoop
import NcclTests.Lib.GatherScatter
import NcclTests.Device.Launch

/-!
# All-to-all kernels on shared windows

Between the two barriers every thread of rank `r` copies elements of the block
that `r` has for a peer to the block that the peer has for `r`. The optimised
kernel copies vectors, several per iteration, if the send address and the
distance of the blocks allow it.
-/

namespace NcclTests.Device

open Collective StrideLoop Threads

section Kernels

variable {β : Type*} (ty : ElemType) (launch : Launch) (call : RunCollArgs) (t : ThreadId)

/-- `threadIdx.x + blockDim.x * blockIdx.x`. -/
def tid : Int := int32 (uint32 (t.threadIdx + uint32 (launch.blockDim * t.blockIdx)))

/-- `blockDim.x * gridDim.x`. -/
def nthreads : Int := int32 (uint32 (launch.blockDim * launch.gridDim))

/-- `recvPtr[rank * count + offset] = sendPtr[peer * count + offset]`. -/
def scalarCopy (offset peer : Nat) : List (Instr Loc β Register) :=
  copyBody [(0, 0)]
    (fun _ => call.sendPtr.loc t.rank ((peer * call.count + offset) * ty.size))
    fun _ => call.recvPtr.loc peer ((t.rank * call.count + offset) * ty.size)

def alltoAllScalarImpl : List (Instr Loc β Register) :=
  (gridStride (sizeT (tid launch t)) call.count (sizeT (nthreads launch))).flatMap fun offset =>
    (List.range launch.nRanks).flatMap fun peer => scalarCopy ty call t offset peer

/-- The vectors that are copied to `peer` in one iteration, `lanes` of them. -/
structure VectorChunk where
  peer : Nat
  base : Nat
  lanes : Nat
  deriving DecidableEq, Repr

/-- `base_offset + i * nthreads`. -/
def VectorChunk.offset (chunk : VectorChunk) (i : Nat) : Nat :=
  chunk.base + sizeT (int32 (i * nthreads launch))

/-- `values[i] = sendVecPtr[offset]` for all `i`, then `recvVecPtr[offset] = values[i]`. -/
def VectorChunk.copy (chunk : VectorChunk) : List (Instr Loc β Register) :=
  copyBody (vectorRegisters chunk.lanes ty.vectorFactor)
    (fun r => call.sendPtr.loc t.rank (chunk.peer * call.count * ty.size +
      chunk.offset launch r.1 * ty.vectorSize + r.2 * ty.size))
    fun r => call.recvPtr.loc chunk.peer (t.rank * call.count * ty.size +
      chunk.offset launch r.1 * ty.vectorSize + r.2 * ty.size)

def vectorCount : Nat := call.count / ty.vectorFactor

def elementsPerIteration : Int := int32 (nthreads launch * ty.unrollFactor)

def alignedVectorCount : Nat :=
  vectorCount ty call / sizeT (elementsPerIteration ty launch) *
    sizeT (elementsPerIteration ty launch)

/-- `for (peerBase = 0; peerBase < nRanks; peerBase += PEER_UNROLL)` and the loop over the
peers of the group. -/
def groupedPeers (nRanks : Nat) : List Nat :=
  (gridStride 0 nRanks 2).flatMap fun peerBase =>
    (List.range (min 2 (nRanks - peerBase))).map fun p => peerBase + p

/-- The chunks of a thread: unrolled without bounds checks, then one vector at a time. -/
def vectorChunks : List VectorChunk :=
  ((gridStride (sizeT (tid launch t)) (alignedVectorCount ty launch call)
      (sizeT (elementsPerIteration ty launch))).flatMap fun base =>
    (groupedPeers launch.nRanks).map fun peer => ⟨peer, base, ty.unrollFactor⟩) ++
  (gridStride (alignedVectorCount ty launch call + sizeT (tid launch t)) (vectorCount ty call)
      (sizeT (nthreads launch))).flatMap fun base =>
    (List.range launch.nRanks).map fun peer => ⟨peer, base, 1⟩

/-- The elements behind the last vector. -/
def scalarTail : List (Instr Loc β Register) :=
  let scalarStart := vectorCount ty call * ty.vectorFactor
  (gridStride (scalarStart + sizeT (tid launch t)) call.count (sizeT (nthreads launch))).flatMap
    fun offset =>
      (List.range launch.nRanks).flatMap fun peer => scalarCopy ty call t offset peer

/-- Vectors help, the send address is aligned and blocks are whole vectors apart. -/
def CanVectorize (sendAddress : Nat) : Prop :=
  ty.size < ty.vectorSize ∧ sendAddress % ty.vectorSize = 0 ∧
    (call.count * ty.size) % ty.vectorSize = 0

instance (sendAddress : Nat) : Decidable (CanVectorize ty call sendAddress) :=
  inferInstanceAs (Decidable (_ ∧ _ ∧ _))

/-- `sendAddress` is the address of `sendPtr` on the device of the thread. -/
def nvlAlltoAllKernelOptimized (sendAddress : Nat) : List (Instr Loc β Register) :=
  if CanVectorize ty call sendAddress then
    (vectorChunks ty launch call t).flatMap (VectorChunk.copy ty launch call t) ++
      scalarTail ty launch call t
  else alltoAllScalarImpl ty launch call t

/-- The address of `sendVecPtr[offset]`. -/
def VectorChunk.loadAddress (chunk : VectorChunk) (sendAddress i : Nat) : Nat :=
  sendAddress + chunk.peer * call.count * ty.size + chunk.offset launch i * ty.vectorSize

/-- The address of `recvVecPtr[offset]`; `recvAddress` is that of the peer's `recvPtr`. -/
def VectorChunk.storeAddress (chunk : VectorChunk) (recvAddress i : Nat) : Nat :=
  recvAddress + t.rank * call.count * ty.size + chunk.offset launch i * ty.vectorSize

end Kernels

/-! ## Integers that do not overflow -/

section Integers

variable {ty : ElemType} {launch : Launch} {call : RunCollArgs} {t : ThreadId}

/-- The number of a thread in the grid of its rank. -/
def gridTid (launch : Launch) (t : ThreadId) : Nat := t.threadIdx + launch.blockDim * t.blockIdx

/-- The threads of one rank. -/
def gridSize (launch : Launch) : Nat := launch.blockDim * launch.gridDim

theorem gridSize_pos : 0 < gridSize launch :=
  Nat.mul_pos launch.blockDim_pos launch.gridDim_pos

theorem gridTid_lt (mem : t ∈ launch.threads) : gridTid launch t < gridSize launch := by
  obtain ⟨-, block, thread⟩ := Launch.mem_threads.1 mem
  have next := Nat.mul_le_mul_left launch.blockDim block
  rw [Nat.mul_succ] at next
  rw [gridTid, gridSize]
  omega

/-- What a launch has to be small enough for; `-x` admits 128 blocks of 512 threads. -/
def Fits (ty : ElemType) (launch : Launch) : Prop := gridSize launch * ty.unrollFactor < 2 ^ 31

theorem Fits.gridSize_lt (fits : Fits ty launch) : gridSize launch < 2 ^ 31 :=
  lt_of_le_of_lt (Nat.le_mul_of_pos_right _ ty.unrollFactor_pos) fits

theorem tid_eq_of_lt (small : gridSize launch < 2 ^ 31) (mem : t ∈ launch.threads) :
    tid launch t = gridTid launch t := by
  have less := gridTid_lt mem
  rw [gridTid] at less
  rw [tid, uint32_of_lt (n := launch.blockDim * t.blockIdx) (by omega), uint32_of_lt (by omega),
    int32_of_lt (by omega), gridTid]

theorem nthreads_eq_of_lt (small : gridSize launch < 2 ^ 31) :
    nthreads launch = gridSize launch := by
  rw [gridSize] at small
  rw [nthreads, uint32_of_lt (by omega), int32_of_lt small, gridSize]

theorem sizeT_tid (fits : Fits ty launch) (mem : t ∈ launch.threads) :
    sizeT (tid launch t) = gridTid launch t := by
  have less := gridTid_lt mem
  have small := fits.gridSize_lt
  rw [tid_eq_of_lt small mem, sizeT_natCast (by omega)]

theorem nthreads_eq (fits : Fits ty launch) : nthreads launch = gridSize launch :=
  nthreads_eq_of_lt fits.gridSize_lt

theorem sizeT_nthreads (fits : Fits ty launch) : sizeT (nthreads launch) = gridSize launch := by
  have small := fits.gridSize_lt
  rw [nthreads_eq fits, sizeT_natCast (by omega)]

theorem sizeT_elementsPerIteration (fits : Fits ty launch) :
    sizeT (elementsPerIteration ty launch) = gridSize launch * ty.unrollFactor := by
  have small : gridSize launch * ty.unrollFactor < 2 ^ 31 := fits
  rw [elementsPerIteration, nthreads_eq fits, ← Nat.cast_mul, int32_of_lt small,
    sizeT_natCast (by omega)]

theorem VectorChunk.offset_eq (fits : Fits ty launch) (chunk : VectorChunk) {i : Nat}
    (less : i < ty.unrollFactor) :
    chunk.offset launch i = chunk.base + i * gridSize launch := by
  have small : i * gridSize launch < 2 ^ 31 := by
    refine lt_of_le_of_lt ?_ fits
    rw [Nat.mul_comm]
    exact Nat.mul_le_mul_left _ less.le
  rw [offset, nthreads_eq fits, ← Nat.cast_mul, int32_of_lt small, sizeT_natCast (by omega)]

end Integers

/-! ## Peers in groups -/

theorem groupedPeers_from {nRanks fuel start : Nat} (enough : nRanks ≤ start + fuel) :
    ((strideFrom nRanks 2 fuel start).flatMap fun peerBase =>
      (List.range (min 2 (nRanks - peerBase))).map fun p => peerBase + p) =
      List.range' start (nRanks - start) := by
  induction fuel generalizing start with
  | zero =>
    have none_ : nRanks - start = 0 := by omega
    rw [strideFrom, none_]
    rfl
  | succ fuel ih =>
    rw [strideFrom]
    split
    case isFalse more =>
      rw [Nat.sub_eq_zero_of_le (Nat.le_of_not_lt more)]
      rfl
    case isTrue less =>
      rw [List.flatMap_cons, ih (by omega), ← List.range'_eq_map_range]
      rcases Nat.lt_or_ge (start + 1) nRanks with two | one
      · have group : min 2 (nRanks - start) = 2 := by omega
        have rest : nRanks - start = 2 + (nRanks - (start + 2)) := by omega
        rw [group, rest, List.range'_append_1]
      · have group : min 2 (nRanks - start) = 1 := by omega
        have whole : nRanks - start = 1 := by omega
        have none_ : nRanks - (start + 2) = 0 := by omega
        rw [group, whole, none_, List.range'_zero, List.append_nil]

/-- The groups make up all peers. -/
theorem groupedPeers_eq (nRanks : Nat) : groupedPeers nRanks = List.range nRanks := by
  rw [groupedPeers, gridStride, groupedPeers_from (by omega), Nat.sub_zero, List.range_eq_range']

/-! ## What a thread copies -/

/-- Element `k` of the block that one rank has for another. -/
structure Transfer where
  rank : Nat
  peer : Nat
  k : Nat

section Work

variable {β : Type*} {ty : ElemType} {launch : Launch} {call : RunCollArgs} {t : ThreadId}

/-- The all-to-all exchange, element by element. -/
def alltoAllWork (β : Type*) (ty : ElemType) (call : RunCollArgs) : Work Transfer Loc β where
  ins x := {elem call.sendPtr ty.size x.rank (x.peer * call.count + x.k)}
  outs x := {elem call.recvPtr ty.size x.peer (x.rank * call.count + x.k)}
  value m x := m (elem call.sendPtr ty.size x.rank (x.peer * call.count + x.k))

/-- The elements of blocks. -/
def inBlock (call : RunCollArgs) : Set Transfer := {x | x.k < call.count}

/-- Out of place the exchange never disturbs itself. -/
theorem alltoAllWork_separate (apart : call.sendPtr.buffer ≠ call.recvPtr.buffer) :
    (alltoAllWork β ty call).Separate (inBlock call) := by
  rintro ⟨r, p, k⟩ less ⟨r', p', k'⟩ less' ne _ rfl
  refine ⟨elem_ne apart.symm, fun same => ne ?_⟩
  obtain ⟨rfl, position⟩ := elem_inj ty.size_pos same
  obtain ⟨rfl, rfl⟩ := block_inj less less' position
  rfl

/-- The elements with indices in `ks` that a thread sends to `peer`. -/
def sendTo (rank peer : Nat) (ks : Set Nat) : Set Transfer :=
  {x | x.rank = rank ∧ x.peer = peer ∧ x.k ∈ ks}

/-- The elements with indices in `ks` that a thread sends to all peers. -/
def sendToAll (nRanks rank : Nat) (ks : Set Nat) : Set Transfer :=
  {x | x.rank = rank ∧ x.peer < nRanks ∧ x.k ∈ ks}

theorem does_scalarCopy (offset peer : Nat) :
    Does (alltoAllWork β ty call) (scalarCopy ty call t offset peer)
      (sendTo t.rank peer {offset}) := by
  have does : Does (alltoAllWork β ty call) (scalarCopy ty call t offset peer)
      {x | ∃ r ∈ [((0, 0) : Register)], x = ⟨t.rank, peer, offset⟩} := by
    refine does_copyBody (List.nodup_singleton _) ?_ (fun _ _ => rfl) (fun _ _ => rfl)
      fun _ _ _ => rfl
    intro r mem r' mem' _
    rw [List.mem_singleton.1 mem, List.mem_singleton.1 mem']
  refine does.congr ?_
  ext x
  rcases x with ⟨r, p, k⟩
  simp only [Set.mem_ofPred_eq, sendTo, List.mem_singleton, exists_eq_left, Set.mem_singleton_iff,
    Transfer.mk.injEq]

/-- One body for each peer. -/
theorem Does.forAllPeers {body : Nat → List (Instr Loc β Register)} {ks : Set Nat}
    (apart : call.sendPtr.buffer ≠ call.recvPtr.buffer) (inside : ∀ k ∈ ks, k < call.count)
    (each : ∀ peer < launch.nRanks,
      Does (alltoAllWork β ty call) (body peer) (sendTo t.rank peer ks)) :
    Does (alltoAllWork β ty call) ((List.range launch.nRanks).flatMap body)
      (sendToAll launch.nRanks t.rank ks) := by
  have disjoint : (List.range launch.nRanks).Pairwise fun peer peer' =>
      Disjoint (sendTo t.rank peer ks) (sendTo t.rank peer' ks) := by
    refine List.nodup_range.imp fun {peer peer'} ne => Set.disjoint_left.2 ?_
    rintro x ⟨-, isPeer, -⟩ ⟨-, isPeer', -⟩
    exact ne (isPeer.symm.trans isPeer')
  refine (Does.flatMap (fun peer mem => each peer (List.mem_range.1 mem))
    (alltoAllWork_separate apart) (fun peer _ x mem => inside _ mem.2.2) disjoint).congr ?_
  ext x
  simp only [Set.mem_ofPred_eq, sendTo, sendToAll, List.mem_range]
  constructor
  · rintro ⟨peer, less, rank, rfl, mem⟩
    exact ⟨rank, less, mem⟩
  · rintro ⟨rank, less, mem⟩
    exact ⟨x.peer, less, rank, rfl, mem⟩

/-- A loop over disjoint sets of indices, with one body for all peers. -/
theorem Does.forAllIndices {xs : List Nat} {body : Nat → List (Instr Loc β Register)}
    {ks : Nat → Set Nat} (apart : call.sendPtr.buffer ≠ call.recvPtr.buffer)
    (inside : ∀ x ∈ xs, ∀ k ∈ ks x, k < call.count)
    (each : ∀ x ∈ xs, Does (alltoAllWork β ty call) (body x)
      (sendToAll launch.nRanks t.rank (ks x)))
    (disjoint : xs.Pairwise fun x y => Disjoint (ks x) (ks y)) :
    Does (alltoAllWork β ty call) (xs.flatMap body)
      (sendToAll launch.nRanks t.rank {k | ∃ x ∈ xs, k ∈ ks x}) := by
  refine (Does.flatMap each (alltoAllWork_separate apart)
    (fun x mem y inKs => inside x mem _ inKs.2.2) (disjoint.imp fun {x y} apart_ => ?_)).congr ?_
  · rw [Set.disjoint_left]
    rintro z ⟨-, -, inKs⟩ ⟨-, -, inKs'⟩
    exact Set.disjoint_left.1 apart_ inKs inKs'
  · ext z
    simp only [Set.mem_ofPred_eq, sendToAll]
    constructor
    · rintro ⟨x, mem, rank, peer, inKs⟩
      exact ⟨rank, peer, x, mem, inKs⟩
    · rintro ⟨rank, peer, x, mem, inKs⟩
      exact ⟨x, mem, rank, peer, inKs⟩

/-- Loops whose variable is the index that is copied. -/
theorem does_scalarLoop {offsets : List Nat}
    (apart : call.sendPtr.buffer ≠ call.recvPtr.buffer) (inside : ∀ k ∈ offsets, k < call.count)
    (increasing : offsets.Pairwise (· < ·)) :
    Does (alltoAllWork β ty call)
      (offsets.flatMap fun offset =>
        (List.range launch.nRanks).flatMap fun peer => scalarCopy ty call t offset peer)
      (sendToAll launch.nRanks t.rank {k | k ∈ offsets}) := by
  have each : ∀ offset ∈ offsets, Does (alltoAllWork β ty call)
      ((List.range launch.nRanks).flatMap fun peer => scalarCopy ty call t offset peer)
      (sendToAll launch.nRanks t.rank {offset}) := by
    intro offset mem
    refine Does.forAllPeers apart ?_ fun peer _ => does_scalarCopy offset peer
    rintro _ rfl
    exact inside _ mem
  refine (Does.forAllIndices apart ?_ each (increasing.imp fun {x y} less => ?_)).congr ?_
  · rintro offset mem _ rfl
    exact inside _ mem
  · rw [Set.disjoint_singleton]
    exact less.ne
  · congr 1
    ext k
    simp only [Set.mem_ofPred_eq, Set.mem_singleton_iff, exists_eq_right']

/-- A thread of the scalar kernel takes the indices with its number as remainder. -/
theorem does_scalarImpl (fits : Fits ty launch)
    (apart : call.sendPtr.buffer ≠ call.recvPtr.buffer) (mem : t ∈ launch.threads) :
    Does (alltoAllWork β ty call) (alltoAllScalarImpl ty launch call t)
      (sendToAll launch.nRanks t.rank
        {k | k < call.count ∧ k % gridSize launch = gridTid launch t}) := by
  have share : ∀ k, k ∈ gridStride (gridTid launch t) call.count (gridSize launch) ↔
      k < call.count ∧ k % gridSize launch = gridTid launch t :=
    fun k => mem_gridStride_of_lt (gridTid_lt mem)
  rw [alltoAllScalarImpl, sizeT_tid fits mem, sizeT_nthreads fits]
  refine (does_scalarLoop apart (fun k inLoop => ((share k).1 inLoop).1)
    (pairwise_gridStride gridSize_pos)).congr ?_
  simp only [share]

/-- The indices of the vectors `base`, `base + n` and so on, `lanes` of them. -/
def laneIndices (ty : ElemType) (launch : Launch) (base lanes : Nat) : Set Nat :=
  {k | ∃ i < lanes, k / ty.vectorFactor = base + i * gridSize launch}

theorem does_vectorCopy (fits : Fits ty launch) (chunk : VectorChunk)
    (lanes : chunk.lanes ≤ ty.unrollFactor) :
    Does (alltoAllWork β ty call) (chunk.copy ty launch call t)
      (sendTo t.rank chunk.peer (laneIndices ty launch chunk.base chunk.lanes)) := by
  let index (r : Register) : Nat :=
    (chunk.base + r.1 * gridSize launch) * ty.vectorFactor + r.2
  have bytes : ∀ r ∈ vectorRegisters chunk.lanes ty.vectorFactor, ∀ row,
      row * call.count * ty.size + chunk.offset launch r.1 * ty.vectorSize + r.2 * ty.size =
        (row * call.count + index r) * ty.size := by
    intro r mem row
    rw [chunk.offset_eq fits ((mem_vectorRegisters.1 mem).1.trans_le lanes),
      ← ty.vectorFactor_mul_size]
    simp only [index]
    ring
  have does : Does (alltoAllWork β ty call) (chunk.copy ty launch call t)
      {x | ∃ r ∈ vectorRegisters chunk.lanes ty.vectorFactor,
        x = ⟨t.rank, chunk.peer, index r⟩} := by
    refine does_copyBody (vectorRegisters_nodup _ _) ?inj ?ins ?outs ?value
    case inj =>
      rintro ⟨i, e⟩ mem ⟨i', e'⟩ mem' same
      rw [bytes _ mem, bytes _ mem'] at same
      obtain ⟨-, position⟩ := elem_inj ty.size_pos same
      obtain ⟨vectors, components⟩ := block_inj (mem_vectorRegisters.1 mem).2
        (mem_vectorRegisters.1 mem').2 (Nat.add_left_cancel position)
      exact Prod.ext (Nat.eq_of_mul_eq_mul_right gridSize_pos (Nat.add_left_cancel vectors))
        components
    case ins =>
      intro r mem
      rw [bytes r mem]
      rfl
    case outs =>
      intro r mem
      rw [bytes r mem]
      rfl
    case value =>
      intro r mem m
      rw [bytes r mem]
      rfl
  refine does.congr ?_
  ext ⟨r, p, k⟩
  simp only [Set.mem_ofPred_eq, sendTo, laneIndices, Transfer.mk.injEq]
  constructor
  · rintro ⟨⟨i, e⟩, mem, rfl, rfl, rfl⟩
    obtain ⟨lane, component⟩ := mem_vectorRegisters.1 mem
    exact ⟨rfl, rfl, i, lane, block_div component⟩
  · rintro ⟨rfl, rfl, i, lane, vector⟩
    have component := Nat.mod_lt k ty.vectorFactor_pos
    refine ⟨(i, k % ty.vectorFactor), mem_vectorRegisters.2 ⟨lane, component⟩, rfl, rfl, ?_⟩
    simp only [index, ← vector, Nat.div_add_mod']

/-- The chunks with one base are for all peers. -/
theorem does_chunksAt (fits : Fits ty launch)
    (apart : call.sendPtr.buffer ≠ call.recvPtr.buffer) {base lanes : Nat}
    (few : lanes ≤ ty.unrollFactor)
    (inside : ∀ k ∈ laneIndices ty launch base lanes, k < call.count) :
    Does (alltoAllWork β ty call)
      ((List.range launch.nRanks).flatMap fun peer =>
        VectorChunk.copy ty launch call t ⟨peer, base, lanes⟩)
      (sendToAll launch.nRanks t.rank (laneIndices ty launch base lanes)) :=
  Does.forAllPeers apart inside fun peer _ => does_vectorCopy fits ⟨peer, base, lanes⟩ few

/-- A vector before the end of the vectors has its elements before the end of the block. -/
theorem lt_count_of_vector {k : Nat} (inside : k / ty.vectorFactor < vectorCount ty call) :
    k < call.count := by
  by_contra more
  exact absurd (Nat.div_le_div_right (Nat.le_of_not_lt more)) (Nat.not_le_of_lt inside)

theorem alignedVectorCount_eq (fits : Fits ty launch) :
    alignedVectorCount ty launch call =
      vectorCount ty call / (gridSize launch * ty.unrollFactor) *
        (gridSize launch * ty.unrollFactor) := by
  rw [alignedVectorCount, sizeT_elementsPerIteration fits]

/-- The loop without bounds checks takes the vectors of whole iterations. -/
theorem does_unrolledChunks (fits : Fits ty launch)
    (apart : call.sendPtr.buffer ≠ call.recvPtr.buffer) (mem : t ∈ launch.threads) :
    Does (alltoAllWork β ty call)
      ((gridStride (gridTid launch t) (alignedVectorCount ty launch call)
          (gridSize launch * ty.unrollFactor)).flatMap fun base =>
        (List.range launch.nRanks).flatMap fun peer =>
          VectorChunk.copy ty launch call t ⟨peer, base, ty.unrollFactor⟩)
      (sendToAll launch.nRanks t.rank {k | k / ty.vectorFactor < alignedVectorCount ty launch call ∧
        k / ty.vectorFactor % gridSize launch = gridTid launch t}) := by
  have less := gridTid_lt mem
  have start : gridTid launch t < gridSize launch * ty.unrollFactor :=
    less.trans_le (Nat.le_mul_of_pos_right _ ty.unrollFactor_pos)
  have bases : ∀ base, base ∈ gridStride (gridTid launch t) (alignedVectorCount ty launch call)
      (gridSize launch * ty.unrollFactor) ↔ base < alignedVectorCount ty launch call ∧
        base % (gridSize launch * ty.unrollFactor) = gridTid launch t :=
    fun base => mem_gridStride_of_lt start
  have share : ∀ k, (∃ base, (base < alignedVectorCount ty launch call ∧
      base % (gridSize launch * ty.unrollFactor) = gridTid launch t) ∧
        k ∈ laneIndices ty launch base ty.unrollFactor) ↔
      k / ty.vectorFactor < alignedVectorCount ty launch call ∧
        k / ty.vectorFactor % gridSize launch = gridTid launch t := by
    intro k
    rw [alignedVectorCount_eq fits]
    exact unrolled_iff less
  have inside : ∀ base ∈ gridStride (gridTid launch t) (alignedVectorCount ty launch call)
      (gridSize launch * ty.unrollFactor),
      ∀ k ∈ laneIndices ty launch base ty.unrollFactor, k < call.count := by
    intro base inLoop k lane
    have below := ((share k).1 ⟨base, (bases base).1 inLoop, lane⟩).1
    refine lt_count_of_vector (below.trans_le ?_)
    rw [alignedVectorCount_eq fits]
    exact Nat.div_mul_le_self _ _
  refine (Does.forAllIndices apart inside
    (fun base inLoop => does_chunksAt fits apart le_rfl (inside base inLoop)) ?_).congr ?_
  · refine List.Pairwise.imp_of_mem (fun {base base'} inLoop inLoop' increasing => ?_)
      (pairwise_gridStride (Nat.zero_lt_of_lt start))
    rw [Set.disjoint_left]
    rintro k ⟨i, lane, vector⟩ ⟨i', lane', vector'⟩
    exact increasing.ne (unrolled_base_inj less ((bases base).1 inLoop).2
      ((bases base').1 inLoop').2 lane lane' (vector.symm.trans vector'))
  · congr 1
    ext k
    simp only [Set.mem_ofPred_eq, bases, share]

/-- The loop behind it takes the remaining vectors one at a time. -/
theorem does_singleChunks (fits : Fits ty launch)
    (apart : call.sendPtr.buffer ≠ call.recvPtr.buffer) (mem : t ∈ launch.threads) :
    Does (alltoAllWork β ty call)
      ((gridStride (alignedVectorCount ty launch call + gridTid launch t) (vectorCount ty call)
          (gridSize launch)).flatMap fun base =>
        (List.range launch.nRanks).flatMap fun peer =>
          VectorChunk.copy ty launch call t ⟨peer, base, 1⟩)
      (sendToAll launch.nRanks t.rank {k | alignedVectorCount ty launch call ≤ k / ty.vectorFactor ∧
        k / ty.vectorFactor < vectorCount ty call ∧
        k / ty.vectorFactor % gridSize launch = gridTid launch t}) := by
  have bases : ∀ base, base ∈ gridStride (alignedVectorCount ty launch call + gridTid launch t)
      (vectorCount ty call) (gridSize launch) ↔
      alignedVectorCount ty launch call ≤ base ∧ base < vectorCount ty call ∧
        base % gridSize launch = gridTid launch t := by
    intro base
    refine mem_gridStride_add ?_ (gridTid_lt mem)
    rw [alignedVectorCount_eq fits]
    exact (Nat.dvd_mul_right _ _).mul_left _
  have lane : ∀ base k, k ∈ laneIndices ty launch base 1 ↔ k / ty.vectorFactor = base := by
    intro base k
    constructor
    · rintro ⟨i, first, vector⟩
      rw [vector, Nat.lt_one_iff.1 first, Nat.zero_mul, Nat.add_zero]
    · rintro rfl
      exact ⟨0, Nat.one_pos, by rw [Nat.zero_mul, Nat.add_zero]⟩
  have inside : ∀ base ∈ gridStride (alignedVectorCount ty launch call + gridTid launch t)
      (vectorCount ty call) (gridSize launch),
      ∀ k ∈ laneIndices ty launch base 1, k < call.count := by
    intro base inLoop k vector
    rw [lane] at vector
    subst vector
    exact lt_count_of_vector ((bases _).1 inLoop).2.1
  refine (Does.forAllIndices apart inside (fun base inLoop =>
    does_chunksAt fits apart ty.unrollFactor_pos (inside base inLoop)) ?_).congr ?_
  · refine (pairwise_gridStride gridSize_pos).imp fun {base base'} increasing => ?_
    rw [Set.disjoint_left]
    intro k vector vector'
    rw [lane] at vector vector'
    exact increasing.ne (vector.symm.trans vector')
  · congr 1
    ext k
    simp only [Set.mem_ofPred_eq, bases, lane, exists_eq_right']

/-- Blocks of whole vectors have no elements behind the last one. -/
theorem CanVectorize.whole {sendAddress : Nat} (can : CanVectorize ty call sendAddress) :
    vectorCount ty call * ty.vectorFactor = call.count := by
  have divides := Nat.dvd_of_mod_eq_zero can.2.2
  rw [← ty.vectorFactor_mul_size] at divides
  exact Nat.div_mul_cancel (Nat.dvd_of_mul_dvd_mul_right ty.size_pos divides)

theorem CanVectorize.scalarTail_eq {sendAddress : Nat} (can : CanVectorize ty call sendAddress) :
    scalarTail ty launch call t = ([] : List (Instr Loc β Register)) := by
  have none_ : ∀ fuel start step, call.count ≤ start →
      strideFrom call.count step fuel start = [] := by
    intro fuel start step past
    cases fuel with
    | zero => rfl
    | succ fuel => rw [strideFrom, if_neg (Nat.not_lt_of_le past)]
  rw [scalarTail, can.whole, gridStride, none_ _ _ _ (Nat.le_add_right _ _)]
  rfl

/-- The index decides which thread of a rank copies an element. -/
def owner (ty : ElemType) (launch : Launch) (call : RunCollArgs) (sendAddress k : Nat) : Nat :=
  if CanVectorize ty call sendAddress then k / ty.vectorFactor % gridSize launch
  else k % gridSize launch

/-- A thread of the optimised kernel takes the indices that it owns. -/
theorem does_optimized (fits : Fits ty launch)
    (apart : call.sendPtr.buffer ≠ call.recvPtr.buffer) (mem : t ∈ launch.threads)
    (sendAddress : Nat) :
    Does (alltoAllWork β ty call) (nvlAlltoAllKernelOptimized ty launch call t sendAddress)
      (sendToAll launch.nRanks t.rank
        {k | k < call.count ∧ owner ty launch call sendAddress k = gridTid launch t}) := by
  unfold nvlAlltoAllKernelOptimized owner
  by_cases can : CanVectorize ty call sendAddress
  · simp only [can, if_true]
    rw [can.scalarTail_eq, List.append_nil, vectorChunks, groupedPeers_eq, sizeT_tid fits mem,
      sizeT_nthreads fits, sizeT_elementsPerIteration fits, List.flatMap_append,
      List.flatMap_assoc, List.flatMap_assoc]
    simp only [List.flatMap_map]
    have unrolled := does_unrolledChunks (β := β) fits apart mem
    have single := does_singleChunks (β := β) fits apart mem
    have whole := can.whole
    have inside : ∀ k, k / ty.vectorFactor < vectorCount ty call ↔ k < call.count := by
      intro k
      rw [Nat.div_lt_iff_lt_mul ty.vectorFactor_pos, whole]
    have aligned : alignedVectorCount ty launch call ≤ vectorCount ty call := by
      rw [alignedVectorCount_eq fits]
      exact Nat.div_mul_le_self _ _
    refine (unrolled.append single (alltoAllWork_separate apart) ?_ ?_ ?_).congr ?_
    · rintro x ⟨-, -, below, -⟩
      exact (inside _).1 (below.trans_le aligned)
    · rintro x ⟨-, -, -, below, -⟩
      exact (inside _).1 below
    · rw [Set.disjoint_left]
      rintro x ⟨-, -, below, -⟩ ⟨-, -, from_, -⟩
      exact absurd below (Nat.not_lt_of_le from_)
    · ext x
      simp only [sendToAll, Set.mem_union, Set.mem_ofPred_eq, ← inside]
      constructor
      · rintro (⟨rank, peer, below, own⟩ | ⟨rank, peer, -, below, own⟩)
        · exact ⟨rank, peer, below.trans_le aligned, own⟩
        · exact ⟨rank, peer, below, own⟩
      · rintro ⟨rank, peer, below, own⟩
        rcases Nat.lt_or_ge (x.k / ty.vectorFactor) (alignedVectorCount ty launch call)
          with first | second
        · exact .inl ⟨rank, peer, first, own⟩
        · exact .inr ⟨rank, peer, second, below, own⟩
  · simp only [can, if_false]
    exact does_scalarImpl fits apart mem

end Work

/-! ## All threads of all ranks -/

section AllThreads

variable {β : Type*} {ty : ElemType} {launch : Launch} {call : RunCollArgs}

/-- The blocks of all pairs of ranks. -/
def exchanged (launch : Launch) (call : RunCollArgs) : Set Transfer :=
  {x | x.rank < launch.nRanks ∧ x.peer < launch.nRanks ∧ x.k < call.count}

theorem gridTid_inj {t u : ThreadId} (memT : t ∈ launch.threads) (memU : u ∈ launch.threads)
    (rank : t.rank = u.rank) (same : gridTid launch t = gridTid launch u) : t = u := by
  obtain ⟨-, -, threadT⟩ := Launch.mem_threads.1 memT
  obtain ⟨-, -, threadU⟩ := Launch.mem_threads.1 memU
  rcases t with ⟨r, b, i⟩
  rcases u with ⟨r', b', i'⟩
  have rows : b * launch.blockDim + i = b' * launch.blockDim + i' := by
    simp only [gridTid, Nat.mul_comm launch.blockDim] at same
    omega
  obtain ⟨rfl, rfl⟩ := block_inj threadT threadU rows
  rw [ThreadId.mk.injEq]
  exact ⟨rank, rfl, rfl⟩

/-- Every number below the grid size is that of a thread. -/
theorem exists_gridTid {rank x : Nat} (mem : rank < launch.nRanks) (less : x < gridSize launch) :
    ∃ t ∈ launch.threads, t.rank = rank ∧ gridTid launch t = x := by
  rw [gridSize, Nat.mul_comm] at less
  obtain ⟨b, memB, i, memI, rfl⟩ := exists_block less
  refine ⟨⟨rank, b, i⟩, Launch.mem_threads.2 ⟨mem, memB, memI⟩, rfl, ?_⟩
  rw [gridTid, Nat.add_comm, Nat.mul_comm]

/-- Programs that take the indices of their rank by some rule share out the exchange. -/
theorem shares_exchanged {prog : ThreadId → List (Instr Loc β Register)} (rule : Nat → Nat → Nat)
    (apart : call.sendPtr.buffer ≠ call.recvPtr.buffer)
    (below : ∀ rank k, rule rank k < gridSize launch)
    (each : ∀ t ∈ launch.threads, Does (alltoAllWork β ty call) (prog t)
      (sendToAll launch.nRanks t.rank
        {k | k < call.count ∧ rule t.rank k = gridTid launch t})) :
    Shares (alltoAllWork β ty call) (exchanged launch call) launch.threads prog fun t =>
      sendToAll launch.nRanks t.rank
        {k | k < call.count ∧ rule t.rank k = gridTid launch t} where
  separate x memX y memY := alltoAllWork_separate apart x memX.2.2 y memY.2.2
  each := each
  sub := by
    rintro t mem x ⟨rank, peer, less, -⟩
    exact ⟨rank ▸ (Launch.mem_threads.1 mem).1, peer, less⟩
  once := by
    intro t memT u memU ne
    rw [Set.disjoint_left]
    rintro x ⟨rank, -, -, own⟩ ⟨rank', -, -, own'⟩
    have ranks := rank.symm.trans rank'
    rw [ranks] at own
    exact ne (gridTid_inj memT memU ranks (own.symm.trans own'))
  all := by
    rintro x ⟨rank, peer, less⟩
    obtain ⟨t, mem, rank_, own⟩ := exists_gridTid rank (below x.rank x.k)
    exact ⟨t, mem, rank_.symm, peer, less, by rw [rank_, own]⟩

/-- The optimised kernel on the device of each thread. -/
def optimizedThread (β : Type*) (ty : ElemType) (launch : Launch) (call : RunCollArgs)
    (lsa : LsaMapping) (t : ThreadId) : List (Instr Loc β Register) :=
  nvlAlltoAllKernelOptimized ty launch call t (lsa.address call.sendPtr t.rank t.rank)

theorem shares_optimized (lsa : LsaMapping) (fits : Fits ty launch)
    (apart : call.sendPtr.buffer ≠ call.recvPtr.buffer) :
    Shares (alltoAllWork β ty call) (exchanged launch call) launch.threads
      (optimizedThread β ty launch call lsa) fun t =>
        sendToAll launch.nRanks t.rank {k | k < call.count ∧
          owner ty launch call (lsa.address call.sendPtr t.rank t.rank) k = gridTid launch t} := by
  refine shares_exchanged
    (fun rank k => owner ty launch call (lsa.address call.sendPtr rank rank) k) apart
    (fun rank k => ?_) fun t mem => does_optimized fits apart mem _
  unfold owner
  split
  · exact Nat.mod_lt _ gridSize_pos
  · exact Nat.mod_lt _ gridSize_pos

theorem shares_scalarImpl (fits : Fits ty launch)
    (apart : call.sendPtr.buffer ≠ call.recvPtr.buffer) :
    Shares (alltoAllWork β ty call) (exchanged launch call) launch.threads
      (alltoAllScalarImpl ty launch call) fun t =>
        sendToAll launch.nRanks t.rank
          {k | k < call.count ∧ k % gridSize launch = gridTid launch t} :=
  shares_exchanged (fun _ k => k % gridSize launch) apart
    (fun _ _ => Nat.mod_lt _ gridSize_pos) fun _ mem => does_scalarImpl fits apart mem

theorem peer_lt_of_mem_vectorChunks {t : ThreadId} {chunk : VectorChunk}
    (mem : chunk ∈ vectorChunks ty launch call t) : chunk.peer < launch.nRanks := by
  rw [vectorChunks, groupedPeers_eq, List.mem_append, List.mem_flatMap, List.mem_flatMap] at mem
  rcases mem with ⟨base, -, inGroup⟩ | ⟨base, -, inGroup⟩
  · obtain ⟨peer, less, rfl⟩ := List.mem_map.1 inGroup
    exact List.mem_range.1 less
  · obtain ⟨peer, less, rfl⟩ := List.mem_map.1 inGroup
    exact List.mem_range.1 less

/-- Only the send address is checked, but blocks are whole vectors apart and the receive
addresses are as far from a multiple of the vector size. -/
theorem vectorAddresses_aligned {t : ThreadId} {sendAddress recvAddress : Nat}
    (can : CanVectorize ty call sendAddress)
    (congruent : recvAddress ≡ sendAddress [MOD ty.vectorSize]) (chunk : VectorChunk) (i : Nat) :
    ty.vectorSize ∣ chunk.loadAddress ty launch call sendAddress i ∧
      ty.vectorSize ∣ chunk.storeAddress ty launch call t recvAddress i := by
  have send : ty.vectorSize ∣ sendAddress := Nat.dvd_of_mod_eq_zero can.2.1
  have recv : ty.vectorSize ∣ recvAddress := (congruent.dvd_iff dvd_rfl).2 send
  have block : ty.vectorSize ∣ call.count * ty.size := Nat.dvd_of_mod_eq_zero can.2.2
  rw [VectorChunk.loadAddress, VectorChunk.storeAddress, Nat.mul_assoc, Nat.mul_assoc]
  exact ⟨((send.add (block.mul_left _)).add (Nat.dvd_mul_left _ _)),
    ((recv.add (block.mul_left _)).add (Nat.dvd_mul_left _ _))⟩

/-- **`NvlAlltoAllKernelOptimized` implements all-to-all.** Whether or not it can use
vectors, each element of each block is stored once by one thread and nothing else
is stored; every interleaving of all threads ends with all blocks exchanged, which
is the memory that `AlltoAllScalarImpl` leaves. All vector accesses are aligned.

The launch is out of place (`outOfPlace`), its grid is one that the index arithmetic holds
(`fits`: a round of all threads fits an `int`), and the windows of a rank's buffers are congruent
modulo the vector size (`congruent`), for only the send address is looked at. The chunks of the
vectors and the scalar tail divide the elements of a block among the threads, so that the shares
of the threads are disjoint and together all blocks (`Shares`). -/
theorem nvlAlltoAllKernelOptimized_alltoAll (ty : ElemType) (launch : Launch) (call : RunCollArgs)
    (lsa : LsaMapping) (fits : Fits ty launch)
    (outOfPlace : call.sendPtr.buffer ≠ call.recvPtr.buffer)
    (congruent : ∀ rank < launch.nRanks, ∀ peer < launch.nRanks,
      lsa.address call.recvPtr rank peer ≡ lsa.address call.sendPtr rank rank
        [MOD ty.vectorSize]) :
    (∀ p < launch.nRanks, ∀ r < launch.nRanks, ∀ k < call.count,
      ∑ t ∈ launch.threads, (writes (optimizedThread β ty launch call lsa t)).count
        (elem call.recvPtr ty.size p (r * call.count + k)) = 1) ∧
    (∀ l, (∀ p < launch.nRanks, ∀ r < launch.nRanks, ∀ k < call.count,
        l ≠ elem call.recvPtr ty.size p (r * call.count + k)) →
      ∑ t ∈ launch.threads, (writes (optimizedThread β ty launch call lsa t)).count l = 0) ∧
    (∀ regs₀ (m₀ : Mem β) s,
      Reachable launch.threads (optimizedThread β ty launch call lsa) regs₀ m₀ s →
      (¬ s.Finished launch.threads → ∃ s', Step launch.threads s s' ∧
        s'.remaining launch.threads < s.remaining launch.threads) ∧
      (s.Finished launch.threads →
        (∀ p < launch.nRanks, ∀ r < launch.nRanks, ∀ k < call.count,
          s.mem (elem call.recvPtr ty.size p (r * call.count + k)) =
            m₀ (elem call.sendPtr ty.size r (p * call.count + k))) ∧
        (∀ l, (∀ p < launch.nRanks, ∀ r < launch.nRanks, ∀ k < call.count,
          l ≠ elem call.recvPtr ty.size p (r * call.count + k)) → s.mem l = m₀ l) ∧
        ∀ regs₀' s', Reachable launch.threads (alltoAllScalarImpl ty launch call) regs₀' m₀ s' →
          s'.Finished launch.threads → s.mem = s'.mem)) ∧
    ∀ t ∈ launch.threads, CanVectorize ty call (lsa.address call.sendPtr t.rank t.rank) →
      ∀ chunk ∈ vectorChunks ty launch call t, ∀ i < chunk.lanes,
        ty.vectorSize ∣
          chunk.loadAddress ty launch call (lsa.address call.sendPtr t.rank t.rank) i ∧
        ty.vectorSize ∣
          chunk.storeAddress ty launch call t (lsa.address call.recvPtr t.rank chunk.peer) i := by
  have shares := shares_optimized (β := β) lsa fits outOfPlace
  have outside : ∀ l, (∀ p < launch.nRanks, ∀ r < launch.nRanks, ∀ k < call.count,
      l ≠ elem call.recvPtr ty.size p (r * call.count + k)) →
      ∀ x ∈ exchanged launch call, l ∉ (alltoAllWork β ty call).outs x :=
    fun l other x mem same => other x.peer mem.2.1 x.rank mem.1 x.k mem.2.2 same
  refine ⟨fun p memP r memR k memK => ?_, fun l other => ?_, fun regs₀ m₀ s reach => ⟨?_, ?_⟩, ?_⟩
  · exact shares.writes_once (k := ⟨r, p, k⟩) ⟨memR, memP, memK⟩ rfl
  · exact shares.writes_frame (outside l other)
  · exact State.progress
  · intro finished
    obtain ⟨done, frame⟩ := shares.finished reach finished
    refine ⟨fun p memP r memR k memK => done ⟨r, p, k⟩ ⟨memR, memP, memK⟩ _ rfl,
      fun l other => frame l (outside l other), fun regs₀' s' reach' finished' => ?_⟩
    exact shares.mem_eq (shares_scalarImpl fits outOfPlace) reach finished reach' finished'
  · intro t mem can chunk inChunks i _
    exact vectorAddresses_aligned can
      (congruent t.rank (Launch.mem_threads.1 mem).1 chunk.peer
        (peer_lt_of_mem_vectorChunks inChunks)) chunk i

/-- Two ranks exchange six vectors of floats each with three threads; rank 1's sixth element comes
from rank 0 and is written once. -/
theorem nvlAlltoAllKernelOptimized_alltoAll_float :
    ∑ t ∈ (⟨2, 1, 3, by decide, by decide⟩ : Launch).threads,
      (writes (optimizedThread Nat .float ⟨2, 1, 3, by decide, by decide⟩
        ⟨false, 0, 16, 0, 32, 24⟩ (fun _ peer _ => 4096 * peer) t)).count
          (elem ⟨.recvbuff, 32⟩ 4 1 (0 * 24 + 5)) = 1 :=
  (nvlAlltoAllKernelOptimized_alltoAll .float ⟨2, 1, 3, by decide, by decide⟩
    ⟨false, 0, 16, 0, 32, 24⟩ (fun _ peer _ => 4096 * peer) (by unfold Fits; decide) (by decide)
    (by unfold Nat.ModEq; decide)).1 1 (by decide) 0 (by decide) 5 (by decide)

end AllThreads

end NcclTests.Device
