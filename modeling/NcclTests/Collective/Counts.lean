import Mathlib
import NcclTests.Lib.BitMask
import NcclTests.Lib.MachineInt

/-!
# Element counts of the collectives

Every test defines five counts: what a rank sends, what it receives, what is
passed to the collective, and how far the in-place buffers of neighbouring ranks
are apart. Counts are in elements of `eltSize` bytes.

`size_t` and `int` values are natural numbers: no product below exceeds the size
of the buffers. The shares of `alltoallv`, which the source computes in `double`,
are exact rationals.
-/

namespace NcclTests.Collective

/-- The output parameters of the `GetCollByteCount` functions. -/
structure CollByteCount where
  sendcount : Nat
  recvcount : Nat
  paramcount : Nat
  sendInplaceOffset : Nat
  recvInplaceOffset : Nat
  deriving DecidableEq, Repr

/-- `(count/nranks) & ~(16/eltSize - 1)`. -/
def alignedBase (count eltSize nranks : Nat) : Nat :=
  Nat.ldiff (count / nranks) (16 / eltSize - 1)

/-! ## Collectives that move the whole buffer -/

def wholeCount (count : Nat) : CollByteCount where
  sendcount := count
  recvcount := count
  paramcount := count
  sendInplaceOffset := 0
  recvInplaceOffset := 0

def allReduceGetCollByteCount (count _eltSize _nranks : Nat) : CollByteCount := wholeCount count

def broadcastGetCollByteCount (count _eltSize _nranks : Nat) : CollByteCount := wholeCount count

def reduceGetCollByteCount (count _eltSize _nranks : Nat) : CollByteCount := wholeCount count

def sendRecvGetCollByteCount (count _eltSize _nranks : Nat) : CollByteCount := wholeCount count

/-! ## Collectives that concatenate or cut up -/

def concatCount (base nranks : Nat) : CollByteCount where
  sendcount := base
  recvcount := base * nranks
  paramcount := base
  sendInplaceOffset := base
  recvInplaceOffset := 0

def cutCount (base nranks : Nat) : CollByteCount where
  sendcount := base * nranks
  recvcount := base
  paramcount := base
  sendInplaceOffset := 0
  recvInplaceOffset := base

def allGatherGetCollByteCount (count eltSize nranks : Nat) : CollByteCount :=
  concatCount (alignedBase count eltSize nranks) nranks

def gatherGetCollByteCount (count eltSize nranks : Nat) : CollByteCount :=
  concatCount (alignedBase count eltSize nranks) nranks

def hyperCubeGetCollByteCount (count eltSize nranks : Nat) : CollByteCount :=
  concatCount (alignedBase count eltSize nranks) nranks

def reduceScatterGetCollByteCount (count eltSize nranks : Nat) : CollByteCount :=
  cutCount (alignedBase count eltSize nranks) nranks

def scatterGetCollByteCount (count eltSize nranks : Nat) : CollByteCount :=
  cutCount (alignedBase count eltSize nranks) nranks

def alltoAllGetCollByteCount (count eltSize nranks : Nat) : CollByteCount where
  sendcount := nranks * alignedBase count eltSize nranks
  recvcount := nranks * alignedBase count eltSize nranks
  paramcount := alignedBase count eltSize nranks
  sendInplaceOffset := 0
  recvInplaceOffset := 0

/-! ## The irregular exchange -/

/-- What rank `i` sends to rank `j`, in bytes, by the traffic matrix. The index is an `int`, which
is exact for matrices of at most 46340 rows; outside the array there is nothing. -/
def alltoAllvGetPeerBytesFromMatrix {β : Type} [Zero β] (data : List β) (dim : Int) (i j : Nat) :
    β :=
  let index := int32 (int32 (i * dim) + j)
  if index < 0 then 0 else data.getD index.toNat 0

theorem alltoAllvGetPeerBytesFromMatrix_eq {β : Type} [Zero β] (data : List β) {dim i j : Nat}
    (small : dim * dim < 2 ^ 31) (memI : i < dim) (memJ : j < dim) :
    alltoAllvGetPeerBytesFromMatrix data dim i j = data.getD (i * dim + j) 0 := by
  have row : (i + 1) * dim ≤ dim * dim := Nat.mul_le_mul_right dim memI
  rw [Nat.succ_mul] at row
  have first : int32 ((i : Int) * dim) = (i * dim : Nat) := by
    rw [← Nat.cast_mul]
    exact int32_of_lt (by omega)
  have index : int32 (((i * dim : Nat) : Int) + j) = (i * dim + j : Nat) := by
    rw [← Nat.cast_add]
    exact int32_of_lt (by omega)
  rw [alltoAllvGetPeerBytesFromMatrix, first, index, if_neg (by omega), Int.toNat_natCast]

/-- What rank `i` sends to rank `j`, in bytes, with weight `spread` on distance. -/
def alltoAllvGetPeerBytesDistanceWeighted (spread : ℚ) (i j nranks totalBytes : Nat) : Nat :=
  if nranks = 1 then Nat.ldiff totalBytes 15
  else
    let distance := (j + nranks - i) % nranks
    let sumDistances := nranks * (nranks - 1) / 2
    let uniform : ℚ := totalBytes / nranks
    let dist : ℚ := distance * totalBytes / sumDistances
    let bytes : ℚ := (1 - spread) * uniform + spread * dist
    Nat.ldiff ⌊bytes⌋₊ 15

/-- The counts of a generated pattern: one rank's total stands for all. -/
def alltoAllvComputeMaxCounts (spread : ℚ) (eltSize nranks totalBytes : Nat) : Nat :=
  ∑ j ∈ Finset.range nranks,
    alltoAllvGetPeerBytesDistanceWeighted spread 0 j nranks totalBytes / eltSize

def alltoAllvGetCollByteCount (spread : ℚ) (count eltSize nranks : Nat) : CollByteCount :=
  let paramcount := alignedBase count eltSize nranks
  let totalBytes := paramcount * nranks * eltSize
  let rankTotal := alltoAllvComputeMaxCounts spread eltSize nranks totalBytes
  { sendcount := rankTotal
    recvcount := rankTotal
    paramcount := paramcount
    sendInplaceOffset := 0
    recvInplaceOffset := 0 }

/-! ## All tests -/

/-- The collective tests. -/
inductive Coll
  | allReduce | allGather | reduceScatter | broadcast | reduce | alltoAll | alltoAllv
  | gather | scatter | sendRecv | hyperCube
  deriving DecidableEq, Repr

/-- `collTest->getCollByteCount`. -/
def Coll.getCollByteCount (coll : Coll) (spread : ℚ) (count eltSize nranks : Nat) :
    CollByteCount :=
  match coll with
  | allReduce => allReduceGetCollByteCount count eltSize nranks
  | allGather => allGatherGetCollByteCount count eltSize nranks
  | reduceScatter => reduceScatterGetCollByteCount count eltSize nranks
  | broadcast => broadcastGetCollByteCount count eltSize nranks
  | reduce => reduceGetCollByteCount count eltSize nranks
  | alltoAll => alltoAllGetCollByteCount count eltSize nranks
  | alltoAllv => alltoAllvGetCollByteCount spread count eltSize nranks
  | gather => gatherGetCollByteCount count eltSize nranks
  | scatter => scatterGetCollByteCount count eltSize nranks
  | sendRecv => sendRecvGetCollByteCount count eltSize nranks
  | hyperCube => hyperCubeGetCollByteCount count eltSize nranks

/-- `ncclTestEngine.getBuffSize`: the counts at element size one. -/
def Coll.getBuffSize (coll : Coll) (spread : ℚ) (count nranks : Nat) : Nat × Nat :=
  let counts := coll.getCollByteCount spread count 1 nranks
  (counts.sendcount, counts.recvcount)

/-! ## The aligned base -/

section AlignedBase

variable {eltSize : Nat}

/-- Element sizes divide the alignment. -/
theorem sixteen_div_mul (size : eltSize ∈ ({1, 2, 4, 8} : Finset Nat)) :
    16 / eltSize * eltSize = 16 := by
  fin_cases size <;> rfl

theorem eltSize_pos (size : eltSize ∈ ({1, 2, 4, 8} : Finset Nat)) : 0 < eltSize := by
  fin_cases size <;> decide

/-- The size of `int32`, `uint32` and `float`. -/
theorem four_mem_eltSizes : 4 ∈ ({1, 2, 4, 8} : Finset Nat) := by decide

/-- Rounding the elements of one rank down to a multiple of sixteen bytes. -/
theorem alignedBase_eq (size : eltSize ∈ ({1, 2, 4, 8} : Finset Nat)) (count nranks : Nat) :
    alignedBase count eltSize nranks = count / nranks / (16 / eltSize) * (16 / eltSize) := by
  obtain ⟨k, power⟩ : ∃ k, 16 / eltSize = 2 ^ k := by
    fin_cases size
    · exact ⟨4, rfl⟩
    · exact ⟨3, rfl⟩
    · exact ⟨2, rfl⟩
    · exact ⟨1, rfl⟩
  rw [alignedBase, power, BitMask.ldiff_two_pow_sub_one]

/-- In bytes the base does not depend on the element size. -/
theorem alignedBase_mul (size : eltSize ∈ ({1, 2, 4, 8} : Finset Nat)) (bytes nranks : Nat) :
    alignedBase (bytes / eltSize) eltSize nranks * eltSize = bytes / (nranks * 16) * 16 := by
  rw [alignedBase_eq size, Nat.mul_assoc, sixteen_div_mul size, Nat.div_div_eq_div_mul,
    Nat.div_div_eq_div_mul, Nat.mul_comm eltSize, Nat.mul_assoc, sixteen_div_mul size]

end AlignedBase

end NcclTests.Collective
