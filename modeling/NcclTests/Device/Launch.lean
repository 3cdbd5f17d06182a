import Mathlib
import NcclTests.Lib.MachineInt
import NcclTests.Collective.Memory

/-!
# Launching device kernels

All ranks launch a kernel with the same grid. The memory of the kernels holds
elements: the element `k` behind a pointer is at the byte `k * sizeof(T)`. A
vector is `VECTOR_FACTOR` elements, and an access to it is one access to each of
them, which may be interleaved with those of other threads.
-/

namespace NcclTests.Device

open Collective

/-- The element types that the kernels are specialised for. -/
inductive ElemType
  | int8 | uint8 | int32 | uint32 | int64 | uint64 | half | float | double
  deriving DecidableEq, Repr

namespace ElemType

/-- `sizeof(T)`. -/
def size : ElemType → Nat
  | int8 | uint8 => 1
  | half => 2
  | int32 | uint32 | float => 4
  | int64 | uint64 | double => 8

/-- `sizeof(VectorTypeMapping<T>::Type)`. -/
def vectorSize : ElemType → Nat
  | int8 | uint8 => 4
  | half => 2
  | int32 | uint32 | float | double => 16
  | int64 | uint64 => 8

/-- `VECTOR_FACTOR`. -/
def vectorFactor (ty : ElemType) : Nat := ty.vectorSize / ty.size

/-- `UNROLL_FACTOR`. -/
def unrollFactor (ty : ElemType) : Nat := 128 / ty.vectorSize

variable (ty : ElemType)

theorem size_pos : 0 < ty.size := by cases ty <;> decide

theorem vectorFactor_pos : 0 < ty.vectorFactor := by cases ty <;> decide

theorem unrollFactor_pos : 0 < ty.unrollFactor := by cases ty <;> decide

theorem vectorFactor_mul_size : ty.vectorFactor * ty.size = ty.vectorSize := by
  cases ty <;> rfl

end ElemType

/-- The grid that all ranks launch. -/
structure Launch where
  nRanks : Nat
  gridDim : Nat
  blockDim : Nat
  gridDim_pos : 0 < gridDim
  blockDim_pos : 0 < blockDim

structure ThreadId where
  rank : Nat
  blockIdx : Nat
  threadIdx : Nat
  deriving DecidableEq, Repr

namespace Launch

variable (launch : Launch)

/-- The threads of all ranks. -/
def threads : Finset ThreadId :=
  (Finset.range launch.nRanks ×ˢ Finset.range launch.gridDim ×ˢ
    Finset.range launch.blockDim).image fun t => ⟨t.1, t.2.1, t.2.2⟩

variable {launch}

theorem mem_threads {t : ThreadId} :
    t ∈ launch.threads ↔
      t.rank < launch.nRanks ∧ t.blockIdx < launch.gridDim ∧ t.threadIdx < launch.blockDim := by
  simp only [threads, Finset.mem_image, Finset.mem_product, Finset.mem_range, Prod.exists]
  constructor
  · rintro ⟨rank, blockIdx, threadIdx, inside, rfl⟩
    exact inside
  · intro inside
    exact ⟨t.rank, t.blockIdx, t.threadIdx, inside, rfl⟩

end Launch

/-- Registers: the index of an unrolled loop and the component of a vector. -/
abbrev Register := Nat × Nat

/-- The registers of `lanes` vectors. -/
def vectorRegisters (lanes vectorFactor : Nat) : List Register :=
  List.range lanes ×ˢ List.range vectorFactor

theorem mem_vectorRegisters {lanes vectorFactor : Nat} {r : Register} :
    r ∈ vectorRegisters lanes vectorFactor ↔ r.1 < lanes ∧ r.2 < vectorFactor := by
  rcases r with ⟨i, e⟩
  simp only [vectorRegisters, List.mem_product, List.mem_range]

theorem vectorRegisters_nodup (lanes vectorFactor : Nat) :
    (vectorRegisters lanes vectorFactor).Nodup :=
  List.nodup_range.product List.nodup_range

/-- The element `k` behind a pointer to elements of `size` bytes. -/
def elem (p : Ptr) (size rank k : Nat) : Loc := p.loc rank (k * size)

theorem elem_inj {p : Ptr} {size rank rank' k k' : Nat} (pos : 0 < size)
    (same : elem p size rank k = elem p size rank' k') : rank = rank' ∧ k = k' := by
  obtain ⟨ranks, bytes⟩ := Ptr.loc_inj.1 same
  exact ⟨ranks, Nat.eq_of_mul_eq_mul_right pos bytes⟩

theorem elem_ne {p q : Ptr} {size rank rank' k k' : Nat} (apart : p.buffer ≠ q.buffer) :
    elem p size rank k ≠ elem q size rank' k' :=
  fun same => apart (congrArg Loc.buffer same)

/-- Where the buffers of a rank are mapped on the device of another one. -/
abbrev LsaMapping := Nat → Nat → Buffer → Nat

/-- The address that `ncclGetLsaPointer` returns on rank `viewer` for `peer`. -/
def LsaMapping.address (lsa : LsaMapping) (p : Ptr) (viewer peer : Nat) : Nat :=
  lsa viewer peer p.buffer + p.offset

end NcclTests.Device
