import Mathlib
import NcclTests.Lib.Segments
import NcclTests.Lib.Stores
import NcclTests.Lib.StrideLoop
import NcclTests.Verifiable.Random

/-!
# Generating and verifying data

The kernels of `verifiable/verifiable.cu` and their launches. All of them share out the
elements in the same way: a range for each block, and in it a stride for each thread.

An element is its bit pattern. What `genInput<T>` and `genOutput<T>` generate is a
parameter here, as in the kernels, which are templates over it. Indices and counts are
natural numbers: a loop variable stays below `elt_n + blockDim.x`, and `elt_n` elements
fit in memory.
-/

namespace NcclTests.Verifiable

open StrideLoop

/-! ## The types -/

/-- `ncclDataType_t`. -/
inductive DataType
  | int8 | uint8 | int32 | uint32 | int64 | uint64
  | float16 | bfloat16 | float8e4m3 | float8e5m2 | float32 | float64
  deriving DecidableEq, Repr

namespace DataType

/-- `sizeof(T)`. -/
def sizeof : DataType → Nat
  | int8 | uint8 | float8e4m3 | float8e5m2 => 1
  | float16 | bfloat16 => 2
  | int32 | uint32 | float32 => 4
  | int64 | uint64 | float64 => 8

/-- The `floating` of `ncclVerifiableVerify`. -/
def floating : DataType → Bool
  | int8 | uint8 | int32 | uint32 | int64 | uint64 => false
  | float16 | bfloat16 | float8e4m3 | float8e5m2 | float32 | float64 => true

/-- The bits of the `Uint` that `CASE_TY` names beside `T`. -/
def uintBits : DataType → Nat
  | int8 => 8
  | uint8 => 8
  | int32 => 32
  | uint32 => 32
  | int64 => 64
  | uint64 => 64
  | float16 => 16
  | float8e4m3 => 8
  | float8e5m2 => 8
  | bfloat16 => 16
  | float32 => 32
  | float64 => 64

/-- A value of type `T`. -/
abbrev Bits (T : DataType) : Type := BitVec (8 * T.sizeof)

/-- `T` and `Uint` have one size, so that a union of them turns one into the other. -/
theorem uintBits_eq (T : DataType) : 8 * T.sizeof = T.uintBits := by cases T <;> rfl

end DataType

/-- `red_op`; what is none of the operations named is premultiplied. -/
inductive RedOp
  | sum | prod | max | min | avg | preMulSum
  deriving DecidableEq, Repr

/-- The functors of the reductions. -/
inductive ReduceFn
  | nil | sum | min | max | prod | avg (rankN : Int) | preMulSum
  deriving DecidableEq, Repr

/-- `CASE_OP`. -/
def RedOp.reduceFn (redOp : RedOp) (rankN : Int) : ReduceFn :=
  if rankN = 1 then .nil
  else
    match redOp with
    | sum => .sum
    | min => .min
    | max => .max
    | prod => .prod
    | avg => .avg rankN
    | preMulSum => .preMulSum

/-- `genInput<T>` and `genOutput<T>` of operation, `rank_n`, `rank_me`, `seed` and `index`. -/
structure Generators where
  genInput (T : DataType) (op : ReduceFn) (rankN rankMe : Int) (seed : BitVec 64) (index : Int) :
    T.Bits
  genOutput (T : DataType) (op : ReduceFn) (rankN : Int) (seed : BitVec 64) (index : Int) : T.Bits

/-! ## The kernels -/

structure Grid where
  gridDim : Nat
  blockDim : Nat
  gridDim_pos : 0 < gridDim
  blockDim_pos : 0 < blockDim

/-- `blockIdx.x` and `threadIdx.x` of all threads. -/
def Grid.threads (grid : Grid) : List (Nat × Nat) :=
  List.range grid.gridDim ×ˢ List.range grid.blockDim

/-- `i0` of a block; the `i1` of a block is that of the next one. -/
def blockStart (eltN gridDim blockIdx : Nat) : Nat :=
  blockIdx * (eltN / gridDim) +
    if blockIdx < eltN % gridDim then blockIdx else eltN % gridDim

/-- The values of `i` in the loop of a thread. -/
def indices (grid : Grid) (eltN : Nat) (thread : Nat × Nat) : List Nat :=
  gridStride (blockStart eltN grid.gridDim thread.1 + thread.2)
    (blockStart eltN grid.gridDim (thread.1 + 1)) grid.blockDim

/-- The stores to `elts` of a thread that generates elements. -/
def prepare {β : Type*} (gen : Int → β) (grid : Grid) (eltN : Nat) (eltIx0 : Int)
    (thread : Nat × Nat) : List (Nat × β) :=
  (indices grid eltN thread).map fun i => (i, gen (eltIx0 + i))

/-- One turn of a verifying loop adds to `bad`. -/
def mismatch {w : Nat} (tolerance : Nat) (a b : BitVec w) : Nat :=
  let delta := if a < b then b - a else a - b
  if tolerance < delta.toNat then 1 else 0

section Kernels

variable (gen : Generators) (T : DataType) (op : ReduceFn) (rankN rankMe : Int) (seed : BitVec 64)

def prepareInput2 : Grid → Nat → Int → Nat × Nat → List (Nat × T.Bits) :=
  prepare (gen.genInput T op rankN rankMe seed)

def prepareExpected2 : Grid → Nat → Int → Nat × Nat → List (Nat × T.Bits) :=
  prepare (gen.genOutput T op rankN seed)

/-- What a thread adds to `*bad_elt_n`. -/
def verifyPrepared {w : Nat} (results expected : Nat → BitVec w) (tolerance : Nat) (grid : Grid)
    (eltN : Nat) (thread : Nat × Nat) : Nat :=
  (indices grid eltN thread).foldl
    (fun bad i => bad + mismatch tolerance (results i) (expected i)) 0

/-- What a thread adds to `*bad_elt_n`. The union of `T` and `Uint` is a cast. -/
def verifyInline2 {uint : Nat} (same : 8 * T.sizeof = uint) (results : Nat → T.Bits)
    (eltIx0 : Int) (tolerance : Nat) (grid : Grid) (eltN : Nat) (thread : Nat × Nat) : Nat :=
  (indices grid eltN thread).foldl
    (fun bad i => bad + mismatch tolerance ((results i).cast same)
      ((gen.genOutput T op rankN seed (eltIx0 + i)).cast same)) 0

end Kernels

/-! ## The launches -/

/-- A kernel that stores to `elts` may turn it into `elts'`: the stores of all threads are
performed in some order. -/
def StoreKernel {β : Type*} (kernel : Grid → Nat → Int → Nat × Nat → List (Nat × β)) (grid : Grid)
    (eltN : Nat) (eltIx0 : Int) (elts elts' : Nat → β) : Prop :=
  ∃ order : List (Nat × β), order.Perm (grid.threads.flatMap (kernel grid eltN eltIx0)) ∧
    elts' = Stores.run order elts

/-- A kernel that counts may turn `*bad_elt_n` into `bad'`: the threads add to it in some
order. -/
def CountKernel (kernel : Grid → Nat → Nat × Nat → Nat) (grid : Grid) (eltN bad bad' : Nat) :
    Prop :=
  ∃ order : List (Nat × Nat), order.Perm grid.threads ∧
    bad' = order.foldl (fun total thread => total + kernel grid eltN thread) bad

/-- `std::min<intptr_t>(32, (elt_n + 4*512-1)/(4*512))`. -/
def blockN (eltN : Nat) : Nat := min 32 ((eltN + 4 * 512 - 1) / (4 * 512))

/-- `grid` and `block` of a host function, when there is a block at all. -/
def hostGrid (eltN : Nat) : Option Grid :=
  if some_ : 0 < blockN eltN then some ⟨blockN eltN, 512, some_, by decide⟩ else none

section Host

variable (gen : Generators) (T : DataType) (redOp : RedOp) (rankN rankMe : Int) (seed : BitVec 64)

/-- `prepareInput1` and `prepareExpected1`. -/
def Prepare {β : Type*} (kernel : Grid → Nat → Int → Nat × Nat → List (Nat × β)) (eltN : Nat)
    (eltIx0 : Int) (elts elts' : Nat → β) : Prop :=
  match hostGrid eltN with
  | none => elts' = elts
  | some grid => StoreKernel kernel grid eltN eltIx0 elts elts'

def NcclVerifiablePrepareInput : Nat → Int → (Nat → T.Bits) → (Nat → T.Bits) → Prop :=
  Prepare (prepareInput2 gen T (redOp.reduceFn rankN) rankN rankMe seed)

def NcclVerifiablePrepareExpected : Nat → Int → (Nat → T.Bits) → (Nat → T.Bits) → Prop :=
  Prepare (prepareExpected2 gen T (redOp.reduceFn rankN) rankN seed)

/-- `tolerance` of `ncclVerifiableVerify`. -/
def tolerance : Nat := if T.floating && redOp == .avg then 2 else 0

/-- `verifyPrepared1`: the words that are compared are chosen by their size. Other sizes are
an error. -/
def verifyPrepared1 (bytePerElt : Nat) (results expected : Nat → BitVec (8 * bytePerElt))
    (tolerance : Nat) : Option (Grid → Nat → Nat × Nat → Nat) :=
  match bytePerElt, results, expected with
  | 1, results, expected => some (verifyPrepared (w := 8) results expected tolerance)
  | 2, results, expected => some (verifyPrepared (w := 16) results expected tolerance)
  | 4, results, expected => some (verifyPrepared (w := 32) results expected tolerance)
  | 8, results, expected => some (verifyPrepared (w := 64) results expected tolerance)
  | _, _, _ => none

/-- The launch of `verifyPrepared1` and `verifyInline1`, with `*bad_elt_n` set to zero before. -/
def Count (kernel : Grid → Nat → Nat × Nat → Nat) (eltN bad : Nat) : Prop :=
  match hostGrid eltN with
  | none => bad = 0
  | some grid => CountKernel kernel grid eltN 0 bad

/-- `ncclVerifiableVerify` may leave `bad` in `*bad_elt_n`; `expected` is `none` for a null
pointer. -/
def NcclVerifiableVerify (results : Nat → T.Bits) (expected : Option (Nat → T.Bits)) (eltN : Nat)
    (eltIx0 : Int) (bad : Nat) : Prop :=
  let kernel :=
    match expected with
    | some expected => verifyPrepared1 T.sizeof results expected (tolerance T redOp)
    | none => some (verifyInline2 gen T (redOp.reduceFn rankN) rankN seed T.uintBits_eq results
        eltIx0 (tolerance T redOp))
  ∃ launched, kernel = some launched ∧ Count launched eltN bad

end Host

/-! ## The split -/

section Split

variable {n g b i : Nat} {grid : Grid} {eltN : Nat} {thread : Nat × Nat}

/-- How many elements a block takes. -/
def blockSize (eltN gridDim blockIdx : Nat) : Nat :=
  eltN / gridDim + if blockIdx < eltN % gridDim then 1 else 0

/-- The ranges of the blocks are in a row. -/
theorem blockStart_eq_start : blockStart n g b = Segments.start (blockSize n g) b := by
  induction b with
  | zero => simp [blockStart]
  | succ b ih =>
    rw [Segments.start_succ, ← ih, blockStart, blockStart, blockSize, Nat.succ_mul]
    split <;> split <;> omega

theorem blockStart_last (pos : 0 < g) : blockStart n g g = n := by
  have less := Nat.mod_lt n pos
  rw [blockStart, if_neg (by omega), Nat.div_add_mod]

theorem mem_indices (inside : thread.2 < grid.blockDim) :
    i ∈ indices grid eltN thread ↔
      blockStart eltN grid.gridDim thread.1 ≤ i ∧
        i < blockStart eltN grid.gridDim (thread.1 + 1) ∧
        (i - blockStart eltN grid.gridDim thread.1) % grid.blockDim = thread.2 :=
  mem_gridStride_from inside

/-- Different threads take different elements. -/
theorem indices_disjoint {thread' : Nat × Nat} (inside : thread.2 < grid.blockDim)
    (inside' : thread'.2 < grid.blockDim) (other : thread ≠ thread') :
    List.Disjoint (indices grid eltN thread) (indices grid eltN thread') := by
  intro i mem mem'
  obtain ⟨from_, below, place⟩ := (mem_indices inside).1 mem
  obtain ⟨from', below', place'⟩ := (mem_indices inside').1 mem'
  rw [blockStart_eq_start] at from_ below place from' below' place'
  set size := blockSize eltN grid.gridDim
  rw [Segments.start_succ] at below below'
  have fits : i - Segments.start size thread.1 < size thread.1 := by omega
  have fits' : i - Segments.start size thread'.1 < size thread'.1 := by omega
  have blocks : thread.1 = thread'.1 := (Segments.place_inj fits fits' (by omega)).1
  refine other (Prod.ext blocks ?_)
  rw [← place, ← place', blocks]

/-- **Every element falls to one thread, once.** -/
theorem indices_perm (grid : Grid) (eltN : Nat) :
    (grid.threads.flatMap (indices grid eltN)).Perm (List.range eltN) := by
  have below {thread : Nat × Nat} (mem : thread ∈ grid.threads) :
      thread.1 < grid.gridDim ∧ thread.2 < grid.blockDim := by
    rw [Grid.threads, List.mem_product, List.mem_range, List.mem_range] at mem
    exact mem
  have apart : grid.threads.Pairwise
      (Function.onFun List.Disjoint (indices grid eltN)) :=
    (List.nodup_range.product List.nodup_range).pairwise_of_forall_ne
      fun _ mem _ mem' other => indices_disjoint (below mem).2 (below mem').2 other
  have nodup : (grid.threads.flatMap (indices grid eltN)).Nodup :=
    List.nodup_flatMap.2
      ⟨fun _ _ => (pairwise_gridStride grid.blockDim_pos).imp Nat.ne_of_lt, apart⟩
  refine (List.perm_ext_iff_of_nodup nodup List.nodup_range).2 fun i => ?_
  rw [List.mem_flatMap, List.mem_range]
  constructor
  · rintro ⟨thread, mem, inside⟩
    have last : blockStart eltN grid.gridDim (thread.1 + 1) ≤ eltN := by
      conv_rhs => rw [← @blockStart_last eltN _ grid.gridDim_pos]
      rw [blockStart_eq_start, blockStart_eq_start]
      exact Segments.start_mono (below mem).1
    have := ((mem_indices (below mem).2).1 inside).2.1
    omega
  · intro inside
    rw [← @blockStart_last eltN _ grid.gridDim_pos, blockStart_eq_start] at inside
    obtain ⟨block, memBlock, x, within, rfl⟩ := Segments.exists_place inside
    have lane := Nat.mod_lt x grid.blockDim_pos
    refine ⟨(block, x % grid.blockDim), ?_, (mem_indices lane).2 ?_⟩
    · rw [Grid.threads, List.mem_product]
      exact ⟨List.mem_range.2 memBlock, List.mem_range.2 lane⟩
    · dsimp only
      rw [blockStart_eq_start, blockStart_eq_start, Segments.start_succ, Nat.add_sub_cancel_left]
      exact ⟨Nat.le_add_right _ _, by omega, rfl⟩

end Split

/-! ## What is generated -/

section Generated

variable {β : Type*} {gen : Int → β} {grid : Grid} {eltN offset : Nat} {eltIx0 : Int}
  {elts elts' : Nat → β}

/-- The elements of a sequence in front of what was there. -/
def filled (gen : Int → β) (eltN : Nat) (eltIx0 : Int) (elts : Nat → β) : Nat → β :=
  fun i => if i < eltN then gen (eltIx0 + i) else elts i

theorem StoreKernel.eq_filled
    (run : StoreKernel (prepare gen) grid eltN eltIx0 elts elts') :
    elts' = filled gen eltN eltIx0 elts := by
  obtain ⟨order, perm, rfl⟩ := run
  have split_ := indices_perm grid eltN
  have stores : grid.threads.flatMap (prepare gen grid eltN eltIx0) =
      (grid.threads.flatMap (indices grid eltN)).map fun i : Nat => (i, gen (eltIx0 + i)) :=
    List.map_flatMap.symm
  rw [stores] at perm
  rw [Stores.run_perm (split_.nodup_iff.2 List.nodup_range) perm]
  funext i
  simp only [filled, split_.mem_iff, List.mem_range]

/-- Without a launch there is nothing to do. -/
theorem hostGrid_eq_none (none_ : hostGrid eltN = none) : eltN = 0 := by
  have zero : blockN eltN = 0 := by
    by_contra some_
    rw [hostGrid, dif_pos (Nat.pos_of_ne_zero some_)] at none_
    cases none_
  rw [blockN] at zero
  omega

theorem Prepare.eq_filled (run : Prepare (prepare gen) eltN eltIx0 elts elts') :
    elts' = filled gen eltN eltIx0 elts := by
  rw [Prepare] at run
  split at run
  · next none_ =>
    rw [run, hostGrid_eq_none none_]
    funext i
    exact (if_neg (Nat.not_lt_zero i)).symm
  · exact run.eq_filled

theorem prepare_filled (gen : Int → β) (eltN : Nat) (eltIx0 : Int) (elts : Nat → β) :
    Prepare (prepare gen) eltN eltIx0 elts (filled gen eltN eltIx0 elts) := by
  rw [Prepare]
  split
  · next none_ =>
    rw [hostGrid_eq_none none_]
    exact funext fun i => if_neg (Nat.not_lt_zero i)
  · next grid _ =>
    have run : StoreKernel (prepare gen) grid eltN eltIx0 elts _ :=
      ⟨_, List.Perm.refl _, rfl⟩
    exact ⟨_, List.Perm.refl _, run.eq_filled.symm⟩

/-- Memory after a call that got the pointer `elts + offset` and left `window` behind it. -/
def behind (offset : Nat) (window elts : Nat → β) : Nat → β :=
  fun j => if offset ≤ j then window (j - offset) else elts j

/-- Pieces of a sequence, one after the other: a call for each piece that gets the pointer
`elts + offset` and the index of its first element. -/
inductive Pieces (call : Nat → Int → (Nat → β) → (Nat → β) → Prop) (eltIx0 : Int) :
    Nat → List Nat → (Nat → β) → (Nat → β) → Prop
  | nil {offset : Nat} {elts : Nat → β} : Pieces call eltIx0 offset [] elts elts
  | cons {offset eltN : Nat} {eltNs : List Nat} {elts window elts' : Nat → β}
      (first : call eltN (eltIx0 + offset) (fun i => elts (offset + i)) window)
      (rest : Pieces call eltIx0 (offset + eltN) eltNs (behind offset window elts) elts') :
      Pieces call eltIx0 offset (eltN :: eltNs) elts elts'

/-- Generating pieces leaves what generating all of them at once does. -/
def Splittable (call : Nat → Int → (Nat → β) → (Nat → β) → Prop) : Prop :=
  ∀ eltIx0 eltNs elts pieces whole, Pieces call eltIx0 0 eltNs elts pieces →
    call eltNs.sum eltIx0 elts whole → pieces = whole

theorem Pieces.eq_filled {call : Nat → Int → (Nat → β) → (Nat → β) → Prop}
    (fills : ∀ eltN eltIx0 elts elts', call eltN eltIx0 elts elts' →
      elts' = filled gen eltN eltIx0 elts)
    {eltNs : List Nat} (run : Pieces call eltIx0 offset eltNs elts elts') :
    elts' = fun j => if offset ≤ j ∧ j < offset + eltNs.sum then gen (eltIx0 + j) else elts j := by
  induction run with
  | nil =>
    funext j
    rw [if_neg]
    rw [List.sum_nil]
    omega
  | @cons offset eltN eltNs elts window elts' first rest ih =>
    rw [ih, fills _ _ _ _ first]
    funext j
    rw [List.sum_cons]
    by_cases later : offset + eltN ≤ j
    · have same : behind offset (filled gen eltN (eltIx0 + offset) fun i => elts (offset + i))
          elts j = elts j := by
        rw [behind, if_pos (by omega), filled, if_neg (by omega),
          Nat.add_sub_cancel' (by omega)]
      rw [same]
      exact if_congr (by omega) rfl rfl
    · rw [if_neg (by omega), behind]
      by_cases inside : offset ≤ j
      · have index : eltIx0 + offset + (j - offset : Nat) = eltIx0 + j := by omega
        rw [if_pos inside, if_pos (by omega), filled, if_pos (by omega), index]
      · rw [if_neg inside, if_neg (by omega)]

theorem Splittable.of_fills {call : Nat → Int → (Nat → β) → (Nat → β) → Prop}
    (fills : ∀ eltN eltIx0 elts elts', call eltN eltIx0 elts elts' →
      elts' = filled gen eltN eltIx0 elts) : Splittable call := by
  intro eltIx0 eltNs elts pieces whole run once
  rw [run.eq_filled fills, fills _ _ _ _ once]
  funext j
  simp only [Nat.zero_le, true_and, Nat.zero_add, filled]

/-- A launch of a kernel with any grid. -/
def AnyGrid (kernel : Grid → Nat → Int → Nat × Nat → List (Nat × β)) (eltN : Nat) (eltIx0 : Int)
    (elts elts' : Nat → β) : Prop :=
  ∃ grid, StoreKernel kernel grid eltN eltIx0 elts elts'

theorem anyGrid_splittable : Splittable (AnyGrid (prepare gen)) :=
  Splittable.of_fills fun _ _ _ _ ⟨_, run⟩ => run.eq_filled

theorem prepare_splittable : Splittable (Prepare (prepare gen)) :=
  Splittable.of_fills fun _ _ _ _ run => run.eq_filled

end Generated

/-! ## What is counted -/

section Counted

variable {w : Nat} {a b : BitVec w} {grid : Grid} {eltN bad : Nat} {f : Nat → Nat}

/-- The elements that differ by more than the tolerance, their bit patterns read as numbers. -/
def badElts (tolerance : Nat) (results expected : Nat → BitVec w) (eltN : Nat) : Finset Nat :=
  (Finset.range eltN).filter fun i =>
    tolerance < ((results i).toNat - (expected i).toNat : Int).natAbs

/-- The difference that the kernels compute is exact. -/
theorem mismatch_eq (tolerance : Nat) (a b : BitVec w) :
    mismatch tolerance a b = if tolerance < (a.toNat - b.toNat : Int).natAbs then 1 else 0 := by
  have exact_ : (if a < b then b - a else a - b).toNat = (a.toNat - b.toNat : Int).natAbs := by
    split
    · next less =>
      rw [BitVec.toNat_sub_of_le (BitVec.le_of_lt less)]
      rw [BitVec.lt_def] at less
      omega
    · next more =>
      rw [BitVec.not_lt] at more
      rw [BitVec.toNat_sub_of_le more]
      rw [BitVec.le_def] at more
      omega
  simp only [mismatch, exact_]

theorem foldl_add {α : Type*} (g : α → Nat) (l : List α) (z : Nat) :
    l.foldl (fun z x => z + g x) z = z + (l.map g).sum := by
  induction l generalizing z with
  | nil => rfl
  | cons x l ih => rw [List.foldl_cons, ih, List.map_cons, List.sum_cons, Nat.add_assoc]

theorem sum_map_sum {α : Type*} (l : List α) (parts : α → List Nat) (f : Nat → Nat) :
    (l.map fun x => ((parts x).map f).sum).sum = ((l.flatMap parts).map f).sum := by
  induction l with
  | nil => rfl
  | cons x l ih =>
    rw [List.map_cons, List.sum_cons, ih, List.flatMap_cons, List.map_append, List.sum_append]

/-- Counts that the threads make of their own elements add up. -/
theorem countKernel_iff (f : Nat → Nat) :
    CountKernel (fun grid eltN thread =>
        (indices grid eltN thread).foldl (fun bad i => bad + f i) 0) grid eltN 0 bad ↔
      bad = ∑ i ∈ Finset.range eltN, f i := by
  have total {order : List (Nat × Nat)} (perm : order.Perm grid.threads) :
      order.foldl (fun total thread =>
        total + (indices grid eltN thread).foldl (fun bad i => bad + f i) 0) 0 =
      ∑ i ∈ Finset.range eltN, f i := by
    simp only [foldl_add, Nat.zero_add]
    rw [(perm.map _).sum_eq, sum_map_sum, ((indices_perm grid eltN).map f).sum_eq]
    rfl
  constructor
  · rintro ⟨order, perm, rfl⟩
    exact total perm
  · rintro rfl
    exact ⟨grid.threads, List.Perm.refl _, (total (List.Perm.refl _)).symm⟩

theorem count_iff {kernel : Grid → Nat → Nat × Nat → Nat} (f : Nat → Nat)
    (loop : ∀ grid eltN thread, kernel grid eltN thread =
      (indices grid eltN thread).foldl (fun bad i => bad + f i) 0) :
    Count kernel eltN bad ↔ bad = ∑ i ∈ Finset.range eltN, f i := by
  obtain rfl : kernel = fun grid eltN thread =>
      (indices grid eltN thread).foldl (fun bad i => bad + f i) 0 :=
    funext fun grid => funext fun eltN => funext fun thread => loop grid eltN thread
  rw [Count]
  split
  · next none_ => rw [hostGrid_eq_none none_, Finset.sum_range_zero]
  · exact countKernel_iff f

theorem card_badElts (tolerance : Nat) (results expected : Nat → BitVec w) (eltN : Nat) :
    (badElts tolerance results expected eltN).card =
      ∑ i ∈ Finset.range eltN, mismatch tolerance (results i) (expected i) := by
  simp only [badElts, Finset.card_filter, mismatch_eq]

end Counted

section Verified

variable {gen : Generators} {T : DataType} {redOp : RedOp} {rankN : Int} {seed : BitVec 64}
  {results expected elts : Nat → T.Bits} {eltN bad : Nat} {eltIx0 : Int}

/-- Every size of an element is one of a word. -/
theorem verifyPrepared1_eq (results expected : Nat → T.Bits) (tolerance : Nat) :
    verifyPrepared1 T.sizeof results expected tolerance =
      some (verifyPrepared results expected tolerance) := by
  cases T <;> rfl

theorem verify_prepared_iff :
    NcclVerifiableVerify gen T redOp rankN seed results (some expected) eltN eltIx0 bad ↔
      bad = (badElts (tolerance T redOp) results expected eltN).card := by
  rw [NcclVerifiableVerify, verifyPrepared1_eq, card_badElts]
  simp only [Option.some.injEq, exists_eq_left']
  exact count_iff _ fun _ _ _ => rfl

/-- The cast of a union does not change a number. -/
theorem mismatch_cast {w uint : Nat} (same : w = uint) (tolerance : Nat) (a b : BitVec w) :
    mismatch tolerance (a.cast same) (b.cast same) = mismatch tolerance a b := by
  subst same
  rfl

theorem verify_inline_iff :
    NcclVerifiableVerify gen T redOp rankN seed results none eltN eltIx0 bad ↔
      bad = (badElts (tolerance T redOp) results
        (fun i => gen.genOutput T (redOp.reduceFn rankN) rankN seed (eltIx0 + i)) eltN).card := by
  rw [NcclVerifiableVerify, card_badElts]
  simp only [Option.some.injEq, exists_eq_left']
  refine count_iff _ fun grid eltN thread => ?_
  simp only [verifyInline2, mismatch_cast]

/-- Only the elements that are verified matter. -/
theorem badElts_congr {w : Nat} {tolerance : Nat} {results expected expected' : Nat → BitVec w}
    (same : ∀ i < eltN, expected i = expected' i) :
    badElts tolerance results expected eltN = badElts tolerance results expected' eltN := by
  refine Finset.filter_congr fun i mem => ?_
  rw [same i (Finset.mem_range.1 mem)]

end Verified

/-- Elements that are their index, whatever is reduced. -/
def indexGenerators : Generators where
  genInput _ _ _ _ _ index := BitVec.ofInt _ index
  genOutput _ _ _ _ index := BitVec.ofInt _ index

end NcclTests.Verifiable
