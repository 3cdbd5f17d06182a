import Mathlib
import NcclTests.Lib.Blocks
import NcclTests.Lib.StrideLoop
import NcclTests.Lib.GatherScatter
import NcclTests.Device.AllReduceIndices

/-!
# All-reduce kernels on shared windows

Between the two barriers the threads of all ranks share out the elements: a thread
that takes an element sums up what the peers hold and stores the sum to all of
them. The vectorised kernel goes through a scalar prologue, blocks of vectors whose
rows fall to the lanes of a warp, a last block with bounds checks, and a scalar
remainder.
-/

namespace NcclTests.Device.AllReduce

open Collective StrideLoop Threads

section Kernels

variable {β : Type*} [Zero β] [Add β] (ty : ElemType) (launch : Launch) (call : RunCollArgs)
  (t : ThreadId)

/-- `v += sendPtr[offset]` from all peers, then `recvPtr[offset] = v` to all peers. -/
def scalarReduce (offset : Nat) : List (Instr Loc β Register) :=
  reduceBody (List.range launch.nRanks) [(0, 0)] [(0, 0)]
    (fun peer _ => elem call.sendPtr ty.size peer offset)
    fun peer _ => elem call.recvPtr ty.size peer offset

def allReduceLsaKernel : List (Instr Loc β Register) :=
  (gridStride (sizeT (globalTid launch t)) call.count
    (sizeT (globalNthreads launch))).flatMap (scalarReduce ty launch call)

/-- The component `r.2` of the vector behind `p + alignment_offset * sizeof(T)` that `v[r.1]`
is for. -/
def vectorElem (p : Ptr) (block : Int) (peer : Nat) (r : Register) : Loc :=
  p.loc peer (alignmentOffset ty call * ty.size +
    vectorOffset ty launch t block r.1 * ty.vectorSize + r.2 * ty.size)

/-- The vectors of a block that are `used`: `v[i] += remotePtr[offset]` from all peers, then
`remotePtr[offset] = v[i]` to all peers. -/
def vectorReduce (block : Int) (used : List Register) : List (Instr Loc β Register) :=
  reduceBody (List.range launch.nRanks) (vectorRegisters ty.unrollFactor ty.vectorFactor) used
    (vectorElem ty launch call t call.sendPtr block)
    (vectorElem ty launch call t call.recvPtr block)

/-- The misaligned elements at the front, up to `bound`. -/
def prologue (scalar : Nat → List (Instr Loc β Register)) (bound : Nat) :
    List (Instr Loc β Register) :=
  if 0 < alignmentOffset ty call then
    (gridStride (sizeT (globalTid launch t)) bound (sizeT (globalNthreads launch))).flatMap scalar
  else []

/-- Whole blocks, without bounds checks. -/
def wholeBlocks (vector : Int → List Register → List (Instr Loc β Register)) :
    List (Instr Loc β Register) :=
  (List.range (numBlocks ty launch call).toNat).flatMap fun block : Nat =>
    vector block (vectorRegisters ty.unrollFactor ty.vectorFactor)

/-- The registers of the last block that pass `offset < vector_count`. -/
def partialRegisters : List Register :=
  (vectorRegisters ty.unrollFactor ty.vectorFactor).filter fun r =>
    vectorOffset ty launch t (numBlocks ty launch call) r.1 < vectorCount ty call

def partialBlock (vector : Int → List Register → List (Instr Loc β Register)) :
    List (Instr Loc β Register) :=
  vector (numBlocks ty launch call) (partialRegisters ty launch call t)

/-- The elements behind the last vector. -/
def epilogue (scalar : Nat → List (Instr Loc β Register)) : List (Instr Loc β Register) :=
  if 0 < remainder ty call then
    (gridStride (sizeT (globalTid launch t)) (remainder ty call)
      (sizeT (globalNthreads launch))).flatMap fun offset =>
        scalar (sizeT (remainderStart ty call + offset : Nat))
  else []

def allReduceLsaVectorizedKernel : List (Instr Loc β Register) :=
  prologue ty launch call t (scalarReduce ty launch call) (alignmentOffset ty call) ++
    wholeBlocks ty launch call (vectorReduce ty launch call t) ++
    partialBlock ty launch call t (vectorReduce ty launch call t) ++
    epilogue ty launch call t (scalarReduce ty launch call)

end Kernels

/-! ## What a thread reduces -/

section Work

variable {β : Type*} [AddCommMonoid β] {ty : ElemType} {launch : Launch} {call : RunCollArgs}
  {t : ThreadId}

/-- The all-reduce, element by element. -/
def allReduceWork (β : Type*) [AddCommMonoid β] (ty : ElemType) (launch : Launch)
    (call : RunCollArgs) : Work Nat Loc β where
  ins k := {l | ∃ peer ∈ List.range launch.nRanks, l = elem call.sendPtr ty.size peer k}
  outs k := {l | ∃ peer ∈ List.range launch.nRanks, l = elem call.recvPtr ty.size peer k}
  value m k := ((List.range launch.nRanks).map fun peer => m (elem call.sendPtr ty.size peer k)).sum

/-- In place, or from another buffer. -/
def InPlaceOrApart (call : RunCollArgs) : Prop :=
  call.sendPtr = call.recvPtr ∨ call.sendPtr.buffer ≠ call.recvPtr.buffer

/-- The reduction of an element does not disturb that of another one. -/
theorem allReduceWork_separate (place : InPlaceOrApart call) (dom : Set Nat) :
    (allReduceWork β ty launch call).Separate dom := by
  rintro k - k' - ne _ ⟨peer, -, rfl⟩
  refine ⟨?_, ?_⟩
  · rintro ⟨peer', -, same⟩
    rcases place with inPlace | apart
    · rw [inPlace] at same
      exact ne (elem_inj ty.size_pos same).2
    · exact elem_ne apart.symm same
  · rintro ⟨peer', -, same⟩
    exact ne (elem_inj ty.size_pos same).2

theorem allReduceWork_ins_inj (dom : Set Nat) :
    ∀ k ∈ dom, ∀ k' ∈ dom, ∀ l ∈ (allReduceWork β ty launch call).ins k,
      l ∈ (allReduceWork β ty launch call).ins k' → k = k' := by
  rintro k - k' - _ ⟨peer, -, rfl⟩ ⟨peer', -, same⟩
  exact (elem_inj ty.size_pos same).2

theorem does_scalarReduce (offset : Nat) :
    Does (allReduceWork β ty launch call) (scalarReduce ty launch call offset) {offset} := by
  have does : Does (allReduceWork β ty launch call) (scalarReduce ty launch call offset)
      {k | ∃ r ∈ [((0, 0) : Register)], k = offset} := by
    refine does_reduceBody List.nodup_range (List.nodup_singleton _) (List.Subset.refl _) ?_
      (fun _ _ _ => Iff.rfl) (fun _ _ _ => Iff.rfl) fun _ _ _ => rfl
    intro peer _ r mem peer' _ r' mem' same
    refine ⟨(elem_inj ty.size_pos same).1, ?_⟩
    rw [List.mem_singleton.1 mem, List.mem_singleton.1 mem']
  refine does.congr ?_
  ext k
  simp only [Set.mem_ofPred_eq, List.mem_singleton, exists_eq_left, Set.mem_singleton_iff]

/-- The index of the component `r.2` of the vector that `v[r.1]` is for. -/
def vectorIndex (ty : ElemType) (launch : Launch) (call : RunCollArgs) (t : ThreadId)
    (block : Int) (r : Register) : Nat :=
  alignmentOffset ty call + (vectorOffset ty launch t block r.1 * ty.vectorFactor + r.2)

theorem vectorElem_eq (p : Ptr) (block : Int) (peer : Nat) (r : Register) :
    vectorElem ty launch call t p block peer r =
      elem p ty.size peer (vectorIndex ty launch call t block r) := by
  rw [vectorElem, elem, vectorIndex, ← ty.vectorFactor_mul_size]
  congr 1
  ring

/-- Registers for different vectors are for different elements. -/
theorem vectorElem_inj {p : Ptr} {block : Int} {used : List Register} {peers : List Nat}
    (sub : used ⊆ vectorRegisters ty.unrollFactor ty.vectorFactor)
    (rows : ∀ i < ty.unrollFactor, ∀ i' < ty.unrollFactor,
      vectorOffset ty launch t block i = vectorOffset ty launch t block i' → i = i') :
    ∀ peer ∈ peers, ∀ r ∈ used, ∀ peer' ∈ peers, ∀ r' ∈ used,
      vectorElem ty launch call t p block peer r = vectorElem ty launch call t p block peer' r' →
        peer = peer' ∧ r = r' := by
  rintro peer - ⟨i, e⟩ mem peer' - ⟨i', e'⟩ mem' same
  rw [vectorElem_eq, vectorElem_eq] at same
  obtain ⟨rfl, indices⟩ := elem_inj ty.size_pos same
  obtain ⟨row, component⟩ := mem_vectorRegisters.1 (sub mem)
  obtain ⟨row', component'⟩ := mem_vectorRegisters.1 (sub mem')
  obtain ⟨vectors, rfl⟩ := block_inj component component' (Nat.add_left_cancel indices)
  exact ⟨rfl, congrArg (·, e) (rows i row i' row' vectors)⟩

/-- A vector loop reduces the components of its registers, if these are for different
vectors. -/
theorem does_vectorReduce (block : Int) {used : List Register} (nodup : used.Nodup)
    (sub : used ⊆ vectorRegisters ty.unrollFactor ty.vectorFactor)
    (rows : ∀ i < ty.unrollFactor, ∀ i' < ty.unrollFactor,
      vectorOffset ty launch t block i = vectorOffset ty launch t block i' → i = i') :
    Does (allReduceWork β ty launch call) (vectorReduce ty launch call t block used)
      {k | ∃ r ∈ used, k = vectorIndex ty launch call t block r} := by
  refine does_reduceBody List.nodup_range nodup sub ?inj ?ins ?outs ?value
  case inj => exact vectorElem_inj sub rows
  case ins =>
    intro r _ l
    simp only [vectorElem_eq]
    rfl
  case outs =>
    intro r _ l
    simp only [vectorElem_eq]
    rfl
  case value =>
    intro r _ m
    simp only [vectorElem_eq]
    rfl

/-- The loop bodies of a kernel reduce the elements that they are about. -/
structure Reduces (ty : ElemType) (launch : Launch) (call : RunCollArgs) (t : ThreadId)
    (scalar : Nat → List (Instr Loc β Register))
    (vector : Int → List Register → List (Instr Loc β Register)) : Prop where
  scalar : ∀ offset, Does (allReduceWork β ty launch call) (scalar offset) {offset}
  vector : ∀ block used, used.Nodup →
    used ⊆ vectorRegisters ty.unrollFactor ty.vectorFactor →
    (∀ i < ty.unrollFactor, ∀ i' < ty.unrollFactor,
      vectorOffset ty launch t block i = vectorOffset ty launch t block i' → i = i') →
    Does (allReduceWork β ty launch call) (vector block used)
      {k | ∃ r ∈ used, k = vectorIndex ty launch call t block r}

theorem reduces_lsa : Reduces ty launch call t (scalarReduce (β := β) ty launch call)
    (vectorReduce ty launch call t) where
  scalar := does_scalarReduce
  vector block _ := does_vectorReduce block

end Work

/-! ## The phases -/

section Phases

variable {β : Type*} [AddCommMonoid β] {ty : ElemType} {launch : Launch} {call : RunCollArgs}
  {t : ThreadId} {scalar : Nat → List (Instr Loc β Register)}
  {vector : Int → List Register → List (Instr Loc β Register)}

/-- The vectors of a block of all threads. -/
def blockSize (ty : ElemType) (launch : Launch) : Nat := globalSize launch * ty.unrollFactor

/-- The thread that takes vector `v`: its warp has a group of rows in each block, and its
lane a column. -/
def vectorOwner (ty : ElemType) (launch : Launch) (v : Nat) : Nat :=
  v % blockSize ty launch / (ty.unrollFactor * 32) * 32 + v % 32

theorem nRanks_pos (mem : t ∈ launch.threads) : 0 < launch.nRanks :=
  Nat.zero_lt_of_lt (Launch.mem_threads.1 mem).1

/-- A thread meets the vectors of a block that it owns. -/
theorem IndexFits.meets_iff (fits : IndexFits ty launch call) (warps : 32 ∣ launch.blockDim)
    (mem : t ∈ launch.threads) {block v : Nat}
    (inside : block ≤ vectorCount ty call / blockSize ty launch) :
    (∃ i < ty.unrollFactor, v = vectorOffset ty launch t block i) ↔
      v / blockSize ty launch = block ∧ vectorOwner ty launch v = globalNumber launch t := by
  obtain ⟨n, size⟩ : 32 ∣ globalSize launch := (warps.mul_right _).mul_right _
  have split_ : blockSize ty launch = n * (ty.unrollFactor * 32) := by
    rw [blockSize, size]
    ring
  have less := globalNumber_lt mem
  have lane : globalNumber launch t % 32 < 32 := Nat.mod_lt _ (by norm_num)
  have warp : globalNumber launch t / 32 < n := by omega
  have tiles := interleaved_iff (b := block) (v := v) ty.unrollFactor_pos lane warp
  rw [← split_] at tiles
  have meets : (∃ i < ty.unrollFactor, v = vectorOffset ty launch t block i) ↔
      ∃ i < ty.unrollFactor, v = block * blockSize ty launch +
        (globalNumber launch t / 32 * (ty.unrollFactor * 32) +
          (i * 32 + globalNumber launch t % 32)) := by
    refine exists_congr fun i => and_congr_right fun row => ?_
    rw [fits.vectorOffset_eq (nRanks_pos mem) mem inside row, blockSize]
  rw [meets, tiles, vectorOwner]
  refine and_congr_right fun _ => ?_
  omega

theorem IndexFits.rows_inj (fits : IndexFits ty launch call) (mem : t ∈ launch.threads)
    {block : Nat} (inside : block ≤ vectorCount ty call / blockSize ty launch) :
    ∀ i < ty.unrollFactor, ∀ i' < ty.unrollFactor,
      vectorOffset ty launch t block i = vectorOffset ty launch t block i' → i = i' := by
  intro i row i' row' same
  rw [fits.vectorOffset_eq (nRanks_pos mem) mem inside row,
    fits.vectorOffset_eq (nRanks_pos mem) mem inside row'] at same
  omega

/-- The indices of the components of vectors. -/
def vectorIndices (ty : ElemType) (call : RunCollArgs) (vs : Set Nat) : Set Nat :=
  {k | alignmentOffset ty call ≤ k ∧ (k - alignmentOffset ty call) / ty.vectorFactor ∈ vs}

theorem vectorIndices_disjoint {vs vs' : Set Nat} (disjoint : Disjoint vs vs') :
    Disjoint (vectorIndices ty call vs) (vectorIndices ty call vs') := by
  rw [Set.disjoint_left] at disjoint ⊢
  exact fun k inside inside' => disjoint inside.2 inside'.2

/-- Loops whose variable is the index that is reduced. -/
theorem does_scalarLoop
    (each : ∀ offset, Does (allReduceWork β ty launch call) (scalar offset) {offset})
    (place : InPlaceOrApart call) {offsets : List Nat} (increasing : offsets.Pairwise (· < ·)) :
    Does (allReduceWork β ty launch call) (offsets.flatMap scalar) {k | k ∈ offsets} := by
  refine (Does.flatMap (fun offset _ => each offset)
    (allReduceWork_separate place Set.univ) (fun _ _ => Set.subset_univ _)
    (increasing.imp fun {x y} less => ?_)).congr ?_
  · rw [Set.disjoint_singleton]
    exact less.ne
  · ext k
    simp only [Set.mem_ofPred_eq, Set.mem_singleton_iff, exists_eq_right']

/-- A thread reduces in a block what it owns there, or the part of it that passes a check. -/
theorem Reduces.does_block (reduces : Reduces ty launch call t scalar vector)
    (fits : IndexFits ty launch call) (warps : 32 ∣ launch.blockDim)
    (mem : t ∈ launch.threads) {block : Nat}
    (inside : block ≤ vectorCount ty call / blockSize ty launch) {used : List Register}
    (nodup : used.Nodup) {check : Set Nat}
    (used_iff : ∀ r, r ∈ used ↔ r ∈ vectorRegisters ty.unrollFactor ty.vectorFactor ∧
      vectorOffset ty launch t block r.1 ∈ check) :
    Does (allReduceWork β ty launch call) (vector block used)
      (vectorIndices ty call {v | v ∈ check ∧ v / blockSize ty launch = block ∧
        vectorOwner ty launch v = globalNumber launch t}) := by
  refine (reduces.vector block used nodup (fun r inUsed => ((used_iff r).1 inUsed).1)
    (fits.rows_inj mem inside)).congr ?_
  ext k
  simp only [vectorIndices, Set.mem_ofPred_eq, ← fits.meets_iff warps mem inside]
  constructor
  · rintro ⟨⟨i, e⟩, inUsed, rfl⟩
    obtain ⟨register, checked⟩ := (used_iff _).1 inUsed
    obtain ⟨row, component⟩ := mem_vectorRegisters.1 register
    rw [vectorIndex, Nat.add_sub_cancel_left, block_div component]
    exact ⟨Nat.le_add_right _ _, checked, i, row, rfl⟩
  · rintro ⟨behind, checked, i, row, vector⟩
    have component := Nat.mod_lt (k - alignmentOffset ty call) ty.vectorFactor_pos
    refine ⟨(i, (k - alignmentOffset ty call) % ty.vectorFactor), (used_iff _).2
      ⟨mem_vectorRegisters.2 ⟨row, component⟩, vector ▸ checked⟩, ?_⟩
    rw [vectorIndex, ← vector, Nat.div_add_mod']
    omega

theorem Reduces.does_wholeBlocks (reduces : Reduces ty launch call t scalar vector)
    (fits : IndexFits ty launch call) (warps : 32 ∣ launch.blockDim)
    (place : InPlaceOrApart call) (mem : t ∈ launch.threads) :
    Does (allReduceWork β ty launch call) (wholeBlocks ty launch call vector)
      (vectorIndices ty call
        {v | v / blockSize ty launch < vectorCount ty call / blockSize ty launch ∧
          vectorOwner ty launch v = globalNumber launch t}) := by
  have blocks : (numBlocks ty launch call).toNat =
      vectorCount ty call / blockSize ty launch := by
    rw [fits.numBlocks_eq (nRanks_pos mem) (Nat.zero_lt_of_lt (globalNumber_lt mem)),
      Int.toNat_natCast, blockSize]
  rw [wholeBlocks, blocks]
  have each : ∀ block ∈ List.range (vectorCount ty call / blockSize ty launch),
      Does (allReduceWork β ty launch call)
        (vector block (vectorRegisters ty.unrollFactor ty.vectorFactor))
        (vectorIndices ty call {v | v ∈ Set.univ ∧ v / blockSize ty launch = block ∧
          vectorOwner ty launch v = globalNumber launch t}) := fun block inLoop =>
    reduces.does_block fits warps mem (List.mem_range.1 inLoop).le (vectorRegisters_nodup _ _)
      fun r => (and_iff_left (Set.mem_univ _)).symm
  refine (Does.flatMap each (allReduceWork_separate place Set.univ)
    (fun _ _ => Set.subset_univ _) (List.nodup_range.imp fun {block block'} ne => ?_)).congr ?_
  · refine vectorIndices_disjoint (Set.disjoint_left.2 ?_)
    rintro v ⟨-, rfl, -⟩ ⟨-, same, -⟩
    exact ne same
  · ext k
    simp only [vectorIndices, Set.mem_ofPred_eq, Set.mem_univ, true_and, List.mem_range]
    constructor
    · rintro ⟨block, less, behind, rfl, own⟩
      exact ⟨behind, less, own⟩
    · rintro ⟨behind, less, own⟩
      exact ⟨_, less, behind, rfl, own⟩

theorem Reduces.does_partialBlock (reduces : Reduces ty launch call t scalar vector)
    (fits : IndexFits ty launch call) (warps : 32 ∣ launch.blockDim)
    (mem : t ∈ launch.threads) :
    Does (allReduceWork β ty launch call) (partialBlock ty launch call t vector)
      (vectorIndices ty call {v | v ∈ {v | v < vectorCount ty call} ∧
        v / blockSize ty launch = vectorCount ty call / blockSize ty launch ∧
          vectorOwner ty launch v = globalNumber launch t}) := by
  have last : numBlocks ty launch call =
      (vectorCount ty call / blockSize ty launch : Nat) := by
    rw [fits.numBlocks_eq (nRanks_pos mem) (Nat.zero_lt_of_lt (globalNumber_lt mem)), blockSize]
  rw [partialBlock, partialRegisters, last]
  refine reduces.does_block fits warps mem (le_refl _) ((vectorRegisters_nodup _ _).filter _)
    fun r => ?_
  rw [List.mem_filter, decide_eq_true_iff]
  rfl

/-- Blocks and partial block together go through all vectors. -/
theorem Reduces.does_vectors (reduces : Reduces ty launch call t scalar vector)
    (fits : IndexFits ty launch call) (warps : 32 ∣ launch.blockDim)
    (place : InPlaceOrApart call) (mem : t ∈ launch.threads) :
    Does (allReduceWork β ty launch call)
      (wholeBlocks ty launch call vector ++ partialBlock ty launch call t vector)
      (vectorIndices ty call {v | v < vectorCount ty call ∧
        vectorOwner ty launch v = globalNumber launch t}) := by
  refine ((reduces.does_wholeBlocks fits warps place mem).append
    (reduces.does_partialBlock fits warps mem)
    (allReduceWork_separate place Set.univ) (Set.subset_univ _) (Set.subset_univ _) ?_).congr ?_
  · refine vectorIndices_disjoint (Set.disjoint_left.2 ?_)
    rintro v ⟨whole, -⟩ ⟨-, last, -⟩
    omega
  · ext k
    simp only [vectorIndices, Set.mem_union, Set.mem_ofPred_eq]
    constructor
    · rintro (⟨behind, whole, own⟩ | ⟨behind, inside, -, own⟩)
      · exact ⟨behind, lt_of_not_ge fun more =>
          absurd (Nat.div_le_div_right more) (Nat.not_le_of_lt whole), own⟩
      · exact ⟨behind, inside, own⟩
    · rintro ⟨behind, inside, own⟩
      rcases Nat.lt_or_ge ((k - alignmentOffset ty call) / ty.vectorFactor / blockSize ty launch)
        (vectorCount ty call / blockSize ty launch) with whole | last
      · exact .inl ⟨behind, whole, own⟩
      · exact .inr ⟨behind, inside, le_antisymm (Nat.div_le_div_right inside.le) last, own⟩

theorem Reduces.does_prologue (reduces : Reduces ty launch call t scalar vector)
    (fits : IndexFits ty launch call) (place : InPlaceOrApart call) (mem : t ∈ launch.threads)
    (bound : Nat) :
    Does (allReduceWork β ty launch call) (prologue ty launch call t scalar bound)
      {k | 0 < alignmentOffset ty call ∧ k < bound ∧
        k % globalSize launch = globalNumber launch t} := by
  rw [prologue, fits.sizeT_globalTid mem, fits.sizeT_globalNthreads (nRanks_pos mem)]
  split
  case isTrue some_ =>
    refine (does_scalarLoop reduces.scalar place
      (pairwise_gridStride (Nat.zero_lt_of_lt (globalNumber_lt mem)))).congr ?_
    ext k
    exact (mem_gridStride_of_lt (globalNumber_lt mem)).trans (and_iff_right some_).symm
  case isFalse none_ =>
    refine Does.nil.congr ?_
    ext k
    exact ⟨fun inside => absurd inside (Set.notMem_empty k), fun inside => absurd inside.1 none_⟩

/-- The first element behind the last vector. -/
def vectorsEnd (ty : ElemType) (call : RunCollArgs) : Nat :=
  alignmentOffset ty call + vectorCount ty call * ty.vectorFactor

/-- Prologue, vectors and remainder make up the message. -/
theorem vectorsEnd_add_remainder (short : alignmentOffset ty call ≤ call.count)
    (count_lt : call.count < 2 ^ 64) :
    vectorsEnd ty call + remainder ty call = call.count := by
  have aligned := alignedCount_eq short count_lt
  have split_ := Nat.div_add_mod' (alignedCount ty call) ty.vectorFactor
  rw [vectorsEnd, vectorCount, remainder]
  omega

theorem Reduces.does_epilogue (reduces : Reduces ty launch call t scalar vector)
    (fits : IndexFits ty launch call) (place : InPlaceOrApart call)
    (mem : t ∈ launch.threads) (short : alignmentOffset ty call ≤ call.count)
    (count_lt : call.count < 2 ^ 64) :
    Does (allReduceWork β ty launch call) (epilogue ty launch call t scalar)
      {k | vectorsEnd ty call ≤ k ∧ k < call.count ∧
        (k - vectorsEnd ty call) % globalSize launch = globalNumber launch t} := by
  have whole := vectorsEnd_add_remainder short count_lt
  have offsets : ∀ k, k ∈ gridStride (globalNumber launch t) (remainder ty call)
      (globalSize launch) ↔
      k < remainder ty call ∧ k % globalSize launch = globalNumber launch t :=
    fun k => mem_gridStride_of_lt (globalNumber_lt mem)
  have start : remainderStart ty call = vectorsEnd ty call := by
    rw [remainderStart, sizeT_natCast, vectorsEnd]
    rw [vectorsEnd] at whole
    omega
  have loop : epilogue ty launch call t scalar =
      ((gridStride (globalNumber launch t) (remainder ty call) (globalSize launch)).map
        (vectorsEnd ty call + ·)).flatMap scalar := by
    rw [epilogue, fits.sizeT_globalTid mem, fits.sizeT_globalNthreads (nRanks_pos mem), start,
      List.flatMap_map]
    split
    case isTrue some_ =>
      refine List.flatMap_congr fun offset inLoop => ?_
      have inside := ((offsets offset).1 inLoop).1
      rw [sizeT_natCast (by omega)]
    case isFalse none_ =>
      rw [Nat.eq_zero_of_not_pos none_]
      rfl
  rw [loop]
  have increasing : (gridStride (globalNumber launch t) (remainder ty call)
      (globalSize launch)).Pairwise (· < ·) :=
    pairwise_gridStride (Nat.zero_lt_of_lt (globalNumber_lt mem))
  refine (does_scalarLoop reduces.scalar place (List.pairwise_map.2
    (increasing.imp fun {x y} less => Nat.add_lt_add_left less _))).congr ?_
  ext k
  simp only [Set.mem_ofPred_eq, List.mem_map, offsets]
  constructor
  · rintro ⟨offset, ⟨inside, own⟩, rfl⟩
    rw [Nat.add_sub_cancel_left]
    exact ⟨Nat.le_add_right _ _, by omega, own⟩
  · rintro ⟨behind, inside, own⟩
    exact ⟨_, ⟨by omega, own⟩, Nat.add_sub_cancel' behind⟩

/-- The thread that takes element `k` behind the prologue. -/
def restOwner (ty : ElemType) (launch : Launch) (call : RunCollArgs) (k : Nat) : Nat :=
  if k < vectorsEnd ty call then
    vectorOwner ty launch ((k - alignmentOffset ty call) / ty.vectorFactor)
  else (k - vectorsEnd ty call) % globalSize launch

/-- The thread that takes element `k` in the vectorised kernel. -/
def vectorizedOwner (ty : ElemType) (launch : Launch) (call : RunCollArgs) (k : Nat) : Nat :=
  if k < alignmentOffset ty call then k % globalSize launch else restOwner ty launch call k

/-- An element is part of a vector if it is between prologue and remainder. -/
theorem vector_lt_iff {k : Nat} (behind : alignmentOffset ty call ≤ k) :
    (k - alignmentOffset ty call) / ty.vectorFactor < vectorCount ty call ↔
      k < vectorsEnd ty call := by
  rw [Nat.div_lt_iff_lt_mul ty.vectorFactor_pos, vectorsEnd]
  omega

/-- What a thread does behind the prologue. -/
theorem Reduces.does_rest (reduces : Reduces ty launch call t scalar vector)
    (fits : IndexFits ty launch call) (warps : 32 ∣ launch.blockDim) (place : InPlaceOrApart call)
    (mem : t ∈ launch.threads) (short : alignmentOffset ty call ≤ call.count)
    (count_lt : call.count < 2 ^ 64) :
    Does (allReduceWork β ty launch call)
      (wholeBlocks ty launch call vector ++ partialBlock ty launch call t vector ++
        epilogue ty launch call t scalar)
      {k | (alignmentOffset ty call ≤ k ∧ k < call.count) ∧
        restOwner ty launch call k = globalNumber launch t} := by
  have whole := vectorsEnd_add_remainder short count_lt
  have front : alignmentOffset ty call ≤ vectorsEnd ty call := Nat.le_add_right _ _
  refine ((reduces.does_vectors fits warps place mem).append
    (reduces.does_epilogue fits place mem short count_lt)
    (allReduceWork_separate place Set.univ) (Set.subset_univ _) (Set.subset_univ _) ?_).congr ?_
  · rw [Set.disjoint_left]
    rintro k ⟨behind, inside, -⟩ ⟨tail, -⟩
    exact absurd ((vector_lt_iff behind).1 inside) (Nat.not_lt_of_le tail)
  · ext k
    simp only [restOwner, vectorIndices, Set.mem_union, Set.mem_ofPred_eq]
    constructor
    · rintro (⟨behind, inside, own⟩ | ⟨tail, inside, own⟩)
      · rw [vector_lt_iff behind] at inside
        rw [if_pos inside]
        exact ⟨⟨behind, by omega⟩, own⟩
      · rw [if_neg (Nat.not_lt_of_le tail)]
        exact ⟨⟨front.trans tail, inside⟩, own⟩
    · rintro ⟨⟨behind, inside⟩, own⟩
      split at own
      case isTrue inVector => exact .inl ⟨behind, (vector_lt_iff behind).2 inVector, own⟩
      case isFalse tail => exact .inr ⟨Nat.le_of_not_lt tail, inside, own⟩

/-- A thread of the vectorised kernel takes the elements that it owns. -/
theorem IndexFits.does_vectorized (fits : IndexFits ty launch call)
    (warps : 32 ∣ launch.blockDim) (place : InPlaceOrApart call) (mem : t ∈ launch.threads)
    (short : alignmentOffset ty call ≤ call.count) (count_lt : call.count < 2 ^ 64) :
    Does (allReduceWork β ty launch call) (allReduceLsaVectorizedKernel ty launch call t)
      {k | k < call.count ∧ vectorizedOwner ty launch call k = globalNumber launch t} := by
  have front := reduces_lsa.does_prologue (β := β) fits place mem (alignmentOffset ty call)
  have rest := reduces_lsa.does_rest (β := β) fits warps place mem short count_lt
  rw [allReduceLsaVectorizedKernel, List.append_assoc, List.append_assoc, ← List.append_assoc
    (wholeBlocks ty launch call (vectorReduce ty launch call t))]
  refine (front.append rest (allReduceWork_separate place Set.univ) (Set.subset_univ _)
    (Set.subset_univ _) ?_).congr ?_
  · rw [Set.disjoint_left]
    rintro k ⟨-, inFront, -⟩ ⟨⟨behind, -⟩, -⟩
    exact absurd inFront (Nat.not_lt_of_le behind)
  · ext k
    simp only [vectorizedOwner, Set.mem_union, Set.mem_ofPred_eq]
    constructor
    · rintro (⟨-, inFront, own⟩ | ⟨⟨behind, inside⟩, own⟩)
      · rw [if_pos inFront]
        exact ⟨inFront.trans_le short, own⟩
      · rw [if_neg (Nat.not_lt_of_le behind)]
        exact ⟨inside, own⟩
    · rintro ⟨inside, own⟩
      split at own
      case isTrue inFront => exact .inl ⟨Nat.zero_lt_of_lt inFront, inFront, own⟩
      case isFalse behind => exact .inr ⟨⟨Nat.le_of_not_lt behind, inside⟩, own⟩

/-- A thread of the scalar kernel takes the elements with its number as remainder. -/
theorem IndexFits.does_scalar (fits : IndexFits ty launch call) (place : InPlaceOrApart call)
    (mem : t ∈ launch.threads) :
    Does (allReduceWork β ty launch call) (allReduceLsaKernel ty launch call t)
      {k | k < call.count ∧ k % globalSize launch = globalNumber launch t} := by
  rw [allReduceLsaKernel, fits.sizeT_globalTid mem, fits.sizeT_globalNthreads (nRanks_pos mem)]
  refine (does_scalarLoop does_scalarReduce place
    (pairwise_gridStride (Nat.zero_lt_of_lt (globalNumber_lt mem)))).congr ?_
  ext k
  exact mem_gridStride_of_lt (globalNumber_lt mem)

end Phases

/-! ## All threads of all ranks -/

section AllThreads

variable {β : Type*} [AddCommMonoid β] {ty : ElemType} {launch : Launch} {call : RunCollArgs}

theorem vectorOwner_lt (warps : 32 ∣ launch.blockDim) (ranks : 0 < launch.nRanks) (v : Nat) :
    vectorOwner ty launch v < globalSize launch := by
  obtain ⟨n, size⟩ : 32 ∣ globalSize launch := (warps.mul_right _).mul_right _
  have some_ := globalSize_pos ranks
  have split_ : blockSize ty launch = ty.unrollFactor * 32 * n := by
    rw [blockSize, size]
    ring
  have inside := Nat.mod_lt v (Nat.mul_pos some_ ty.unrollFactor_pos)
  have warp : v % blockSize ty launch / (ty.unrollFactor * 32) < n :=
    Nat.div_lt_of_lt_mul (lt_of_lt_of_eq inside split_)
  rw [vectorOwner, size, Nat.mul_comm 32 n]
  exact block_lt warp (Nat.mod_lt _ (by norm_num))

theorem restOwner_lt (warps : 32 ∣ launch.blockDim) (ranks : 0 < launch.nRanks) (k : Nat) :
    restOwner ty launch call k < globalSize launch := by
  have some_ := globalSize_pos ranks
  rw [restOwner]
  split
  · exact vectorOwner_lt warps ranks _
  · exact Nat.mod_lt _ some_

theorem vectorizedOwner_lt (warps : 32 ∣ launch.blockDim) (ranks : 0 < launch.nRanks) (k : Nat) :
    vectorizedOwner ty launch call k < globalSize launch := by
  have some_ := globalSize_pos ranks
  rw [vectorizedOwner]
  split
  · exact Nat.mod_lt _ some_
  · exact restOwner_lt warps ranks k

/-- Programs that take elements by some rule share them out. -/
theorem shares_elements {prog : ThreadId → List (Instr Loc β Register)} (dom : Set Nat)
    (rule : Nat → Nat) (place : InPlaceOrApart call) (below : ∀ k, rule k < globalSize launch)
    (each : ∀ t ∈ launch.threads, Does (allReduceWork β ty launch call) (prog t)
      {k | k ∈ dom ∧ rule k = globalNumber launch t}) :
    Shares (allReduceWork β ty launch call) dom launch.threads prog
      fun t => {k | k ∈ dom ∧ rule k = globalNumber launch t} where
  separate := allReduceWork_separate place _
  each := each
  sub := fun _ _ _ inUnits => inUnits.1
  once := by
    intro t memT u memU ne
    rw [Set.disjoint_left]
    rintro k ⟨-, own⟩ ⟨-, own'⟩
    exact ne (globalNumber_inj memT memU (own.symm.trans own'))
  all := by
    intro k inside
    obtain ⟨t, mem, own⟩ := exists_globalNumber (below k)
    exact ⟨t, mem, inside, own.symm⟩

end AllThreads

end NcclTests.Device.AllReduce
