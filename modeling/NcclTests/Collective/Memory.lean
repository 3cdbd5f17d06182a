import Mathlib
import NcclTests.Lib.Moves
import NcclTests.Collective.StartColl

/-!
# The buffers of all ranks

Every rank has a send, a receive and an expected buffer, each an allocation of
its own. A location is a byte of one of them. `InitData` fills a region with
bytes that depend only on the seed and on the position, so the generated content
is a parameter.
-/

namespace NcclTests.Collective

/-- The three allocations of a rank. -/
inductive Buffer
  | sendbuff | recvbuff | expected
  deriving DecidableEq, Repr

/-- An address in a buffer of the rank that uses it. -/
structure Ptr where
  buffer : Buffer
  offset : Nat
  deriving DecidableEq, Repr

def Ptr.add (p : Ptr) (bytes : Nat) : Ptr := ⟨p.buffer, p.offset + bytes⟩

/-- A byte of a buffer of some rank. -/
structure Loc where
  rank : Nat
  buffer : Buffer
  offset : Nat
  deriving DecidableEq, Repr

/-- The byte `i` behind a pointer of a rank. -/
def Ptr.loc (p : Ptr) (rank i : Nat) : Loc := ⟨rank, p.buffer, p.offset + i⟩

abbrev Mem (β : Type*) := Loc → β

/-- The pointer `(char*)sendbuff + sendoffset`. -/
def RunCollArgs.sendPtr (call : RunCollArgs) : Ptr :=
  ⟨if call.sendIsRecvBuffer then .recvbuff else .sendbuff, call.sendAddress⟩

/-- The pointer `(char*)recvbuff + recvoffset`. -/
def RunCollArgs.recvPtr (call : RunCollArgs) : Ptr := ⟨.recvbuff, call.recvAddress⟩

theorem Ptr.add_add (p : Ptr) (a b : Nat) : (p.add a).add b = p.add (a + b) := by
  simp only [Ptr.add, Nat.add_assoc]

theorem Ptr.add_inj {p : Ptr} {a b : Nat} : p.add a = p.add b ↔ a = b := by
  simp [Ptr.add]

@[simp] theorem Ptr.loc_add (p : Ptr) (bytes rank i : Nat) :
    (p.add bytes).loc rank i = p.loc rank (bytes + i) := by
  simp only [Ptr.loc, Ptr.add, Nat.add_assoc]

@[simp] theorem Ptr.loc_inj {p : Ptr} {rank rank' i i' : Nat} :
    p.loc rank i = p.loc rank' i' ↔ rank = rank' ∧ i = i' := by
  simp [Ptr.loc]

/-! ## Filling a region -/

/-- The memory of one rank. -/
abbrev RankMem (β : Type*) := Ptr → β

/-- Every rank initialises its own buffers. -/
def Mem.initEach {β : Type*} (m : Mem β) (init : Nat → RankMem β → RankMem β) : Mem β := fun l =>
  init l.rank (fun p => m (p.loc l.rank 0)) ⟨l.buffer, l.offset⟩

theorem Mem.initEach_loc {β : Type*} (m : Mem β) (init : Nat → RankMem β → RankMem β) (p : Ptr)
    (rank i : Nat) :
    m.initEach init (p.loc rank i) = init rank (fun q => m (q.loc rank 0)) (p.add i) := rfl

namespace RankMem

variable {β : Type*}

/-- Write `f 0`, `f 1` and so on to the `bytes` bytes from `p` on. -/
def write (m : RankMem β) (p : Ptr) (bytes : Nat) (f : Nat → β) : RankMem β := fun q =>
  if q.buffer = p.buffer ∧ p.offset ≤ q.offset ∧ q.offset < p.offset + bytes then
    f (q.offset - p.offset)
  else m q

theorem write_inside (m : RankMem β) (p : Ptr) {bytes : Nat} (f : Nat → β) {i : Nat}
    (inside : i < bytes) : m.write p bytes f (p.add i) = f i := by
  rw [write, if_pos ⟨rfl, Nat.le_add_right _ _, Nat.add_lt_add_left inside _⟩]
  simp only [Ptr.add, Nat.add_sub_cancel_left]

theorem write_outside (m : RankMem β) {p : Ptr} {bytes : Nat} (f : Nat → β) {q : Ptr}
    (outside : ∀ i < bytes, p.add i ≠ q) : m.write p bytes f q = m q := by
  rw [write, if_neg]
  rintro ⟨buffer, low, high⟩
  refine outside (q.offset - p.offset) (by omega) ?_
  rw [Ptr.add, Nat.add_sub_cancel' low, ← buffer]

/-- `cudaMemset(p, 0, bytes)`. -/
def memset [Zero β] (m : RankMem β) (p : Ptr) (bytes : Nat) : RankMem β :=
  m.write p bytes fun _ => 0

/-- `InitData(data, count, offset, type, ncclSum, seed, 1, 0)` in bytes: `content`
is the generated data of a seed and `first` the byte position of `offset`. -/
def initData (content : Nat → Nat → β) (m : RankMem β) (data : Ptr) (bytes first seed : Nat) :
    RankMem β :=
  m.write data bytes fun i => content seed (first + i)

/-- `InitData` on `n` blocks of `bytes` bytes in a row. -/
def initBlocks (content : Nat → Nat → β) (m : RankMem β) (data : Ptr) (bytes n : Nat)
    (first seed : Nat → Nat) : RankMem β :=
  (List.range n).foldl
    (fun m j => m.initData content (data.add (bytes * j)) bytes (first j) (seed j)) m

theorem initBlocks_outside (content : Nat → Nat → β) (m : RankMem β) {data : Ptr} {bytes n : Nat}
    (first seed : Nat → Nat) {q : Ptr} (outside : ∀ i < n * bytes, data.add i ≠ q) :
    m.initBlocks content data bytes n first seed q = m q := by
  rw [initBlocks]
  induction n with
  | zero => rfl
  | succ n ih =>
    rw [List.range_succ, List.foldl_append, List.foldl_cons, List.foldl_nil, initData,
      write_outside, ih fun i mem => outside i (by nlinarith)]
    intro i mem
    rw [Ptr.add_add]
    exact outside _ (by nlinarith)

theorem initBlocks_inside (content : Nat → Nat → β) (m : RankMem β) (data : Ptr) {bytes n : Nat}
    (first seed : Nat → Nat) {x : Nat} (inside : x < n * bytes) :
    m.initBlocks content data bytes n first seed (data.add x) =
      content (seed (x / bytes)) (first (x / bytes) + x % bytes) := by
  rw [initBlocks]
  induction n with
  | zero => omega
  | succ n ih =>
    have pos : 0 < bytes := Nat.pos_of_ne_zero fun zero => by simp [zero] at inside
    rw [List.range_succ, List.foldl_append, List.foldl_cons, List.foldl_nil, initData]
    by_cases last : x < n * bytes
    · rw [write_outside, ih last]
      intro i _ same
      rw [Ptr.add_add, Ptr.add_inj] at same
      nlinarith
    · have block : x / bytes = n := by
        refine Nat.div_eq_of_lt_le (by omega) ?_
        rw [Nat.succ_mul] at inside ⊢
        exact inside
      have place : x = bytes * n + x % bytes := by
        rw [← block, Nat.div_add_mod]
      rw [block]
      conv_lhs => rw [place]
      rw [← Ptr.add_add, write_inside _ _ _ (Nat.mod_lt _ pos)]

end RankMem

/-- Where `CheckData` looks for the result of a rank. -/
def checkedPtr (args : ThreadArgs) (unalignBytes rank : Nat) (inPlace : Bool) : Ptr :=
  ⟨.recvbuff, unalignBytes + if inPlace then args.recvInplaceOffset * rank else 0⟩

def expectedPtr : Ptr := ⟨.expected, 0⟩

/-- `CheckData` finds no wrong element on a rank. -/
def CheckData {β : Type*} (args : ThreadArgs) (unalignBytes rank : Nat) (inPlace : Bool)
    (m : Mem β) : Prop :=
  ∀ x < args.expectedBytes,
    m ((checkedPtr args unalignBytes rank inPlace).loc rank x) = m (expectedPtr.loc rank x)

/-! ## Moving a block -/

/-- The moves that copy `bytes` bytes from one pointer to another. -/
def blockMoves (dstRank : Nat) (dst : Ptr) (srcRank : Nat) (src : Ptr) (bytes : Nat) :
    List (Move Loc) :=
  (List.range bytes).map fun i => ⟨dst.loc dstRank i, src.loc srcRank i⟩

theorem mem_blockMoves {dstRank srcRank bytes : Nat} {dst src : Ptr} {move : Move Loc} :
    move ∈ blockMoves dstRank dst srcRank src bytes ↔
      ∃ i < bytes, move = ⟨dst.loc dstRank i, src.loc srcRank i⟩ := by
  simp only [blockMoves, List.mem_map, List.mem_range, eq_comm]

/-- A block and its source that do not overlap. -/
theorem blockMoves_consistent {dstRank srcRank bytes : Nat} {dst src : Ptr}
    (apart : ∀ i < bytes, ∀ j < bytes, dst.loc dstRank i ≠ src.loc srcRank j) :
    Moves.Consistent (blockMoves dstRank dst srcRank src bytes) := by
  constructor
  · intro first memFirst second memSecond same
    obtain ⟨i, _, rfl⟩ := mem_blockMoves.1 memFirst
    obtain ⟨j, _, rfl⟩ := mem_blockMoves.1 memSecond
    rw [(Ptr.loc_inj.1 same).2]
  · intro first memFirst second memSecond same
    obtain ⟨i, less, rfl⟩ := mem_blockMoves.1 memFirst
    obtain ⟨j, less', rfl⟩ := mem_blockMoves.1 memSecond
    exact absurd same (apart i less j less')

end NcclTests.Collective
