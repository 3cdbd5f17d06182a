import Mathlib
import NcclTests.Lib.Blocks
import NcclTests.Lib.PowTwoPerm
import NcclTests.Collective.InitData
import NcclTests.HostRma.Puts

/-!
# Where host RMA puts data

The bytes of all puts of one call, moved in any order, carry out the assignment
that the collective stands for: `RmaColl.source` names the byte that ends up at
each position of a result. `CheckData` then finds what `InitData` expects.
-/

namespace NcclTests.HostRma

open Collective PowTwoPerm

/-- `ncclPutSignal` copies its elements to the receive window of the peer. -/
def PutSignal.moves (eltSize rank : Nat) (put : PutSignal) : List (Move Loc) :=
  blockMoves put.peer ⟨.recvbuff, put.peerWinOffset⟩ rank put.localbuff (put.count * eltSize)

/-- The moves of the puts of all ranks. -/
def putMoves (nranks eltSize : Nat) (calls : Nat → RmaCalls) : List (Move Loc) :=
  (List.range nranks).flatMap fun rank => (calls rank).puts.flatMap (PutSignal.moves eltSize rank)

theorem mem_putMoves {nranks eltSize : Nat} {calls : Nat → RmaCalls} {move : Move Loc} :
    move ∈ putMoves nranks eltSize calls ↔
      ∃ rank < nranks, ∃ put ∈ (calls rank).puts, ∃ i < put.count * eltSize,
        move = ⟨(⟨.recvbuff, put.peerWinOffset⟩ : Ptr).loc put.peer i,
          put.localbuff.loc rank i⟩ := by
  simp only [putMoves, PutSignal.moves, List.mem_flatMap, List.mem_range, mem_blockMoves]

/-- The byte of rank `result.1` at position `result.2` of its result. -/
def resultLoc (call : Nat → RunCollArgs) (result : Nat × Nat) : Loc :=
  (call result.1).recvPtr.loc result.1 result.2

/-- The results of all ranks, `received` bytes on each. -/
def results (nranks : Nat) (received : Nat → Nat) : Set (Nat × Nat) :=
  {result | result.1 < nranks ∧ result.2 < received result.1}

theorem resultLoc_inj {call : Nat → RunCollArgs} {a b : Nat × Nat}
    (same : resultLoc call a = resultLoc call b) : a = b := by
  rcases a with ⟨rank, x⟩
  rcases b with ⟨rank', x'⟩
  have sameRank : rank = rank' := congrArg Loc.rank same
  subst sameRank
  exact Prod.ext rfl (Ptr.loc_inj.1 same).2

/-! ## The puts of each function -/

section Puts

variable {comm : RmaComm} {call : RunCollArgs} {eltSize root rank : Nat} {put : PutSignal}

theorem mem_allGather_puts (mem : rank < comm.nranks) :
    put ∈ (allGatherRmaPut comm call eltSize rank).puts ↔
      ∃ target < comm.nranks,
        ¬ (call.sendPtr = call.recvPtr.add (rank * (call.count * eltSize)) ∧ target = rank) ∧
        put = ⟨call.sendPtr, call.count, target, call.recvoffset + rank * (call.count * eltSize),
          rank % comm.numRmaSig, (rank + target) % comm.nctx⟩ := by
  simp only [allGatherRmaPut, List.mem_filterMap, List.mem_range, decide_eq_true_eq]
  constructor
  · rintro ⟨peer, _, made⟩
    split at made
    case isTrue => cases made
    case isFalse sent =>
      cases made
      exact ⟨_, Nat.mod_lt _ (by omega), sent, rfl⟩
  · rintro ⟨target, memTarget, sent, rfl⟩
    obtain ⟨peer, memPeer, rfl⟩ :=
      (rotate_bijOn rank (Nat.zero_lt_of_lt mem)).surjOn (mem_below.2 memTarget)
    exact ⟨peer, memPeer, if_neg sent⟩

theorem mem_alltoAll_puts (mem : rank < comm.nranks) :
    put ∈ (alltoAllRmaPut comm call eltSize rank).puts ↔
      ∃ target < comm.nranks,
        put = ⟨call.sendPtr.add (target * (call.count * eltSize)), call.count, target,
          call.recvoffset + rank * (call.count * eltSize), rank % comm.numRmaSig,
          (rank + target) % comm.nctx⟩ := by
  simp only [alltoAllRmaPut, List.mem_map, List.mem_range]
  constructor
  · rintro ⟨peer, _, rfl⟩
    exact ⟨_, Nat.mod_lt _ (by omega), rfl⟩
  · rintro ⟨target, memTarget, rfl⟩
    obtain ⟨peer, memPeer, rfl⟩ :=
      (rotate_bijOn rank (Nat.zero_lt_of_lt mem)).surjOn (mem_below.2 memTarget)
    exact ⟨peer, memPeer, rfl⟩

theorem mem_broadcast_puts :
    put ∈ (broadcastRmaPut comm call root rank).puts ↔
      rank = root ∧ ∃ peer < comm.nranks,
        put = ⟨call.sendPtr, call.count, peer, call.recvoffset, peer % comm.numRmaSig,
          (rank + peer) % comm.nctx⟩ := by
  unfold broadcastRmaPut
  by_cases isRoot : rank = root
  · simp only [isRoot, if_true, List.mem_map, List.mem_range, true_and, eq_comm]
  · simp only [isRoot, if_false, List.not_mem_nil, false_and]

theorem mem_gather_puts :
    put ∈ (gatherRmaPut comm call eltSize root rank).puts ↔
      put = ⟨call.sendPtr, call.count, root, call.recvoffset + rank * (call.count * eltSize),
        rank % comm.numRmaSig, (rank + root) % comm.nctx⟩ :=
  List.mem_singleton

theorem mem_scatter_puts :
    put ∈ (scatterRmaPut comm call eltSize root rank).puts ↔
      rank = root ∧ ∃ peer < comm.nranks,
        ¬ (peer = rank ∧ call.recvPtr = call.sendPtr.add (rank * (call.count * eltSize))) ∧
        put = ⟨call.sendPtr.add (peer * (call.count * eltSize)), call.count, peer,
          if call.recvPtr = call.sendPtr.add (rank * (call.count * eltSize)) then
            (call.recvoffset + sizeT ((peer : Int) - rank) * (call.count * eltSize)) % 2 ^ 64
          else call.recvoffset,
          peer % comm.numRmaSig, (rank + peer) % comm.nctx⟩ := by
  simp only [scatterRmaPut, decide_eq_true_eq]
  by_cases isRoot : rank = root
  · rw [if_pos isRoot]
    simp only [List.mem_filterMap, List.mem_range]
    constructor
    · rintro ⟨peer, memPeer, made⟩
      split at made
      case isTrue => cases made
      case isFalse sent =>
        cases made
        exact ⟨isRoot, peer, memPeer, sent, rfl⟩
    · rintro ⟨-, peer, memPeer, sent, rfl⟩
      exact ⟨peer, memPeer, if_neg sent⟩
  · rw [if_neg isRoot]
    simp only [isRoot, List.not_mem_nil, false_and]

/-- The elements in the contexts before `c`. -/
def sendRecvOffset (count nctx c : Nat) : Nat :=
  ∑ c' ∈ Finset.range c, sendRecvChunk count nctx c'

theorem mem_sendRecvPuts {sendPeer n : Nat} {c elemOff : Nat}
    (running : elemOff = sendRecvOffset call.count comm.nctx c) :
    put ∈ sendRecvPuts comm call eltSize sendPeer (List.range' c n) elemOff ↔
      ∃ c' ∈ List.range' c n, sendRecvChunk call.count comm.nctx c' ≠ 0 ∧
        put = ⟨call.sendPtr.add (sendRecvOffset call.count comm.nctx c' * eltSize),
          sendRecvChunk call.count comm.nctx c', sendPeer,
          call.recvoffset + sendRecvOffset call.count comm.nctx c' * eltSize,
          c' % comm.numRmaSig, c'⟩ := by
  induction n generalizing c elemOff with
  | zero => simp only [List.range'_zero, sendRecvPuts, List.not_mem_nil, false_and, exists_false]
  | succ n ih =>
    have next : sendRecvOffset call.count comm.nctx (c + 1) =
        elemOff + sendRecvChunk call.count comm.nctx c := by
      rw [running, sendRecvOffset, Finset.sum_range_succ]
      rfl
    simp only [List.range'_succ, sendRecvPuts, List.mem_cons, exists_eq_or_imp]
    by_cases empty : sendRecvChunk call.count comm.nctx c = 0
    · rw [if_pos empty, ih (by rw [next, empty, Nat.add_zero])]
      simp only [empty, ne_eq, not_true_eq_false, false_and, false_or]
    · rw [if_neg empty, List.mem_cons, ih next.symm, ← running]
      simp only [empty, ne_eq, not_false_eq_true, true_and]

theorem mem_sendRecv_puts :
    put ∈ (sendRecvRmaPut comm call eltSize rank).puts ↔
      ∃ c < comm.nctx, sendRecvChunk call.count comm.nctx c ≠ 0 ∧
        put = ⟨call.sendPtr.add (sendRecvOffset call.count comm.nctx c * eltSize),
          sendRecvChunk call.count comm.nctx c, (rank + 1) % comm.nranks,
          call.recvoffset + sendRecvOffset call.count comm.nctx c * eltSize,
          c % comm.numRmaSig, c⟩ := by
  have start : 0 = sendRecvOffset call.count comm.nctx 0 := rfl
  simp only [sendRecvRmaPut, List.range_eq_range']
  rw [mem_sendRecvPuts start]
  simp only [List.mem_range'_1, Nat.zero_le, true_and, Nat.zero_add]

end Puts

/-! ## The assignment of each collective -/

/-- Results are different places, so no two assignments meet. -/
theorem assigns_of {moves : List (Move Loc)} {dom : Set (Nat × Nat)} {call : Nat → RunCollArgs}
    {src : Nat × Nat → Loc} (sound : ∀ move ∈ moves, ∃ i ∈ dom, move = ⟨resultLoc call i, src i⟩)
    (complete : ∀ i ∈ dom, resultLoc call i = src i ∨ ⟨resultLoc call i, src i⟩ ∈ moves)
    (fresh : ∀ i ∈ dom, ∀ j ∈ dom, resultLoc call i = src j → resultLoc call i = src i) :
    Moves.Assigns moves dom (resultLoc call) src where
  sound := sound
  complete := complete
  once i _ j _ same := by rw [resultLoc_inj same]
  fresh := fresh

/-- What is read from send buffers is never overwritten. -/
theorem resultLoc_ne_sendbuff {call : Nat → RunCollArgs} {result : Nat × Nat} {p : Ptr}
    {rank i : Nat} (outOfPlace : p.buffer = .sendbuff) :
    resultLoc call result ≠ p.loc rank i := by
  intro same
  have buffer : Buffer.recvbuff = p.buffer := congrArg Loc.buffer same
  rw [outOfPlace] at buffer
  cases buffer

/-- A call in which all ranks receive at the same offset of their windows. -/
structure SameRecv (nranks count recvoffset : Nat) (call : Nat → RunCollArgs) : Prop where
  count_eq : ∀ rank < nranks, (call rank).count = count
  recvbuff_eq : ∀ rank < nranks, (call rank).recvbuff = 0
  recvoffset_eq : ∀ rank < nranks, (call rank).recvoffset = recvoffset

section SameRecv

variable {comm : RmaComm} {count eltSize recvoffset root : Nat} {call : Nat → RunCollArgs}

theorem SameRecv.recvPtr_eq {nranks : Nat} (same : SameRecv nranks count recvoffset call)
    {rank : Nat} (mem : rank < nranks) : (call rank).recvPtr = ⟨.recvbuff, recvoffset⟩ := by
  rw [RunCollArgs.recvPtr, RunCollArgs.recvAddress, same.recvbuff_eq rank mem,
    same.recvoffset_eq rank mem, Nat.zero_add]

theorem SameRecv.resultLoc_eq {nranks : Nat} (same : SameRecv nranks count recvoffset call)
    {rank : Nat} (mem : rank < nranks) (x : Nat) :
    resultLoc call (rank, x) = ⟨rank, .recvbuff, recvoffset + x⟩ := by
  rw [resultLoc, same.recvPtr_eq mem]
  rfl

/-- The byte `x` of all contributions in a row. -/
def contribution (call : Nat → RunCollArgs) (blockBytes x : Nat) : Loc :=
  (call (x / blockBytes)).sendPtr.loc (x / blockBytes) (x % blockBytes)

theorem contribution_block (call : Nat → RunCollArgs) {blockBytes r i : Nat}
    (less : i < blockBytes) :
    contribution call blockBytes (r * blockBytes + i) = (call r).sendPtr.loc r i := by
  rw [contribution, block_div less, block_mod less]

/-- Contributions in buffers of their own, or each at its place in the result. -/
def GatherSend (nranks blockBytes recvoffset : Nat) (call : Nat → RunCollArgs) : Prop :=
  (∀ rank < nranks, (call rank).sendPtr.buffer = .sendbuff) ∨
    ∀ rank < nranks, (call rank).sendPtr = ⟨.recvbuff, recvoffset + rank * blockBytes⟩

/-- A contribution that is overwritten is at its place already. -/
theorem GatherSend.fresh (same : SameRecv comm.nranks count recvoffset call)
    (send : GatherSend comm.nranks (count * eltSize) recvoffset call) {rank x x' : Nat}
    (mem : rank < comm.nranks) (inside' : x' < comm.nranks * (count * eltSize))
    (overwritten : resultLoc call (rank, x) = contribution call (count * eltSize) x') :
    resultLoc call (rank, x) = contribution call (count * eltSize) x := by
  obtain ⟨r, memR, i, less, rfl⟩ := exists_block inside'
  rcases send with apart | inPlace
  · rw [contribution_block call less] at overwritten
    exact absurd overwritten (resultLoc_ne_sendbuff (apart r memR))
  · rw [contribution_block call less, inPlace r memR, same.resultLoc_eq mem] at overwritten
    have place : x = r * (count * eltSize) + i := by
      have offsets : recvoffset + x = recvoffset + r * (count * eltSize) + i :=
        congrArg Loc.offset overwritten
      omega
    rw [place, contribution_block call less, inPlace r memR, same.resultLoc_eq mem, ← place,
      overwritten]

theorem allGather_assigns (same : SameRecv comm.nranks count recvoffset call)
    (send : GatherSend comm.nranks (count * eltSize) recvoffset call) :
    Moves.Assigns
      (putMoves comm.nranks eltSize fun rank => allGatherRmaPut comm (call rank) eltSize rank)
      (results comm.nranks fun _ => comm.nranks * (count * eltSize)) (resultLoc call)
      fun result => contribution call (count * eltSize) result.2 := by
  refine assigns_of ?sound ?complete ?fresh
  case sound =>
    intro move mem
    obtain ⟨rank, memRank, put, memPut, i, inside, rfl⟩ := mem_putMoves.1 mem
    obtain ⟨target, memTarget, -, rfl⟩ := (mem_allGather_puts memRank).1 memPut
    rw [same.count_eq rank memRank] at inside
    refine ⟨(target, rank * (count * eltSize) + i), ⟨memTarget, block_lt memRank inside⟩, ?_⟩
    rw [same.resultLoc_eq memTarget, contribution_block call inside]
    simp only [Ptr.loc, same.count_eq rank memRank, same.recvoffset_eq rank memRank,
      Nat.add_assoc]
  case complete =>
    rintro ⟨target, x⟩ ⟨memTarget, insideX⟩
    obtain ⟨rank, memRank, i, inside, rfl⟩ := exists_block insideX
    rw [contribution_block call inside]
    by_cases skipped : (call rank).sendPtr =
        (call rank).recvPtr.add (rank * ((call rank).count * eltSize)) ∧ target = rank
    · left
      rw [skipped.1, skipped.2, Ptr.loc_add, same.count_eq rank memRank]
      rfl
    · right
      refine mem_putMoves.2 ⟨rank, memRank, _, (mem_allGather_puts memRank).2
        ⟨target, memTarget, skipped, rfl⟩, i, ?_, ?_⟩
      · rw [same.count_eq rank memRank]
        exact inside
      · rw [same.resultLoc_eq memTarget]
        simp only [Ptr.loc, same.count_eq rank memRank, same.recvoffset_eq rank memRank,
          Nat.add_assoc]
  case fresh =>
    rintro ⟨rank, x⟩ ⟨mem, -⟩ ⟨rank', x'⟩ ⟨-, inside'⟩ overwritten
    exact send.fresh same mem inside' overwritten

theorem gather_assigns (same : SameRecv comm.nranks count recvoffset call)
    (send : GatherSend comm.nranks (count * eltSize) recvoffset call)
    (root_lt : root < comm.nranks) :
    Moves.Assigns
      (putMoves comm.nranks eltSize fun rank => gatherRmaPut comm (call rank) eltSize root rank)
      (results comm.nranks fun rank => if rank = root then comm.nranks * (count * eltSize) else 0)
      (resultLoc call) fun result => contribution call (count * eltSize) result.2 := by
  refine assigns_of ?sound ?complete ?fresh
  case sound =>
    intro move mem
    obtain ⟨rank, memRank, put, memPut, i, inside, rfl⟩ := mem_putMoves.1 mem
    obtain rfl := mem_gather_puts.1 memPut
    rw [same.count_eq rank memRank] at inside
    refine ⟨(root, rank * (count * eltSize) + i), ⟨root_lt, ?_⟩, ?_⟩
    · dsimp only
      rw [if_pos rfl]
      exact block_lt memRank inside
    · rw [same.resultLoc_eq root_lt, contribution_block call inside]
      simp only [Ptr.loc, same.count_eq rank memRank, same.recvoffset_eq rank memRank,
        Nat.add_assoc]
  case complete =>
    rintro ⟨target, x⟩ ⟨memTarget, insideX⟩
    right
    dsimp only at insideX ⊢
    split at insideX
    case isFalse => exact absurd insideX (Nat.not_lt_zero _)
    case isTrue isRoot =>
      subst isRoot
      obtain ⟨rank, memRank, i, inside, rfl⟩ := exists_block insideX
      rw [contribution_block call inside]
      refine mem_putMoves.2 ⟨rank, memRank, _, mem_gather_puts.2 rfl, i, ?_, ?_⟩
      · rw [same.count_eq rank memRank]
        exact inside
      · rw [same.resultLoc_eq memTarget]
        simp only [Ptr.loc, same.count_eq rank memRank, same.recvoffset_eq rank memRank,
          Nat.add_assoc]
  case fresh =>
    rintro ⟨rank, x⟩ ⟨mem, -⟩ ⟨rank', x'⟩ ⟨-, inside'⟩ overwritten
    refine send.fresh same mem (lt_of_lt_of_le inside' ?_) overwritten
    dsimp only
    split
    · exact le_refl _
    · exact Nat.zero_le _

theorem alltoAll_assigns (same : SameRecv comm.nranks count recvoffset call)
    (send : ∀ rank < comm.nranks, (call rank).sendPtr.buffer = .sendbuff) :
    Moves.Assigns
      (putMoves comm.nranks eltSize fun rank => alltoAllRmaPut comm (call rank) eltSize rank)
      (results comm.nranks fun _ => comm.nranks * (count * eltSize)) (resultLoc call)
      fun result => (call (result.2 / (count * eltSize))).sendPtr.loc
        (result.2 / (count * eltSize))
        (result.1 * (count * eltSize) + result.2 % (count * eltSize)) := by
  refine assigns_of ?sound ?complete ?fresh
  case sound =>
    intro move mem
    obtain ⟨rank, memRank, put, memPut, i, inside, rfl⟩ := mem_putMoves.1 mem
    obtain ⟨target, memTarget, rfl⟩ := (mem_alltoAll_puts memRank).1 memPut
    rw [same.count_eq rank memRank] at inside
    refine ⟨(target, rank * (count * eltSize) + i), ⟨memTarget, block_lt memRank inside⟩, ?_⟩
    rw [same.resultLoc_eq memTarget, block_div inside, block_mod inside]
    simp only [Ptr.loc, Ptr.add, same.count_eq rank memRank, same.recvoffset_eq rank memRank,
      Nat.add_assoc]
  case complete =>
    rintro ⟨target, x⟩ ⟨memTarget, insideX⟩
    obtain ⟨rank, memRank, i, inside, rfl⟩ := exists_block insideX
    right
    dsimp only
    rw [block_div inside, block_mod inside]
    refine mem_putMoves.2 ⟨rank, memRank, _, (mem_alltoAll_puts memRank).2
      ⟨target, memTarget, rfl⟩, i, ?_, ?_⟩
    · rw [same.count_eq rank memRank]
      exact inside
    · rw [same.resultLoc_eq memTarget]
      simp only [Ptr.loc, Ptr.add, same.count_eq rank memRank, same.recvoffset_eq rank memRank,
        Nat.add_assoc]
  case fresh =>
    rintro ⟨rank, x⟩ - ⟨rank', x'⟩ ⟨-, insideX'⟩ overwritten
    obtain ⟨r, memR, i, less, rfl⟩ := exists_block insideX'
    dsimp only at overwritten
    rw [block_div less] at overwritten
    exact absurd overwritten (resultLoc_ne_sendbuff (send r memR))

theorem broadcast_assigns (same : SameRecv comm.nranks count recvoffset call)
    (send : (call root).sendPtr.buffer = .sendbuff ∨
      (call root).sendPtr = ⟨.recvbuff, recvoffset⟩)
    (root_lt : root < comm.nranks) :
    Moves.Assigns
      (putMoves comm.nranks eltSize fun rank => broadcastRmaPut comm (call rank) root rank)
      (results comm.nranks fun _ => count * eltSize) (resultLoc call)
      fun result => (call root).sendPtr.loc root result.2 := by
  refine assigns_of ?sound ?complete ?fresh
  case sound =>
    intro move mem
    obtain ⟨rank, memRank, put, memPut, i, inside, rfl⟩ := mem_putMoves.1 mem
    obtain ⟨rfl, peer, memPeer, rfl⟩ := mem_broadcast_puts.1 memPut
    rw [same.count_eq rank memRank] at inside
    refine ⟨(peer, i), ⟨memPeer, inside⟩, ?_⟩
    rw [same.resultLoc_eq memPeer]
    simp only [Ptr.loc, same.recvoffset_eq rank memRank]
  case complete =>
    rintro ⟨peer, x⟩ ⟨memPeer, inside⟩
    right
    refine mem_putMoves.2 ⟨root, root_lt, _, mem_broadcast_puts.2 ⟨rfl, peer, memPeer, rfl⟩,
      x, ?_, ?_⟩
    · rw [same.count_eq root root_lt]
      exact inside
    · rw [same.resultLoc_eq memPeer]
      simp only [Ptr.loc, same.recvoffset_eq root root_lt]
  case fresh =>
    rintro ⟨rank, x⟩ ⟨memRank, -⟩ ⟨rank', x'⟩ - overwritten
    rcases send with apart | inPlace
    · exact absurd overwritten (resultLoc_ne_sendbuff apart)
    · dsimp only at overwritten ⊢
      rw [inPlace, same.resultLoc_eq memRank] at overwritten ⊢
      have isRoot : rank = root := congrArg Loc.rank overwritten
      rw [isRoot]
      rfl

/-- The chunks of the contexts make up the message. -/
theorem sendRecvOffset_nctx {nctx : Nat} (some_ : 0 < nctx) (count : Nat) :
    sendRecvOffset count nctx nctx = count := by
  have longer : ∑ c ∈ Finset.range nctx, (if c < count % nctx then 1 else 0) = count % nctx := by
    rw [Finset.sum_boole, Nat.cast_id]
    have less := Nat.mod_lt count some_
    have filtered : (Finset.range nctx).filter (· < count % nctx) =
        Finset.range (count % nctx) := by
      ext c
      simp only [Finset.mem_filter, Finset.mem_range]
      omega
    rw [filtered, Finset.card_range]
  simp only [sendRecvOffset, sendRecvChunk, Finset.sum_add_distrib, Finset.sum_const,
    Finset.card_range, smul_eq_mul, longer]
  exact Nat.div_add_mod count nctx

/-- Every byte of the message is in the chunk of one context. -/
theorem exists_chunk {nctx eltSize x : Nat} {count : Nat} (c : Nat)
    (inside : x < sendRecvOffset count nctx c * eltSize) :
    ∃ c' < c, ∃ i < sendRecvChunk count nctx c' * eltSize,
      x = sendRecvOffset count nctx c' * eltSize + i := by
  induction c with
  | zero => simp [sendRecvOffset] at inside
  | succ c ih =>
    rcases Nat.lt_or_ge x (sendRecvOffset count nctx c * eltSize) with before | here
    · obtain ⟨c', less, rest⟩ := ih before
      exact ⟨c', Nat.lt_succ_of_lt less, rest⟩
    · refine ⟨c, Nat.lt_succ_self c, x - sendRecvOffset count nctx c * eltSize, ?_, by omega⟩
      rw [sendRecvOffset, Finset.sum_range_succ, Nat.add_mul] at inside
      rw [sendRecvOffset] at here ⊢
      omega

theorem chunk_end_le {nctx c : Nat} (count : Nat) (mem : c < nctx) :
    sendRecvOffset count nctx c + sendRecvChunk count nctx c ≤ count := by
  conv_rhs => rw [← sendRecvOffset_nctx (Nat.zero_lt_of_lt mem) count]
  rw [sendRecvOffset, ← Finset.sum_range_succ]
  exact Finset.sum_le_sum_of_subset (Finset.range_subset_range.2 mem)

theorem sendRecv_assigns (same : SameRecv comm.nranks count recvoffset call)
    (send : ∀ rank < comm.nranks, (call rank).sendPtr.buffer = .sendbuff)
    (contexts : 0 < comm.nctx) :
    Moves.Assigns
      (putMoves comm.nranks eltSize fun rank => sendRecvRmaPut comm (call rank) eltSize rank)
      (results comm.nranks fun _ => count * eltSize) (resultLoc call)
      fun result => (call (ringPeer comm.nranks result.1)).sendPtr.loc
        (ringPeer comm.nranks result.1) result.2 := by
  refine assigns_of ?sound ?complete ?fresh
  case sound =>
    intro move mem
    obtain ⟨rank, memRank, put, memPut, i, inside, rfl⟩ := mem_putMoves.1 mem
    obtain ⟨c, memC, -, rfl⟩ := mem_sendRecv_puts.1 memPut
    rw [same.count_eq rank memRank] at inside
    have chunkEnd := Nat.mul_le_mul_right eltSize (chunk_end_le count memC)
    rw [Nat.add_mul] at chunkEnd
    have memNext : (rank + 1) % comm.nranks < comm.nranks := Nat.mod_lt _ (by omega)
    refine ⟨((rank + 1) % comm.nranks, sendRecvOffset count comm.nctx c * eltSize + i),
      ⟨memNext, by dsimp only at inside ⊢; omega⟩, ?_⟩
    dsimp only
    rw [same.resultLoc_eq memNext, ringPeer_next memRank]
    simp only [Ptr.loc, Ptr.add, same.count_eq rank memRank, same.recvoffset_eq rank memRank,
      Nat.add_assoc]
  case complete =>
    rintro ⟨rank, x⟩ ⟨memRank, inside⟩
    right
    have memPeer := ringPeer_lt memRank
    rw [← sendRecvOffset_nctx contexts count] at inside
    obtain ⟨c, memC, i, insideI, rfl⟩ := exists_chunk comm.nctx inside
    have carries : sendRecvChunk count comm.nctx c ≠ 0 := by
      intro empty
      rw [empty, Nat.zero_mul] at insideI
      exact Nat.not_lt_zero _ insideI
    rw [← same.count_eq _ memPeer] at carries
    refine mem_putMoves.2 ⟨ringPeer comm.nranks rank, memPeer, _,
      mem_sendRecv_puts.2 ⟨c, memC, carries, rfl⟩, i, ?_, ?_⟩
    · rw [same.count_eq _ memPeer]
      exact insideI
    · rw [same.resultLoc_eq memRank]
      simp only [Ptr.loc, Ptr.add, same.count_eq _ memPeer, same.recvoffset_eq _ memPeer,
        next_ringPeer memRank, Nat.add_assoc]
  case fresh =>
    rintro ⟨rank, x⟩ - ⟨rank', x'⟩ ⟨memRank', -⟩ overwritten
    exact absurd overwritten (resultLoc_ne_sendbuff (send _ (ringPeer_lt memRank')))

theorem scatter_assigns_outOfPlace (same : SameRecv comm.nranks count recvoffset call)
    (send : (call root).sendPtr.buffer = .sendbuff) (root_lt : root < comm.nranks) :
    Moves.Assigns
      (putMoves comm.nranks eltSize fun rank => scatterRmaPut comm (call rank) eltSize root rank)
      (results comm.nranks fun _ => count * eltSize) (resultLoc call)
      fun result => (call root).sendPtr.loc root (result.1 * (count * eltSize) + result.2) := by
  have apart : ∀ bytes, (call root).recvPtr ≠ (call root).sendPtr.add bytes := by
    intro bytes same_
    have buffer : Buffer.recvbuff = (call root).sendPtr.buffer := congrArg Ptr.buffer same_
    rw [send] at buffer
    cases buffer
  refine assigns_of ?sound ?complete ?fresh
  case sound =>
    intro move mem
    obtain ⟨rank, memRank, put, memPut, i, inside, rfl⟩ := mem_putMoves.1 mem
    obtain ⟨rfl, peer, memPeer, -, rfl⟩ := mem_scatter_puts.1 memPut
    rw [same.count_eq rank memRank] at inside
    refine ⟨(peer, i), ⟨memPeer, inside⟩, ?_⟩
    rw [same.resultLoc_eq memPeer, if_neg (apart _)]
    simp only [Ptr.loc, Ptr.add, same.count_eq rank memRank, same.recvoffset_eq rank memRank,
      Nat.add_assoc]
  case complete =>
    rintro ⟨peer, x⟩ ⟨memPeer, inside⟩
    right
    refine mem_putMoves.2 ⟨root, root_lt, _, mem_scatter_puts.2
      ⟨rfl, peer, memPeer, fun skipped => apart _ skipped.2, rfl⟩, x, ?_, ?_⟩
    · rw [same.count_eq root root_lt]
      exact inside
    · rw [same.resultLoc_eq memPeer, if_neg (apart _)]
      simp only [Ptr.loc, Ptr.add, same.count_eq root root_lt, same.recvoffset_eq root root_lt,
        Nat.add_assoc]
  case fresh =>
    intro result _ result' _ overwritten
    exact absurd overwritten (resultLoc_ne_sendbuff send)

end SameRecv

/-! ## Scattering in place -/

/-- Every rank receives where its block sits in the send buffer of the root. -/
structure ScatterInPlace (nranks count blockBytes root recvoffset : Nat)
    (call : Nat → RunCollArgs) : Prop where
  count_eq : ∀ rank < nranks, (call rank).count = count
  recvbuff_eq : ∀ rank < nranks, (call rank).recvbuff = 0
  recvoffset_eq : ∀ rank < nranks, (call rank).recvoffset = recvoffset + rank * blockBytes
  sendPtr_eq : (call root).sendPtr = ⟨.recvbuff, recvoffset⟩
  addressable : recvoffset + nranks * blockBytes ≤ 2 ^ 64

/-- The wrapped difference of two ranks leads from one block to the other. -/
theorem scatter_dstOffset {nranks b root peer recvoffset : Nat} (mem : peer < nranks)
    (some_ : 0 < b) (addressable : recvoffset + nranks * b ≤ 2 ^ 64) :
    (recvoffset + root * b + sizeT ((peer : Int) - root) * b) % 2 ^ 64 =
      recvoffset + peer * b := by
  have below : recvoffset + peer * b < 2 ^ 64 := by
    have next := block_lt mem some_
    omega
  have target : (recvoffset + root * b + sizeT ((peer : Int) - root) * b : Int) ≡
      (recvoffset + peer * b : Int) [ZMOD (2 ^ 64 : Nat)] := by
    have wrapped := ((sizeT_modEq ((peer : Int) - root)).mul_right b).add_left
      (recvoffset + root * b : Int)
    have cancel : (recvoffset + root * b : Int) + ((peer : Int) - root) * b =
        recvoffset + peer * b := by ring
    rwa [cancel] at wrapped
  have nat : recvoffset + root * b + sizeT ((peer : Int) - root) * b ≡
      recvoffset + peer * b [MOD 2 ^ 64] := by
    rw [← Int.natCast_modEq_iff]
    push_cast at target ⊢
    exact target
  rw [nat, Nat.mod_eq_of_lt below]

section ScatterInPlace

variable {comm : RmaComm} {count eltSize recvoffset root : Nat} {call : Nat → RunCollArgs}

theorem ScatterInPlace.recvPtr_eq
    (place : ScatterInPlace comm.nranks count (count * eltSize) root recvoffset call)
    {rank : Nat} (mem : rank < comm.nranks) :
    (call rank).recvPtr = ⟨.recvbuff, recvoffset + rank * (count * eltSize)⟩ := by
  rw [RunCollArgs.recvPtr, RunCollArgs.recvAddress, place.recvbuff_eq rank mem,
    place.recvoffset_eq rank mem, Nat.zero_add]

theorem ScatterInPlace.resultLoc_eq
    (place : ScatterInPlace comm.nranks count (count * eltSize) root recvoffset call)
    {rank : Nat} (mem : rank < comm.nranks) (x : Nat) :
    resultLoc call (rank, x) =
      ⟨rank, .recvbuff, recvoffset + (rank * (count * eltSize) + x)⟩ := by
  rw [resultLoc, place.recvPtr_eq mem, Ptr.loc, Nat.add_assoc]

/-- The root notices that the call is in place and skips its own block. -/
theorem scatter_assigns_inPlace
    (place : ScatterInPlace comm.nranks count (count * eltSize) root recvoffset call)
    (root_lt : root < comm.nranks) :
    Moves.Assigns
      (putMoves comm.nranks eltSize fun rank => scatterRmaPut comm (call rank) eltSize root rank)
      (results comm.nranks fun _ => count * eltSize) (resultLoc call)
      fun result => (call root).sendPtr.loc root (result.1 * (count * eltSize) + result.2) := by
  have isInPlace : (call root).recvPtr =
      (call root).sendPtr.add (root * ((call root).count * eltSize)) := by
    rw [place.recvPtr_eq root_lt, place.sendPtr_eq, place.count_eq root root_lt]
    rfl
  have dstOffset : ∀ peer < comm.nranks, 0 < count * eltSize →
      ((call root).recvoffset + sizeT ((peer : Int) - root) * (count * eltSize)) % 2 ^ 64 =
        recvoffset + peer * (count * eltSize) := by
    intro peer memPeer some_
    rw [place.recvoffset_eq root root_lt]
    exact scatter_dstOffset memPeer some_ place.addressable
  refine assigns_of ?sound ?complete ?fresh
  case sound =>
    intro move mem
    obtain ⟨rank, memRank, put, memPut, i, inside, rfl⟩ := mem_putMoves.1 mem
    obtain ⟨rfl, peer, memPeer, -, rfl⟩ := mem_scatter_puts.1 memPut
    rw [place.count_eq rank memRank] at inside
    refine ⟨(peer, i), ⟨memPeer, inside⟩, ?_⟩
    rw [place.resultLoc_eq memPeer, if_pos isInPlace, place.count_eq rank memRank]
    simp only [Ptr.loc, Ptr.add, dstOffset peer memPeer (Nat.zero_lt_of_lt inside),
      Nat.add_assoc]
  case complete =>
    rintro ⟨peer, x⟩ ⟨memPeer, inside⟩
    by_cases self : peer = root
    · left
      dsimp only
      rw [place.resultLoc_eq memPeer, place.sendPtr_eq, self]
      rfl
    · right
      refine mem_putMoves.2 ⟨root, root_lt, _, mem_scatter_puts.2
        ⟨rfl, peer, memPeer, fun skipped => self skipped.1, rfl⟩, x, ?_, ?_⟩
      · rw [place.count_eq root root_lt]
        exact inside
      · rw [place.resultLoc_eq memPeer, if_pos isInPlace, place.count_eq root root_lt]
        simp only [Ptr.loc, Ptr.add, dstOffset peer memPeer (Nat.zero_lt_of_lt inside),
          Nat.add_assoc]
  case fresh =>
    rintro ⟨rank, x⟩ ⟨memRank, -⟩ result' - overwritten
    dsimp only at overwritten ⊢
    rw [place.sendPtr_eq] at overwritten ⊢
    have isRoot : rank = root := congrArg Loc.rank overwritten
    rw [place.resultLoc_eq memRank, isRoot]
    rfl

end ScatterInPlace

end NcclTests.HostRma
