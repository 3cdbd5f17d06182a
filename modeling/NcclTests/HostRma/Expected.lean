import Mathlib
import NcclTests.HostRma.Placement

/-!
# Host RMA passes the data check

A test initialises the buffers of all ranks, starts the collective on each of
them and, when all puts have been delivered, compares every result with the
expected data.
-/

namespace NcclTests.HostRma

open Collective

/-- `collTest->initData`. -/
def RmaColl.initData {β : Type*} [Zero β] (coll : RmaColl) (content : Nat → Nat → β)
    (args : ThreadArgs) (wordSize nranks root unalignBytes rep : Nat) (inPlace : Bool)
    (rank : Nat) (m : RankMem β) : RankMem β :=
  match coll with
  | allGather => allGatherInitData content args wordSize nranks unalignBytes rep inPlace rank m
  | alltoAll => alltoAllInitData content args wordSize nranks unalignBytes rep inPlace rank m
  | broadcast => broadcastInitData content args wordSize root unalignBytes rep inPlace rank m
  | gather => gatherInitData content args wordSize nranks root unalignBytes rep inPlace rank m
  | scatter => scatterInitData content args wordSize root unalignBytes rep inPlace rank m
  | sendRecv => sendRecvInitData content args wordSize nranks unalignBytes rep inPlace rank m

/-- The counts of a collective with blocks of `count` elements. -/
def RmaColl.counts (coll : RmaColl) (count nranks : Nat) : CollByteCount :=
  match coll with
  | allGather | gather => concatCount count nranks
  | scatter => cutCount count nranks
  | broadcast | sendRecv => wholeCount count
  | alltoAll => ⟨nranks * count, nranks * count, count, 0, 0⟩

/-- The byte that a collective delivers at position `result.2` of the result of
rank `result.1`, with blocks of `blockBytes` bytes. -/
def RmaColl.source (coll : RmaColl) (nranks root blockBytes : Nat) (call : Nat → RunCollArgs)
    (result : Nat × Nat) : Loc :=
  match coll with
  | allGather | gather => contribution call blockBytes result.2
  | alltoAll => (call (result.2 / blockBytes)).sendPtr.loc (result.2 / blockBytes)
      (result.1 * blockBytes + result.2 % blockBytes)
  | broadcast => (call root).sendPtr.loc root result.2
  | scatter => (call root).sendPtr.loc root (result.1 * blockBytes + result.2)
  | sendRecv => (call (ringPeer nranks result.1)).sendPtr.loc (ringPeer nranks result.1) result.2

/-- A test of a collective over host RMA: exchanges are not supported in place,
the iteration is one without a shift, and the buffers have 64-bit addresses. -/
structure RmaTest where
  coll : RmaColl
  comm : RmaComm
  spread : ℚ
  maxbytes : Nat
  size : Nat
  wordSize : Nat
  unalign : Nat
  root : Nat
  rep : Nat
  iter : Nat
  inPlace : Bool
  wordSize_mem : wordSize ∈ ({1, 2, 4, 8} : Finset Nat)
  root_lt : root < comm.nranks
  contexts : 0 < comm.nctx
  supported : inPlace = true → coll ≠ .alltoAll ∧ coll ≠ .sendRecv
  noShift : (setupArgs coll.toColl spread maxbytes size wordSize comm.nranks).shift iter = 0
  addressable : unalign * wordSize +
    (setupArgs coll.toColl spread maxbytes size wordSize comm.nranks).totalnbytes ≤ 2 ^ 64

namespace RmaTest

variable {β : Type*} [Zero β] (t : RmaTest)

def args : ThreadArgs :=
  setupArgs t.coll.toColl t.spread t.maxbytes t.size t.wordSize t.comm.nranks

def unalignBytes : Nat := t.unalign * t.wordSize

def call (rank : Nat) : RunCollArgs :=
  startColl t.args .hostRma t.wordSize t.unalign rank t.inPlace t.iter

/-- What all ranks put. -/
def moves : List (Move Loc) :=
  putMoves t.comm.nranks t.wordSize fun rank =>
    t.coll.rmaPut t.comm (t.call rank) t.wordSize t.root rank

/-- The buffers when the collective starts. -/
def before (content : Nat → Nat → β) (m₀ : Mem β) : Mem β :=
  m₀.initEach fun rank =>
    t.coll.initData content t.args t.wordSize t.comm.nranks t.root t.unalignBytes t.rep t.inPlace
      rank

/-- The bytes that a rank receives. -/
def received (rank : Nat) : Nat :=
  t.coll.toColl.bytesReceived t.spread (t.call rank).count t.wordSize t.comm.nranks rank t.root

/-- The elements of one block. -/
def count : Nat := t.args.nbytes / t.wordSize

/-! ## The calls -/

theorem wordSize_pos : 0 < t.wordSize := eltSize_pos t.wordSize_mem

theorem call_count (rank : Nat) : (t.call rank).count = t.count := rfl

theorem call_recvbuff (rank : Nat) : (t.call rank).recvbuff = 0 := rfl

theorem call_recvoffset (rank : Nat) :
    (t.call rank).recvoffset =
      t.unalignBytes + if t.inPlace then t.args.recvInplaceOffset * rank else 0 := by
  have noShift : t.args.shift t.iter = 0 := t.noShift
  simp only [call, startColl, noShift, Nat.zero_add]
  exact Nat.add_comm _ _

theorem call_sendPtr (rank : Nat) :
    (t.call rank).sendPtr =
      contributionPtr t.unalignBytes (t.args.sendInplaceOffset * rank) t.inPlace := by
  have noShift : t.args.shift t.iter = 0 := t.noShift
  unfold contributionPtr
  simp only [RunCollArgs.sendPtr, RunCollArgs.sendAddress, call, startColl, noShift, Nat.zero_add]
  cases t.inPlace
  · simp only [Bool.false_eq_true, if_false, Nat.zero_add]
    rfl
  · simp only [if_true]
    rw [Nat.add_comm]
    rfl

/-- The check looks at the place where the call receives. -/
theorem checkedPtr_eq (rank : Nat) :
    checkedPtr t.args t.unalignBytes rank t.inPlace = (t.call rank).recvPtr := by
  rw [RunCollArgs.recvPtr, RunCollArgs.recvAddress, call_recvbuff, call_recvoffset, Nat.zero_add]
  rfl

/-- Initialised memory, one rank at a time. -/
theorem before_loc (content : Nat → Nat → β) (m₀ : Mem β) (p : Ptr) (rank i : Nat) :
    t.before content m₀ (p.loc rank i) =
      t.coll.initData content t.args t.wordSize t.comm.nranks t.root t.unalignBytes t.rep
        t.inPlace rank (fun q => m₀ (q.loc rank 0)) (p.add i) := rfl

/-! ## Delivery -/

/-- The arguments are those of the block that a rank contributes or receives. -/
theorem args_eq :
    t.args = (t.coll.counts t.count t.comm.nranks).toArgs t.maxbytes t.wordSize := by
  have param : t.count = (t.coll.toColl.getCollByteCount t.spread (t.size / t.wordSize) t.wordSize
      t.comm.nranks).paramcount := Nat.mul_div_cancel _ t.wordSize_pos
  rw [args, setupArgs, param]
  cases t.coll <;> rfl

theorem received_eq (rank : Nat) :
    t.received rank =
      t.coll.toColl.bytesReceived t.spread t.count t.wordSize t.comm.nranks rank t.root := rfl

section Coll

variable {t} {coll : RmaColl} (coll_eq : t.coll = coll)
include coll_eq

theorem args_eq_counts :
    t.args = (coll.counts t.count t.comm.nranks).toArgs t.maxbytes t.wordSize := by
  rw [args_eq, coll_eq]

theorem sendBytes_eq :
    t.args.sendBytes = (coll.counts t.count t.comm.nranks).sendcount * t.wordSize :=
  congrArg ThreadArgs.sendBytes (args_eq_counts coll_eq)

theorem expectedBytes_eq :
    t.args.expectedBytes = (coll.counts t.count t.comm.nranks).recvcount * t.wordSize :=
  congrArg ThreadArgs.expectedBytes (args_eq_counts coll_eq)

theorem sendInplaceOffset_eq :
    t.args.sendInplaceOffset =
      (coll.counts t.count t.comm.nranks).sendInplaceOffset * t.wordSize :=
  congrArg ThreadArgs.sendInplaceOffset (args_eq_counts coll_eq)

theorem recvInplaceOffset_eq :
    t.args.recvInplaceOffset =
      (coll.counts t.count t.comm.nranks).recvInplaceOffset * t.wordSize :=
  congrArg ThreadArgs.recvInplaceOffset (args_eq_counts coll_eq)

end Coll

/-- All ranks receive at one offset, unless the blocks are cut up in place. -/
theorem sameRecv (level : t.inPlace = true → t.args.recvInplaceOffset = 0) :
    SameRecv t.comm.nranks t.count t.unalignBytes t.call where
  count_eq rank _ := t.call_count rank
  recvbuff_eq rank _ := t.call_recvbuff rank
  recvoffset_eq rank _ := by
    rw [call_recvoffset]
    split
    case isTrue inPlace => rw [level inPlace, Nat.zero_mul, Nat.add_zero]
    case isFalse => exact Nat.add_zero _

theorem sendbuff_of_outOfPlace (outOfPlace : t.inPlace = false) (rank : Nat) :
    (t.call rank).sendPtr.buffer = .sendbuff := by
  rw [call_sendPtr, outOfPlace]
  rfl

/-- Contributions are `sendInplaceOffset` apart. -/
theorem gatherSend (apart : t.args.sendInplaceOffset = t.count * t.wordSize) :
    GatherSend t.comm.nranks (t.count * t.wordSize) t.unalignBytes t.call := by
  rcases place : t.inPlace
  · exact .inl fun rank _ => t.sendbuff_of_outOfPlace place rank
  · refine .inr fun rank _ => ?_
    rw [call_sendPtr, place, apart, Nat.mul_comm _ rank]
    rfl

/-- The puts of a test carry out its collective. -/
theorem assigns :
    Moves.Assigns t.moves (results t.comm.nranks t.received) (resultLoc t.call)
      (t.coll.source t.comm.nranks t.root (t.count * t.wordSize) t.call) := by
  have args_eq := t.args_eq
  have supported := t.supported
  rw [funext t.received_eq, moves]
  rcases coll_eq : t.coll <;> rw [coll_eq] at args_eq supported
  case allGather =>
    exact allGather_assigns (t.sameRecv fun _ => by rw [args_eq]; exact Nat.zero_mul _)
      (t.gatherSend (by rw [args_eq]; rfl))
  case gather =>
    exact gather_assigns (t.sameRecv fun _ => by rw [args_eq]; exact Nat.zero_mul _)
      (t.gatherSend (by rw [args_eq]; rfl)) t.root_lt
  case alltoAll =>
    have outOfPlace : t.inPlace = false := by
      rw [← Bool.not_eq_true]
      exact fun inPlace => (supported inPlace).1 rfl
    exact alltoAll_assigns (t.sameRecv fun _ => by rw [args_eq]; exact Nat.zero_mul _)
      fun rank _ => t.sendbuff_of_outOfPlace outOfPlace rank
  case sendRecv =>
    have outOfPlace : t.inPlace = false := by
      rw [← Bool.not_eq_true]
      exact fun inPlace => (supported inPlace).2 rfl
    exact sendRecv_assigns (t.sameRecv fun _ => by rw [args_eq]; exact Nat.zero_mul _)
      (fun rank _ => t.sendbuff_of_outOfPlace outOfPlace rank) t.contexts
  case broadcast =>
    refine broadcast_assigns (t.sameRecv fun _ => by rw [args_eq]; exact Nat.zero_mul _) ?_
      t.root_lt
    rcases place : t.inPlace
    · exact .inl (t.sendbuff_of_outOfPlace place _)
    · right
      have level : t.args.sendInplaceOffset = 0 := by
        rw [args_eq]
        exact Nat.zero_mul _
      rw [call_sendPtr, place, level, Nat.zero_mul]
      rfl
  case scatter =>
    rcases place : t.inPlace
    · exact scatter_assigns_outOfPlace (t.sameRecv fun inPlace => by simp [place] at inPlace)
        (t.sendbuff_of_outOfPlace place _) t.root_lt
    · suffices blocks : ScatterInPlace t.comm.nranks t.count (t.count * t.wordSize) t.root
          t.unalignBytes t.call from scatter_assigns_inPlace blocks t.root_lt
      refine ⟨fun rank _ => t.call_count rank, fun rank _ => t.call_recvbuff rank,
        fun rank _ => ?_, ?_, ?_⟩
      · rw [call_recvoffset, if_pos place, args_eq, Nat.mul_comm rank]
        rfl
      · have level : t.args.sendInplaceOffset = 0 := by
          rw [args_eq]
          exact Nat.zero_mul _
        rw [call_sendPtr, place, level, Nat.zero_mul]
        rfl
      · have addressable : t.unalignBytes + t.args.totalnbytes ≤ 2 ^ 64 := t.addressable
        have whole : t.comm.nranks * (t.count * t.wordSize) ≤ t.args.totalnbytes := by
          rw [args_eq]
          refine le_trans (le_of_eq ?_) (Nat.le_max_left _ _)
          simp only [RmaColl.counts, cutCount, CollByteCount.toArgs]
          ring
        omega

/-! ## Expectation -/

section Expected

variable {t} (content : Nat → Nat → β) (m₀ : Mem β) {rank x : Nat}

/-- What a rank contributes, read through its send pointer. -/
theorem before_sendPtr (rank i : Nat) :
    t.before content m₀ ((t.call rank).sendPtr.loc rank i) =
      t.coll.initData content t.args t.wordSize t.comm.nranks t.root t.unalignBytes t.rep
        t.inPlace rank (fun q => m₀ (q.loc rank 0))
        ((contributionPtr t.unalignBytes (t.args.sendInplaceOffset * rank) t.inPlace).add i) := by
  rw [before_loc, call_sendPtr]

theorem allGather_before (coll_eq : t.coll = .allGather)
    (inside : x < t.comm.nranks * (t.count * t.wordSize)) :
    t.before content m₀ (contribution t.call (t.count * t.wordSize) x) =
      t.before content m₀ (expectedPtr.loc rank x) := by
  have send : t.args.sendBytes = t.count * t.wordSize :=
    sendBytes_eq coll_eq
  have apart : t.args.sendInplaceOffset = t.count * t.wordSize :=
    sendInplaceOffset_eq coll_eq
  obtain ⟨r, -, i, less, rfl⟩ := exists_block inside
  rw [contribution_block _ less, before_sendPtr, before_loc, coll_eq, apart, Nat.mul_comm _ r]
  simp only [RmaColl.initData]
  rw [allGatherInitData_data t.wordSize_pos send less,
    allGatherInitData_expected t.wordSize_pos send inside, block_div less, block_mod less]

theorem gather_before (coll_eq : t.coll = .gather)
    (inside : x < t.comm.nranks * (t.count * t.wordSize)) :
    t.before content m₀ (contribution t.call (t.count * t.wordSize) x) =
      t.before content m₀ (expectedPtr.loc t.root x) := by
  have send : t.args.sendBytes = t.count * t.wordSize :=
    sendBytes_eq coll_eq
  have apart : t.args.sendInplaceOffset = t.count * t.wordSize :=
    sendInplaceOffset_eq coll_eq
  obtain ⟨r, -, i, less, rfl⟩ := exists_block inside
  rw [contribution_block _ less, before_sendPtr, before_loc, coll_eq, apart, Nat.mul_comm _ r]
  simp only [RmaColl.initData]
  rw [gatherInitData_data t.wordSize_pos send less,
    gatherInitData_expected_root t.wordSize_pos send inside]

theorem alltoAll_before (coll_eq : t.coll = .alltoAll) (mem : rank < t.comm.nranks)
    (inside : x < t.comm.nranks * (t.count * t.wordSize)) :
    t.before content m₀ ((t.call (x / (t.count * t.wordSize))).sendPtr.loc
        (x / (t.count * t.wordSize))
        (rank * (t.count * t.wordSize) + x % (t.count * t.wordSize))) =
      t.before content m₀ (expectedPtr.loc rank x) := by
  have send : t.args.sendBytes = t.comm.nranks * t.count * t.wordSize :=
    sendBytes_eq coll_eq
  have level : t.args.sendInplaceOffset = 0 :=
    (sendInplaceOffset_eq coll_eq).trans (Nat.zero_mul _)
  obtain ⟨r, memR, i, less, rfl⟩ := exists_block inside
  have part := block_lt mem less
  rw [← Nat.mul_assoc t.comm.nranks] at part
  rw [block_div less, block_mod less, before_sendPtr, before_loc, coll_eq, level, Nat.zero_mul]
  simp only [RmaColl.initData]
  rw [alltoAllInitData_data t.wordSize_pos (Nat.zero_lt_of_lt mem) send part,
    alltoAllInitData_expected t.wordSize_pos send inside, block_div less, block_mod less]

theorem broadcast_before (coll_eq : t.coll = .broadcast) (inside : x < t.count * t.wordSize) :
    t.before content m₀ ((t.call t.root).sendPtr.loc t.root x) =
      t.before content m₀ (expectedPtr.loc rank x) := by
  have send : t.args.sendBytes = t.count * t.wordSize :=
    sendBytes_eq coll_eq
  have recv : t.args.expectedBytes = t.count * t.wordSize :=
    expectedBytes_eq coll_eq
  have level : t.args.sendInplaceOffset = 0 :=
    (sendInplaceOffset_eq coll_eq).trans (Nat.zero_mul _)
  rw [before_sendPtr, before_loc, coll_eq, level, Nat.zero_mul]
  simp only [RmaColl.initData]
  rw [broadcastInitData_data t.wordSize_pos send inside,
    broadcastInitData_expected t.wordSize_pos recv inside]

theorem scatter_before (coll_eq : t.coll = .scatter) (mem : rank < t.comm.nranks)
    (inside : x < t.count * t.wordSize) :
    t.before content m₀
        ((t.call t.root).sendPtr.loc t.root (rank * (t.count * t.wordSize) + x)) =
      t.before content m₀ (expectedPtr.loc rank x) := by
  have send : t.args.sendBytes = t.count * t.comm.nranks * t.wordSize :=
    sendBytes_eq coll_eq
  have recv : t.args.expectedBytes = t.count * t.wordSize :=
    expectedBytes_eq coll_eq
  have level : t.args.sendInplaceOffset = 0 :=
    (sendInplaceOffset_eq coll_eq).trans (Nat.zero_mul _)
  have part := block_lt mem inside
  rw [← Nat.mul_assoc t.comm.nranks, Nat.mul_comm t.comm.nranks] at part
  rw [before_sendPtr, before_loc, coll_eq, level, Nat.zero_mul]
  simp only [RmaColl.initData]
  rw [scatterInitData_data t.wordSize_pos send part,
    scatterInitData_expected t.wordSize_pos recv inside]

theorem sendRecv_before (coll_eq : t.coll = .sendRecv) (inside : x < t.count * t.wordSize) :
    t.before content m₀ ((t.call (ringPeer t.comm.nranks rank)).sendPtr.loc
        (ringPeer t.comm.nranks rank) x) =
      t.before content m₀ (expectedPtr.loc rank x) := by
  have send : t.args.sendBytes = t.count * t.wordSize :=
    sendBytes_eq coll_eq
  have recv : t.args.expectedBytes = t.count * t.wordSize :=
    expectedBytes_eq coll_eq
  have level : t.args.sendInplaceOffset = 0 :=
    (sendInplaceOffset_eq coll_eq).trans (Nat.zero_mul _)
  rw [before_sendPtr, before_loc, coll_eq, level, Nat.zero_mul]
  simp only [RmaColl.initData]
  rw [sendRecvInitData_data t.wordSize_pos send inside,
    sendRecvInitData_expected t.wordSize_pos recv inside]
  rfl

/-- What `InitData` expects of a byte that is delivered is what it wrote at its source. -/
theorem before_source (mem : rank < t.comm.nranks) (inside : x < t.received rank) :
    t.before content m₀
        (t.coll.source t.comm.nranks t.root (t.count * t.wordSize) t.call (rank, x)) =
      t.before content m₀ (expectedPtr.loc rank x) := by
  rw [received_eq] at inside
  rcases coll_eq : t.coll <;> rw [coll_eq] at inside
  case allGather => exact allGather_before content m₀ coll_eq inside
  case alltoAll => exact alltoAll_before content m₀ coll_eq mem inside
  case broadcast => exact broadcast_before content m₀ coll_eq inside
  case scatter => exact scatter_before content m₀ coll_eq mem inside
  case sendRecv => exact sendRecv_before content m₀ coll_eq inside
  case gather =>
    simp only [RmaColl.toColl, Coll.bytesReceived] at inside
    split at inside
    case isTrue isRoot =>
      subst isRoot
      exact gather_before content m₀ coll_eq inside
    case isFalse => exact absurd inside (Nat.not_lt_zero _)

/-- Only a gather leaves results alone: those of the ranks other than the root, which
expect what they hold. -/
theorem before_rest (inside : x < t.args.expectedBytes) (outside : t.received rank ≤ x) :
    t.before content m₀ (resultLoc t.call (rank, x)) =
      t.before content m₀ (expectedPtr.loc rank x) := by
  have bytes : t.args.expectedBytes =
      (t.coll.counts t.count t.comm.nranks).recvcount * t.wordSize := expectedBytes_eq rfl
  rw [received_eq] at outside
  have recvPtr : t.coll = .gather → (t.call rank).recvPtr = ⟨.recvbuff, t.unalignBytes⟩ := by
    intro coll_eq
    have level : t.args.recvInplaceOffset = 0 :=
      (recvInplaceOffset_eq coll_eq).trans (Nat.zero_mul _)
    rw [← checkedPtr_eq, checkedPtr, level, Nat.zero_mul, ite_self]
    rfl
  rw [bytes] at inside
  rcases coll_eq : t.coll <;> rw [coll_eq] at inside outside recvPtr <;>
    simp only [RmaColl.toColl, Coll.bytesReceived, RmaColl.counts, concatCount, cutCount,
      wholeCount] at inside outside
  case allGather => exact absurd inside (by rw [Nat.mul_right_comm]; nlinarith)
  case alltoAll => exact absurd inside (by rw [Nat.mul_assoc]; omega)
  case broadcast => omega
  case scatter => omega
  case sendRecv => omega
  case gather =>
    split at outside
    case isTrue => exact absurd inside (by rw [Nat.mul_right_comm]; nlinarith)
    case isFalse other =>
      have expected : x < t.args.expectedBytes := by
        rw [bytes, coll_eq]
        exact inside
      rw [resultLoc, recvPtr rfl, before_loc, before_loc, coll_eq]
      exact (gatherInitData_expected_other other expected).symm

end Expected

end RmaTest

/-- **Host RMA puts data where the check expects it**, for every collective, number
of ranks, root, number of contexts and count, in place and out of place, and for
any order in which the bytes of all puts arrive (`perm`). Nothing is written but the bytes
that the ranks receive.

The moves of a test assign to every received byte one that no put changes (`RmaTest.assigns`), so
that their order does not matter; in place a contribution may be where it belongs already. What
the puts leave alone, the results of ranks that are not the root of a gather, is expected to be
what it was (`before_rest`). -/
theorem rmaPut_checkData {β : Type*} [Zero β] (t : RmaTest) (content : Nat → Nat → β) (m₀ : Mem β)
    {order : List (Move Loc)} (perm : order.Perm t.moves) :
    (∀ rank < t.comm.nranks, CheckData t.args t.unalignBytes rank t.inPlace
      (Moves.run order (t.before content m₀))) ∧
    ∀ l, (∀ rank < t.comm.nranks, ∀ x < t.received rank, (t.call rank).recvPtr.loc rank x ≠ l) →
      Moves.run order (t.before content m₀) l = t.before content m₀ l := by
  have frame : ∀ l, (∀ rank < t.comm.nranks, ∀ x < t.received rank,
      (t.call rank).recvPtr.loc rank x ≠ l) →
      Moves.run order (t.before content m₀) l = t.before content m₀ l := by
    intro l untouched
    exact t.assigns.run_frame perm _ fun result mem => untouched result.1 mem.1 result.2 mem.2
  refine ⟨fun rank mem x inside => ?_, frame⟩
  have expected := frame (expectedPtr.loc rank x) fun _ _ _ _ same => by
    cases congrArg Loc.buffer same
  rw [expected, t.checkedPtr_eq]
  rcases Nat.lt_or_ge x (t.received rank) with delivered | rest
  · exact (t.assigns.run_dst perm _ (i := (rank, x)) ⟨mem, delivered⟩).trans
      (RmaTest.before_source content m₀ mem delivered)
  · have untouched := frame (resultLoc t.call (rank, x)) fun r _ y inside' same => by
      have both : resultLoc t.call (r, y) = resultLoc t.call (rank, x) := same
      cases resultLoc_inj both
      omega
    exact untouched.trans (RmaTest.before_rest content m₀ inside rest)

/-- Three ranks scatter in place from rank 2, so that the offsets to both peers wrap. -/
def scatterInPlace : RmaTest where
  coll := .scatter
  comm := ⟨3, 4, 2⟩
  spread := 0
  maxbytes := 48
  size := 48
  wordSize := 4
  unalign := 1
  root := 2
  rep := 1
  iter := 0
  inPlace := true
  wordSize_mem := four_mem_eltSizes
  root_lt := by decide
  contexts := by decide
  supported _ := ⟨nofun, nofun⟩
  noShift := by decide
  addressable := by
    have whole : (setupArgs .scatter 0 48 48 4 3).totalnbytes = 48 := by
      have base : alignedBase (48 / 4) 4 3 = 4 := alignedBase_eq (by decide) _ _
      rw [setupArgs, Coll.getCollByteCount, scatterGetCollByteCount, base]
      rfl
    change 1 * 4 + (setupArgs .scatter 0 48 48 4 3).totalnbytes ≤ 2 ^ 64
    rw [whole]
    norm_num

theorem rmaPut_checkData_scatter :
    CheckData scatterInPlace.args 4 1 true
      (Moves.run scatterInPlace.moves
        (scatterInPlace.before (fun seed i => 100 * seed + i) fun _ => 0)) :=
  (rmaPut_checkData scatterInPlace _ _ (List.Perm.refl _)).1 1 (by decide)

end NcclTests.HostRma
