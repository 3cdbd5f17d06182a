import Mathlib
import NcclTests.Collective.BufferBounds
import NcclTests.Collective.InitData
import NcclTests.Collective.PointToPoint
import NcclTests.Lib.Segments

/-!
# The irregular exchange

`alltoallv` computes the bytes for a pair of ranks in four places: for the byte counts,
the initial data, the expected data and the run itself. Here they are one function of
the pattern, and what differs is what the source makes different: where `total_bytes`
comes from, and how offsets are accumulated.

The bytes of a generated pattern are a `double` formula of distance, number of ranks and
total bytes. The formula is a parameter, since nothing depends on its values. Sizes are
natural numbers, which is to say that no total wraps; the index into a matrix is the `int` of the
source, and where it wraps around all four places read the same entry.
-/

namespace NcclTests.Collective

open Segments PowTwoPerm

/-- Where the sizes come from. -/
inductive TrafficPattern
  /-- `traffic_matrix_data` and `traffic_matrix_dim`. -/
  | matrix (data : List Nat) (dim : Nat)
  /-- `(size_t)bytes` of distance, `nranks` and `total_bytes`. -/
  | generated (share : Nat → Nat → Nat → Nat)

/-- One operation of an NCCL group. -/
inductive GroupOp
  | send (t : Transfer)
  | recv (t : Transfer)
  deriving DecidableEq, Repr

namespace TrafficPattern

variable (pattern : TrafficPattern)

/-- `alltoallv_use_generated_pattern`. -/
def useGenerated : Bool :=
  match pattern with
  | matrix _ _ => false
  | generated _ => true

/-- `AlltoAllvGetPeerBytesFromMatrix` and `AlltoAllvGetPeerBytesDistanceWeighted`. -/
def peerBytes (nranks totalBytes i j : Nat) : Nat :=
  match pattern with
  | matrix data dim => alltoAllvGetPeerBytesFromMatrix data dim i j
  | generated share =>
    if nranks = 1 then Nat.ldiff totalBytes 15
    else Nat.ldiff (share ((j + nranks - i) % nranks) nranks totalBytes) 15

/-- `AlltoAllvComputeMaxCounts`: `maxSendCount` and `maxRecvCount`. -/
def computeMaxCounts (eltSize nranks totalBytes : Nat) : Nat × Nat :=
  let bytes := pattern.peerBytes nranks totalBytes
  match pattern with
  | generated _ =>
    let rankTotal := ∑ j ∈ Finset.range nranks, bytes 0 j / eltSize
    (rankTotal, rankTotal)
  | matrix _ _ =>
    ((Finset.range nranks).sup fun i => ∑ j ∈ Finset.range nranks, bytes i j / eltSize,
      (Finset.range nranks).sup fun i => ∑ j ∈ Finset.range nranks, bytes j i / eltSize)

/-- `AlltoAllvGetCollByteCount`. -/
def getCollByteCount (count eltSize nranks : Nat) : CollByteCount :=
  let paramcount := if pattern.useGenerated then alignedBase count eltSize nranks else 0
  let totalBytes := paramcount * nranks * eltSize
  let maxCounts := pattern.computeMaxCounts eltSize nranks totalBytes
  { sendcount := maxCounts.1
    recvcount := maxCounts.2
    paramcount := paramcount
    sendInplaceOffset := 0
    recvInplaceOffset := 0 }

/-- With the exact share, these are the counts of a generated pattern. -/
theorem getCollByteCount_distanceShare (spread : ℚ) (count eltSize nranks : Nat) :
    (generated fun distance nranks totalBytes =>
        ⌊distanceShare spread nranks totalBytes distance⌋₊).getCollByteCount count eltSize nranks =
      alltoAllvGetCollByteCount spread count eltSize nranks := rfl

section

variable {β : Type*} [Zero β] (content : Nat → Nat → β) (args : ThreadArgs)
  (wordSize nranks unalignBytes rep : Nat) (inPlace : Bool) (rank : Nat) (m : RankMem β)

/-- One turn of the loop over the sources, with `recvoffset` beside the memory. -/
def expectFrom (bytes : Nat → Nat → Nat) (state : RankMem β × Nat) (src : Nat) :
    RankMem β × Nat :=
  let recvcount := bytes src rank / wordSize
  if recvcount = 0 then state
  else
    let srcOffset := ∑ k ∈ Finset.range rank, bytes src k / wordSize
    (state.1.initData content (expectedPtr.add state.2) (recvcount * wordSize)
        (srcOffset * wordSize) (33 * rep + src),
      state.2 + recvcount * wordSize)

/-- `AlltoAllvInitData` on one GPU. -/
def initData : RankMem β :=
  let totalBytes := if pattern.useGenerated then args.nbytes * nranks else 0
  let bytes := pattern.peerBytes nranks totalBytes
  let recvbuff : Ptr := ⟨.recvbuff, unalignBytes⟩
  let m := m.memset recvbuff args.expectedBytes
  let m := m.memset expectedPtr args.expectedBytes
  let sendcount := ∑ dst ∈ Finset.range nranks, bytes rank dst / wordSize
  let data := if inPlace then recvbuff else ⟨.sendbuff, unalignBytes⟩
  let m := if sendcount > 0 then
      m.initData content data (sendcount * wordSize) 0 (33 * rep + rank)
    else m
  ((List.range nranks).foldl (expectFrom content wordSize rep rank bytes) (m, 0)).1

end

/-- The loop of `AlltoAllvRunColl` over some ranks, from the pointers it has reached. -/
def runLoop (sendCount recvCount : Nat → Nat) (eltSize : Nat) :
    List Nat → Ptr → Ptr → List GroupOp
  | [], _, _ => []
  | r :: ranks, sptr, rptr =>
    (if sendCount r > 0 then [.send ⟨sptr, sendCount r * eltSize, r⟩] else []) ++
    (if recvCount r > 0 then [.recv ⟨rptr, recvCount r * eltSize, r⟩] else []) ++
    runLoop sendCount recvCount eltSize ranks
      (if sendCount r > 0 then sptr.add (sendCount r * eltSize) else sptr)
      (if recvCount r > 0 then rptr.add (recvCount r * eltSize) else rptr)

/-- `AlltoAllvRunColl`: the operations of its group. -/
def runColl (call : RunCollArgs) (eltSize nRanks ncclRank : Nat) : List GroupOp :=
  let totalBytes := call.count * nRanks * eltSize
  let bytes := pattern.peerBytes nRanks totalBytes
  runLoop (fun r => bytes ncclRank r / eltSize) (fun r => bytes r ncclRank / eltSize) eltSize
    (List.range nRanks) call.sendPtr call.recvPtr

end TrafficPattern

/-! ## Groups of sends and receives -/

namespace GroupOp

def sendTo? (peer : Nat) : GroupOp → Option Transfer
  | send t => if t.peer = peer then some t else none
  | recv _ => none

def recvFrom? (peer : Nat) : GroupOp → Option Transfer
  | send _ => none
  | recv t => if t.peer = peer then some t else none

def peer : GroupOp → Nat
  | send t => t.peer
  | recv t => t.peer

/-- The sends of a group to a peer, in order. -/
def sendsTo (ops : List GroupOp) (peer : Nat) : List Transfer := ops.filterMap (sendTo? peer)

/-- The receives of a group from a peer, in order. -/
def recvsFrom (ops : List GroupOp) (peer : Nat) : List Transfer := ops.filterMap (recvFrom? peer)

end GroupOp

/-- The moves of the groups of all ranks: the sends from one rank to another are matched
with the receives there in order. -/
def groupMoves (nRanks : Nat) (ops : Nat → List GroupOp) : List (Move Loc) :=
  (List.range nRanks).flatMap fun i => (List.range nRanks).flatMap fun j =>
    (List.zipWith (fun s r => blockMoves j r.buff i s.buff s.bytes)
      (GroupOp.sendsTo (ops i) j) (GroupOp.recvsFrom (ops j) i)).flatten

/-! ## The operations of a rank -/

namespace TrafficPattern

section

variable {sendCount recvCount : Nat → Nat} {eltSize n peer : Nat} {sptr rptr : Ptr}

/-- What a rank issues for a peer, `sptr` and `rptr` being the pointers it starts with. -/
def peerOps (sendCount recvCount : Nat → Nat) (eltSize : Nat) (sptr rptr : Ptr) (r : Nat) :
    List GroupOp :=
  let sent := fun k => sendCount k * eltSize
  let received := fun k => recvCount k * eltSize
  (if sendCount r > 0 then [.send ⟨sptr.add (start sent r), sent r, r⟩] else []) ++
  (if recvCount r > 0 then [.recv ⟨rptr.add (start received r), received r, r⟩] else [])

/-- A pointer that skips empty segments still stands at the start of the next one. -/
theorem advance (count : Nat → Nat) (eltSize : Nat) (p : Ptr) (r : Nat) :
    (if count r > 0 then (p.add (start (fun k => count k * eltSize) r)).add (count r * eltSize)
      else p.add (start (fun k => count k * eltSize) r)) =
      p.add (start (fun k => count k * eltSize) (r + 1)) := by
  rw [start_succ]
  split
  · rw [Ptr.add_add]
  · next none_ => rw [Nat.eq_zero_of_not_pos none_, Nat.zero_mul, Nat.add_zero]

theorem runLoop_range' (first len : Nat) :
    runLoop sendCount recvCount eltSize (List.range' first len)
        (sptr.add (start (fun k => sendCount k * eltSize) first))
        (rptr.add (start (fun k => recvCount k * eltSize) first)) =
      (List.range' first len).flatMap (peerOps sendCount recvCount eltSize sptr rptr) := by
  induction len generalizing first with
  | zero => rfl
  | succ len ih =>
    rw [List.range'_succ, runLoop, List.flatMap_cons, advance, advance, ih]
    rfl

theorem runLoop_range :
    runLoop sendCount recvCount eltSize (List.range n) sptr rptr =
      (List.range n).flatMap (peerOps sendCount recvCount eltSize sptr rptr) := by
  have loop : runLoop sendCount recvCount eltSize (List.range' 0 n)
      (sptr.add (start (fun k => sendCount k * eltSize) 0))
      (rptr.add (start (fun k => recvCount k * eltSize) 0)) = _ := runLoop_range' 0 n
  simpa [List.range_eq_range', Ptr.add] using loop

/-- Parts that are empty but for one index. -/
theorem flatMap_range_single {α : Type*} {f : Nat → List α} (only : ∀ r, r ≠ peer → f r = []) :
    (List.range n).flatMap f = if peer < n then f peer else [] := by
  induction n with
  | zero => rfl
  | succ n ih =>
    rw [List.range_succ, List.flatMap_append, ih, List.flatMap_singleton]
    rcases Nat.lt_trichotomy peer n with less | rfl | more
    · rw [if_pos less, if_pos (by omega), only n (by omega), List.append_nil]
    · simp
    · rw [if_neg (by omega), if_neg (by omega), only n (by omega), List.append_nil]

theorem peer_lt_of_mem_runLoop {op : GroupOp}
    (mem : op ∈ runLoop sendCount recvCount eltSize (List.range n) sptr rptr) : op.peer < n := by
  rw [runLoop_range, List.mem_flatMap] at mem
  obtain ⟨r, below, issued⟩ := mem
  have peer_eq : op.peer = r := by
    rcases List.mem_append.1 issued with sent | received
    · split at sent
      · rw [List.mem_singleton.1 sent]
        rfl
      · exact absurd sent List.not_mem_nil
    · split at received
      · rw [List.mem_singleton.1 received]
        rfl
      · exact absurd received List.not_mem_nil
  rw [peer_eq]
  exact List.mem_range.1 below

theorem sendsTo_runLoop (mem : peer < n) :
    GroupOp.sendsTo (runLoop sendCount recvCount eltSize (List.range n) sptr rptr) peer =
      if sendCount peer > 0 then
        [⟨sptr.add (start (fun k => sendCount k * eltSize) peer), sendCount peer * eltSize, peer⟩]
      else [] := by
  rw [runLoop_range, GroupOp.sendsTo, List.filterMap_flatMap, flatMap_range_single, if_pos mem]
  · unfold peerOps
    split <;> split <;> simp [GroupOp.sendTo?]
  · intro r other
    unfold peerOps
    split <;> split <;> simp [GroupOp.sendTo?, other]

theorem recvsFrom_runLoop (mem : peer < n) :
    GroupOp.recvsFrom (runLoop sendCount recvCount eltSize (List.range n) sptr rptr) peer =
      if recvCount peer > 0 then
        [⟨rptr.add (start (fun k => recvCount k * eltSize) peer), recvCount peer * eltSize, peer⟩]
      else [] := by
  rw [runLoop_range, GroupOp.recvsFrom, List.filterMap_flatMap, flatMap_range_single, if_pos mem]
  · unfold peerOps
    split <;> split <;> simp [List.filterMap_cons, GroupOp.recvFrom?]
  · intro r other
    unfold peerOps
    split <;> split <;> simp [GroupOp.recvFrom?, other]

end

end TrafficPattern

/-! ## What the initial data leaves -/

section Expected

variable {β : Type*} {content : Nat → Nat → β} {wordSize rep rank n : Nat}
  {bytes : Nat → Nat → Nat} {m : RankMem β}

open RankMem

/-- The loop over the sources: `recvoffset` is where the next segment starts, the segments
so far are filled, and nothing else has changed. -/
theorem expectFrom_foldl :
    let state := (List.range n).foldl
      (TrafficPattern.expectFrom content wordSize rep rank bytes) (m, 0)
    let received := fun src => bytes src rank / wordSize * wordSize
    state.2 = start received n ∧
    (∀ src < n, ∀ x < received src, state.1 (expectedPtr.add (start received src + x)) =
      content (33 * rep + src) (start (fun k => bytes src k / wordSize * wordSize) rank + x)) ∧
    ∀ q, (∀ y < start received n, expectedPtr.add y ≠ q) → state.1 q = m q := by
  intro state received
  induction n with
  | zero => exact ⟨rfl, fun src none_ => absurd none_ (Nat.not_lt_zero src), fun q _ => rfl⟩
  | succ n ih =>
    obtain ⟨offset, filled, frame⟩ := ih
    set before := (List.range n).foldl
      (TrafficPattern.expectFrom content wordSize rep rank bytes) (m, 0)
    have turn : state = TrafficPattern.expectFrom content wordSize rep rank bytes before n := by
      simp only [state, List.range_succ, List.foldl_append, List.foldl_cons, List.foldl_nil]
      rfl
    by_cases none_ : bytes n rank / wordSize = 0
    · have empty : received n = 0 := by simp only [received, none_, Nat.zero_mul]
      have same : state = before := by
        rw [turn, TrafficPattern.expectFrom, if_pos none_]
      rw [same, start_succ, empty, Nat.add_zero]
      refine ⟨offset, fun src less x inside => ?_, frame⟩
      rcases Nat.lt_succ_iff_lt_or_eq.1 less with less | rfl
      · exact filled src less x inside
      · exact absurd inside (by omega)
    · have wrote : state = (initData content before.1 (expectedPtr.add (start received n))
          (received n) (start (fun k => bytes n k / wordSize * wordSize) rank) (33 * rep + n),
          start received (n + 1)) := by
        have source : (∑ k ∈ Finset.range rank, bytes n k / wordSize) * wordSize =
            start (fun k => bytes n k / wordSize * wordSize) rank := (start_mul _).symm
        rw [turn, start_succ]
        simp only [TrafficPattern.expectFrom, if_neg none_, offset, source]
        rfl
      rw [wrote]
      dsimp only
      refine ⟨rfl, fun src less x inside => ?_, fun q outside => ?_⟩
      · rcases Nat.lt_succ_iff_lt_or_eq.1 less with less | rfl
        · have earlier : start received src + received src ≤ start received n := start_add_le less
          rw [initData, write_outside, filled src less x inside]
          intro i _ same
          rw [Ptr.add_add, Ptr.add_inj] at same
          omega
        · rw [initData, ← Ptr.add_add, write_inside _ _ _ inside]
      · rw [start_succ] at outside
        rw [initData, write_outside, frame q fun y inside => outside y (by omega)]
        intro i inside
        rw [Ptr.add_add]
        exact outside _ (by omega)

end Expected

/-! ## The test -/

/-- A test out of place, which is the only one whose errors are reported. -/
structure AlltoAllvTest where
  pattern : TrafficPattern
  maxbytes : Nat
  size : Nat
  wordSize : Nat
  nranks : Nat
  unalign : Nat
  rep : Nat
  wordSize_mem : wordSize ∈ ({1, 2, 4, 8} : Finset Nat)

namespace AlltoAllvTest

variable {β : Type*} [Zero β] (t : AlltoAllvTest)

def args : ThreadArgs :=
  (t.pattern.getCollByteCount (t.size / t.wordSize) t.wordSize t.nranks).toArgs t.maxbytes
    t.wordSize

def unalignBytes : Nat := t.unalign * t.wordSize

/-- The call that `CheckData` looks at is the one of iteration 0. -/
def call (rank : Nat) : RunCollArgs := startColl t.args .host t.wordSize t.unalign rank false 0

def ops (rank : Nat) : List GroupOp := t.pattern.runColl (t.call rank) t.wordSize t.nranks rank

/-- The buffers when the collective starts. -/
def before (content : Nat → Nat → β) (m₀ : Mem β) : Mem β :=
  m₀.initEach fun rank =>
    t.pattern.initData content t.args t.wordSize t.nranks t.unalignBytes t.rep false rank

/-- The total behind the byte counts. -/
def totalBytes : Nat :=
  (if t.pattern.useGenerated then alignedBase (t.size / t.wordSize) t.wordSize t.nranks else 0) *
    t.nranks * t.wordSize

/-- The elements for a pair of ranks. -/
def count (i j : Nat) : Nat := t.pattern.peerBytes t.nranks t.totalBytes i j / t.wordSize

def bytes (i j : Nat) : Nat := t.count i j * t.wordSize

/-- Where the segment for `j` starts in the send stream of `i`. -/
def sendStart (i j : Nat) : Nat := start (t.bytes i) j

/-- Where the segment from `i` starts in what `j` receives. -/
def recvStart (j i : Nat) : Nat := start (fun k => t.bytes k j) i

/-! ### One total -/

theorem wordSize_pos : 0 < t.wordSize := eltSize_pos t.wordSize_mem

theorem args_nbytes : t.args.nbytes * t.nranks = t.totalBytes := by
  simp only [args, CollByteCount.toArgs, TrafficPattern.getCollByteCount, totalBytes]
  exact Nat.mul_right_comm _ _ _

/-- `AlltoAllvRunColl` reconstructs the total from the count. -/
theorem call_total (rank : Nat) :
    (t.call rank).count * t.nranks * t.wordSize = t.totalBytes := by
  simp only [call, startColl, args, CollByteCount.toArgs, TrafficPattern.getCollByteCount,
    totalBytes, Nat.mul_div_cancel _ t.wordSize_pos]

/-- `AlltoAllvInitData` reconstructs it from the bytes; a matrix has no use for it. -/
theorem peerBytes_initData (i j : Nat) :
    t.pattern.peerBytes t.nranks
        (if t.pattern.useGenerated then t.args.nbytes * t.nranks else 0) i j =
      t.pattern.peerBytes t.nranks t.totalBytes i j := by
  rw [args_nbytes]
  cases t.pattern with
  | matrix data dim => rfl
  | generated share => rfl

/-! ### The transfers -/

theorem sendPtr_eq (rank : Nat) : (t.call rank).sendPtr = ⟨.sendbuff, t.unalignBytes⟩ := by
  simp [call, startColl, RunCollArgs.sendPtr, RunCollArgs.sendAddress, ThreadArgs.shift,
    unalignBytes]

theorem recvPtr_eq (rank : Nat) : (t.call rank).recvPtr = ⟨.recvbuff, t.unalignBytes⟩ := by
  simp [call, startColl, RunCollArgs.recvPtr, RunCollArgs.recvAddress, ThreadArgs.shift,
    unalignBytes]

theorem checkedPtr_eq (rank : Nat) :
    checkedPtr t.args t.unalignBytes rank false = (t.call rank).recvPtr := by
  rw [recvPtr_eq]
  rfl

variable {t} {i j : Nat}

theorem sendsTo_eq (mem : j < t.nranks) :
    GroupOp.sendsTo (t.ops i) j =
      if t.count i j > 0 then
        [⟨(t.call i).sendPtr.add (t.sendStart i j), t.bytes i j, j⟩]
      else [] := by
  rw [ops, TrafficPattern.runColl, call_total]
  exact TrafficPattern.sendsTo_runLoop mem

theorem recvsFrom_eq (mem : i < t.nranks) :
    GroupOp.recvsFrom (t.ops j) i =
      if t.count i j > 0 then
        [⟨(t.call j).recvPtr.add (t.recvStart j i), t.bytes i j, i⟩]
      else [] := by
  rw [ops, TrafficPattern.runColl, call_total]
  exact TrafficPattern.recvsFrom_runLoop mem

/-- Bytes of transfers, by source, destination and place in the segment. -/
def places (t : AlltoAllvTest) : Set (Nat × Nat × Nat) :=
  {p | p.1 < t.nranks ∧ p.2.1 < t.nranks ∧ p.2.2 < t.bytes p.1 p.2.1}

def sourceLoc (t : AlltoAllvTest) (p : Nat × Nat × Nat) : Loc :=
  (t.call p.1).sendPtr.loc p.1 (t.sendStart p.1 p.2.1 + p.2.2)

def targetLoc (t : AlltoAllvTest) (p : Nat × Nat × Nat) : Loc :=
  (t.call p.2.1).recvPtr.loc p.2.1 (t.recvStart p.2.1 p.1 + p.2.2)

theorem mem_pairMoves (memI : i < t.nranks) (memJ : j < t.nranks) {move : Move Loc} :
    move ∈ (List.zipWith (fun s r => blockMoves j r.buff i s.buff s.bytes)
      (GroupOp.sendsTo (t.ops i) j) (GroupOp.recvsFrom (t.ops j) i)).flatten ↔
      ∃ x < t.bytes i j, move = ⟨t.targetLoc (i, j, x), t.sourceLoc (i, j, x)⟩ := by
  rw [sendsTo_eq memJ, recvsFrom_eq memI]
  split
  · simp only [List.zipWith_cons_cons, List.zipWith_nil_left, List.flatten_singleton,
      mem_blockMoves, Ptr.loc_add]
    rfl
  · next none_ =>
    have empty : t.bytes i j = 0 := by
      rw [bytes, Nat.eq_zero_of_not_pos none_, Nat.zero_mul]
    simp [empty]

theorem mem_groupMoves {move : Move Loc} :
    move ∈ groupMoves t.nranks t.ops ↔
      ∃ p ∈ t.places, move = ⟨t.targetLoc p, t.sourceLoc p⟩ := by
  simp only [groupMoves, List.mem_flatMap, List.mem_range]
  constructor
  · rintro ⟨i, memI, j, memJ, member⟩
    obtain ⟨x, inside, same⟩ := (mem_pairMoves memI memJ).1 member
    exact ⟨(i, j, x), ⟨memI, memJ, inside⟩, same⟩
  · rintro ⟨⟨i, j, x⟩, ⟨memI, memJ, inside⟩, same⟩
    exact ⟨i, memI, j, memJ, (mem_pairMoves memI memJ).2 ⟨x, inside, same⟩⟩

/-- No two bytes have one target. -/
theorem targetLoc_inj {p q : Nat × Nat × Nat} (memP : p ∈ t.places) (memQ : q ∈ t.places)
    (same : t.targetLoc p = t.targetLoc q) : p = q := by
  obtain ⟨i, j, x⟩ := p
  obtain ⟨i', j', x'⟩ := q
  simp only [targetLoc, recvPtr_eq, Ptr.loc_inj] at same
  obtain ⟨rfl, place⟩ := same
  obtain ⟨rfl, rfl⟩ := @place_inj (fun k => t.bytes k j) i i' x x' memP.2.2 memQ.2.2 place
  rfl

/-- The groups carry out the assignment of all segments. -/
theorem assigns : Moves.Assigns (groupMoves t.nranks t.ops) t.places t.targetLoc t.sourceLoc where
  sound _ member := mem_groupMoves.1 member
  complete p mem := .inr (mem_groupMoves.2 ⟨p, mem, rfl⟩)
  once p memP q memQ same := by rw [targetLoc_inj memP memQ same]
  fresh p _ q _ same := by
    simp only [targetLoc, sourceLoc, recvPtr_eq, sendPtr_eq, Ptr.loc, Loc.mk.injEq, reduceCtorEq,
      false_and, and_false] at same

/-! ### The data -/

section Data

variable {content : Nat → Nat → β} {m₀ : Mem β} {rank src x y : Nat}

open RankMem

/-- The memory of a rank before the loop over the sources. -/
def cleared (t : AlltoAllvTest) (content : Nat → Nat → β) (rank : Nat) (m : RankMem β) :
    RankMem β :=
  let m := m.memset ⟨.recvbuff, t.unalignBytes⟩ t.args.expectedBytes
  let m := m.memset expectedPtr t.args.expectedBytes
  let sendcount := ∑ dst ∈ Finset.range t.nranks, t.count rank dst
  if sendcount > 0 then
    m.initData content ⟨.sendbuff, t.unalignBytes⟩ (sendcount * t.wordSize) 0 (33 * t.rep + rank)
  else m

theorem before_loc (content : Nat → Nat → β) (m₀ : Mem β) (p : Ptr) (rank i : Nat) :
    t.before content m₀ (p.loc rank i) =
      ((List.range t.nranks).foldl (TrafficPattern.expectFrom content t.wordSize t.rep rank
        (t.pattern.peerBytes t.nranks t.totalBytes))
        (t.cleared content rank fun q => m₀ (q.loc rank 0), 0)).1 (p.add i) := by
  rw [before, Mem.initEach_loc, TrafficPattern.initData]
  simp only [funext fun i => funext fun j => t.peerBytes_initData i j]
  rfl

/-- The loop writes only expected data. -/
theorem before_other {p : Ptr} (other : p.buffer ≠ .expected) (i : Nat) :
    t.before content m₀ (p.loc rank i) =
      t.cleared content rank (fun q => m₀ (q.loc rank 0)) (p.add i) := by
  rw [before_loc]
  refine expectFrom_foldl.2.2 _ fun y _ same => other ?_
  exact (congrArg Ptr.buffer same).symm

variable {m : RankMem β}

theorem cleared_recv (inside : x < t.args.expectedBytes) :
    t.cleared content rank m ((⟨.recvbuff, t.unalignBytes⟩ : Ptr).add x) = 0 := by
  have clear : (m.memset ⟨.recvbuff, t.unalignBytes⟩ t.args.expectedBytes).memset expectedPtr
      t.args.expectedBytes ((⟨.recvbuff, t.unalignBytes⟩ : Ptr).add x) = 0 := by
    rw [memset, write_outside, memset, write_inside _ _ _ inside]
    intro i _ same
    cases congrArg Ptr.buffer same
  unfold cleared
  split
  · rw [RankMem.initData, write_outside, clear]
    intro i _ same
    cases congrArg Ptr.buffer same
  · exact clear

theorem cleared_expected (inside : x < t.args.expectedBytes) :
    t.cleared content rank m (expectedPtr.add x) = 0 := by
  have clear : (m.memset ⟨.recvbuff, t.unalignBytes⟩ t.args.expectedBytes).memset expectedPtr
      t.args.expectedBytes (expectedPtr.add x) = 0 :=
    write_inside _ _ _ inside
  unfold cleared
  split
  · rw [RankMem.initData, write_outside, clear]
    intro i _ same
    cases congrArg Ptr.buffer same
  · exact clear

/-- The send stream of a rank. -/
theorem before_send (inside : x < start (t.bytes rank) t.nranks) :
    t.before content m₀ ((t.call rank).sendPtr.loc rank x) = content (33 * t.rep + rank) x := by
  have total : start (t.bytes rank) t.nranks =
      (∑ dst ∈ Finset.range t.nranks, t.count rank dst) * t.wordSize := start_mul _
  have some_ : ∑ dst ∈ Finset.range t.nranks, t.count rank dst > 0 := by
    rw [total] at inside
    exact Nat.pos_of_ne_zero fun zero => by simp [zero] at inside
  rw [sendPtr_eq, before_other Buffer.noConfusion, cleared, if_pos some_, RankMem.initData,
    write_inside _ _ _ (total ▸ inside), Nat.zero_add]

/-- The receive buffer is clear. -/
theorem before_recv (inside : x < t.args.expectedBytes) :
    t.before content m₀ ((t.call rank).recvPtr.loc rank x) = 0 := by
  rw [recvPtr_eq, before_other Buffer.noConfusion, cleared_recv inside]

/-- Each segment of the expected data is that of the send stream. -/
theorem before_expected (mem : src < t.nranks) (inside : x < t.bytes src rank) :
    t.before content m₀ (expectedPtr.loc rank (t.recvStart rank src + x)) =
      content (33 * t.rep + src) (t.sendStart src rank + x) := by
  rw [before_loc]
  exact expectFrom_foldl.2.1 src mem x inside

/-- Behind the segments zero is expected. -/
theorem before_expected_rest (inside : y < t.args.expectedBytes)
    (rest : t.recvStart rank t.nranks ≤ y) :
    t.before content m₀ (expectedPtr.loc rank y) = 0 := by
  rw [before_loc, expectFrom_foldl.2.2 _ fun z before same => ?_]
  · exact cleared_expected inside
  · rw [Ptr.add_inj] at same
    have below : z < t.recvStart rank t.nranks := before
    omega

end Data

/-! ### The size of the checked region -/

theorem recvStart_nranks (rank : Nat) :
    t.recvStart rank t.nranks = (∑ src ∈ Finset.range t.nranks, t.count src rank) * t.wordSize :=
  start_mul _

/-- In a generated pattern every rank receives what rank 0 sends. -/
theorem sum_count_generated {share : Nat → Nat → Nat → Nat} (pattern : t.pattern = .generated share)
    {rank : Nat} (mem : rank < t.nranks) :
    ∑ src ∈ Finset.range t.nranks, t.count src rank =
      ∑ dst ∈ Finset.range t.nranks, t.count 0 dst := by
  set atDistance : Nat → Nat := fun d =>
    (if t.nranks = 1 then Nat.ldiff t.totalBytes 15
      else Nat.ldiff (share d t.nranks t.totalBytes) 15) / t.wordSize
  have count (i j : Nat) : t.count i j = atDistance ((j + t.nranks - i) % t.nranks) := by
    rw [AlltoAllvTest.count, pattern]
    rfl
  simp only [count]
  rw [sum_comp_bijOn (distance_from_bijOn mem) atDistance,
    sum_comp_bijOn (distance_to_bijOn (Nat.zero_lt_of_lt mem)) atDistance]

/-- `expectedBytes` is the largest total that a rank receives. -/
theorem expectedBytes_eq (t : AlltoAllvTest) :
    t.args.expectedBytes = (Finset.range t.nranks).sup fun rank => t.recvStart rank t.nranks := by
  have counts : t.args.expectedBytes = (t.pattern.computeMaxCounts t.wordSize t.nranks
      t.totalBytes).2 * t.wordSize := rfl
  simp only [recvStart_nranks]
  rw [counts]
  cases pattern : t.pattern with
  | matrix data dim =>
    simp only [TrafficPattern.computeMaxCounts, count, pattern]
    exact Finset.apply_sup_eq_sup_comp_of_linearOrder (· * t.wordSize)
      (fun _ _ le => Nat.mul_le_mul_right _ le) (Nat.zero_mul _)
  | generated share =>
    rcases Nat.eq_zero_or_pos t.nranks with none_ | some_
    · simp [TrafficPattern.computeMaxCounts, none_]
    · have same : ∀ rank ∈ Finset.range t.nranks,
          (∑ src ∈ Finset.range t.nranks, t.count src rank) * t.wordSize =
            (∑ dst ∈ Finset.range t.nranks, t.count 0 dst) * t.wordSize := fun rank mem => by
        rw [sum_count_generated pattern (Finset.mem_range.1 mem)]
      rw [Finset.sup_congr rfl same, Finset.sup_const (Finset.nonempty_range_iff.2 some_.ne')]
      simp only [TrafficPattern.computeMaxCounts, count, pattern]

/-! ### After all transfers -/

section After

variable {content : Nat → Nat → β} {m₀ : Mem β} {order : List (Move Loc)} {rank src x y : Nat}

omit [Zero β] in
/-- What the exchange leaves of a segment. -/
theorem run_segment (perm : order.Perm (groupMoves t.nranks t.ops)) (m : Mem β)
    (memSrc : src < t.nranks) (mem : rank < t.nranks) (inside : x < t.bytes src rank) :
    Moves.run order m ((t.call rank).recvPtr.loc rank (t.recvStart rank src + x)) =
      m ((t.call src).sendPtr.loc src (t.sendStart src rank + x)) :=
  t.assigns.run_dst perm m (i := (src, rank, x)) ⟨memSrc, mem, inside⟩

omit [Zero β] in
/-- Behind the segments nothing is received. -/
theorem run_rest (perm : order.Perm (groupMoves t.nranks t.ops)) (m : Mem β)
    (rest : t.recvStart rank t.nranks ≤ y) :
    Moves.run order m ((t.call rank).recvPtr.loc rank y) =
      m ((t.call rank).recvPtr.loc rank y) := by
  refine t.assigns.run_frame perm m ?_
  rintro ⟨i, j, x⟩ ⟨memI, memJ, inside⟩ same
  simp only [targetLoc, recvPtr_eq, Ptr.loc_inj] at same
  obtain ⟨rfl, place⟩ := same
  have ends : t.recvStart j i + t.bytes i j ≤ t.recvStart j t.nranks := start_add_le memI
  dsimp only at inside
  omega

omit [Zero β] in
/-- The expected data is not part of the exchange. -/
theorem run_expected (perm : order.Perm (groupMoves t.nranks t.ops)) (m : Mem β) :
    Moves.run order m (expectedPtr.loc rank y) = m (expectedPtr.loc rank y) := by
  refine t.assigns.run_frame perm m fun p _ same => ?_
  simp only [targetLoc, recvPtr_eq, expectedPtr, Ptr.loc, Loc.mk.injEq, reduceCtorEq, false_and,
    and_false] at same

end After

/-- **The irregular exchange delivers what the check expects.** All ranks agree about every
transfer: between two ranks there is one of the same number of bytes on both sides, or none where
the pattern gives none. In whatever order the bytes are moved, each rank ends up with the segments
of all sources in a row, each taken from where the send stream of its source has it, and with
zeros up to the end of the longest row; and that is what its expected data holds.

A rank packs its sends and its receives by running sums over the ranks, so that segments are
disjoint and tile the rows; the zeros are those of the initialisation, which no transfer
reaches. -/
theorem alltoAllvRunColl_delivers (t : AlltoAllvTest) (content : Nat → Nat → β) (m₀ : Mem β) :
    (∀ i < t.nranks, (∀ op ∈ t.ops i, op.peer < t.nranks) ∧
      ∀ j < t.nranks,
        (GroupOp.sendsTo (t.ops i) j).map Transfer.bytes =
          (if 0 < t.count i j then [t.bytes i j] else []) ∧
        (GroupOp.recvsFrom (t.ops j) i).map Transfer.bytes =
          (if 0 < t.count i j then [t.bytes i j] else [])) ∧
    (t.args.expectedBytes =
      (Finset.range t.nranks).sup fun rank => t.recvStart rank t.nranks) ∧
    ∀ order : List (Move Loc), order.Perm (groupMoves t.nranks t.ops) → ∀ rank < t.nranks,
      let received := fun x =>
        Moves.run order (t.before content m₀) ((t.call rank).recvPtr.loc rank x)
      CheckData t.args t.unalignBytes rank false (Moves.run order (t.before content m₀)) ∧
      (∀ src < t.nranks, ∀ x < t.bytes src rank, received (t.recvStart rank src + x) =
        t.before content m₀ ((t.call src).sendPtr.loc src (t.sendStart src rank + x))) ∧
      ∀ y < t.args.expectedBytes, t.recvStart rank t.nranks ≤ y → received y = 0 := by
  refine ⟨fun i memI => ⟨fun op issued => ?_, fun j memJ => ⟨?_, ?_⟩⟩, t.expectedBytes_eq,
    fun order perm rank mem => ?_⟩
  · exact TrafficPattern.peer_lt_of_mem_runLoop issued
  · rw [sendsTo_eq memJ, apply_ite (List.map Transfer.bytes)]
    rfl
  · rw [recvsFrom_eq memI, apply_ite (List.map Transfer.bytes)]
    rfl
  · intro received
    have segment : ∀ src < t.nranks, ∀ x < t.bytes src rank,
        received (t.recvStart rank src + x) =
          t.before content m₀ ((t.call src).sendPtr.loc src (t.sendStart src rank + x)) :=
      fun src memSrc x inside => run_segment perm _ memSrc mem inside
    have behind : ∀ y < t.args.expectedBytes, t.recvStart rank t.nranks ≤ y →
        received y = 0 := fun y inside rest => by
      rw [← t.before_recv inside]
      exact run_rest perm _ rest
    refine ⟨fun y inside => ?_, segment, behind⟩
    rw [checkedPtr_eq, run_expected perm]
    rcases Nat.lt_or_ge y (t.recvStart rank t.nranks) with row | rest
    · obtain ⟨src, memSrc, x, within, rfl⟩ := exists_place row
      refine (segment src memSrc x within).trans ?_
      refine Eq.trans ?_ (before_expected memSrc within).symm
      refine t.before_send ?_
      have ends : t.sendStart src rank + t.bytes src rank ≤ start (t.bytes src) t.nranks :=
        start_add_le mem
      omega
    · rw [before_expected_rest inside rest]
      exact behind y inside rest

/-- Three ranks; nothing goes from rank 0 to rank 1, and 10 bytes are 2 elements. -/
def skewed : AlltoAllvTest where
  pattern := .matrix [4, 0, 8, 12, 4, 10, 0, 16, 0] 3
  maxbytes := 64
  size := 64
  wordSize := 4
  nranks := 3
  unalign := 1
  rep := 0
  wordSize_mem := four_mem_eltSizes

theorem alltoAllvRunColl_delivers_skewed :
    (skewed.args.expectedBytes = 20 ∧ skewed.recvStart 2 3 = 16 ∧ skewed.sendStart 1 2 = 16) ∧
    CheckData skewed.args 4 2 false
      (Moves.run (groupMoves 3 skewed.ops) (skewed.before (fun s i => s * 1000 + i) fun _ => 7)) :=
  ⟨by decide, ((alltoAllvRunColl_delivers skewed (fun s i => s * 1000 + i) fun _ => 7).2.2
    (groupMoves 3 skewed.ops) (List.Perm.refl _) 2 (by decide)).1⟩

end AlltoAllvTest

end NcclTests.Collective
