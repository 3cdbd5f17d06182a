import Mathlib
import NcclTests.Lib.PowTwoPerm
import NcclTests.Lib.SignalNet
import NcclTests.HostRma.Puts

/-!
# Signals of the host RMA collectives

A put of one rank and a wait of another meet if they agree about both ranks, the
signal index and the context. Summed over all ranks, each collective posts the
signals that it awaits, so calls can follow each other without a barrier.
-/

namespace NcclTests.HostRma

open Collective SignalNet PowTwoPerm

/-- What a wait tells signals apart by. -/
structure Signal where
  sender : Nat
  receiver : Nat
  sigIdx : Nat
  ctx : Nat
  deriving DecidableEq, Repr

def PutSignal.signal (rank : Nat) (put : PutSignal) : Signal :=
  ⟨rank, put.peer, put.sigIdx, put.ctx⟩

/-- A descriptor stands for `opCnt` signals. -/
def WaitSignalDesc.signals (rank : Nat) (desc : WaitSignalDesc) : Multiset Signal :=
  Multiset.replicate desc.opCnt ⟨desc.peer, rank, desc.sigIdx, desc.ctx⟩

namespace RmaCalls

variable (calls : RmaCalls) (rank : Nat)

/-- The calls of a rank as operations on signals. -/
def round : Round Signal where
  puts := calls.puts.map (PutSignal.signal rank)
  waits := calls.waits.map fun descs => (descs.map (WaitSignalDesc.signals rank)).sum

def posted : Multiset Signal := (calls.puts.map fun put => {put.signal rank}).sum

def awaited : Multiset Signal := (calls.waits.flatten.map (WaitSignalDesc.signals rank)).sum

theorem posted_round : SignalNet.posted (calls.round rank).ops = calls.posted rank := by
  rw [Round.posted_ops, round, posted]
  induction calls.puts with
  | nil => rfl
  | cons put puts ih =>
    rw [List.map_cons, List.map_cons, List.sum_cons, ← ih]
    rfl

theorem awaited_round : SignalNet.awaited (calls.round rank).ops = calls.awaited rank := by
  rw [Round.awaited_ops, round, awaited]
  induction calls.waits with
  | nil => rfl
  | cons descs waits ih =>
    rw [List.map_cons, List.sum_cons, ih, List.flatten_cons, List.map_append, List.sum_append]

/-- A rank awaits signals to itself only. -/
theorem receiver_of_mem_awaited {signal : Signal} (mem : signal ∈ calls.awaited rank) :
    signal.receiver = rank := by
  unfold awaited at mem
  generalize calls.waits.flatten = descs at mem
  induction descs with
  | nil => exact absurd mem (Multiset.notMem_zero _)
  | cons desc descs ih =>
    rw [List.map_cons, List.sum_cons, Multiset.mem_add] at mem
    rcases mem with first | later
    · rw [Multiset.eq_of_mem_replicate first]
    · exact ih later

end RmaCalls

/-! ## Calls made in a loop -/

section Loops

variable {α M : Type*} [AddCommMonoid M]

theorem sum_map_range (n : Nat) (f : Nat → M) :
    ((List.range n).map f).sum = ∑ i ∈ Finset.range n, f i := by
  induction n with
  | zero => rfl
  | succ n ih =>
    rw [List.range_succ, List.map_append, List.sum_append, ih, Finset.sum_range_succ,
      List.map_singleton, List.sum_singleton]

/-- A loop that makes a call for each index that it does not skip. -/
theorem sum_filterMap_range (n : Nat) (skip : Nat → Prop) [DecidablePred skip] (make : Nat → α)
    (f : α → M) :
    (((List.range n).filterMap fun i => if skip i then none else some (make i)).map f).sum =
      ∑ i ∈ Finset.range n, if skip i then 0 else f (make i) := by
  rw [← sum_map_range]
  induction List.range n with
  | nil => rfl
  | cons i rest ih =>
    rw [List.map_cons, List.sum_cons, ← ih, List.filterMap_cons]
    by_cases skipped : skip i
    · rw [if_pos skipped, if_pos skipped, zero_add]
    · rw [if_neg skipped, if_neg skipped, List.map_cons, List.sum_cons]

end Loops

/-! ## The signals of each collective -/

section Collectives

variable (comm : RmaComm) (call : RunCollArgs) (eltSize root rank : Nat)

/-- The signal of a transfer: the slot comes from the rank `slot`, the context from
both ranks. -/
def RmaComm.signal (sender receiver slot : Nat) : Multiset Signal :=
  {⟨sender, receiver, slot % comm.numRmaSig, (sender + receiver) % comm.nctx⟩}

variable {rank} in
theorem allGather_posted (mem : rank < comm.nranks) :
    (allGatherRmaPut comm call eltSize rank).posted rank =
      ∑ peer ∈ Finset.range comm.nranks,
        if call.sendPtr = call.recvPtr.add (rank * (call.count * eltSize)) ∧ peer = rank then 0
        else comm.signal rank peer rank := by
  rw [← sum_comp_bijOn (rotate_bijOn rank (Nat.zero_lt_of_lt mem))]
  simp only [RmaCalls.posted, allGatherRmaPut, sum_filterMap_range, decide_eq_true_eq]
  rfl

theorem allGather_awaited :
    (allGatherRmaPut comm call eltSize rank).awaited rank =
      ∑ peer ∈ Finset.range comm.nranks,
        if call.sendPtr = call.recvPtr.add (rank * (call.count * eltSize)) ∧ peer = rank then 0
        else comm.signal peer rank peer := by
  simp only [RmaCalls.awaited, allGatherRmaPut, List.flatten_singleton, sum_filterMap_range,
    decide_eq_true_eq]
  rfl

variable {rank} in
theorem alltoAll_posted (mem : rank < comm.nranks) :
    (alltoAllRmaPut comm call eltSize rank).posted rank =
      ∑ peer ∈ Finset.range comm.nranks, comm.signal rank peer rank := by
  rw [← sum_comp_bijOn (rotate_bijOn rank (Nat.zero_lt_of_lt mem))]
  simp only [RmaCalls.posted, alltoAllRmaPut, List.map_map, sum_map_range]
  rfl

theorem alltoAll_awaited :
    (alltoAllRmaPut comm call eltSize rank).awaited rank =
      ∑ peer ∈ Finset.range comm.nranks, comm.signal peer rank peer := by
  simp only [RmaCalls.awaited, alltoAllRmaPut, List.flatten_singleton, List.map_map,
    sum_map_range]
  rfl

theorem broadcast_posted :
    (broadcastRmaPut comm call root rank).posted rank =
      if rank = root then ∑ peer ∈ Finset.range comm.nranks, comm.signal rank peer peer
      else 0 := by
  unfold RmaCalls.posted broadcastRmaPut
  split
  · simp only [List.map_map, sum_map_range]
    rfl
  · rfl

theorem broadcast_awaited :
    (broadcastRmaPut comm call root rank).awaited rank = comm.signal root rank rank := by
  simp only [RmaCalls.awaited, broadcastRmaPut, List.flatten_singleton, List.map_singleton,
    List.sum_singleton]
  rfl

theorem gather_posted :
    (gatherRmaPut comm call eltSize root rank).posted rank = comm.signal rank root rank := by
  simp only [RmaCalls.posted, gatherRmaPut, List.map_singleton, List.sum_singleton]
  rfl

theorem gather_awaited :
    (gatherRmaPut comm call eltSize root rank).awaited rank =
      if rank = root then ∑ peer ∈ Finset.range comm.nranks, comm.signal peer rank peer
      else 0 := by
  unfold RmaCalls.awaited gatherRmaPut
  by_cases isRoot : rank = root
  · simp only [isRoot, if_true, List.flatten_singleton, List.map_map, sum_map_range]
    rfl
  · simp only [isRoot, if_false]
    rfl

theorem scatter_posted :
    (scatterRmaPut comm call eltSize root rank).posted rank =
      if rank = root then
        ∑ peer ∈ Finset.range comm.nranks,
          if peer = rank ∧ call.recvPtr = call.sendPtr.add (rank * (call.count * eltSize)) then 0
          else comm.signal rank peer peer
      else 0 := by
  unfold RmaCalls.posted scatterRmaPut
  by_cases isRoot : rank = root
  · simp only [isRoot, if_true, sum_filterMap_range, decide_eq_true_eq]
    rfl
  · simp only [isRoot, if_false]
    rfl

theorem scatter_awaited :
    (scatterRmaPut comm call eltSize root rank).awaited rank =
      if rank = root ∧ call.recvPtr = call.sendPtr.add (rank * (call.count * eltSize)) then 0
      else comm.signal root rank rank := by
  simp only [RmaCalls.awaited, scatterRmaPut, decide_eq_true_eq]
  by_cases skipped : rank = root ∧ call.recvPtr = call.sendPtr.add (rank * (call.count * eltSize))
  · rw [if_pos skipped, if_neg (by rw [not_or, not_not, not_not]; exact skipped)]
    rfl
  · rw [if_neg skipped, if_pos (not_and_or.1 skipped), List.flatten_singleton,
      List.map_singleton, List.sum_singleton]
    rfl

/-- The signals of a ring: one on each context that carries elements. -/
def ringSignals (count sender receiver : Nat) : Multiset Signal :=
  ∑ c ∈ Finset.range comm.nctx,
    if sendRecvChunk count comm.nctx c = 0 then 0
    else {⟨sender, receiver, c % comm.numRmaSig, c⟩}

theorem sendRecvPuts_posted (sendPeer : Nat) (contexts : List Nat) (elemOff : Nat) :
    ((sendRecvPuts comm call eltSize sendPeer contexts elemOff).map fun put =>
        ({put.signal rank} : Multiset Signal)).sum =
      (contexts.map fun c =>
        if sendRecvChunk call.count comm.nctx c = 0 then 0
        else {⟨rank, sendPeer, c % comm.numRmaSig, c⟩}).sum := by
  induction contexts generalizing elemOff with
  | nil => rfl
  | cons c contexts ih =>
    rw [sendRecvPuts, List.map_cons, List.sum_cons]
    by_cases empty : sendRecvChunk call.count comm.nctx c = 0
    · rw [if_pos empty, if_pos empty, zero_add]
      exact ih elemOff
    · rw [if_neg empty, if_neg empty, List.map_cons, List.sum_cons, ih]
      rfl

theorem sendRecv_posted :
    (sendRecvRmaPut comm call eltSize rank).posted rank =
      ringSignals comm call.count rank ((rank + 1) % comm.nranks) := by
  rw [RmaCalls.posted, sendRecvRmaPut, sendRecvPuts_posted, sum_map_range]
  rfl

theorem sendRecv_awaited :
    (sendRecvRmaPut comm call eltSize rank).awaited rank =
      ringSignals comm call.count (ringPeer comm.nranks rank) rank := by
  simp only [RmaCalls.awaited, sendRecvRmaPut, ringSignals, ← sum_map_range]
  induction List.range comm.nctx with
  | nil => rfl
  | cons c contexts ih =>
    rw [List.filterMap_cons, List.map_cons, List.sum_cons, ← ih]
    by_cases empty : sendRecvChunk call.count comm.nctx c = 0
    · rw [if_pos empty, if_pos empty, zero_add]
    · rw [if_neg empty, if_neg empty]
      rfl

end Collectives

/-! ## All ranks together -/

section AllRanks

variable (comm : RmaComm) (call : Nat → RunCollArgs) (eltSize : Nat) {root : Nat}

theorem allGather_balanced :
    ∑ rank ∈ Finset.range comm.nranks,
        (allGatherRmaPut comm (call rank) eltSize rank).posted rank =
      ∑ rank ∈ Finset.range comm.nranks,
        (allGatherRmaPut comm (call rank) eltSize rank).awaited rank := by
  rw [Finset.sum_congr rfl fun rank mem =>
    allGather_posted comm (call rank) eltSize (Finset.mem_range.1 mem), Finset.sum_comm]
  refine Finset.sum_congr rfl fun rank _ => ?_
  rw [allGather_awaited]
  refine Finset.sum_congr rfl fun peer _ => ?_
  by_cases self : peer = rank
  · rw [self]
  · rw [if_neg fun skipped => self skipped.2.symm, if_neg fun skipped => self skipped.2]

theorem alltoAll_balanced :
    ∑ rank ∈ Finset.range comm.nranks,
        (alltoAllRmaPut comm (call rank) eltSize rank).posted rank =
      ∑ rank ∈ Finset.range comm.nranks,
        (alltoAllRmaPut comm (call rank) eltSize rank).awaited rank := by
  rw [Finset.sum_congr rfl fun rank mem =>
    alltoAll_posted comm (call rank) eltSize (Finset.mem_range.1 mem), Finset.sum_comm]
  exact Finset.sum_congr rfl fun rank _ => (alltoAll_awaited comm (call rank) eltSize rank).symm

theorem broadcast_balanced (root_lt : root < comm.nranks) :
    ∑ rank ∈ Finset.range comm.nranks, (broadcastRmaPut comm (call rank) root rank).posted rank =
      ∑ rank ∈ Finset.range comm.nranks,
        (broadcastRmaPut comm (call rank) root rank).awaited rank := by
  simp only [broadcast_posted, broadcast_awaited]
  rw [Finset.sum_ite_eq', if_pos (Finset.mem_range.2 root_lt)]

theorem gather_balanced (root_lt : root < comm.nranks) :
    ∑ rank ∈ Finset.range comm.nranks,
        (gatherRmaPut comm (call rank) eltSize root rank).posted rank =
      ∑ rank ∈ Finset.range comm.nranks,
        (gatherRmaPut comm (call rank) eltSize root rank).awaited rank := by
  simp only [gather_posted, gather_awaited]
  rw [Finset.sum_ite_eq', if_pos (Finset.mem_range.2 root_lt)]

theorem scatter_balanced (root_lt : root < comm.nranks) :
    ∑ rank ∈ Finset.range comm.nranks,
        (scatterRmaPut comm (call rank) eltSize root rank).posted rank =
      ∑ rank ∈ Finset.range comm.nranks,
        (scatterRmaPut comm (call rank) eltSize root rank).awaited rank := by
  simp only [scatter_posted, scatter_awaited]
  rw [Finset.sum_ite_eq', if_pos (Finset.mem_range.2 root_lt)]
  refine Finset.sum_congr rfl fun rank _ => ?_
  by_cases self : rank = root
  · rw [self]
  · rw [if_neg fun skipped => self skipped.1, if_neg fun skipped => self skipped.1]

/-- The split over contexts depends on the count, so the ranks have to agree about it. -/
theorem sendRecv_balanced {count : Nat}
    (count_eq : ∀ rank < comm.nranks, (call rank).count = count) :
    ∑ rank ∈ Finset.range comm.nranks,
        (sendRecvRmaPut comm (call rank) eltSize rank).posted rank =
      ∑ rank ∈ Finset.range comm.nranks,
        (sendRecvRmaPut comm (call rank) eltSize rank).awaited rank := by
  rcases Nat.eq_zero_or_pos comm.nranks with none_ | some_
  · rw [none_]
    rfl
  have awaited : ∀ rank ∈ Finset.range comm.nranks,
      (sendRecvRmaPut comm (call rank) eltSize rank).awaited rank =
        ringSignals comm count (ringPeer comm.nranks rank) rank := by
    intro rank mem
    rw [sendRecv_awaited, count_eq rank (Finset.mem_range.1 mem)]
  rw [Finset.sum_congr rfl awaited]
  refine Eq.trans (Finset.sum_congr rfl fun rank mem => ?_)
    (sum_comp_bijOn (rotate_bijOn 1 some_) fun rank =>
      ringSignals comm count (ringPeer comm.nranks rank) rank)
  rw [sendRecv_posted, count_eq rank (Finset.mem_range.1 mem), Nat.add_comm 1 rank,
    ringPeer_next (Finset.mem_range.1 mem)]

end AllRanks

/-! ## Any number of calls -/

/-- A collective that all ranks call with one root and one count. -/
structure RmaCollCall (nranks : Nat) where
  coll : RmaColl
  eltSize : Nat
  root : Nat
  count : Nat
  call : Nat → RunCollArgs
  root_lt : root < nranks
  count_eq : ∀ rank < nranks, (call rank).count = count

namespace RmaCollCall

variable {comm : RmaComm}

def rmaCalls (c : RmaCollCall comm.nranks) (rank : Nat) : RmaCalls :=
  c.coll.rmaPut comm (c.call rank) c.eltSize c.root rank

/-- What all ranks post is what all ranks await. -/
theorem posted_eq_awaited (c : RmaCollCall comm.nranks) :
    ∑ rank ∈ Finset.range comm.nranks, (c.rmaCalls rank).posted rank =
      ∑ rank ∈ Finset.range comm.nranks, (c.rmaCalls rank).awaited rank := by
  rcases c with ⟨coll, eltSize, root, count, call, root_lt, count_eq⟩
  cases coll with
  | allGather => exact allGather_balanced comm call eltSize
  | alltoAll => exact alltoAll_balanced comm call eltSize
  | broadcast => exact broadcast_balanced comm call root_lt
  | gather => exact gather_balanced comm call eltSize root_lt
  | scatter => exact scatter_balanced comm call eltSize root_lt
  | sendRecv => exact sendRecv_balanced comm call eltSize count_eq

/-- The ranks run a sequence of collectives. -/
def net (comm : RmaComm) (calls : Nat → RmaCollCall comm.nranks) (rounds : Nat) :
    Net Nat Signal where
  members := Finset.range comm.nranks
  round r rank := ((calls r).rmaCalls rank).round rank
  rounds := rounds
  receiver := Signal.receiver

theorem net_balanced (calls : Nat → RmaCollCall comm.nranks) (rounds : Nat) :
    Balanced (net comm calls rounds) where
  balanced r := by
    simp only [net, RmaCalls.posted_round, RmaCalls.awaited_round]
    exact (calls r).posted_eq_awaited
  receiver r rank _ signal mem := by
    refine RmaCalls.receiver_of_mem_awaited ((calls r).rmaCalls rank) rank ?_
    rw [← RmaCalls.awaited_round]
    exact mem

end RmaCollCall

/-- **Host RMA signals match.** In every call the signals posted are the signals
awaited, counted with sender, receiver, index and context. So in a run of any
number of calls, in which ranks proceed independently and signals arrive in any
order, no wait is left without its puts, every run ends, and whenever all ranks
have completed the same calls no signal is left over.

All ranks make the same calls, each with one root below their number and one count. For each
collective both sums are brought into one form (`RmaCollCall.posted_eq_awaited`); and of the
ranks that wait, one that is the least far has what it waits for, since no other rank awaits
its signals (`SignalNet.Balanced.progress`). -/
theorem rmaPut_signals (comm : RmaComm) (calls : Nat → RmaCollCall comm.nranks) :
    (∀ r, ∑ rank ∈ Finset.range comm.nranks, ((calls r).rmaCalls rank).posted rank =
      ∑ rank ∈ Finset.range comm.nranks, ((calls r).rmaCalls rank).awaited rank) ∧
    ∀ rounds s, SignalNet.Reachable (RmaCollCall.net comm calls rounds) s →
      (¬ SignalNet.Finished (RmaCollCall.net comm calls rounds) s →
        ∃ t, SignalNet.Step (RmaCollCall.net comm calls rounds) s t) ∧
      (∀ t, SignalNet.Step (RmaCollCall.net comm calls rounds) s t →
        SignalNet.measure (RmaCollCall.net comm calls rounds) t <
          SignalNet.measure (RmaCollCall.net comm calls rounds) s) ∧
      ∀ r, (∀ rank < comm.nranks, s.at_ rank = ⟨r, []⟩) → s.inFlight = 0 ∧ s.arrived = 0 := by
  refine ⟨fun r => (calls r).posted_eq_awaited, fun rounds s reach => ⟨?_, ?_, ?_⟩⟩
  · exact (RmaCollCall.net_balanced calls rounds).progress reach
  · exact fun t step => step.measure_lt
  · intro r level
    exact (RmaCollCall.net_balanced calls rounds).clean reach fun rank mem =>
      level rank (Finset.mem_range.1 mem)

/-- Two ranks on two contexts send elements around the ring and gather them at rank 1: some run of
both calls ends, after four signals of the ring, with none left over. -/
theorem rmaPut_signals_two :
    let comm : RmaComm := ⟨2, 1, 2⟩
    let args : RunCollArgs := ⟨false, 0, 0, 4096, 0, 3⟩
    let ring : RmaCollCall comm.nranks :=
      ⟨.sendRecv, 4, 0, 3, fun _ => args, by decide, fun _ _ => rfl⟩
    let gather : RmaCollCall comm.nranks :=
      ⟨.gather, 4, 1, 3, fun _ => args, by decide, fun _ _ => rfl⟩
    let calls : Nat → RmaCollCall comm.nranks := fun r => if r = 0 then ring else gather
    (∑ rank ∈ Finset.range 2, ((calls 0).rmaCalls rank).awaited rank).card = 4 ∧
    ∃ s, SignalNet.Reachable (RmaCollCall.net comm calls 2) s ∧
      SignalNet.Finished (RmaCollCall.net comm calls 2) s ∧ s.inFlight = 0 ∧ s.arrived = 0 := by
  intro comm args ring gather calls
  have signals := rmaPut_signals comm calls
  obtain ⟨s, reach, finished⟩ := (RmaCollCall.net_balanced calls 2).exists_finished
    Relation.ReflTransGen.refl
  refine ⟨?_, s, reach, finished, (signals.2 2 s reach).2.2 2 fun rank inside => ?_⟩
  · have four : (∑ rank ∈ Finset.range 2, ((calls 0).rmaCalls rank).posted rank).card = 4 := by
      decide
    rw [← four, signals.1 0]
  · exact finished rank (Finset.mem_range.2 inside)

end NcclTests.HostRma
