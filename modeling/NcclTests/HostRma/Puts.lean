import Mathlib
import NcclTests.Lib.MachineInt
import NcclTests.Collective.Memory

/-!
# Collectives over host RMA

With `-H` a collective is a group of `ncclPutSignal` calls followed by
`ncclWaitSignal` calls on the same stream. A put copies elements from a pointer
of the caller to an offset of the receive window of its peer and signals the
peer; a wait names the peers whose signals it consumes. Each function below
returns the calls that one rank makes.

Window base addresses are those of the allocations, so the pointer behind a
window and an offset is `RunCollArgs.sendPtr` or `RunCollArgs.recvPtr`.
-/

namespace NcclTests.HostRma

open Collective

/-- What the functions know of the communicator: its size, `NUM_RMA_SIG` and
`rmaCtxCount`. -/
structure RmaComm where
  nranks : Nat
  numRmaSig : Nat
  nctx : Nat
  deriving DecidableEq, Repr

/-- The arguments of `ncclPutSignal`; the peer's window is that of its receive buffer. -/
structure PutSignal where
  localbuff : Ptr
  count : Nat
  peer : Nat
  peerWinOffset : Nat
  sigIdx : Nat
  ctx : Nat
  deriving DecidableEq, Repr

/-- `ncclWaitSignalDesc_t`. -/
structure WaitSignalDesc where
  opCnt : Nat
  peer : Nat
  sigIdx : Nat
  ctx : Nat
  deriving DecidableEq, Repr

/-- The puts of a rank and the descriptors of its `ncclWaitSignal` calls, in order. -/
structure RmaCalls where
  puts : List PutSignal
  waits : List (List WaitSignalDesc)
  deriving DecidableEq, Repr

section Functions

variable (comm : RmaComm) (call : RunCollArgs) (eltSize root rank : Nat)

def allGatherRmaPut : RmaCalls :=
  let bytes := call.count * eltSize
  let isInPlace := decide (call.sendPtr = call.recvPtr.add (rank * bytes))
  let peerWinOffset := call.recvoffset + rank * bytes
  { puts := (List.range comm.nranks).filterMap fun peer =>
      let targetRank := (rank + peer) % comm.nranks
      if isInPlace ∧ targetRank = rank then none
      else some ⟨call.sendPtr, call.count, targetRank, peerWinOffset, rank % comm.numRmaSig,
        (rank + targetRank) % comm.nctx⟩
    waits := [(List.range comm.nranks).filterMap fun i =>
      if isInPlace ∧ i = rank then none
      else some ⟨1, i, i % comm.numRmaSig, (i + rank) % comm.nctx⟩] }

def alltoAllRmaPut : RmaCalls :=
  let chunkBytes := call.count * eltSize
  { puts := (List.range comm.nranks).map fun peer =>
      let targetRank := (rank + peer) % comm.nranks
      let srcPtr := call.sendPtr.add (targetRank * chunkBytes)
      let dstOffset := call.recvoffset + rank * chunkBytes
      ⟨srcPtr, call.count, targetRank, dstOffset, rank % comm.numRmaSig,
        (rank + targetRank) % comm.nctx⟩
    waits := [(List.range comm.nranks).map fun i =>
      ⟨1, i, i % comm.numRmaSig, (i + rank) % comm.nctx⟩] }

def broadcastRmaPut : RmaCalls where
  puts :=
    if rank = root then
      (List.range comm.nranks).map fun peer =>
        ⟨call.sendPtr, call.count, peer, call.recvoffset, peer % comm.numRmaSig,
          (rank + peer) % comm.nctx⟩
    else []
  waits := [[⟨1, root, rank % comm.numRmaSig, (root + rank) % comm.nctx⟩]]

def gatherRmaPut : RmaCalls :=
  let chunkBytes := call.count * eltSize
  let dstOffset := call.recvoffset + rank * chunkBytes
  { puts := [⟨call.sendPtr, call.count, root, dstOffset, rank % comm.numRmaSig,
      (rank + root) % comm.nctx⟩]
    waits :=
      if rank = root then
        [(List.range comm.nranks).map fun i =>
          ⟨1, i, i % comm.numRmaSig, (i + root) % comm.nctx⟩]
      else [] }

/-- The difference of the ranks is an `int`, so that of an earlier peer wraps when it
becomes a `size_t`. -/
def scatterRmaPut : RmaCalls :=
  let chunkBytes := call.count * eltSize
  let isInPlace := decide (call.recvPtr = call.sendPtr.add (rank * chunkBytes))
  { puts :=
      if rank = root then
        (List.range comm.nranks).filterMap fun peer =>
          if peer = rank ∧ isInPlace then none
          else
            let srcOffset := peer * chunkBytes
            let dstOffset :=
              if isInPlace then
                (call.recvoffset + sizeT ((peer : Int) - rank) * chunkBytes) % 2 ^ 64
              else call.recvoffset
            some ⟨call.sendPtr.add srcOffset, call.count, peer, dstOffset,
              peer % comm.numRmaSig, (rank + peer) % comm.nctx⟩
      else []
    waits :=
      if rank ≠ root ∨ ¬ isInPlace then
        [[⟨1, root, rank % comm.numRmaSig, (root + rank) % comm.nctx⟩]]
      else [] }

/-- The elements of context `c`: near-equal chunks, the longer ones first. -/
def sendRecvChunk (count nctx c : Nat) : Nat :=
  let base := count / nctx
  let rem := count % nctx
  base + if c < rem then 1 else 0

/-- The loop over the contexts, with its running offset `elemOff`. -/
def sendRecvPuts (sendPeer : Nat) : List Nat → Nat → List PutSignal
  | [], _ => []
  | c :: cs, elemOff =>
    let chunk := sendRecvChunk call.count comm.nctx c
    if chunk = 0 then sendRecvPuts sendPeer cs elemOff
    else
      let byteOff := elemOff * eltSize
      ⟨call.sendPtr.add byteOff, chunk, sendPeer, call.recvoffset + byteOff,
        c % comm.numRmaSig, c⟩ :: sendRecvPuts sendPeer cs (elemOff + chunk)

def sendRecvRmaPut : RmaCalls :=
  let recvPeer := (rank + comm.nranks - 1) % comm.nranks
  let sendPeer := (rank + 1) % comm.nranks
  { puts := sendRecvPuts comm call eltSize sendPeer (List.range comm.nctx) 0
    waits := (List.range comm.nctx).filterMap fun c =>
      if sendRecvChunk call.count comm.nctx c = 0 then none
      else some [⟨1, recvPeer, c % comm.numRmaSig, c⟩] }

end Functions

/-- The collectives with a host RMA implementation. -/
inductive RmaColl
  | allGather | alltoAll | broadcast | gather | scatter | sendRecv
  deriving DecidableEq, Repr

def RmaColl.toColl : RmaColl → Coll
  | allGather => .allGather
  | alltoAll => .alltoAll
  | broadcast => .broadcast
  | gather => .gather
  | scatter => .scatter
  | sendRecv => .sendRecv

/-- `runColl` with `deviceImpl == HOST_RMA_IMPL`. -/
def RmaColl.rmaPut (coll : RmaColl) (comm : RmaComm) (call : RunCollArgs)
    (eltSize root rank : Nat) : RmaCalls :=
  match coll with
  | allGather => allGatherRmaPut comm call eltSize rank
  | alltoAll => alltoAllRmaPut comm call eltSize rank
  | broadcast => broadcastRmaPut comm call root rank
  | gather => gatherRmaPut comm call eltSize root rank
  | scatter => scatterRmaPut comm call eltSize root rank
  | sendRecv => sendRecvRmaPut comm call eltSize rank

/-! ## The ring -/

/-- The rank that a rank receives from. -/
def ringPeer (nranks rank : Nat) : Nat := (rank + nranks - 1) % nranks

section Ring

variable {nranks rank : Nat}

theorem ringPeer_lt (mem : rank < nranks) : ringPeer nranks rank < nranks :=
  Nat.mod_lt _ (by omega)

theorem ringPeer_next (mem : rank < nranks) : ringPeer nranks ((rank + 1) % nranks) = rank := by
  rw [ringPeer]
  rcases Nat.lt_or_ge (rank + 1) nranks with inside | last
  · have step : rank + 1 + nranks - 1 = rank + nranks := by omega
    rw [Nat.mod_eq_of_lt inside, step, Nat.add_mod_right, Nat.mod_eq_of_lt mem]
  · have all : rank + 1 = nranks := by omega
    rw [all, Nat.mod_self, Nat.zero_add, Nat.mod_eq_of_lt (by omega)]
    omega

theorem next_ringPeer (mem : rank < nranks) : (ringPeer nranks rank + 1) % nranks = rank := by
  rw [ringPeer, Nat.mod_add_mod]
  have step : rank + nranks - 1 + 1 = rank + nranks := by omega
  rw [step, Nat.add_mod_right, Nat.mod_eq_of_lt mem]

end Ring

end NcclTests.HostRma
