import Mathlib
import NcclTests.Collective.Counts
import NcclTests.Lib.MachineInt

/-!
# Setting up and starting a collective

`setupArgs` turns a buffer size into byte counts, `startColl` turns them into the
pointers and offsets of one call. Addresses are byte offsets from the start of an
allocation: the host path moves the pointers by `unalign` elements beforehand,
the paths through windows add the same bytes to the offset.
-/

namespace NcclTests.Collective

/-- The fields of `threadArgs` that the counts determine. -/
structure ThreadArgs where
  maxbytes : Nat
  nbytes : Nat
  sendBytes : Nat
  expectedBytes : Nat
  sendInplaceOffset : Nat
  recvInplaceOffset : Nat
  deriving DecidableEq, Repr

/-- The counts of a collective in bytes. -/
def CollByteCount.toArgs (counts : CollByteCount) (maxbytes wordSize : Nat) : ThreadArgs where
  maxbytes := maxbytes
  nbytes := counts.paramcount * wordSize
  sendBytes := counts.sendcount * wordSize
  expectedBytes := counts.recvcount * wordSize
  sendInplaceOffset := counts.sendInplaceOffset * wordSize
  recvInplaceOffset := counts.recvInplaceOffset * wordSize

/-- `wordSize` is the element size of the type. -/
def setupArgs (coll : Coll) (spread : ℚ) (maxbytes size wordSize nranks : Nat) : ThreadArgs :=
  (coll.getCollByteCount spread (size / wordSize) wordSize nranks).toArgs maxbytes wordSize

namespace ThreadArgs

variable (args : ThreadArgs)

def totalnbytes : Nat := max args.sendBytes args.expectedBytes

/-- The modulus of the iteration number. -/
def steps : Nat := if args.totalnbytes ≠ 0 then args.maxbytes / args.totalnbytes else 1

/-- The offset that keeps successive iterations out of the cache. -/
def shift (iter : Nat) : Nat := args.totalnbytes * (iter % args.steps)

end ThreadArgs

/-- The three ways to run a collective: NCCL calls on pointers, host RMA and
device kernels on windows. -/
inductive Impl
  | host | hostRma | device
  deriving DecidableEq, Repr

/-- The buffer arguments of `runColl`. A buffer is the allocation it points into
and the address of the pointer there. -/
structure RunCollArgs where
  sendIsRecvBuffer : Bool
  sendbuff : Nat
  sendoffset : Nat
  recvbuff : Nat
  recvoffset : Nat
  count : Nat
  deriving DecidableEq, Repr

def startColl (args : ThreadArgs) (impl : Impl) (wordSize unalign rank : Nat) (inPlace : Bool)
    (iter : Nat) : RunCollArgs :=
  let shift := args.shift iter
  let unalignBytes := unalign * wordSize
  let sendInplace := if inPlace then args.sendInplaceOffset * rank else 0
  let recvInplace := if inPlace then args.recvInplaceOffset * rank else 0
  match impl with
  | .host =>
    { sendIsRecvBuffer := inPlace
      sendbuff := unalignBytes + shift
      sendoffset := sendInplace
      recvbuff := unalignBytes + shift
      recvoffset := recvInplace
      count := args.nbytes / wordSize }
  | .hostRma | .device =>
    { sendIsRecvBuffer := inPlace
      sendbuff := 0
      sendoffset := shift + sendInplace + unalignBytes
      recvbuff := 0
      recvoffset := shift + recvInplace + unalignBytes
      count := args.nbytes / wordSize }

/-- `(char*)sendbuff + sendoffset`. -/
def RunCollArgs.sendAddress (call : RunCollArgs) : Nat := call.sendbuff + call.sendoffset

/-- `(char*)recvbuff + recvoffset`. -/
def RunCollArgs.recvAddress (call : RunCollArgs) : Nat := call.recvbuff + call.recvoffset

/-- `AllocateBuffs` pads the maximum size for the forced misalignment: `nbytes += 8*unalign`,
where the product is one of `int`s and `none` stands for its overflow. The sum, in `size_t`, does
not wrap around, since `run` has limited `maxBytes` to less than `2^63`. -/
def allocBytes (nbytes unalign : Nat) : Option Nat :=
  (checkedInt (8 * unalign)).map fun padding => nbytes + padding.toNat

theorem allocBytes_eq_some_iff {nbytes unalign bytes : Nat} :
    allocBytes nbytes unalign = some bytes ↔ unalign < 2 ^ 28 ∧ bytes = nbytes + 8 * unalign := by
  rw [allocBytes]
  rcases Nat.lt_or_ge unalign (2 ^ 28) with small | large
  · rw [checkedInt_eq_some (by omega) (by omega), Option.map_some, Option.some.injEq]
    omega
  · rw [checkedInt_eq_none (by omega)]
    refine iff_of_false (fun same => by cases same) ?_
    omega

/-! ## What a call reads and writes -/

/-- Bytes a rank reads from its send address on. -/
def Coll.bytesSent (coll : Coll) (spread : ℚ) (count wordSize nranks rank root : Nat) : Nat :=
  match coll with
  | .allReduce | .allGather | .reduce | .gather | .sendRecv | .hyperCube => count * wordSize
  | .broadcast => if rank = root then count * wordSize else 0
  | .reduceScatter | .alltoAll => nranks * (count * wordSize)
  | .scatter => if rank = root then nranks * (count * wordSize) else 0
  | .alltoAllv => ∑ r ∈ Finset.range nranks,
      alltoAllvGetPeerBytesDistanceWeighted spread rank r nranks (count * nranks * wordSize) /
        wordSize * wordSize

/-- Bytes a rank writes, or as a hypercube also reads, from its receive address on. -/
def Coll.bytesReceived (coll : Coll) (spread : ℚ) (count wordSize nranks rank root : Nat) : Nat :=
  match coll with
  | .allReduce | .broadcast | .reduceScatter | .scatter | .sendRecv => count * wordSize
  | .reduce => if rank = root then count * wordSize else 0
  | .allGather | .alltoAll | .hyperCube => nranks * (count * wordSize)
  | .gather => if rank = root then nranks * (count * wordSize) else 0
  | .alltoAllv => ∑ r ∈ Finset.range nranks,
      alltoAllvGetPeerBytesDistanceWeighted spread r rank nranks (count * nranks * wordSize) /
        wordSize * wordSize

/-! ## Pointers and windows agree -/

theorem startColl_sendAddress (args : ThreadArgs) (impl : Impl) (wordSize unalign rank : Nat)
    (inPlace : Bool) (iter : Nat) :
    (startColl args impl wordSize unalign rank inPlace iter).sendAddress =
      args.shift iter + (if inPlace then args.sendInplaceOffset * rank else 0) +
        unalign * wordSize := by
  cases impl <;> simp only [startColl, RunCollArgs.sendAddress] <;> omega

theorem startColl_recvAddress (args : ThreadArgs) (impl : Impl) (wordSize unalign rank : Nat)
    (inPlace : Bool) (iter : Nat) :
    (startColl args impl wordSize unalign rank inPlace iter).recvAddress =
      args.shift iter + (if inPlace then args.recvInplaceOffset * rank else 0) +
        unalign * wordSize := by
  cases impl <;> simp only [startColl, RunCollArgs.recvAddress] <;> omega

/-! ## The shift -/

namespace ThreadArgs

variable {args : ThreadArgs}

theorem steps_pos (fits : args.totalnbytes ≤ args.maxbytes) : 0 < args.steps := by
  rw [steps]
  split
  case isTrue some_ => exact Nat.div_pos fits (Nat.pos_of_ne_zero some_)
  case isFalse none_ => exact Nat.one_pos

/-- A shifted call still fits below `maxbytes`. -/
theorem shift_add_le (fits : args.totalnbytes ≤ args.maxbytes) (iter : Nat) :
    args.shift iter + args.totalnbytes ≤ args.maxbytes := by
  have below := Nat.mod_lt iter (steps_pos fits)
  rw [shift]
  rcases Nat.eq_zero_or_pos args.totalnbytes with none_ | some_
  · rw [none_]
    omega
  · have count : args.steps = args.maxbytes / args.totalnbytes := if_pos some_.ne'
    calc args.totalnbytes * (iter % args.steps) + args.totalnbytes
        = args.totalnbytes * (iter % args.steps + 1) := (Nat.mul_succ _ _).symm
      _ ≤ args.totalnbytes * args.steps := Nat.mul_le_mul_left _ below
      _ ≤ args.maxbytes := by
        rw [count]
        exact Nat.mul_div_le _ _

end ThreadArgs

end NcclTests.Collective
