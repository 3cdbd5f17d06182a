import Mathlib
import NcclTests.Collective.Memory

/-!
# Initial and expected data

The `InitData` function of each test clears the receive buffer of a rank,
generates what the rank contributes and, from the seeds and positions of the
contributions of all ranks, the result it expects. Receive and send buffers start
at `unalignBytes`, the expected buffer at its allocation.
-/

namespace NcclTests.Collective

variable {β : Type*}

namespace RankMem

/-- `cudaMemcpy(dst, src, bytes)` between allocations. -/
def memcpy (m : RankMem β) (dst src : Ptr) (bytes : Nat) : RankMem β :=
  m.write dst bytes fun i => m (src.add i)

end RankMem

section InitData

variable [Zero β] (content : Nat → Nat → β) (args : ThreadArgs)
  (wordSize nranks root unalignBytes rep : Nat) (inPlace : Bool) (rank : Nat) (m : RankMem β)

def allGatherInitData : RankMem β :=
  let sendcount := args.sendBytes / wordSize
  let recvbuff : Ptr := ⟨.recvbuff, unalignBytes⟩
  let m := m.memset recvbuff args.expectedBytes
  let data := if inPlace then recvbuff.add (rank * args.sendBytes) else ⟨.sendbuff, unalignBytes⟩
  let m := m.initData content data (sendcount * wordSize) 0 (33 * rep + rank)
  (List.range nranks).foldl (fun m j =>
    m.initData content (expectedPtr.add (args.sendBytes * j)) (sendcount * wordSize) 0
      (33 * rep + j)) m

def alltoAllInitData : RankMem β :=
  let sendcount := args.sendBytes / wordSize
  let recvbuff : Ptr := ⟨.recvbuff, unalignBytes⟩
  let m := m.memset recvbuff args.expectedBytes
  let data := if inPlace then recvbuff else ⟨.sendbuff, unalignBytes⟩
  let m := m.initData content data (sendcount * wordSize) 0 (33 * rep + rank)
  let partcount := sendcount / nranks
  (List.range nranks).foldl (fun m j =>
    m.initData content (expectedPtr.add (j * partcount * wordSize)) (partcount * wordSize)
      (rank * partcount * wordSize) (33 * rep + j)) m

def broadcastInitData : RankMem β :=
  let sendcount := args.sendBytes / wordSize
  let recvcount := args.expectedBytes / wordSize
  let recvbuff : Ptr := ⟨.recvbuff, unalignBytes⟩
  let m := m.memset recvbuff args.expectedBytes
  let data := if inPlace then recvbuff else ⟨.sendbuff, unalignBytes⟩
  let m := if rank = root then m.initData content data (sendcount * wordSize) 0 rep else m
  m.initData content expectedPtr (recvcount * wordSize) 0 rep

def gatherInitData : RankMem β :=
  let sendcount := args.sendBytes / wordSize
  let recvbuff : Ptr := ⟨.recvbuff, unalignBytes⟩
  let m := m.memset recvbuff args.expectedBytes
  let data := if inPlace then recvbuff.add (rank * args.sendBytes) else ⟨.sendbuff, unalignBytes⟩
  let m := m.initData content data (sendcount * wordSize) (rank * sendcount * wordSize) rep
  let m := m.memcpy expectedPtr recvbuff args.expectedBytes
  if rank = root then m.initData content expectedPtr (nranks * sendcount * wordSize) 0 rep else m

def scatterInitData : RankMem β :=
  let sendcount := args.sendBytes / wordSize
  let recvcount := args.expectedBytes / wordSize
  let recvbuff : Ptr := ⟨.recvbuff, unalignBytes⟩
  let m := m.memset recvbuff args.expectedBytes
  let data := if inPlace then recvbuff else ⟨.sendbuff, unalignBytes⟩
  let m := if rank = root then m.initData content data (sendcount * wordSize) 0 rep else m
  m.initData content expectedPtr (recvcount * wordSize) (rank * recvcount * wordSize) rep

def sendRecvInitData : RankMem β :=
  let sendcount := args.sendBytes / wordSize
  let recvcount := args.expectedBytes / wordSize
  let recvbuff : Ptr := ⟨.recvbuff, unalignBytes⟩
  let m := m.memset recvbuff args.expectedBytes
  let data := if inPlace then recvbuff else ⟨.sendbuff, unalignBytes⟩
  let m := m.initData content data (sendcount * wordSize) (rank * sendcount * wordSize) rep
  let peer := (rank + nranks - 1) % nranks
  m.initData content expectedPtr (recvcount * wordSize) (peer * recvcount * wordSize) rep

end InitData

/-! ## What the functions leave -/

/-- `data` in the functions above: in place the contribution is `bytes` into the
receive buffer. -/
def contributionPtr (unalignBytes bytes : Nat) (inPlace : Bool) : Ptr :=
  if inPlace then ⟨.recvbuff, unalignBytes + bytes⟩ else ⟨.sendbuff, unalignBytes⟩

theorem expectedPtr_add_ne (unalignBytes bytes : Nat) (inPlace : Bool) (i j : Nat) :
    expectedPtr.add i ≠ (contributionPtr unalignBytes bytes inPlace).add j := by
  intro same
  have buffer := congrArg Ptr.buffer same
  cases inPlace <;> cases buffer

section Results

open RankMem

variable [Zero β] {content : Nat → Nat → β} {args : ThreadArgs}
  {wordSize nranks root unalignBytes rep count : Nat} {inPlace : Bool} {rank : Nat}
  {m : RankMem β}

theorem allGatherInitData_eq (some_ : 0 < wordSize) (send : args.sendBytes = count * wordSize) :
    allGatherInitData content args wordSize nranks unalignBytes rep inPlace rank m =
      initBlocks content
        (initData content (m.memset ⟨.recvbuff, unalignBytes⟩ args.expectedBytes)
          (contributionPtr unalignBytes (rank * (count * wordSize)) inPlace) (count * wordSize) 0
          (33 * rep + rank))
        expectedPtr (count * wordSize) nranks (fun _ => 0) fun j => 33 * rep + j := by
  simp only [allGatherInitData, send, Nat.mul_div_cancel _ some_]
  rfl

theorem allGatherInitData_expected (some_ : 0 < wordSize)
    (send : args.sendBytes = count * wordSize) {x : Nat}
    (inside : x < nranks * (count * wordSize)) :
    allGatherInitData content args wordSize nranks unalignBytes rep inPlace rank m
        (expectedPtr.add x) =
      content (33 * rep + x / (count * wordSize)) (x % (count * wordSize)) := by
  rw [allGatherInitData_eq some_ send, initBlocks_inside _ _ _ _ _ inside, Nat.zero_add]

theorem allGatherInitData_data (some_ : 0 < wordSize) (send : args.sendBytes = count * wordSize)
    {i : Nat} (inside : i < count * wordSize) :
    allGatherInitData content args wordSize nranks unalignBytes rep inPlace rank m
        ((contributionPtr unalignBytes (rank * (count * wordSize)) inPlace).add i) =
      content (33 * rep + rank) i := by
  rw [allGatherInitData_eq some_ send,
    initBlocks_outside _ _ _ _ fun j _ => expectedPtr_add_ne _ _ _ j i, initData,
    write_inside _ _ _ inside, Nat.zero_add]

theorem alltoAllInitData_eq (some_ : 0 < wordSize) (ranks : 0 < nranks)
    (send : args.sendBytes = nranks * count * wordSize) :
    alltoAllInitData content args wordSize nranks unalignBytes rep inPlace rank m =
      initBlocks content
        (initData content (m.memset ⟨.recvbuff, unalignBytes⟩ args.expectedBytes)
          (contributionPtr unalignBytes 0 inPlace) (nranks * count * wordSize) 0 (33 * rep + rank))
        expectedPtr (count * wordSize) nranks (fun _ => rank * (count * wordSize))
        fun j => 33 * rep + j := by
  have sendcount : args.sendBytes / wordSize = nranks * count := by
    rw [send, Nat.mul_div_cancel _ some_]
  simp only [alltoAllInitData, sendcount, Nat.mul_div_cancel_left _ ranks]
  simp only [initBlocks, Nat.mul_assoc, Nat.mul_comm (count * wordSize)]
  rfl

theorem alltoAllInitData_expected (some_ : 0 < wordSize)
    (send : args.sendBytes = nranks * count * wordSize) {x : Nat}
    (inside : x < nranks * (count * wordSize)) :
    alltoAllInitData content args wordSize nranks unalignBytes rep inPlace rank m
        (expectedPtr.add x) =
      content (33 * rep + x / (count * wordSize))
        (rank * (count * wordSize) + x % (count * wordSize)) := by
  have ranks : 0 < nranks := Nat.pos_of_ne_zero fun zero => by simp [zero] at inside
  rw [alltoAllInitData_eq some_ ranks send, initBlocks_inside _ _ _ _ _ inside]

theorem alltoAllInitData_data (some_ : 0 < wordSize) (ranks : 0 < nranks)
    (send : args.sendBytes = nranks * count * wordSize) {i : Nat}
    (inside : i < nranks * count * wordSize) :
    alltoAllInitData content args wordSize nranks unalignBytes rep inPlace rank m
        ((contributionPtr unalignBytes 0 inPlace).add i) = content (33 * rep + rank) i := by
  rw [alltoAllInitData_eq some_ ranks send,
    initBlocks_outside _ _ _ _ fun j _ => expectedPtr_add_ne _ _ _ j i, initData,
    write_inside _ _ _ inside, Nat.zero_add]

theorem broadcastInitData_expected (some_ : 0 < wordSize)
    (recv : args.expectedBytes = count * wordSize) {x : Nat} (inside : x < count * wordSize) :
    broadcastInitData content args wordSize root unalignBytes rep inPlace rank m
        (expectedPtr.add x) = content rep x := by
  simp only [broadcastInitData, recv, Nat.mul_div_cancel _ some_]
  rw [initData, write_inside _ _ _ inside, Nat.zero_add]

theorem broadcastInitData_data (some_ : 0 < wordSize) (send : args.sendBytes = count * wordSize)
    {i : Nat} (inside : i < count * wordSize) :
    broadcastInitData content args wordSize root unalignBytes rep inPlace root m
        ((contributionPtr unalignBytes 0 inPlace).add i) = content rep i := by
  simp only [broadcastInitData, send, Nat.mul_div_cancel _ some_, if_true]
  rw [initData, write_outside _ _ fun j _ => expectedPtr_add_ne _ _ _ j i]
  exact (write_inside _ _ _ inside).trans (by rw [Nat.zero_add])

/-- Away from the root a rank expects what its receive buffer held. -/
theorem gatherInitData_expected_other (ne : rank ≠ root) {x : Nat}
    (inside : x < args.expectedBytes) :
    gatherInitData content args wordSize nranks root unalignBytes rep inPlace rank m
        (expectedPtr.add x) =
      gatherInitData content args wordSize nranks root unalignBytes rep inPlace rank m
        ((⟨.recvbuff, unalignBytes⟩ : Ptr).add x) := by
  simp only [gatherInitData, if_neg ne]
  rw [memcpy, write_inside _ _ _ inside, write_outside]
  intro j _ same
  cases congrArg Ptr.buffer same

theorem gatherInitData_expected_root (some_ : 0 < wordSize)
    (send : args.sendBytes = count * wordSize) {x : Nat}
    (inside : x < nranks * (count * wordSize)) :
    gatherInitData content args wordSize nranks root unalignBytes rep inPlace root m
        (expectedPtr.add x) = content rep x := by
  rw [← Nat.mul_assoc] at inside
  simp only [gatherInitData, send, Nat.mul_div_cancel _ some_, if_true]
  rw [initData, write_inside _ _ _ inside, Nat.zero_add]

theorem gatherInitData_data (some_ : 0 < wordSize) (send : args.sendBytes = count * wordSize)
    {i : Nat} (inside : i < count * wordSize) :
    gatherInitData content args wordSize nranks root unalignBytes rep inPlace rank m
        ((contributionPtr unalignBytes (rank * (count * wordSize)) inPlace).add i) =
      content rep (rank * (count * wordSize) + i) := by
  have contributed : initData content (m.memset ⟨.recvbuff, unalignBytes⟩ args.expectedBytes)
      (contributionPtr unalignBytes (rank * (count * wordSize)) inPlace) (count * wordSize)
      (rank * count * wordSize) rep
      ((contributionPtr unalignBytes (rank * (count * wordSize)) inPlace).add i) =
        content rep (rank * (count * wordSize) + i) := by
    rw [initData, write_inside _ _ _ inside, Nat.mul_assoc]
  simp only [gatherInitData, send, Nat.mul_div_cancel _ some_]
  split
  · rw [initData, write_outside _ _ fun j _ => expectedPtr_add_ne _ _ _ j i, memcpy,
      write_outside _ _ fun j _ => expectedPtr_add_ne _ _ _ j i]
    exact contributed
  · rw [memcpy, write_outside _ _ fun j _ => expectedPtr_add_ne _ _ _ j i]
    exact contributed

theorem scatterInitData_expected (some_ : 0 < wordSize)
    (recv : args.expectedBytes = count * wordSize) {x : Nat} (inside : x < count * wordSize) :
    scatterInitData content args wordSize root unalignBytes rep inPlace rank m
        (expectedPtr.add x) = content rep (rank * (count * wordSize) + x) := by
  simp only [scatterInitData, recv, Nat.mul_div_cancel _ some_]
  rw [initData, write_inside _ _ _ inside, Nat.mul_assoc]

theorem scatterInitData_data (some_ : 0 < wordSize)
    (send : args.sendBytes = count * nranks * wordSize) {i : Nat}
    (inside : i < count * nranks * wordSize) :
    scatterInitData content args wordSize root unalignBytes rep inPlace root m
        ((contributionPtr unalignBytes 0 inPlace).add i) = content rep i := by
  simp only [scatterInitData, send, Nat.mul_div_cancel _ some_, if_true]
  rw [initData, write_outside _ _ fun j _ => expectedPtr_add_ne _ _ _ j i]
  exact (write_inside _ _ _ inside).trans (by rw [Nat.zero_add])

theorem sendRecvInitData_expected (some_ : 0 < wordSize)
    (recv : args.expectedBytes = count * wordSize) {x : Nat} (inside : x < count * wordSize) :
    sendRecvInitData content args wordSize nranks unalignBytes rep inPlace rank m
        (expectedPtr.add x) =
      content rep ((rank + nranks - 1) % nranks * (count * wordSize) + x) := by
  simp only [sendRecvInitData, recv, Nat.mul_div_cancel _ some_]
  rw [initData, write_inside _ _ _ inside, Nat.mul_assoc]

theorem sendRecvInitData_data (some_ : 0 < wordSize) (send : args.sendBytes = count * wordSize)
    {i : Nat} (inside : i < count * wordSize) :
    sendRecvInitData content args wordSize nranks unalignBytes rep inPlace rank m
        ((contributionPtr unalignBytes 0 inPlace).add i) =
      content rep (rank * (count * wordSize) + i) := by
  simp only [sendRecvInitData, send, Nat.mul_div_cancel _ some_]
  rw [initData, write_outside _ _ fun j _ => expectedPtr_add_ne _ _ _ j i]
  exact (write_inside _ _ _ inside).trans (by rw [Nat.mul_assoc])

end Results

end NcclTests.Collective
