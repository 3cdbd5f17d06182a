import Mathlib
import NcclTests.Collective.Memory

/-!
# Streams of copies and pairwise exchanges

The ranks run their operations in order but independently of each other. An
exchange is a group of one send and one receive; it takes place when both
partners have arrived at it and agree about partner and length. The bytes of an
operation are moved in any order.
-/

namespace NcclTests.Collective

/-- One side of a transfer. -/
structure Transfer where
  buff : Ptr
  bytes : Nat
  peer : Nat
  deriving DecidableEq, Repr

/-- An operation on the stream of a rank. -/
inductive StreamOp
  /-- `cudaMemcpyAsync` on the device. -/
  | memcpy (dst src : Ptr) (bytes : Nat)
  /-- `ncclSend` and `ncclRecv` in one group. -/
  | exchange (send recv : Transfer)
  deriving DecidableEq, Repr

/-- Memory and the operations that each rank has left. -/
structure StreamState (β : Type*) where
  mem : Mem β
  prog : Nat → List StreamOp

/-- The moves of an exchange between `a` and `b`. -/
def exchangeMoves (a b : Nat) (sendA recvA sendB recvB : Transfer) : List (Move Loc) :=
  blockMoves b recvB.buff a sendA.buff sendA.bytes ++
    blockMoves a recvA.buff b sendB.buff sendB.bytes

inductive StreamStep {β : Type*} (nRanks : Nat) : StreamState β → StreamState β → Prop
  | memcpy {s : StreamState β} {rank bytes : Nat} {dst src : Ptr} {rest : List StreamOp}
      {order : List (Move Loc)} (mem : rank < nRanks)
      (head : s.prog rank = .memcpy dst src bytes :: rest)
      (perm : order.Perm (blockMoves rank dst rank src bytes)) :
      StreamStep nRanks s ⟨Moves.run order s.mem, Function.update s.prog rank rest⟩
  | exchange {s : StreamState β} {a b : Nat} {sendA recvA sendB recvB : Transfer}
      {restA restB : List StreamOp} {order : List (Move Loc)} (memA : a < nRanks)
      (memB : b < nRanks) (ne : a ≠ b)
      (headA : s.prog a = .exchange sendA recvA :: restA)
      (headB : s.prog b = .exchange sendB recvB :: restB)
      (aToB : sendA.peer = b ∧ recvB.peer = a ∧ sendA.bytes = recvB.bytes)
      (bToA : sendB.peer = a ∧ recvA.peer = b ∧ sendB.bytes = recvA.bytes)
      (perm : order.Perm (exchangeMoves a b sendA recvA sendB recvB)) :
      StreamStep nRanks s
        ⟨Moves.run order s.mem, Function.update (Function.update s.prog a restA) b restB⟩

/-- All ranks have run all their operations. -/
def StreamState.Finished {β : Type*} (nRanks : Nat) (s : StreamState β) : Prop :=
  ∀ rank < nRanks, s.prog rank = []

/-- The operations left on all ranks. -/
def StreamState.remaining {β : Type*} (nRanks : Nat) (s : StreamState β) : Nat :=
  ∑ rank ∈ Finset.range nRanks, (s.prog rank).length

/-- Popping an operation leaves fewer. -/
theorem sum_length_update_lt {nRanks rank : Nat} {prog : Nat → List StreamOp} {op : StreamOp}
    {rest : List StreamOp} (mem : rank < nRanks) (head : prog rank = op :: rest) :
    ∑ r ∈ Finset.range nRanks, (Function.update prog rank rest r).length <
      ∑ r ∈ Finset.range nRanks, (prog r).length := by
  refine Finset.sum_lt_sum (fun r _ => ?_) ⟨rank, Finset.mem_range.2 mem, ?_⟩
  · rcases eq_or_ne r rank with rfl | other
    · rw [Function.update_self, head]
      exact Nat.le_succ _
    · rw [Function.update_of_ne other]
  · rw [Function.update_self, head]
    exact Nat.lt_succ_self _

/-- Every step uses up operations, so no run goes on for ever. -/
theorem StreamStep.remaining_lt {β : Type*} {nRanks : Nat} {s t : StreamState β}
    (step : StreamStep nRanks s t) : t.remaining nRanks < s.remaining nRanks := by
  cases step with
  | memcpy mem head perm => exact sum_length_update_lt mem head
  | @exchange a b _ _ _ _ restA _ _ memA memB ne headA headB aToB bToA perm =>
    have headB_ := (Function.update_of_ne ne.symm restA s.prog).trans headB
    exact (sum_length_update_lt memB headB_).trans (sum_length_update_lt memA headA)

end NcclTests.Collective
