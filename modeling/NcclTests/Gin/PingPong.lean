import Mathlib
import NcclTests.Lib.Rally
import NcclTests.Gin.PerfRun

/-!
# Signal ping-pong

Rank 1 sends a signal and waits for one, rank 0 waits for a signal and sends one; the
numbers they wait for start again in every launch, so each clears its signal at the end.
Both kernels are one rally per launch, which the harness keeps apart from the next.
-/

namespace NcclTests.Gin

open Rally

/-! ## The kernels -/

/-- `queueDepth / 2 < 1 ? 1 : queueDepth / 2`. -/
def flushEvery (queueDepth : Int) : Int :=
  if Int.tdiv queueDepth 2 < 1 then 1 else Int.tdiv queueDepth 2

section Kernels

variable (skipCreditCheck : Bool) (queueDepth : Int) (send : Rank → GinOp) (rank : Rank)

/-- `if (skipCreditCheck && (i % flushEvery == 0)) gin.flush(…)`. -/
def creditFlush (i : Nat) : List GinOp :=
  if skipCreditCheck && Int.tmod i (flushEvery queueDepth) == 0 then [.flush] else []

/-- The iterations from `i` on, so many of them; `expected` is counted along. -/
def pingPongLoop : (remaining i expected : Nat) → List GinOp
  | 0, _, _ => []
  | remaining + 1, i, expected =>
    let flush := creditFlush skipCreditCheck queueDepth i
    (if rank = 0 then .waitSignal (expected + 1) :: send 1 :: flush
      else send 0 :: flush ++ [.waitSignal (expected + 1)]) ++
    pingPongLoop remaining (i + 1) (expected + 1)

/-- Either kernel, apart from what it sends with. -/
def pingPong (iters : Int) : List GinOp :=
  pingPongLoop skipCreditCheck queueDepth send rank iters.toNat 0 0 ++ [.resetSignal, .flush]

/-- `ginSignal_pingPong_kernel`. -/
def ginSignalPingPongKernel (skipCreditCheck strongSignal : Bool) (queueDepth : Int) : Kernel :=
  fun rank _ iters => pingPong skipCreditCheck queueDepth
    (fun peer => if strongSignal then .signal peer .strong else .signal peer .weak) rank iters

/-- `ginPutSignal_pingPong_kernel`. -/
def ginPutSignalPingPongKernel (skipCreditCheck strongSignal : Bool) (queueDepth : Int) :
    Kernel :=
  fun rank numElems iters => pingPong skipCreditCheck queueDepth
    (fun peer => if strongSignal then .put peer numElems .strong else .put peer numElems .weak)
    rank iters

end Kernels

/-- The benchmarks that count signals. -/
inductive Bench
  | ginSignal | ginPutSignal
  deriving DecidableEq, Repr

/-- `ginSignalLatency_pingPong_launch`, `ginPutSignalLatency_pingPong_launch`: the instance
of the kernel that the flags name. -/
def Bench.run (args : Args) : Bench → Kernel
  | ginSignal =>
    ginSignalPingPongKernel args.ginSkipCreditCheck args.ginStrongSignal args.queueDepth
  | ginPutSignal =>
    ginPutSignalPingPongKernel args.ginSkipCreditCheck args.ginStrongSignal args.queueDepth

/-! ## A launch is a rally -/

def peer (rank : Rank) : Rank := 1 - rank

theorem peer_eq_zero : ∀ rank ≠ 0, peer rank = 0 := by decide

/-- Rank 1 sends first. -/
def pairing : Pairing Rank where
  peer := peer
  first rank := rank ≠ 0
  peer_peer := by decide
  first_peer := by decide

def GinOp.toRally : GinOp → Op
  | waitSignal least => .wait least
  | signal _ _ | put _ _ _ => .send
  | resetSignal => .close
  | flush => .pass

/-- What is sent goes to the other rank. -/
def GinOp.Aimed (rank : Rank) : GinOp → Prop
  | signal dst _ | put dst _ _ => dst = peer rank
  | _ => True

/-- A kernel that plays a rally. -/
structure Plays (kernel : Kernel) : Prop where
  follows : ∀ rank numElems iters, Follows (pairing.first rank) iters.toNat 0 0 false
    ((kernel rank numElems iters).map GinOp.toRally)
  aimed : ∀ rank numElems iters, ∀ op ∈ kernel rank numElems iters, op.Aimed rank

section Discipline

variable {skipCreditCheck : Bool} {queueDepth : Int} {send : Rank → GinOp} {rank : Rank}

theorem follows_creditFlush {first : Bool} {n sent waited i : Nat} {closed : Bool}
    {ops : List Op} :
    Follows first n sent waited closed
      ((creditFlush skipCreditCheck queueDepth i).map GinOp.toRally ++ ops) ↔
      Follows first n sent waited closed ops := by
  rw [creditFlush]
  split <;> rfl

/-- The loop keeps the discipline from any iteration on. -/
theorem pingPongLoop_follows (sends : ∀ dst, (send dst).toRally = .send) (remaining i : Nat) :
    Follows (pairing.first rank) (i + remaining) i i false
      ((pingPongLoop skipCreditCheck queueDepth send rank remaining i i).map GinOp.toRally ++
        [.close, .pass]) := by
  induction remaining generalizing i with
  | zero => exact ⟨rfl, rfl, rfl, rfl, rfl, rfl⟩
  | succ remaining ih =>
    have rest := ih (i + 1)
    rw [Nat.succ_add_eq_add_succ] at rest
    have less : i < i + (remaining + 1) := by omega
    rw [pingPongLoop]
    by_cases zero : rank = 0
    · subst zero
      simp only [if_pos, List.map_append, List.map_cons, List.cons_append, List.append_assoc,
        sends]
      exact ⟨rfl, rfl, less, rfl, rfl, less, rfl, follows_creditFlush.2 rest⟩
    · have first : pairing.first rank = true := decide_eq_true zero
      rw [first] at rest ⊢
      simp only [if_neg zero, List.map_append, List.map_cons, List.cons_append,
        List.append_assoc, List.nil_append, sends]
      exact ⟨rfl, less, rfl, follows_creditFlush.2 ⟨rfl, rfl, less, rfl, rest⟩⟩

theorem pingPongLoop_aimed (aimed : (send (peer rank)).Aimed rank) (remaining i expected : Nat) :
    ∀ op ∈ pingPongLoop skipCreditCheck queueDepth send rank remaining i expected,
      op.Aimed rank := by
  have flushes : ∀ j, ∀ op ∈ creditFlush skipCreditCheck queueDepth j, op.Aimed rank := by
    intro j op mem
    rw [creditFlush] at mem
    split at mem
    · rw [List.mem_singleton.1 mem]
      trivial
    · cases mem
  induction remaining generalizing i expected with
  | zero => exact fun op mem => absurd mem List.not_mem_nil
  | succ remaining ih =>
    intro op mem
    rw [pingPongLoop] at mem
    rcases List.mem_append.1 mem with now | later
    · by_cases zero : rank = 0
      · subst zero
        rw [if_pos rfl, List.mem_cons, List.mem_cons] at now
        rcases now with rfl | rfl | flush
        · trivial
        · exact aimed
        · exact flushes _ _ flush
      · have one := peer_eq_zero rank zero
        rw [if_neg zero, List.mem_append, List.mem_cons, List.mem_singleton] at now
        rcases now with (rfl | flush) | rfl
        · exact one ▸ aimed
        · exact flushes _ _ flush
        · trivial
    · exact ih _ _ op later

theorem pingPong_follows (sends : ∀ dst, (send dst).toRally = .send) (iters : Int) :
    Follows (pairing.first rank) iters.toNat 0 0 false
      ((pingPong skipCreditCheck queueDepth send rank iters).map GinOp.toRally) := by
  have loop : Follows _ (0 + iters.toNat) 0 0 false ((pingPongLoop skipCreditCheck queueDepth
      send rank iters.toNat 0 0).map GinOp.toRally ++ _) :=
    pingPongLoop_follows sends iters.toNat 0
  rw [Nat.zero_add] at loop
  rw [pingPong, List.map_append]
  exact loop

theorem pingPong_aimed (aimed : (send (peer rank)).Aimed rank) (iters : Int) :
    ∀ op ∈ pingPong skipCreditCheck queueDepth send rank iters, op.Aimed rank := by
  intro op mem
  rw [pingPong, List.mem_append, List.mem_cons, List.mem_singleton] at mem
  rcases mem with loop | rfl | rfl
  · exact pingPongLoop_aimed aimed _ _ _ op loop
  · trivial
  · trivial

/-- Both kernels play a rally. -/
theorem Bench.plays (bench : Bench) (args : Args) : Plays (bench.run args) := by
  cases bench with
  | ginSignal =>
    refine ⟨fun rank _ iters => pingPong_follows (fun dst => ?_) iters, fun rank _ iters =>
      pingPong_aimed ?_ iters⟩
    · split <;> rfl
    · split <;> rfl
  | ginPutSignal =>
    refine ⟨fun rank numElems iters => pingPong_follows (fun dst => ?_) iters,
      fun rank numElems iters => pingPong_aimed ?_ iters⟩
    · split <;> rfl
    · split <;> rfl

end Discipline

end NcclTests.Gin
