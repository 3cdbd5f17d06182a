import Mathlib
import NcclTests.Lib.FlagRally
import NcclTests.Lib.MachineInt
import NcclTests.Gin.PingPong

/-!
# Flag ping-pong

The put benchmark uses no signals: a rank spins on the last element of its buffer until the
peer's put has overwritten it. The signs that the two write start again in every launch and
the last element moves with the size, but a spin never ends on what an earlier put left behind
(`spun_by_peer`).

The streams of both ranks, their buffers and what is under way are the memory of a rally of
flags. A flush is a pass of that rally: whenever it returns is early enough.
-/

namespace NcclTests.Gin

open FlagRally (Op Round Sides strip)

/-- An iteration of a launch. -/
structure Turn where
  launch : Nat
  iteration : Nat
  deriving DecidableEq, Repr

namespace PutPingPong

/-- The rank that answers. -/
def rank0 : Rank := ⟨0, Nat.two_pos⟩

/-- The rank that puts first. -/
def rank1 : Rank := ⟨1, Nat.one_lt_two⟩

/-! ## The kernel -/

section Kernel

variable (skipCreditCheck : Bool) (queueDepth : Int) (rank : Rank) (launch numElems : Nat)

/-- `if (skipCreditCheck && (i % flushEvery == 0)) gin.flush(…)`. -/
def flush (i : Nat) : List (Op Rank Turn) :=
  if skipCreditCheck && Int.tmod i (flushEvery queueDepth) == 0 then [.pass] else []

/-- The iterations from `i` on, so many of them; both signs are counted along. -/
def loop : (remaining i : Nat) → (serverSign clientSign : Int) → List (Op Rank Turn)
  | 0, _, _, _ => []
  | remaining + 1, i, serverSign, clientSign =>
    let lastElem := numElems - 1
    let turn : Turn := ⟨launch, i⟩
    (if rank = rank0 then
      .spin lastElem serverSign turn :: .store lastElem clientSign :: .put rank1 numElems turn ::
        flush skipCreditCheck queueDepth i
    else
      .store lastElem serverSign :: .put rank0 numElems turn ::
        flush skipCreditCheck queueDepth i ++ [.spin lastElem clientSign turn]) ++
    loop remaining (i + 1) (int32 (serverSign + 1)) (int32 (clientSign - 1))

/-- `ginPut_pingPong_kernel`, with the number of its launch. -/
def ginPutPingPongKernel (iters : Int) : List (Op Rank Turn) :=
  loop skipCreditCheck queueDepth rank launch numElems iters.toNat 0 1 (-1) ++ [.pass]

end Kernel

/-- `ginPutLatency_pingPong_launch`: the instance of the kernel that the flag names. -/
def ginPutLatencyPingPongLaunch (args : Args) (rank : Rank) (launch numElems : Nat) (iters : Int) :
    List (Op Rank Turn) :=
  ginPutPingPongKernel args.ginSkipCreditCheck args.queueDepth rank launch numElems iters

/-! ## The host -/

/-- The host program of `gin_perf_run` over some sizes. -/
def perfRun (args : Args) (sizes : List Nat) : List HostOp :=
  sizes.flatMap (sizeOps args) ++ [.barrier]

theorem ginPerfRun_ops (args : Args) :
    (ginPerfRun args).ops = perfRun args (sweep args args.minbytes) := rfl

/-- What is left of the hosts, their launches so far, and streams and buffers. -/
structure State where
  host : Rank → List HostOp
  launches : Rank → Nat
  memory : FlagRally.State Rank Turn

abbrev Event := FlagRally.Event Rank Turn

/-- A kernel goes to the end of the stream. -/
def State.launch (s : State) (rank : Rank) (ops : List (Op Rank Turn)) (host : List HostOp) :
    State where
  host := Function.update s.host rank host
  launches := Function.update s.launches rank (s.launches rank + 1)
  memory :=
    { s.memory with rest := Function.update s.memory.rest rank (s.memory.rest rank ++ ops) }

section Semantics

variable (args : Args)

inductive Step : State → List Event → State → Prop
  | launch {s : State} {rank : Rank} {numElems : Nat} {iters : Int} {host : List HostOp}
      (head : s.host rank = .launch numElems iters :: host) :
      Step s [] (s.launch rank
        (ginPutLatencyPingPongLaunch args rank (s.launches rank + 1) numElems iters) host)
  | streamSynchronize {s : State} {rank : Rank} {host : List HostOp}
      (head : s.host rank = .streamSynchronize :: host) (idle : s.memory.rest rank = []) :
      Step s [] { s with host := Function.update s.host rank host }
  | barrier {s : State} {host : Rank → List HostOp}
      (heads : ∀ rank, s.host rank = .barrier :: host rank) : Step s [] { s with host := host }
  | device {s : State} {events : List Event} {memory : FlagRally.State Rank Turn}
      (step : FlagRally.Step s.memory events memory) :
      Step s events { s with memory := memory }

/-- Both ranks at the start of `gin_perf_run`, with zero buffers. -/
def initial (sizes : List Nat) : State :=
  ⟨fun _ => perfRun args sizes, fun _ => 0, ⟨fun _ => [], fun _ _ => ⟨0, none⟩, 0⟩⟩

/-- A run with its events, the oldest first. -/
inductive Run (sizes : List Nat) : List Event → State → Prop
  | init : Run sizes [] (initial args sizes)
  | step {trace events : List Event} {s t : State} (run : Run sizes trace s)
      (step : Step args s events t) : Run sizes (trace ++ events) t

end Semantics

/-- Both ranks are done. -/
def State.Finished (s : State) : Prop := ∀ rank, s.host rank = [] ∧ s.memory.rest rank = []

/-! ## A run is a rally -/

section Rally

variable (args : Args)

/-- What the launches that are still to come will do. -/
def ahead (rank : Rank) : Nat → List HostOp → List (Op Rank Turn)
  | _, [] => []
  | launches, .launch numElems iters :: host =>
    ginPutLatencyPingPongLaunch args rank (launches + 1) numElems iters ++
      ahead rank (launches + 1) host
  | launches, .streamSynchronize :: host => ahead rank launches host
  | launches, .barrier :: host => ahead rank launches host

/-- The memory as if all that is to come were launched. -/
def State.rally (s : State) : FlagRally.State Rank Turn :=
  s.memory.append fun rank => ahead args rank (s.launches rank) (s.host rank)

variable {args}

theorem rally_congr {s t : State} (buffer : t.memory.buffer = s.memory.buffer)
    (inFlight : t.memory.inFlight = s.memory.inFlight)
    (rest : ∀ rank, t.memory.rest rank ++ ahead args rank (t.launches rank) (t.host rank) =
      s.memory.rest rank ++ ahead args rank (s.launches rank) (s.host rank)) :
    t.rally args = s.rally args := by
  rw [State.rally, State.rally, FlagRally.State.append, FlagRally.State.append,
    FlagRally.State.mk.injEq]
  exact ⟨funext rest, buffer, inFlight⟩

/-- Nothing but the devices and the network moves in the rally. -/
theorem Step.rally {s t : State} {events : List Event} (step : Step args s events t) :
    FlagRally.Step (s.rally args) events (t.rally args) ∨
      events = [] ∧ t.rally args = s.rally args := by
  cases step with
  | @launch rank numElems iters host head =>
    refine .inr ⟨rfl, rally_congr rfl rfl ?_⟩
    intro r
    simp only [State.launch]
    by_cases same : r = rank
    · subst same
      rw [Function.update_self, Function.update_self, Function.update_self, head, ahead,
        List.append_assoc]
    · rw [Function.update_of_ne same, Function.update_of_ne same, Function.update_of_ne same]
  | @streamSynchronize rank host head idle =>
    refine .inr ⟨rfl, rally_congr rfl rfl ?_⟩
    intro r
    dsimp only
    by_cases same : r = rank
    · subst same
      rw [Function.update_self, head, ahead]
    · rw [Function.update_of_ne same]
  | @barrier host heads =>
    refine .inr ⟨rfl, rally_congr rfl rfl ?_⟩
    intro r
    rw [heads r, ahead]
  | device step => exact .inl (step.append _)

theorem Run.rally {sizes : List Nat} {trace : List Event} {s : State}
    (run : Run args sizes trace s) :
    FlagRally.Run ((initial args sizes).rally args) trace (s.rally args) := by
  induction run with
  | init => exact .init
  | step _ step ih =>
    rcases step.rally with moved | ⟨silent, same⟩
    · exact ih.step moved
    · rw [silent, same, List.append_nil]
      exact ih

end Rally

/-! ## The rounds of a run -/

/-- Rank 1 is the server. -/
def sides : Sides Rank where
  server := rank1
  client := rank0
  apart := by decide
  total := by decide

/-- The rounds of a launch, one an iteration. -/
def launchRounds (launch numElems : Nat) (iters : Int) : List (Round Turn) :=
  (List.range iters.toNat).map fun i => ⟨numElems - 1, i, ⟨launch, i⟩⟩

/-- The rounds of a host program after so many launches. -/
def hostRounds : Nat → List HostOp → List (Round Turn)
  | _, [] => []
  | launches, .launch numElems iters :: host =>
    launchRounds (launches + 1) numElems iters ++ hostRounds (launches + 1) host
  | launches, .streamSynchronize :: host => hostRounds launches host
  | launches, .barrier :: host => hostRounds launches host

/-- What a rank does in a round. -/
def part (rank : Rank) : Round Turn → List (Op Rank Turn) :=
  if rank = rank0 then sides.answer else sides.serve

section Discipline

variable {skipCreditCheck : Bool} {queueDepth : Int} {launch numElems : Nat}

theorem strip_flush (i : Nat) : strip (flush skipCreditCheck queueDepth i) = [] := by
  rw [flush]
  split <;> rfl

/-- An iteration is what the rank does in a round, apart from the flush. -/
theorem strip_iteration (rank : Rank) (last i : Nat) (turn : Turn) :
    strip (if rank = rank0 then
        .spin last (i + 1) turn :: .store last (-(i + 1)) :: .put rank1 (last + 1) turn ::
          flush skipCreditCheck queueDepth i
      else
        .store last (i + 1) :: .put rank0 (last + 1) turn ::
          flush skipCreditCheck queueDepth i ++ [.spin last (-(i + 1)) turn]) =
      part rank ⟨last, i, turn⟩ := by
  have nothing : strip (flush skipCreditCheck queueDepth i) = [] := strip_flush i
  by_cases zero : rank = rank0
  · rw [if_pos zero, part, if_pos zero]
    calc strip (.spin last (i + 1) turn :: .store last (-(i + 1)) :: .put rank1 (last + 1) turn ::
          flush skipCreditCheck queueDepth i)
        = .spin last (i + 1) turn :: .store last (-(i + 1)) :: .put rank1 (last + 1) turn ::
          strip (flush skipCreditCheck queueDepth i) := rfl
      _ = sides.answer ⟨last, i, turn⟩ := by
        rw [nothing]
        rfl
  · rw [if_neg zero, part, if_neg zero, FlagRally.strip_append]
    calc strip (.store last (i + 1) :: .put rank0 (last + 1) turn ::
          flush skipCreditCheck queueDepth i) ++ strip [.spin last (-(i + 1)) turn]
        = .store last (i + 1) :: .put rank0 (last + 1) turn ::
          strip (flush skipCreditCheck queueDepth i) ++ [.spin last (-(i + 1)) turn] := rfl
      _ = sides.serve ⟨last, i, turn⟩ := by
        rw [nothing]
        rfl

/-- The last increment of a sign may overflow, but nothing uses its result. -/
theorem strip_loop (rank : Rank) (last remaining i : Nat) {serverSign clientSign : Int}
    (fits : i + remaining < 2 ^ 31)
    (signs : 0 < remaining → serverSign = i + 1 ∧ clientSign = -(i + 1)) :
    strip (loop skipCreditCheck queueDepth rank launch (last + 1) remaining i serverSign clientSign)
      = ((List.range' i remaining).map fun i =>
          (⟨last, i, ⟨launch, i⟩⟩ : Round Turn)).flatMap (part rank) := by
  induction remaining generalizing i serverSign clientSign with
  | zero => rfl
  | succ remaining ih =>
    obtain ⟨rfl, rfl⟩ := signs (Nat.succ_pos _)
    have next : 0 < remaining → int32 ((i : Int) + 1 + 1) = ((i + 1 : Nat) : Int) + 1 ∧
        int32 (-((i : Int) + 1) - 1) = -(((i + 1 : Nat) : Int) + 1) := by
      intro more
      refine ⟨(int32_eq_iff.2 ?_).trans ?_, (int32_eq_iff.2 ?_).trans ?_⟩ <;> omega
    rw [loop, FlagRally.strip_append, ih (i + 1) (by omega) next, List.range'_succ, List.map_cons,
      List.flatMap_cons]
    exact congrArg (· ++ _) (strip_iteration rank last i ⟨launch, i⟩)

/-- A launch plays its rounds. -/
theorem strip_launch (args : Args) (rank : Rank) (launch : Nat) {numElems : Nat} {iters : Int}
    (pos : 0 < numElems) (fits : iters < 2 ^ 31) :
    strip (ginPutLatencyPingPongLaunch args rank launch numElems iters) =
      (launchRounds launch numElems iters).flatMap (part rank) := by
  obtain ⟨last, rfl⟩ := Nat.exists_eq_add_of_lt pos
  have signs : 0 < iters.toNat → (1 : Int) = (0 : Nat) + 1 ∧ (-1 : Int) = -((0 : Nat) + 1) :=
    fun _ => ⟨rfl, rfl⟩
  rw [Nat.zero_add, ginPutLatencyPingPongLaunch, ginPutPingPongKernel, FlagRally.strip_append,
    strip_loop rank last iters.toNat 0 (by omega) signs, launchRounds, List.range_eq_range']
  exact List.append_nil _

/-- Every launch has elements to put, and a number of iterations that is an `int`. -/
def Fits (host : List HostOp) : Prop :=
  ∀ numElems iters, .launch numElems iters ∈ host → 0 < numElems ∧ iters < 2 ^ 31

theorem strip_ahead (args : Args) (rank : Rank) (launches : Nat) {host : List HostOp}
    (fits : Fits host) :
    strip (ahead args rank launches host) = (hostRounds launches host).flatMap (part rank) := by
  induction host generalizing launches with
  | nil => rfl
  | cons op host ih =>
    have rest : Fits host := fun numElems iters mem =>
      fits numElems iters (List.mem_cons_of_mem _ mem)
    cases op with
    | launch numElems iters =>
      obtain ⟨pos, most⟩ := fits numElems iters List.mem_cons_self
      rw [ahead, FlagRally.strip_append, strip_launch args rank _ pos most, ih _ rest, hostRounds,
        List.flatMap_append]
    | streamSynchronize => exact ih _ rest
    | barrier => exact ih _ rest

end Discipline

/-! ## The sweep -/

/-- The elements of a launch. -/
def elems : HostOp → Option Nat
  | .launch numElems _ => some numElems
  | .streamSynchronize => none
  | .barrier => none

theorem flag_of_mem_hostRounds {launches : Nat} {host : List HostOp} {r : Round Turn}
    (mem : r ∈ hostRounds launches host) : ∃ n ∈ host.filterMap elems, r.flag = n - 1 := by
  induction host generalizing launches with
  | nil => cases mem
  | cons op host ih =>
    cases op with
    | launch numElems iters =>
      rcases List.mem_append.1 mem with now | later
      · obtain ⟨i, -, rfl⟩ := List.mem_map.1 now
        exact ⟨numElems, List.mem_cons_self, rfl⟩
      · obtain ⟨n, found, flag⟩ := ih later
        exact ⟨n, List.mem_cons_of_mem _ found, flag⟩
    | streamSynchronize => exact ih mem
    | barrier => exact ih mem

/-- Where no launch has fewer elements than an earlier one, the last element never moves back. -/
theorem hostRounds_sorted (launches : Nat) {host : List HostOp}
    (sorted : (host.filterMap elems).Pairwise (· ≤ ·)) :
    (hostRounds launches host).Pairwise fun r r' => r.size ≤ r'.size := by
  induction host generalizing launches with
  | nil => exact .nil
  | cons op host ih =>
    cases op with
    | launch numElems iters =>
      obtain ⟨first, rest⟩ := List.pairwise_cons.1 sorted
      refine List.pairwise_append.2 ⟨?_, ih _ rest, ?_⟩
      · exact List.pairwise_map.2 (List.pairwise_of_forall fun _ _ => le_rfl)
      · intro r now r' later
        obtain ⟨i, -, rfl⟩ := List.mem_map.1 now
        obtain ⟨n, found, flag⟩ := flag_of_mem_hostRounds later
        have := first n found
        simp only [Round.size]
        omega
    | streamSynchronize => exact ih _ sorted
    | barrier => exact ih _ sorted

theorem mem_sizeOps {args : Args} {size numElems : Nat} {iters : Int}
    (mem : .launch numElems iters ∈ sizeOps args size) :
    numElems = size / 4 ∧ (iters = args.warmupIters ∨ iters = args.iters) := by
  rw [sizeOps] at mem
  split at mem
  · simp only [List.cons_append, List.nil_append, List.mem_cons, HostOp.launch.injEq, reduceCtorEq,
      List.not_mem_nil, false_or, or_false] at mem
    omega
  · simp only [List.nil_append, List.mem_cons, HostOp.launch.injEq, reduceCtorEq,
      List.not_mem_nil, false_or, or_false] at mem
    exact ⟨mem.1, .inr mem.2⟩

theorem mem_elems_sizeOps {args : Args} {size n : Nat}
    (mem : n ∈ (sizeOps args size).filterMap elems) : n = size / 4 := by
  obtain ⟨op, op_mem, found⟩ := List.mem_filterMap.1 mem
  cases op with
  | launch numElems iters =>
    cases found
    exact (mem_sizeOps op_mem).1
  | streamSynchronize => cases found
  | barrier => cases found

theorem perfRun_sorted (args : Args) {sizes : List Nat} (increasing : sizes.Pairwise (· < ·)) :
    ((perfRun args sizes).filterMap elems).Pairwise (· ≤ ·) := by
  have swept : (perfRun args sizes).filterMap elems =
      sizes.flatMap fun size => (sizeOps args size).filterMap elems := by
    rw [perfRun, List.filterMap_append, List.filterMap_flatMap]
    exact List.append_nil _
  rw [swept, List.pairwise_flatMap]
  refine ⟨?_, ?_⟩
  · intro size _
    refine List.Pairwise.imp_of_mem ?_ (List.pairwise_of_forall fun _ _ => trivial)
    intro n m n_mem m_mem _
    rw [mem_elems_sizeOps n_mem, mem_elems_sizeOps m_mem]
  · refine increasing.imp ?_
    intro size larger less n n_mem m m_mem
    rw [mem_elems_sizeOps n_mem, mem_elems_sizeOps m_mem]
    exact Nat.div_le_div_right less.le

theorem perfRun_fits {args : Args} {sizes : List Nat} (whole : ∀ size ∈ sizes, 4 ≤ size)
    (warmupIters : args.warmupIters < 2 ^ 31) (iters : args.iters < 2 ^ 31) :
    Fits (perfRun args sizes) := by
  intro numElems its mem
  rw [perfRun, List.mem_append, List.mem_flatMap] at mem
  rcases mem with ⟨size, size_mem, mem⟩ | last
  · obtain ⟨rfl, rfl | rfl⟩ := mem_sizeOps mem
    · exact ⟨Nat.div_pos (whole size size_mem) (by norm_num), warmupIters⟩
    · exact ⟨Nat.div_pos (whole size size_mem) (by norm_num), iters⟩
  · cases List.mem_singleton.1 last

/-! ## Freshness -/

/-- The iterations of a host program after so many launches, in their order. -/
def turns : Nat → List HostOp → List Turn
  | _, [] => []
  | launches, .launch _ iters :: host =>
    (List.range iters.toNat).map (Turn.mk (launches + 1)) ++ turns (launches + 1) host
  | launches, .streamSynchronize :: host => turns launches host
  | launches, .barrier :: host => turns launches host

/-- The puts and spins of an iteration: rank 1 puts and rank 0 sees it, rank 0 puts and rank 1
sees it. -/
def alternation (turn : Turn) : List Event :=
  [.put ⟨rank1, turn⟩, .spun rank0 turn (some ⟨rank1, turn⟩), .put ⟨rank0, turn⟩,
    .spun rank1 turn (some ⟨rank0, turn⟩)]

theorem history_hostRounds (launches : Nat) (host : List HostOp) :
    (hostRounds launches host).flatMap sides.history =
      (turns launches host).flatMap alternation := by
  induction host generalizing launches with
  | nil => rfl
  | cons op host ih =>
    cases op with
    | launch numElems iters =>
      rw [hostRounds, turns, List.flatMap_append, List.flatMap_append, ih, launchRounds,
        List.flatMap_map, List.flatMap_map]
      rfl
    | streamSynchronize => exact ih _
    | barrier => exact ih _

theorem plays_initial {args : Args} {sizes : List Nat} (increasing : sizes.Pairwise (· < ·))
    (whole : ∀ size ∈ sizes, 4 ≤ size) (warmupIters : args.warmupIters < 2 ^ 31)
    (iters : args.iters < 2 ^ 31) :
    FlagRally.Plays sides (hostRounds 0 (perfRun args sizes)) ((initial args sizes).rally args) :=
  have fits := perfRun_fits whole warmupIters iters
  { server := strip_ahead args rank1 0 fits
    client := strip_ahead args rank0 0 fits
    inFlight := rfl
    zero := fun _ => le_rfl
    sorted := hostRounds_sorted 0 (perfRun_sorted args increasing) }

/-- **A spin ends on the put of its own iteration.** In every run over increasing sizes of whole
elements, whatever the warm-up and iteration counts, the flags and the delays: a spin of a rank in
an iteration of a launch ends on what the peer's put of the same iteration of the same launch has
written; the puts and spins alternate, in the order of launches and iterations with none left out;
and when both ranks are done, all have happened.

The positive values are rank 1's and the negative ones rank 0's. As the last element never moves
back, no positive value is left at or behind it in the buffer of rank 0 when a round begins, and
rank 1 has a positive value of its own there until the answer comes (`FlagRally.Midway`). -/
theorem spun_by_peer {args : Args} {sizes : List Nat} (increasing : sizes.Pairwise (· < ·))
    (whole : ∀ size ∈ sizes, 4 ≤ size) (warmupIters : args.warmupIters < 2 ^ 31)
    (iters : args.iters < 2 ^ 31) {trace : List Event} {s : State}
    (run : Run args sizes trace s) :
    (∀ rank turn writer, .spun rank turn writer ∈ trace → writer = some ⟨peer rank, turn⟩) ∧
    trace <+: (turns 0 (perfRun args sizes)).flatMap alternation ∧
    (s.Finished → trace = (turns 0 (perfRun args sizes)).flatMap alternation) := by
  have plays := plays_initial increasing whole warmupIters iters
  have begins := run.rally.begins plays
  rw [history_hostRounds] at begins
  refine ⟨?_, begins, ?_⟩
  · intro rank turn writer mem
    obtain ⟨turn', -, happened⟩ := List.mem_flatMap.1 (begins.subset mem)
    simp only [alternation, List.mem_cons, FlagRally.Event.spun.injEq, reduceCtorEq,
      List.not_mem_nil, false_or, or_false] at happened
    rcases happened with ⟨rfl, rfl, rfl⟩ | ⟨rfl, rfl, rfl⟩
    · rfl
    · rfl
  · intro finished
    rw [← history_hostRounds]
    apply run.rally.complete plays
    obtain ⟨host, stream⟩ := finished rank1
    show s.memory.rest rank1 ++ ahead args rank1 (s.launches rank1) (s.host rank1) = []
    rw [host, stream]
    rfl

/-! ## A run to the end -/

/-- Between two launches, after so many, both ranks have the same to do. -/
structure Settled (launches : Nat) (host : List HostOp) (s : State) : Prop where
  host : ∀ rank, s.host rank = host
  launches : ∀ rank, s.launches rank = launches
  rest : ∀ rank, s.memory.rest rank = []
  inFlight : s.memory.inFlight = 0

section Play

variable {args : Args} {sizes : List Nat} {trace events : List Event} {s : State}
  {launches numElems : Nat} {iters : Int} {host : List HostOp}

theorem Run.device (run : Run args sizes trace s) {memory : FlagRally.State Rank Turn}
    (path : FlagRally.Run s.memory events memory) :
    Run args sizes (trace ++ events) { s with memory := memory } := by
  induction path with
  | init => simpa using run
  | step _ step ih => simpa only [List.append_assoc] using ih.step (.device step)

theorem Settled.barrier (run : Run args sizes trace s)
    (settled : Settled launches (.barrier :: host) s) :
    Run args sizes trace { s with host := fun _ => host } := by
  simpa using run.step (.barrier settled.host)

/-- Both ranks launch. -/
theorem Settled.launched (run : Run args sizes trace s)
    (settled : Settled launches (.launch numElems iters :: host) s) :
    Run args sizes trace ⟨fun _ => host, fun _ => launches + 1,
      ⟨fun rank => ginPutLatencyPingPongLaunch args rank (launches + 1) numElems iters,
        s.memory.buffer, 0⟩⟩ := by
  have other : rank0 ≠ rank1 := by decide
  have served := run.step (.launch (settled.host rank1))
  have head : (s.launch rank1 (ginPutLatencyPingPongLaunch args rank1 (s.launches rank1 + 1)
      numElems iters) host).host rank0 = .launch numElems iters :: host := by
    rw [State.launch]
    exact (Function.update_of_ne other host s.host).trans (settled.host rank0)
  have answered := served.step (.launch head)
  rw [List.append_nil, List.append_nil] at answered
  convert answered using 1
  rw [State.launch, State.launch, State.mk.injEq, FlagRally.State.mk.injEq]
  refine ⟨?_, ?_, ?_, rfl, settled.inFlight.symm⟩
  all_goals
    funext rank
    rcases sides.total rank with rfl | rfl
    · simp [sides, other.symm, settled.launches, settled.rest]
    · simp [sides, other, settled.launches, settled.rest]

/-- Both ranks launch, play the rounds of the launch and meet behind it. -/
theorem Settled.launch (run : Run args sizes trace s)
    (settled : Settled launches
      (.launch numElems iters :: .streamSynchronize :: .barrier :: host) s)
    (pos : 0 < numElems) (fits : iters < 2 ^ 31) :
    ∃ t, Run args sizes
        (trace ++ (launchRounds (launches + 1) numElems iters).flatMap sides.history) t ∧
      Settled (launches + 1) host t := by
  have launched := settled.launched run
  have server := strip_launch args rank1 (launches + 1) pos fits
  have client := strip_launch args rank0 (launches + 1) pos fits
  obtain ⟨memory, path, rest, idle⟩ := @FlagRally.exists_finished _ _ _ sides
    ⟨fun rank => ginPutLatencyPingPongLaunch args rank (launches + 1) numElems iters,
      s.memory.buffer, 0⟩ _ server client rfl
  have played := launched.device path
  have served := played.step (@Step.streamSynchronize _ _ rank1 _ rfl (rest rank1))
  have answered := served.step (@Step.streamSynchronize _ _ rank0 _ rfl (rest rank0))
  have met := answered.step (@Step.barrier _ _ (fun _ => host) (Fin.forall_fin_two.2 ⟨rfl, rfl⟩))
  simp only [List.append_nil] at met
  exact ⟨_, met, fun _ => rfl, fun _ => rfl, rest, idle⟩

/-- Some run goes to the end of a host program whose launches are separated. -/
theorem Settled.exists_finished (separated : Separated host) (fits : Fits host)
    (run : Run args sizes trace s) (settled : Settled launches host s) :
    ∃ trace t, Run args sizes trace t ∧ t.Finished := by
  induction separated generalizing trace s launches with
  | nil => exact ⟨trace, s, run, fun rank => ⟨settled.host rank, settled.rest rank⟩⟩
  | @barrier ops _ ih =>
    refine ih (fun numElems iters mem => fits numElems iters (List.mem_cons_of_mem _ mem))
      (settled.barrier run) ⟨fun _ => rfl, settled.launches, settled.rest, settled.inFlight⟩
  | @launch numElems iters ops _ ih =>
    obtain ⟨pos, most⟩ := fits numElems iters List.mem_cons_self
    obtain ⟨t, run', settled'⟩ := settled.launch run pos most
    exact ih (fun numElems iters mem => fits numElems iters (by simp [mem])) run' settled'

end Play

/-- Every host program of `gin_perf_run` has a run to its end. -/
theorem exists_finished {args : Args} {sizes : List Nat} (whole : ∀ size ∈ sizes, 4 ≤ size)
    (warmupIters : args.warmupIters < 2 ^ 31) (iters : args.iters < 2 ^ 31) :
    ∃ trace s, Run args sizes trace s ∧ s.Finished := by
  have settled : Settled 0 (perfRun args sizes) (initial args sizes) :=
    ⟨fun _ => rfl, fun _ => rfl, fun _ => rfl, rfl⟩
  have separated : Separated (perfRun args sizes) :=
    .flatMap_sizeOps_append args sizes (.barrier .nil)
  exact settled.exists_finished separated (perfRun_fits whole warmupIters iters) .init

/-- Two sizes, each with a warm-up of two iterations and a measured launch of three: some run ends,
with the last spin of rank 0 on the third put of rank 1 in the fourth launch. -/
theorem spun_by_peer_two : ∃ trace s, Run ⟨4, 8, 2, 0, 2, 3, false, false, 128⟩ [4, 8] trace s ∧
    s.Finished ∧ trace.length = 40 ∧ .spun rank0 ⟨4, 2⟩ (some ⟨rank1, ⟨4, 2⟩⟩) ∈ trace := by
  have whole : ∀ size ∈ [4, 8], 4 ≤ size := by decide
  obtain ⟨trace, s, run, finished⟩ := @exists_finished ⟨4, 8, 2, 0, 2, 3, false, false, 128⟩ [4, 8]
    whole (by decide) (by decide)
  have all := (spun_by_peer (by decide) whole (by decide) (by decide) run).2.2 finished
  refine ⟨trace, s, run, finished, ?_, ?_⟩
  · rw [all]
    rfl
  · rw [all]
    decide

end PutPingPong

end NcclTests.Gin
