import Mathlib

/-!
# The harness of the network benchmarks

`gin_perf_run` sweeps message sizes on two ranks. A rank launches a kernel, waits for
its stream and meets the other rank at a barrier, so that launches never overlap.

A kernel is the list of its operations on the network. The one signal of a rank,
number 0, counts what arrives, any time after it is sent and in any order. The
steps of hosts, streams and network interleave freely; a run keeps the events so far,
the newest first. Of the memory only the signals are modelled.
-/

namespace NcclTests.Gin

/-- `gin_perf_run` aborts unless there are two. -/
abbrev Rank := Fin 2

/-- `ncclGin_StrongSignalInc`, `ncclGin_WeakSignalInc`. -/
inductive SignalInc
  | strong | weak
  deriving DecidableEq, Repr

/-- What a kernel does on the network. -/
inductive GinOp
  | waitSignal (least : Nat)
  | signal (peer : Rank) (inc : SignalInc)
  | put (peer : Rank) (numElems : Nat) (inc : SignalInc)
  | resetSignal
  | flush
  deriving DecidableEq, Repr

/-- `bench->run`: the operations of a rank for a size and a number of iterations. -/
abbrev Kernel := Rank → Nat → Int → List GinOp

/-- What a rank does on the host. -/
inductive HostOp
  | launch (numElems : Nat) (iters : Int)
  | streamSynchronize
  | barrier
  deriving DecidableEq, Repr

/-! ## The sweep -/

/-- `args_t`, as far as ping-pong benchmarks use it. -/
structure Args where
  minbytes : Nat
  maxbytes : Nat
  stepfactor : Int
  stepbytes : Nat
  warmupIters : Int
  iters : Int
  ginSkipCreditCheck : Bool
  ginStrongSignal : Bool
  queueDepth : Int

/-- `next_size`, in `size_t`. -/
def nextSize (args : Args) (size : Nat) : Nat :=
  if args.stepbytes ≠ 0 then (size + args.stepbytes) % 2 ^ 64
  else
    let factor := (args.stepfactor % 2 ^ 64).toNat
    let factor := if factor ≤ 1 then 2 else factor
    size * factor % 2 ^ 64

/-- The sizes of the sweep from one on. -/
def sweep (args : Args) (size : Nat) : List Nat :=
  if size ≤ args.maxbytes then
    let next := nextSize args size
    size :: if next ≤ size then [] else sweep args next
  else []
termination_by args.maxbytes + 1 - size

/-- One size: the warm-up, the barrier, the benchmark and the barrier. -/
def sizeOps (args : Args) (size : Nat) : List HostOp :=
  let numElems := size / 4
  (if 0 < args.warmupIters then [.launch numElems args.warmupIters, .streamSynchronize]
    else []) ++
  [.barrier, .launch numElems args.iters, .streamSynchronize, .barrier]

/-- Launches are separated: after each the host waits for the stream and for the other
rank. -/
inductive Separated : List HostOp → Prop
  | nil : Separated []
  | barrier {ops : List HostOp} : Separated ops → Separated (.barrier :: ops)
  | launch {numElems : Nat} {iters : Int} {ops : List HostOp} : Separated ops →
      Separated (.launch numElems iters :: .streamSynchronize :: .barrier :: ops)

/-- A host program whose launches are separated; both ranks run it. -/
structure HostProgram where
  ops : List HostOp
  separated : Separated ops

theorem Separated.sizeOps_append (args : Args) (size : Nat) {ops : List HostOp}
    (separated : Separated ops) : Separated (sizeOps args size ++ ops) := by
  have measured : Separated (.launch (size / 4) args.iters :: .streamSynchronize ::
      .barrier :: ops) := .launch separated
  rw [sizeOps]
  split
  · exact .launch measured
  · exact .barrier measured

theorem Separated.flatMap_sizeOps_append (args : Args) (sizes : List Nat) {ops : List HostOp}
    (separated : Separated ops) : Separated (sizes.flatMap (sizeOps args) ++ ops) := by
  induction sizes with
  | nil => exact separated
  | cons size sizes ih =>
    rw [List.flatMap_cons, List.append_assoc]
    exact ih.sizeOps_append args size

/-- `gin_perf_run` of a ping-pong benchmark, in which both ranks participate. -/
def ginPerfRun (args : Args) : HostProgram where
  ops := (sweep args args.minbytes).flatMap (sizeOps args) ++ [.barrier]
  separated := .flatMap_sizeOps_append args _ (.barrier .nil)

/-! ## Two ranks -/

/-- A signal under way, with the launch that sent it. -/
structure Message where
  dst : Rank
  launch : Nat
  deriving DecidableEq

/-- What `gin.flush` waits for, which is at most what its rank has sent. -/
structure Network where
  flushed : Multiset Message → Rank → Prop
  flush : ∀ inFlight rank, (∀ message ∈ inFlight, message.dst = rank) → flushed inFlight rank

/-- What a rank has left to do, with the launch of each operation on the stream, the
launches so far and the signal. -/
structure Local where
  host : List HostOp
  stream : List (Nat × GinOp)
  launches : Nat
  signal : Nat

structure State where
  rank : Rank → Local
  inFlight : Multiset Message

inductive Event
  | launched (rank : Rank) (launch : Nat)
  | synchronized (rank : Rank)
  | barrier
  | waited (rank : Rank) (launch least : Nat)
  | sent (rank : Rank) (launch : Nat)
  | reset (rank : Rank) (launch : Nat)
  | flushed (rank : Rank) (launch : Nat)
  | arrived (rank : Rank) (launch : Nat)
  deriving DecidableEq

namespace GinOp

def event (rank : Rank) (launch : Nat) : GinOp → Event
  | waitSignal least => .waited rank launch least
  | signal _ _ | put _ _ _ => .sent rank launch
  | resetSignal => .reset rank launch
  | flush => .flushed rank launch

/-- Whether an operation can complete. -/
def Ready (network : Network) (s : State) (rank : Rank) : GinOp → Prop
  | waitSignal least => least ≤ (s.rank rank).signal
  | flush => network.flushed s.inFlight rank
  | _ => True

/-- The signals that an operation sends. -/
def messages (launch : Nat) : GinOp → Multiset Message
  | signal peer _ | put peer _ _ => {⟨peer, launch⟩}
  | _ => 0

/-- The own signal after an operation. -/
def leaves (signal : Nat) : GinOp → Nat
  | resetSignal => 0
  | _ => signal

end GinOp

namespace Local

variable (l : Local)

def atHost (host : List HostOp) : Local := { l with host := host }

/-- A kernel goes to the end of the stream. -/
def launch (ops : List GinOp) (host : List HostOp) : Local where
  host := host
  stream := l.stream ++ ops.map (l.launches + 1, ·)
  launches := l.launches + 1
  signal := l.signal

def perform (op : GinOp) (stream : List (Nat × GinOp)) : Local :=
  { l with stream := stream, signal := op.leaves l.signal }

def receive : Local := { l with signal := l.signal + 1 }

end Local

def State.set (s : State) (rank : Rank) (now : Local) : State :=
  { s with rank := Function.update s.rank rank now }

section Semantics

variable (network : Network) (kernel : Kernel)

inductive Step : State → Event → State → Prop
  | launch {s : State} {rank : Rank} {numElems : Nat} {iters : Int} {host : List HostOp}
      (head : (s.rank rank).host = .launch numElems iters :: host) :
      Step s (.launched rank ((s.rank rank).launches + 1))
        (s.set rank ((s.rank rank).launch (kernel rank numElems iters) host))
  | streamSynchronize {s : State} {rank : Rank} {host : List HostOp}
      (head : (s.rank rank).host = .streamSynchronize :: host)
      (idle : (s.rank rank).stream = []) :
      Step s (.synchronized rank) (s.set rank ((s.rank rank).atHost host))
  | barrier {s : State} {host : Rank → List HostOp}
      (heads : ∀ rank, (s.rank rank).host = .barrier :: host rank) :
      Step s .barrier { s with rank := fun rank => (s.rank rank).atHost (host rank) }
  | device {s : State} {rank : Rank} {launch : Nat} {op : GinOp} {stream : List (Nat × GinOp)}
      (head : (s.rank rank).stream = (launch, op) :: stream) (ready : op.Ready network s rank) :
      Step s (op.event rank launch)
        { s.set rank ((s.rank rank).perform op stream) with
          inFlight := op.messages launch + s.inFlight }
  | deliver {s : State} {message : Message} (sent : message ∈ s.inFlight) :
      Step s (.arrived message.dst message.launch)
        { s.set message.dst (s.rank message.dst).receive with
          inFlight := s.inFlight.erase message }

/-- Both ranks at the start of a host program, with clear signals. -/
def initial (program : HostProgram) : State := ⟨fun _ => ⟨program.ops, [], 0, 0⟩, 0⟩

/-- A run with its events so far, the newest first. -/
inductive Run (program : HostProgram) : List Event → State → Prop
  | init : Run program [] (initial program)
  | step {trace : List Event} {s t : State} {event : Event} (run : Run program trace s)
      (step : Step network kernel s event t) : Run program (event :: trace) t

/-- Both ranks are done and nothing is under way. -/
def Finished (s : State) : Prop :=
  (∀ rank, (s.rank rank).host = [] ∧ (s.rank rank).stream = []) ∧ s.inFlight = 0

/-- Both signals are zero and nothing is under way. -/
def State.Clear (s : State) : Prop := (∀ rank, (s.rank rank).signal = 0) ∧ s.inFlight = 0

end Semantics

/-! ## What a step can be -/

section Inversion

variable {network : Network} {kernel : Kernel} {s t : State} {rank : Rank} {launch : Nat}

theorem Step.of_launched (step : Step network kernel s (.launched rank launch) t) :
    launch = (s.rank rank).launches + 1 ∧ ∃ numElems iters host,
      (s.rank rank).host = .launch numElems iters :: host := by
  generalize named : Event.launched rank launch = event at step
  cases step with
  | launch head =>
    cases named
    exact ⟨rfl, _, _, _, head⟩
  | @device _ _ op => cases op <;> cases named
  | _ => cases named

theorem Step.of_barrier (step : Step network kernel s .barrier t) :
    ∃ hosts : Rank → List HostOp, ∀ rank, (s.rank rank).host = .barrier :: hosts rank := by
  generalize named : Event.barrier = event at step
  cases step with
  | barrier heads => exact ⟨_, heads⟩
  | @device _ _ op => cases op <;> cases named
  | _ => cases named

theorem Step.of_waited {least : Nat} (step : Step network kernel s (.waited rank launch least) t) :
    (∃ stream, (s.rank rank).stream = (launch, .waitSignal least) :: stream) ∧
      least ≤ (s.rank rank).signal := by
  generalize named : Event.waited rank launch least = event at step
  cases step with
  | @device _ _ op stream head ready =>
    cases op with
    | waitSignal least =>
      cases named
      exact ⟨⟨_, head⟩, ready⟩
    | _ => cases named
  | _ => cases named

theorem Step.of_arrived (step : Step network kernel s (.arrived rank launch) t) :
    ⟨rank, launch⟩ ∈ s.inFlight := by
  generalize named : Event.arrived rank launch = event at step
  cases step with
  | deliver sent =>
    cases named
    exact sent
  | @device _ _ op => cases op <;> cases named
  | _ => cases named

end Inversion

/-! ## Every run ends -/

/-- The steps that an operation causes, the arrival of its signal included. -/
def GinOp.work (op : GinOp) : Nat := 1 + (op.messages 0).card

def HostOp.work (kernel : Kernel) (rank : Rank) : HostOp → Nat
  | launch numElems iters => 1 + ((kernel rank numElems iters).map GinOp.work).sum
  | streamSynchronize | barrier => 1

def Local.work (kernel : Kernel) (rank : Rank) (l : Local) : Nat :=
  (l.host.map (HostOp.work kernel rank)).sum + (l.stream.map (GinOp.work ·.2)).sum

/-- No run makes more steps than this from a state. -/
def State.work (kernel : Kernel) (s : State) : Nat :=
  ∑ rank, (s.rank rank).work kernel rank + s.inFlight.card

theorem GinOp.card_messages (op : GinOp) (launch : Nat) :
    (op.messages launch).card = (op.messages 0).card := by
  cases op <;> rfl

section Work

variable {network : Network} {kernel : Kernel}

theorem State.work_set (s : State) (rank : Rank) (now : Local) :
    (s.set rank now).work kernel + (s.rank rank).work kernel rank =
      s.work kernel + now.work kernel rank := by
  rw [State.work, State.work, Fin.sum_univ_two, Fin.sum_univ_two]
  have same : (s.set rank now).rank rank = now := Function.update_self _ _ _
  have other : ∀ r ≠ rank, (s.set rank now).rank r = s.rank r := fun r apart =>
    Function.update_of_ne apart _ _
  have net : (s.set rank now).inFlight = s.inFlight := rfl
  rw [net]
  fin_cases rank
  · have := other 1 (by decide)
    simp only [Fin.zero_eta, Fin.isValue] at same this ⊢
    rw [same, this]
    omega
  · have := other 0 (by decide)
    simp only [Fin.mk_one, Fin.isValue] at same this ⊢
    rw [same, this]
    omega

theorem map_tagged_work (launch : Nat) (ops : List GinOp) :
    ((ops.map (launch, ·)).map (GinOp.work ·.2)).sum = (ops.map GinOp.work).sum := by
  rw [List.map_map]
  rfl

theorem Step.work_lt {s t : State} {event : Event} (step : Step network kernel s event t) :
    t.work kernel < s.work kernel := by
  cases step with
  | @launch rank numElems iters host head =>
    have moved : State.work kernel _ + _ = _ :=
      s.work_set rank ((s.rank rank).launch (kernel rank numElems iters) host)
    simp only [Local.work, Local.launch, head, List.map_cons, List.sum_cons, HostOp.work,
      List.map_append, List.sum_append, map_tagged_work] at moved ⊢
    omega
  | @streamSynchronize rank host head idle =>
    have moved : State.work kernel _ + _ = _ := s.work_set rank ((s.rank rank).atHost host)
    simp only [Local.work, Local.atHost, head, List.map_cons, List.sum_cons,
      HostOp.work] at moved ⊢
    omega
  | @barrier host heads =>
    simp only [State.work, Local.work, Local.atHost, heads, List.map_cons, List.sum_cons,
      HostOp.work, Fin.sum_univ_two]
    omega
  | @device rank launch op stream head ready =>
    have moved : State.work kernel _ + _ = _ := s.work_set rank ((s.rank rank).perform op stream)
    have sent := op.card_messages launch
    simp only [State.work, State.set, Local.work, Local.perform, head, List.map_cons,
      List.sum_cons, GinOp.work, Multiset.card_add] at moved ⊢
    omega
  | @deliver message sent =>
    have moved : State.work kernel _ + _ = _ := s.work_set message.dst (s.rank message.dst).receive
    have fewer := Multiset.card_erase_add_one sent
    simp only [State.work, State.set, Local.work, Local.receive] at moved ⊢
    omega

/-- The steps made and those left are no more than those of the host program. -/
theorem Run.length_add_work_le {program : HostProgram} {trace : List Event} {s : State}
    (run : Run network kernel program trace s) :
    trace.length + s.work kernel ≤ (initial program).work kernel := by
  induction run with
  | init => exact (Nat.zero_add _).le
  | step _ step ih =>
    have := step.work_lt
    rw [List.length_cons]
    omega

end Work

end NcclTests.Gin
