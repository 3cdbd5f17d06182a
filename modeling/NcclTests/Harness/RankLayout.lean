import Mathlib
import NcclTests.Lib.Blocks

/-!
# Ranks and devices

How `run` numbers the ranks and picks the GPUs of a process. Processes of one colour form a
communicator in the order of `MPI_COMM_WORLD`, and processes of one host share its GPUs.
Communicators are initialised by the main thread or, with `parallel_init`, by each thread for
its own GPUs.

Counts and ranks are natural numbers: they stay below the number of GPUs.
-/

namespace NcclTests.Harness

/-! ## Places in an enumeration -/

section Places

variable {P : Nat → Prop} [DecidablePred P] {n p : Nat}

theorem exists_range_split (less : p < n) :
    ∃ rest, List.range n = List.range p ++ p :: rest := by
  obtain ⟨k, rfl⟩ := Nat.exists_eq_add_of_lt less
  have shape : p + k + 1 = p + (1 + k) := by omega
  refine ⟨(List.range k).map fun i => p + (1 + i), ?_⟩
  rw [shape, List.range_add, List.range_add, List.range_one, List.map_append, List.map_map]
  rfl

/-- Counting from 0 numbers the members without gaps. -/
theorem count_bijOn (P : Nat → Prop) [DecidablePred P] (n : Nat) :
    Set.BijOn (fun p => Nat.count P p) {p | p < n ∧ P p} (Set.Iio (Nat.count P n)) := by
  refine ⟨?_, ?_, ?_⟩
  · intro p member
    exact Nat.count_strict_mono member.2 member.1
  · intro p member q member' same
    exact Nat.count_injective member.2 member'.2 same
  · intro k below
    induction n with
    | zero => exact absurd below (by simp)
    | succ n ih =>
      rw [Set.mem_Iio, Nat.count_succ] at below
      rcases Nat.lt_or_ge k (Nat.count P n) with earlier | last
      · obtain ⟨p, ⟨less, member⟩, place⟩ := ih earlier
        exact ⟨p, ⟨Nat.lt_succ_of_lt less, member⟩, place⟩
      · have member : P n := by
          by_contra other
          rw [if_neg other] at below
          omega
        rw [if_pos member] at below
        refine ⟨n, ⟨Nat.lt_succ_self n, member⟩, ?_⟩
        dsimp only
        omega

/-- The place of a member among all members. -/
theorem idxOf_filter_range (less : p < n) (member : P p) :
    ((List.range n).filter (P ·)).idxOf p = Nat.count P p := by
  obtain ⟨rest, split⟩ := exists_range_split less
  have new : p ∉ (List.range p).filter (P ·) := by
    intro inside
    exact Nat.lt_irrefl p (List.mem_range.1 (List.mem_filter.1 inside).1)
  rw [split, List.filter_append, List.filter_cons_of_pos (by simpa using member),
    List.idxOf_append_of_notMem new, List.idxOf_cons_self, Nat.add_zero, Nat.count,
    List.countP_eq_length_filter]

end Places

/-! ## The processes -/

/-- What the processes have in common, and what each finds in its environment: the hash of
its host, its colour, and `gpu0`, which is -1 where `NCCL_TESTS_DEVICE` is not set. -/
structure Layout where
  nThreads : Nat
  nGpus : Nat
  totalProcs : Nat
  hostHashs : Nat → BitVec 64
  color : Nat → Int
  gpu0 : Nat → Int

/-- A communicator of NCCL as it is initialised. -/
structure CommInit where
  rank : Nat
  nRanks : Nat
  cudaDev : Int
  deriving DecidableEq, Repr

/-- `initComms`. -/
def initComms (nComms firstRank nRanks : Nat) (cudaDevs : Nat → Int) : List CommInit :=
  (List.range nComms).map fun i => ⟨firstRank + i, nRanks, cudaDevs i⟩

namespace Layout

/-- The loop over `hostHashs`. -/
def localRankLoop (hostHashs : Nat → BitVec 64) (proc : Nat) : List Nat → Nat → Nat
  | [], localRank => localRank
  | p :: rest, localRank =>
    if p = proc then localRank
    else localRankLoop hostHashs proc rest
      (if hostHashs p = hostHashs proc then localRank + 1 else localRank)

variable (l : Layout) (proc : Nat)

def localRank : Nat := localRankLoop l.hostHashs proc (List.range l.totalProcs) 0

/-- `MPI_Comm_split(MPI_COMM_WORLD, color, proc, &mpi_comm)`: the processes of one colour,
in the order of their keys. -/
def mpiComm : List Nat := (List.range l.totalProcs).filter (l.color · = l.color proc)

/-- `MPI_Comm_size`. -/
def ncclProcs : Nat := (l.mpiComm proc).length

/-- `MPI_Comm_rank`. -/
def ncclProc : Nat := (l.mpiComm proc).idxOf proc

/-- Element `i` of `gpus`. -/
def gpus (i : Nat) : Int :=
  (if l.gpu0 proc ≠ -1 then l.gpu0 proc else l.localRank proc * l.nThreads * l.nGpus) + i

/-- The communicators, where the main thread initialises them. -/
def mainInit : List CommInit :=
  initComms (l.nGpus * l.nThreads) (l.ncclProc proc * l.nThreads * l.nGpus)
    (l.ncclProcs proc * l.nThreads * l.nGpus) (l.gpus proc)

/-- `nranks` of a thread. -/
def nranks : Nat := l.ncclProcs proc * l.nThreads * l.nGpus

/-- The communicators of one thread, where it initialises them in `threadInit`: `args->gpus`
is `gpus.data() + t * nGpus`. -/
def threadInit (thread : Nat) : List CommInit :=
  let firstRank := l.ncclProc proc * l.nThreads * l.nGpus + thread * l.nGpus
  initComms l.nGpus firstRank (l.nranks proc) fun i => l.gpus proc (thread * l.nGpus + i)

/-- The rank that `startColl`, `InitData` and `CheckData` take a GPU of a thread for. -/
def rank (thread i : Nat) : Nat := (l.ncclProc proc * l.nThreads + thread) * l.nGpus + i

/-- `writeDeviceReport` finds all GPUs of the process among those of its host. -/
def Accepted (available_devices : Int) : Prop :=
  ∀ i < l.nThreads * l.nGpus, ¬l.gpus proc i ≥ available_devices

/-- The processes of a host. -/
def hostProcs (host : BitVec 64) : Nat := Nat.count (l.hostHashs · = host) l.totalProcs

/-! ## The numbers are places -/

section Numbers

variable {l proc}

/-- The loop counts the processes of the same host before `proc`. -/
theorem localRankLoop_append {hostHashs : Nat → BitVec 64} {before rest : List Nat}
    (earlier : proc ∉ before) (localRank : Nat) :
    localRankLoop hostHashs proc (before ++ proc :: rest) localRank =
      localRank + before.countP (hostHashs · = hostHashs proc) := by
  induction before generalizing localRank with
  | nil => exact if_pos rfl
  | cons p before ih =>
    rw [List.mem_cons, not_or] at earlier
    obtain ⟨other, earlier⟩ := earlier
    rw [List.cons_append, localRankLoop, if_neg (Ne.symm other), ih earlier, List.countP_cons]
    simp only [decide_eq_true_eq]
    split <;> omega

theorem localRank_eq (inside : proc < l.totalProcs) :
    l.localRank proc = Nat.count (l.hostHashs · = l.hostHashs proc) proc := by
  obtain ⟨rest, split⟩ := exists_range_split inside
  rw [localRank, split, localRankLoop_append (by simp), Nat.zero_add, Nat.count]

theorem ncclProc_eq (inside : proc < l.totalProcs) :
    l.ncclProc proc = Nat.count (l.color · = l.color proc) proc :=
  idxOf_filter_range inside rfl

theorem ncclProcs_eq : l.ncclProcs proc = Nat.count (l.color · = l.color proc) l.totalProcs := by
  rw [ncclProcs, mpiComm, Nat.count, List.countP_eq_length_filter]

/-- Processes of one colour agree on the size of their communicator. -/
theorem nranks_congr {q : Nat} (same : l.color q = l.color proc) : l.nranks q = l.nranks proc := by
  rw [nranks, nranks, ncclProcs_eq, ncclProcs_eq, same]

end Numbers

/-! ## One rank for each GPU -/

section Results

variable {l proc}

/-- The processes of a colour. -/
def group (l : Layout) (color : Int) : Set Nat := {p | p < l.totalProcs ∧ l.color p = color}

/-- The processes of a host. -/
def host (l : Layout) (hash : BitVec 64) : Set Nat := {p | p < l.totalProcs ∧ l.hostHashs p = hash}

theorem ncclProc_bijOn (color : Int) :
    Set.BijOn l.ncclProc (l.group color)
      (Set.Iio (Nat.count (l.color · = color) l.totalProcs)) := by
  refine (count_bijOn (l.color · = color) l.totalProcs).congr ?_
  intro p member
  rw [l.ncclProc_eq member.1, member.2]

theorem localRank_bijOn (hash : BitVec 64) :
    Set.BijOn l.localRank (l.host hash) (Set.Iio (l.hostProcs hash)) := by
  refine (count_bijOn (l.hostHashs · = hash) l.totalProcs).congr ?_
  intro p member
  rw [l.localRank_eq member.1, member.2]

/-- **Each rank of a communicator belongs to one GPU of one thread of one process.** -/
theorem rank_bijOn :
    Set.BijOn (fun x : (Nat × Nat) × Nat => l.rank x.1.1 x.1.2 x.2)
      ((l.group (l.color proc) ×ˢ Set.Iio l.nThreads) ×ˢ Set.Iio l.nGpus)
      (Set.Iio (l.nranks proc)) := by
  rw [nranks, ncclProcs_eq]
  exact bijOn_block (bijOn_block (ncclProc_bijOn _) _) _

theorem gpus_eq (unset : l.gpu0 proc = -1) (i : Nat) :
    l.gpus proc i = (l.localRank proc * (l.nThreads * l.nGpus) + i : Nat) := by
  rw [gpus, if_neg (by simpa using unset)]
  push_cast
  ring

/-- **The processes of a host share out its first GPUs.** -/
theorem gpus_bijOn (hash : BitVec 64) (unset : ∀ p ∈ l.host hash, l.gpu0 p = -1) :
    Set.BijOn (fun x : Nat × Nat => l.gpus x.1 x.2)
      (l.host hash ×ˢ Set.Iio (l.nThreads * l.nGpus))
      (Nat.cast '' Set.Iio (l.hostProcs hash * (l.nThreads * l.nGpus))) := by
  have numbered := bijOn_block (@localRank_bijOn l hash) (l.nThreads * l.nGpus)
  have casts : Set.InjOn (Nat.cast : Nat → Int)
      (Set.Iio (l.hostProcs hash * (l.nThreads * l.nGpus))) := Nat.cast_injective.injOn
  refine (casts.bijOn_image.comp numbered).congr ?_
  intro x member
  exact (gpus_eq (unset x.1 member.1) x.2).symm

/-- All processes of a host are accepted if its GPUs are enough for them together. -/
theorem accepted_iff (hash : BitVec 64) (unset : ∀ p ∈ l.host hash, l.gpu0 p = -1)
    (available_devices : Nat) :
    (∀ p ∈ l.host hash, l.Accepted p available_devices) ↔
      l.hostProcs hash * (l.nThreads * l.nGpus) ≤ available_devices := by
  have devices := gpus_bijOn hash unset
  constructor
  · intro accepted
    by_contra few
    -- the last GPU that is asked for
    have last : ((l.hostProcs hash * (l.nThreads * l.nGpus) - 1 : Nat) : Int) ∈
        Nat.cast '' Set.Iio (l.hostProcs hash * (l.nThreads * l.nGpus)) := by
      refine Set.mem_image_of_mem _ ?_
      rw [Set.mem_Iio]
      omega
    obtain ⟨⟨p, i⟩, ⟨member, inside⟩, last_⟩ := devices.surjOn last
    have below := accepted p member i inside
    dsimp only at last_
    omega
  · intro enough p member i inside
    obtain ⟨k, below, device⟩ := devices.mapsTo (show (p, i) ∈ _ from ⟨member, inside⟩)
    rw [Set.mem_Iio] at below
    dsimp only at device
    omega

theorem mainInit_eq : l.mainInit proc = (List.range l.nThreads).flatMap (l.threadInit proc) := by
  rw [mainInit, initComms, Nat.mul_comm l.nGpus, map_range_block]
  congr 1
  funext thread
  rw [threadInit, initComms]
  simp only [nranks, Nat.add_assoc]

theorem threadInit_getElem? (thread : Nat) {i : Nat} (inside : i < l.nGpus) :
    (l.threadInit proc thread)[i]? =
      some ⟨l.rank proc thread i, l.nranks proc, l.gpus proc (thread * l.nGpus + i)⟩ := by
  rw [threadInit, initComms, List.getElem?_map, List.getElem?_range inside, Option.map_some,
    rank, Nat.add_mul]

end Results

end Layout

end NcclTests.Harness
