import Mathlib
import NcclTests.Lib.SignalData
import NcclTests.Device.SignalAlltoAll

/-!
# What the all-to-all kernels with signals move

`GinAlltoAllKernel` puts the block for a peer into the peer's receive buffer. In
`HybridAlltoAllKernel` the threads themselves copy the blocks for the ranks of their team,
one element at a time. Before NCCL 2.30 and in the hybrid kernel the blocks meet again at the
end; otherwise a rank that is through with a launch knows nothing of the others.

The launches follow each other, with a grid that stays and with offsets and a count of their
own. Both kernels implement all-to-all for each rank as soon as this rank is through with
a launch.
-/

namespace NcclTests.Device

open Collective StrideLoop SignalBarrier

section Kernels

variable (ty : ElemType) (launch : Launch) (call : RunCollArgs)

/-- `gin.put(world, r, recvwin, recvoffset + rank * size, sendwin, sendoffset + r * size, size)`,
byte by byte. -/
def putCopies (rank r : Nat) : List (Loc × Loc) :=
  let size := call.count * ty.size
  (List.range size).map fun b =>
    (call.sendPtr.loc rank (r * size + b), call.recvPtr.loc r (rank * size + b))

/-- `recvPtr[world.rank * count + offset] = sendLocal[wr * count + offset]`, byte by byte. -/
def lsaCopy (rank offset wr : Nat) : List (Loc × Loc) :=
  (List.range ty.size).map fun b =>
    (call.sendPtr.loc rank ((wr * call.count + offset) * ty.size + b),
      call.recvPtr.loc wr ((rank * call.count + offset) * ty.size + b))

/-- What a thread of `HybridAlltoAllKernel` copies to its team. -/
def lsaCopies (teams : LsaTeams launch.nRanks) (t : ThreadId) : List (Loc × Loc) :=
  (gridStride (sizeT (tid launch t)) call.count (sizeT (nthreads launch))).flatMap fun offset =>
    (List.range (teams.size t.rank)).flatMap fun lp =>
      lsaCopy ty call t.rank offset (teams.startLsa t.rank + lp)

end Kernels

section Copies

variable (ty : ElemType) (launch : Launch) (call : Nat → RunCollArgs)

/-- The data that `GinAlltoAllKernel` moves in each launch. -/
def ginCopies : Copies Nat Nat Loc
  | .put put => putCopies ty (call put.round) put.src put.dst
  | .member _ _ _ => []

/-- The data that `HybridAlltoAllKernel` moves in each launch. -/
def hybridCopies (teams : LsaTeams launch.nRanks) : Copies Nat Nat Loc
  | .put put => putCopies ty (call put.round) put.src put.dst
  | .member round rank blockIdx => (List.range launch.blockDim).flatMap fun threadIdx =>
      lsaCopies ty launch (call round) teams ⟨rank, blockIdx, threadIdx⟩

end Copies

/-- All-to-all, by where each byte is from: the block that a rank has for this one comes to the
place of that rank. -/
def alltoAllSource (nRanks bytes : Nat) (send recv : Ptr) (x : Loc) : Option Loc :=
  if x.buffer = recv.buffer ∧ x.rank < nRanks ∧ recv.offset ≤ x.offset ∧
      x.offset < recv.offset + nRanks * bytes then
    some (send.loc ((x.offset - recv.offset) / bytes)
      (x.rank * bytes + (x.offset - recv.offset) % bytes))
  else none

/-- All-to-all of each launch. -/
def alltoAllSources (ty : ElemType) (launch : Launch) (call : Nat → RunCollArgs) (round : Nat) :
    Loc → Option Loc :=
  alltoAllSource launch.nRanks ((call round).count * ty.size) (call round).sendPtr
    (call round).recvPtr

section Source

variable {nRanks bytes : Nat} {send recv : Ptr} {x y : Loc}

theorem alltoAllSource_loc {d r b : Nat} (memD : d < nRanks) (memR : r < nRanks)
    (less : b < bytes) :
    alltoAllSource nRanks bytes send recv (recv.loc d (r * bytes + b)) =
      some (send.loc r (d * bytes + b)) := by
  have inside : r * bytes + b < nRanks * bytes := by
    have next := Nat.mul_le_mul_right bytes memR
    rw [Nat.succ_mul] at next
    omega
  have block : (r * bytes + b) / bytes = r := by
    rw [Nat.mul_comm, Nat.mul_add_div (Nat.zero_lt_of_lt less), Nat.div_eq_of_lt less, Nat.add_zero]
  have place : (r * bytes + b) % bytes = b := by
    rw [Nat.mul_comm, Nat.mul_add_mod, Nat.mod_eq_of_lt less]
  rw [alltoAllSource, if_pos]
  · simp only [Ptr.loc, Nat.add_sub_cancel_left, block, place]
  · exact ⟨rfl, memD, Nat.le_add_right _ _, Nat.add_lt_add_left inside _⟩

/-- Every byte that all-to-all writes is one of a block. -/
theorem alltoAllSource_some (some_ : alltoAllSource nRanks bytes send recv x = some y) :
    ∃ d < nRanks, ∃ r < nRanks, ∃ b < bytes,
      x = recv.loc d (r * bytes + b) ∧ y = send.loc r (d * bytes + b) := by
  rw [alltoAllSource] at some_
  split at some_
  case isFalse => cases some_
  case isTrue inside =>
    obtain ⟨buffer, memD, low, high⟩ := inside
    cases some_
    have below : x.offset - recv.offset < nRanks * bytes := by omega
    have pos : 0 < bytes := Nat.pos_of_mul_pos_left (Nat.zero_lt_of_lt below)
    refine ⟨x.rank, memD, _, (Nat.div_lt_iff_lt_mul pos).2 below, _, Nat.mod_lt _ pos, ?_, rfl⟩
    rw [Nat.div_add_mod', Ptr.loc, Nat.add_sub_cancel' low, ← buffer]

theorem alltoAllSource_of_ne (other : x.buffer ≠ recv.buffer) :
    alltoAllSource nRanks bytes send recv x = none :=
  if_neg fun inside => other inside.1

end Source

/-! ## The kernels carry all-to-all -/

section Carry

variable {ty : ElemType} {launch : Launch} {call : Nat → RunCollArgs} {gin : GinDevice}
  {puts : ThreadId → List Nat} {remote : Nat → Nat → Bool} {awaited : Nat → Nat} {closing : Bool}
  {copies : Copies Nat Nat Loc} {x y : Loc}

theorem mem_putCopies {args : RunCollArgs} {rank r : Nat} :
    (y, x) ∈ putCopies ty args rank r ↔ ∃ b < args.count * ty.size,
      y = args.sendPtr.loc rank (r * (args.count * ty.size) + b) ∧
      x = args.recvPtr.loc r (rank * (args.count * ty.size) + b) := by
  simp only [putCopies, List.mem_map, List.mem_range, Prod.mk.injEq, eq_comm]

/-- The block that has the thread for a byte of a block of data. -/
def ctaOfByte (ty : ElemType) (launch : Launch) (b : Nat) : Nat :=
  b / ty.size % gridSize launch / launch.blockDim

theorem ctaOfByte_lt (b : Nat) : ctaOfByte ty launch b < launch.gridDim :=
  Nat.div_lt_of_lt_mul (Nat.mod_lt _ gridSize_pos)

/-- What the blocks of a rank copy to the ranks that get no put from it. -/
def Shared (ty : ElemType) (launch : Launch) (call : Nat → RunCollArgs)
    (remote : Nat → Nat → Bool) (round rank cta : Nat) (y x : Loc) : Prop :=
  ∃ d < launch.nRanks, ¬ remote rank d ∧ ∃ b < (call round).count * ty.size,
    ctaOfByte ty launch b = cta ∧
      y = (call round).sendPtr.loc rank (d * ((call round).count * ty.size) + b) ∧
      x = (call round).recvPtr.loc d (rank * ((call round).count * ty.size) + b)

/-- Puts to the remote ranks and copies to the others make up all-to-all. -/
theorem signalKernel_carries (small : gridSize launch < 2 ^ 31)
    (outOfPlace : ∀ round, (call round).sendPtr.buffer ≠ (call round).recvPtr.buffer)
    (puts_eq : ∀ t, puts t = (peersOf launch t).filter (remote t.rank))
    (copies_put : ∀ put, copies (.put put) = putCopies ty (call put.round) put.src put.dst)
    (copies_member : ∀ round, ∀ rank < launch.nRanks, ∀ cta < launch.gridDim, ∀ y x,
      (y, x) ∈ copies (.member round rank cta) ↔
        Shared ty launch call remote round rank cta y x)
    (closes : closing = true ∨ ∀ rank d, remote rank d) :
    Carries (signalKernel launch gin puts awaited closing) copies Loc.rank
      (alltoAllSources ty launch call) := by
  have target {put : Put Nat Nat}
      (has : (signalKernel launch gin puts awaited closing).Has (.put put)) :
      put.src < launch.nRanks ∧ put.dst < launch.nRanks := by
    obtain ⟨memRank, memC, mem⟩ := has
    have memRank_ := Finset.mem_range.1 memRank
    exact ⟨memRank_, ((mem_ctaPuts small puts_eq memRank_ (Finset.mem_range.1 memC)).1 mem).1⟩
  constructor
  · intro mover has y x copy
    cases mover with
    | put put =>
      obtain ⟨memR, memD⟩ := target has
      rw [copies_put] at copy
      obtain ⟨b, less, rfl, rfl⟩ := mem_putCopies.1 copy
      exact alltoAllSource_loc memD memR less
    | member round rank cta =>
      have memR := Finset.mem_range.1 has.1
      obtain ⟨d, memD, -, b, less, -, rfl, rfl⟩ :=
        (copies_member round rank memR cta (Finset.mem_range.1 has.2) y x).1 copy
      exact alltoAllSource_loc memD memR less
  · intro round x y some_
    obtain ⟨d, memD, r, memR, b, less, rfl, rfl⟩ := alltoAllSource_some some_
    by_cases far : remote r d
    · refine ⟨.put ⟨round, r, d, ctaOf launch d⟩, ⟨?_, ?_, ?_⟩, rfl, ?_⟩
      · exact Finset.mem_range.2 memR
      · exact Finset.mem_range.2 (ctaOf_lt d)
      · exact (mem_ctaPuts small puts_eq memR (ctaOf_lt d)).2 ⟨memD, rfl, far⟩
      · rw [copies_put]
        exact mem_putCopies.2 ⟨b, less, rfl, rfl⟩
    · refine ⟨.member round r (ctaOfByte ty launch b), ⟨?_, ?_⟩, rfl, ?_⟩
      · exact Finset.mem_range.2 memR
      · exact Finset.mem_range.2 (ctaOfByte_lt b)
      · exact (copies_member round r memR _ (ctaOfByte_lt b) _ _).2
          ⟨d, memD, far, b, less, rfl, rfl, rfl⟩
  · intro round x y some_ round'
    obtain ⟨d, -, r, -, b, -, -, rfl⟩ := alltoAllSource_some some_
    exact alltoAllSource_of_ne (outOfPlace round)
  · intro mover has y x copy
    cases mover with
    | put put =>
      rw [copies_put] at copy
      obtain ⟨b, -, -, rfl⟩ := mem_putCopies.1 copy
      exact ⟨Finset.mem_range.2 (target has).2, rfl⟩
    | member round rank cta =>
      obtain ⟨d, memD, near, b, -, -, -, rfl⟩ :=
        (copies_member round rank (Finset.mem_range.1 has.1) cta
          (Finset.mem_range.1 has.2) y x).1 copy
      refine ⟨Finset.mem_range.2 memD, ?_⟩
      rcases closes with closing | all
      · exact closing
      · exact absurd (all rank d) near

/-- The members of the team are those that are not remote. -/
theorem LsaTeams.not_remote_iff (teams : LsaTeams launch.nRanks) {rank d : Nat}
    (memR : rank < launch.nRanks) :
    (d < launch.nRanks ∧ ¬ teams.remote rank d) ↔
      ∃ lp < teams.size rank, d = teams.startLsa rank + lp := by
  have inside := teams.inside rank memR
  rw [LsaTeams.remote, Bool.or_eq_true, decide_eq_true_iff, decide_eq_true_iff, not_or, Nat.not_lt,
    Nat.not_le]
  constructor
  · rintro ⟨-, from_, below⟩
    exact ⟨d - teams.startLsa rank, by omega, by omega⟩
  · rintro ⟨lp, less, rfl⟩
    rw [startLsa] at *
    omega

theorem mem_lsaCopies (small : gridSize launch < 2 ^ 31) {args : RunCollArgs}
    (teams : LsaTeams launch.nRanks) {t : ThreadId} (mem : t ∈ launch.threads) :
    (y, x) ∈ lsaCopies ty launch args teams t ↔
      ∃ offset < args.count, offset % gridSize launch = gridTid launch t ∧
        ∃ lp < teams.size t.rank, ∃ b < ty.size,
          y = args.sendPtr.loc t.rank
            (((teams.startLsa t.rank + lp) * args.count + offset) * ty.size + b) ∧
          x = args.recvPtr.loc (teams.startLsa t.rank + lp)
            ((t.rank * args.count + offset) * ty.size + b) := by
  have less := gridTid_lt mem
  have loop : gridStride (sizeT (tid launch t)) args.count (sizeT (nthreads launch)) =
      gridStride (gridTid launch t) args.count (gridSize launch) := by
    rw [tid_eq_of_lt small mem, nthreads_eq_of_lt small, sizeT_natCast (by omega),
      sizeT_natCast (by omega)]
  simp only [lsaCopies, loop, List.mem_flatMap, mem_gridStride_of_lt less, lsaCopy, List.mem_map,
    List.mem_range, Prod.mk.injEq, and_assoc, eq_comm]

theorem block_byte (block count offset size b : Nat) :
    (block * count + offset) * size + b = block * (count * size) + (offset * size + b) := by
  rw [Nat.add_mul, Nat.mul_assoc, Nat.add_assoc]

/-- The loops of the threads of a block copy the bytes that the block has threads for. -/
theorem mem_hybridCopies (small : gridSize launch < 2 ^ 31) (teams : LsaTeams launch.nRanks)
    {round rank cta : Nat} (memR : rank < launch.nRanks) (memC : cta < launch.gridDim) :
    (y, x) ∈ hybridCopies ty launch call teams (.member round rank cta) ↔
      Shared ty launch call teams.remote round rank cta y x := by
  have inThread {i : Nat} (lane : i < launch.blockDim) :=
    @mem_lsaCopies ty launch x y small (call round) teams ⟨rank, cta, i⟩
      (Launch.mem_threads.2 ⟨memR, memC, lane⟩)
  simp only [hybridCopies, List.mem_flatMap, List.mem_range]
  constructor
  · intro copied
    obtain ⟨i, lane, copy⟩ := copied
    obtain ⟨offset, below, own, lp, inTeam, b, inElem, rfl, rfl⟩ := (inThread lane).1 copy
    obtain ⟨memD, near⟩ := (teams.not_remote_iff memR).2 ⟨lp, inTeam, rfl⟩
    refine ⟨_, memD, near, offset * ty.size + b, ?_, ?_, ?_, ?_⟩
    · have next := Nat.mul_le_mul_right ty.size below
      rw [Nat.succ_mul] at next
      omega
    · have element : (offset * ty.size + b) / ty.size = offset := by
        rw [Nat.mul_comm, Nat.mul_add_div ty.size_pos, Nat.div_eq_of_lt inElem, Nat.add_zero]
      rw [ctaOfByte, element, own, gridTid, Nat.add_mul_div_left _ _ launch.blockDim_pos,
        Nat.div_eq_of_lt lane, Nat.zero_add]
    · rw [block_byte]
    · rw [block_byte]
  · intro shared
    obtain ⟨d, memD, near, b, below, rfl, rfl, rfl⟩ := shared
    obtain ⟨lp, inTeam, rfl⟩ := (teams.not_remote_iff memR).1 ⟨memD, near⟩
    have lane := Nat.mod_lt (b / ty.size % gridSize launch) launch.blockDim_pos
    refine ⟨_, lane, (inThread lane).2 ⟨b / ty.size, Nat.div_lt_of_lt_mul ?_, ?_, lp, inTeam,
      b % ty.size, Nat.mod_lt _ ty.size_pos, ?_, ?_⟩⟩
    · rwa [Nat.mul_comm]
    · exact (Nat.mod_add_div _ _).symm
    · rw [block_byte, Nat.div_add_mod']
    · rw [block_byte, Nat.div_add_mod']

end Carry

/-! ## All-to-all, launch after launch -/

/-- What holds of the data in a state of a run. -/
structure AlltoAllExact (net : Net Nat Nat) (copies : Copies Nat Nat Loc) (launch : Launch)
    (ty : ElemType) (call : Nat → RunCollArgs) {β : Type*} (m : Mem β)
    (s : DataState Nat Nat Loc β) : Prop where
  /-- Of the signals there is nothing new. -/
  signals : Reachable net s.signals
  /-- The memory of a rank between two launches is that of its launches one after another. -/
  between : ∀ d < launch.nRanks, ∀ n,
    (∀ blockIdx < launch.gridDim, s.signals.at_ (d, blockIdx) = ⟨n, .idle⟩) →
      ∀ x, x.rank = d → s.mem x = exchanges (alltoAllSources ty launch call) m n x
  /-- After a launch it has the blocks that all ranks had for it when the run began. -/
  received : ∀ d < launch.nRanks, ∀ round,
    (∀ blockIdx < launch.gridDim, s.signals.at_ (d, blockIdx) = ⟨round + 1, .idle⟩) →
      ∀ r < launch.nRanks, ∀ b < (call round).count * ty.size,
        s.mem ((call round).recvPtr.loc d (r * ((call round).count * ty.size) + b)) =
          m ((call round).sendPtr.loc r (d * ((call round).count * ty.size) + b))
  /-- Nothing else is ever written, such as the send buffers and what lies beyond the blocks. -/
  frame : ∀ x, (∀ round, ∀ d < launch.nRanks, ∀ i < launch.nRanks * ((call round).count * ty.size),
    x ≠ (call round).recvPtr.loc d i) → s.mem x = m x
  /-- All launches can be finished. -/
  finishes : ∃ s', DataRun net copies s s' ∧ Finished net s'.signals

section Exact

variable {ty : ElemType} {launch : Launch} {call : Nat → RunCollArgs} {net : Net Nat Nat}
  {copies : Copies Nat Nat Loc} {β : Type*} {m : Mem β} {s : DataState Nat Nat Loc β}

theorem alltoAllExact_of_carries (net_ok : Balanced net)
    (ranks : net.ranks = Finset.range launch.nRanks)
    (groups : net.groups = Finset.range launch.gridDim)
    (carries : Carries net copies Loc.rank (alltoAllSources ty launch call))
    (reach : DataReachable net copies m s) : AlltoAllExact net copies launch ty call m s := by
  have between : ∀ d < launch.nRanks, ∀ n,
      (∀ blockIdx < launch.gridDim, s.signals.at_ (d, blockIdx) = ⟨n, .idle⟩) →
        ∀ x, x.rank = d → s.mem x = exchanges (alltoAllSources ty launch call) m n x := by
    intro d memD n idle x home
    subst home
    refine reach.mem_eq net_ok carries (ranks ▸ Finset.mem_range.2 memD) fun c memC => ?_
    rw [groups] at memC
    exact idle c (Finset.mem_range.1 memC)
  refine ⟨(reach.inv net_ok carries).reachable, between, ?_, ?_, reach.finishes net_ok carries⟩
  · intro d memD round idle r memR b less
    have some_ : alltoAllSources ty launch call round
        ((call round).recvPtr.loc d (r * ((call round).count * ty.size) + b)) =
          some ((call round).sendPtr.loc r (d * ((call round).count * ty.size) + b)) :=
      alltoAllSource_loc memD memR less
    rw [between d memD (round + 1) idle _ rfl]
    exact exchanges_succ (carries.apart round _ _ some_) some_
  · intro x outside
    refine reach.mem_of_unwritten net_ok carries fun round => ?_
    rcases written : alltoAllSources ty launch call round x with _ | y
    · rfl
    · obtain ⟨d, memD, r, memR, b, less, rfl, -⟩ := alltoAllSource_some written
      refine absurd rfl (outside round d memD _ ?_)
      have next := Nat.mul_le_mul_right ((call round).count * ty.size) memR
      rw [Nat.succ_mul] at next
      omega

end Exact

/-- **The kernels with signals implement all-to-all**, for every grid (`small` keeps the index of a
thread in an `int`), any teams, launches that follow each other, and every interleaving of the
copies and the signals. Launches are out of place (`outOfPlace`); a launch has offsets and a count
of its own, and signals are never reset.

A thread copies the blocks of its peers one by one, by puts or by itself, and no two copies of a
launch meet (`signalKernel_carries`). The signal of a put comes after its bytes, so that a rank
whose blocks are through with a launch has all of it, although other ranks may be a launch behind
or ahead (`alltoAllExact_of_carries`). -/
theorem signalAlltoAll_alltoAll (ty : ElemType) (launch : Launch) (small : gridSize launch < 2 ^ 31)
    (gin : GinDevice) (call : Nat → RunCollArgs)
    (outOfPlace : ∀ round, (call round).sendPtr.buffer ≠ (call round).recvPtr.buffer)
    {β : Type*} (m : Mem β) :
    (∀ closing s, DataReachable (ginAlltoAllKernel launch gin closing) (ginCopies ty call) m s →
      AlltoAllExact (ginAlltoAllKernel launch gin closing) (ginCopies ty call) launch ty call m s) ∧
    ∀ teams s, DataReachable (hybridAlltoAllKernel launch gin teams)
        (hybridCopies ty launch call teams) m s →
      AlltoAllExact (hybridAlltoAllKernel launch gin teams) (hybridCopies ty launch call teams)
        launch ty call m s := by
  refine ⟨fun closing s reach => ?_, fun teams s reach => ?_⟩
  · have puts_eq (t : ThreadId) :
        ginPuts launch t = (peersOf launch t).filter ((fun _ _ => true) t.rank) :=
      (List.filter_eq_self.2 fun _ _ => rfl).symm
    refine alltoAllExact_of_carries
      (signalKernel_balanced small puts_eq fun d _ => (card_senders_gin d).symm) rfl rfl
      (signalKernel_carries small outOfPlace puts_eq (fun _ => rfl) ?_ (.inr fun _ _ => rfl)) reach
    intro round rank memR cta memC y x
    constructor
    · intro mem
      cases mem
    · intro shared
      obtain ⟨d, -, near, -⟩ := shared
      exact absurd rfl near
  · exact alltoAllExact_of_carries
      (signalKernel_balanced small (fun _ => rfl)
        fun d memD => (card_senders_hybrid teams memD).symm) rfl rfl
      (signalKernel_carries small outOfPlace (fun _ => rfl) (fun _ => rfl)
        (fun round rank memR cta memC y x => mem_hybridCopies small teams memR memC) (.inl rfl))
      reach

/-- Three launches move two floats for each pair of ranks, each launch at other offsets. Then the
last rank's bytes are where the last launch has put them on rank 1. -/
theorem signalAlltoAll_alltoAll_pairAndOne :
    ∃ s : DataState Nat Nat Loc Nat,
      Finished (hybridAlltoAllKernel twoBlocks threeLaunches pairAndOne) s.signals ∧
      s.mem ⟨1, .recvbuff, 85⟩ = 2045 := by
  have small : gridSize twoBlocks < 2 ^ 31 := by norm_num [gridSize, twoBlocks]
  have kernels := signalAlltoAll_alltoAll .float twoBlocks small threeLaunches
    (fun round => ⟨false, 16 * round, 0, 32 * round, 0, 2⟩)
    (fun _ => by simp [RunCollArgs.sendPtr, RunCollArgs.recvPtr])
    fun l => 1000 * l.rank + l.offset
  obtain ⟨s, run, finished⟩ := (kernels.2 pairAndOne _ .refl).finishes
  refine ⟨s, finished, (kernels.2 pairAndOne s run).received 1 (by decide) 2 ?_ 2 (by decide) 5
    (by decide)⟩
  intro blockIdx less
  exact finished 1 (by decide) blockIdx (Finset.mem_range.2 less)

end NcclTests.Device
