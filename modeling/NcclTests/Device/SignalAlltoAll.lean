import Mathlib
import NcclTests.Device.AlltoAll
import NcclTests.Lib.SignalBarrier

/-!
# All-to-all kernels with signals

`GinAlltoAllKernel` puts every block over the network, `HybridAlltoAllKernel` only those for
ranks outside its team. A put adds one to a signal of its target when it arrives; the index of
the signal is that of the block that puts. A block of each rank waits for the signals, and
which one is computed by a formula of its own.

Of the memory only the signals are modelled. What the threads of a block put between the
barrier and the wait is unordered, and so are arrivals.
-/

namespace NcclTests.Device

open StrideLoop SignalBarrier

/-- The teams of ranks with shared memory: `ncclTeamLsa` of every rank. A team is a range of
ranks, and its members agree about it. -/
structure LsaTeams (nRanks : Nat) where
  /-- `lsa.rank`. -/
  rank : Nat → Nat
  /-- `lsa.nRanks`. -/
  size : Nat → Nat
  rank_le : ∀ r < nRanks, rank r ≤ r
  rank_lt : ∀ r < nRanks, rank r < size r
  inside : ∀ r < nRanks, r - rank r + size r ≤ nRanks
  agree : ∀ r < nRanks, ∀ q < nRanks, r - rank r ≤ q → q < r - rank r + size r →
    q - rank q = r - rank r ∧ size q = size r

namespace LsaTeams

variable {nRanks : Nat} (teams : LsaTeams nRanks)

/-- `world.rank - lsa.rank`. -/
def startLsa (r : Nat) : Nat := r - teams.rank r

/-- `r < startLsa || r >= startLsa + lsaSize`. -/
def remote (rank r : Nat) : Bool :=
  r < teams.startLsa rank || teams.startLsa rank + teams.size rank ≤ r

end LsaTeams

section Kernels

variable (launch : Launch)

/-- `for (int r=tid; r<nRanks; r+=nthreads)`. -/
def peersOf (t : ThreadId) : List Nat :=
  gridStride (tid launch t).toNat launch.nRanks (nthreads launch).toNat

/-- `(rank % nthreads) / blockDim.x`. -/
def receivingCta (rank : Nat) : Int :=
  Int.tdiv (Int.tmod rank (nthreads launch)) launch.blockDim

/-- What the threads of a block put. -/
def ctaPuts (puts : ThreadId → List Nat) (rank blockIdx : Nat) : List Nat :=
  (List.range launch.blockDim).flatMap fun threadIdx => puts ⟨rank, blockIdx, threadIdx⟩

/-- The peers that `GinAlltoAllKernel` puts to. -/
def ginPuts (t : ThreadId) : List Nat := peersOf launch t

/-- The peers that `HybridAlltoAllKernel` puts to. -/
def hybridPuts (teams : LsaTeams launch.nRanks) (t : ThreadId) : List Nat :=
  (peersOf launch t).filter (teams.remote t.rank)

/-- The signals, the launches that follow each other on every rank, and what `gin.flush` waits
for, which is at most the puts of its block. -/
structure GinDevice where
  launches : Nat
  signals : Nat → Nat → Nat
  flushed : Multiset (Put Nat Nat) → Nat → Nat → Prop
  flush : ∀ inFlight rank cta, (∀ put ∈ inFlight, ¬(put.src = rank ∧ put.group = cta)) →
    flushed inFlight rank cta

variable (gin : GinDevice)

/-- The kernels: each block reads its signal, meets the blocks of its index at the barrier, puts,
waits if it is the receiving one, flushes and perhaps meets the others again. -/
def signalKernel (puts : ThreadId → List Nat) (awaited : Nat → Nat) (closing : Bool) :
    Net Nat Nat where
  ranks := Finset.range launch.nRanks
  groups := Finset.range launch.gridDim
  puts rank cta := ctaPuts launch puts rank cta
  awaits rank cta := if (cta : Int) = receivingCta launch rank then some (awaited rank) else none
  closing := closing
  rounds := gin.launches
  initial := gin.signals
  flushed := gin.flushed

/-- `GinAlltoAllKernel`. The second barrier is compiled in before NCCL 2.30. -/
def ginAlltoAllKernel (closing : Bool) : Net Nat Nat :=
  signalKernel launch gin (ginPuts launch) (fun _ => launch.nRanks) closing

/-- `HybridAlltoAllKernel`. -/
def hybridAlltoAllKernel (teams : LsaTeams launch.nRanks) : Net Nat Nat :=
  signalKernel launch gin (hybridPuts launch teams)
    (fun rank => launch.nRanks - teams.size rank) true

end Kernels

/-! ## Who puts to a rank -/

section Puts

variable {launch : Launch} {rank d c : Nat}

/-- The block that has the thread for a rank. -/
def ctaOf (launch : Launch) (r : Nat) : Nat := r % gridSize launch / launch.blockDim

theorem ctaOf_lt (r : Nat) : ctaOf launch r < launch.gridDim :=
  Nat.div_lt_of_lt_mul (Nat.mod_lt r gridSize_pos)

/-- The receiving block is the block that has the thread for its rank. -/
theorem receivingCta_eq (small : gridSize launch < 2 ^ 31) (r : Nat) :
    receivingCta launch r = ctaOf launch r := by
  rw [receivingCta, nthreads_eq_of_lt small, ctaOf, ← Int.ofNat_tmod, ← Int.ofNat_tdiv]

theorem mem_peersOf (small : gridSize launch < 2 ^ 31) {t : ThreadId} (mem : t ∈ launch.threads) :
    d ∈ peersOf launch t ↔ d < launch.nRanks ∧ d % gridSize launch = gridTid launch t := by
  rw [peersOf, tid_eq_of_lt small mem, nthreads_eq_of_lt small, Int.toNat_natCast,
    Int.toNat_natCast]
  exact mem_gridStride_of_lt (gridTid_lt mem)

theorem peersOf_nodup (small : gridSize launch < 2 ^ 31) (t : ThreadId) :
    (peersOf launch t).Nodup := by
  rw [peersOf, nthreads_eq_of_lt small, Int.toNat_natCast]
  exact (pairwise_gridStride gridSize_pos).imp Nat.ne_of_lt

section Cta

variable {puts : ThreadId → List Nat} {remote : Nat → Nat → Bool}

/-- What a block puts: the remote peers that it has the threads for. -/
theorem mem_ctaPuts (small : gridSize launch < 2 ^ 31)
    (puts_eq : ∀ t, puts t = (peersOf launch t).filter (remote t.rank))
    (memRank : rank < launch.nRanks) (memC : c < launch.gridDim) :
    d ∈ ctaPuts launch puts rank c ↔ d < launch.nRanks ∧ ctaOf launch d = c ∧ remote rank d := by
  have inThread {x : Nat} (lane : x < launch.blockDim) : d ∈ puts ⟨rank, c, x⟩ ↔
      (d < launch.nRanks ∧ d % gridSize launch = x + launch.blockDim * c) ∧ remote rank d := by
    rw [puts_eq, List.mem_filter,
      mem_peersOf small (Launch.mem_threads.2 ⟨memRank, memC, lane⟩)]
    rfl
  simp only [ctaPuts, List.mem_flatMap, List.mem_range]
  constructor
  · rintro ⟨x, lane, mem⟩
    obtain ⟨⟨below, own⟩, far⟩ := (inThread lane).1 mem
    refine ⟨below, ?_, far⟩
    rw [ctaOf, own, Nat.add_mul_div_left _ _ launch.blockDim_pos, Nat.div_eq_of_lt lane,
      Nat.zero_add]
  · rintro ⟨below, rfl, far⟩
    have lane := Nat.mod_lt (d % gridSize launch) launch.blockDim_pos
    exact ⟨_, lane, (inThread lane).2 ⟨⟨below, (Nat.mod_add_div _ _).symm⟩, far⟩⟩

/-- No block puts twice to one rank. -/
theorem ctaPuts_nodup (small : gridSize launch < 2 ^ 31)
    (puts_eq : ∀ t, puts t = (peersOf launch t).filter (remote t.rank))
    (memRank : rank < launch.nRanks) (memC : c < launch.gridDim) :
    (ctaPuts launch puts rank c).Nodup := by
  refine List.nodup_flatMap.2 ⟨fun x _ => ?_, ?_⟩
  · rw [puts_eq]
    exact (peersOf_nodup small _).filter _
  · refine List.nodup_range.pairwise_of_forall_ne fun x memX y memY other d inX inY => other ?_
    dsimp only at inX inY
    rw [puts_eq, List.mem_filter, mem_peersOf small
      (Launch.mem_threads.2 ⟨memRank, memC, List.mem_range.1 memX⟩)] at inX
    rw [puts_eq, List.mem_filter, mem_peersOf small
      (Launch.mem_threads.2 ⟨memRank, memC, List.mem_range.1 memY⟩)] at inY
    have same : gridTid launch ⟨rank, c, x⟩ = gridTid launch ⟨rank, c, y⟩ :=
      inX.1.2.symm.trans inY.1.2
    simpa only [gridTid, Nat.add_right_cancel_iff] using same

theorem count_ctaPuts (small : gridSize launch < 2 ^ 31)
    (puts_eq : ∀ t, puts t = (peersOf launch t).filter (remote t.rank))
    (memRank : rank < launch.nRanks) (memC : c < launch.gridDim) (memD : d < launch.nRanks) :
    (ctaPuts launch puts rank c : Multiset Nat).count d =
      if c = ctaOf launch d then if remote rank d then 1 else 0 else 0 := by
  rw [Multiset.coe_count, (ctaPuts_nodup small puts_eq memRank memC).count]
  simp only [mem_ctaPuts small puts_eq memRank memC, memD, true_and, eq_comm (b := c)]
  exact ite_and _ _ _ _

/-- The ranks that put to a rank. -/
def senders (launch : Launch) (remote : Nat → Nat → Bool) (d : Nat) : Finset Nat :=
  (Finset.range launch.nRanks).filter fun rank => remote rank d

variable {gin : GinDevice} {awaited : Nat → Nat} {closing : Bool}

/-- The puts to a rank are all of one index. -/
theorem total_eq (small : gridSize launch < 2 ^ 31)
    (puts_eq : ∀ t, puts t = (peersOf launch t).filter (remote t.rank))
    (memC : c < launch.gridDim) (memD : d < launch.nRanks) :
    (signalKernel launch gin puts awaited closing).total d c =
      if c = ctaOf launch d then (senders launch remote d).card else 0 := by
  have each : ∀ rank ∈ Finset.range launch.nRanks,
      (ctaPuts launch puts rank c : Multiset Nat).count d =
        if c = ctaOf launch d then if remote rank d then 1 else 0 else 0 := fun rank mem =>
    count_ctaPuts small puts_eq (Finset.mem_range.1 mem) memC memD
  refine (Finset.sum_congr rfl each).trans ?_
  split
  · exact (Finset.card_filter _ _).symm
  · exact Finset.sum_const_zero

theorem signalKernel_balanced (small : gridSize launch < 2 ^ 31)
    (puts_eq : ∀ t, puts t = (peersOf launch t).filter (remote t.rank))
    (awaited_eq : ∀ d < launch.nRanks, awaited d = (senders launch remote d).card) :
    Balanced (signalKernel launch gin puts awaited closing) where
  awaited d memD c memC := by
    have memD_ := Finset.mem_range.1 memD
    rw [total_eq small puts_eq (Finset.mem_range.1 memC) memD_]
    simp only [signalKernel, receivingCta_eq small, Nat.cast_inj, awaited_eq d memD_]
    split <;> rfl
  targets rank memRank c memC d mem :=
    Finset.mem_range.2 ((mem_ctaPuts small puts_eq (Finset.mem_range.1 memRank)
      (Finset.mem_range.1 memC)).1 mem).1
  flush := gin.flush

end Cta

end Puts

/-! ## The accounts -/

/-- The signals of a kernel in a state of its run; `receiving` and `awaited` are the index and
the number of signals that each rank waits for. -/
structure SignalsExact (net : Net Nat Nat) (receiving : Nat → Int) (awaited : Nat → Nat)
    (s : State Nat Nat) : Prop where
  /-- Every rank has a receiving block. -/
  receives : ∀ d ∈ net.ranks, ∃ c ∈ net.groups, (c : Int) = receiving d
  /-- Signals of a launch are on the index of the receiving block, and there are none before
  that block has read its signal. -/
  afterRead : ∀ put ∈ s.inFlight + s.delivered,
    put.dst ∈ net.ranks ∧ (put.group : Int) = receiving put.dst ∧
      (s.at_ (put.dst, put.group)).HasRead put.round
  /-- A signal has grown by what has arrived, and by nothing else. -/
  counter : ∀ d ∈ net.ranks, ∀ c ∈ net.groups, s.counter (d, c) =
    net.initial d c + ∑ launch ∈ Finset.range net.rounds, s.received net launch d c
  /-- In no launch it grows by more than is awaited, and on other indices it does not grow. -/
  received_le : ∀ launch, ∀ d ∈ net.ranks, ∀ c ∈ net.groups, s.received net launch d c ≤
    if (c : Int) = receiving d then awaited d else 0
  /-- What is read in a launch is what the former ones have left. -/
  baseline : ∀ d ∈ net.ranks, ∀ c ∈ net.groups, ∀ base, (s.at_ (d, c)).base? = some base →
    base = net.initial d c +
      (s.at_ (d, c)).done * if (c : Int) = receiving d then awaited d else 0
  /-- When the receiving block has waited, all puts to its rank in this launch have arrived,
  whichever block of whichever rank they are from. -/
  released : ∀ launch, ∀ d ∈ net.ranks, ∀ c ∈ net.groups, (c : Int) = receiving d →
    (s.at_ (d, c)).HasWaited launch →
      s.received net launch d c = awaited d ∧
      ∀ rank ∈ net.ranks, ∀ cta ∈ net.groups,
        s.delivered.count ⟨launch, rank, d, cta⟩ = (net.puts rank cta).count d ∧
        (⟨launch, rank, d, cta⟩ : Put Nat Nat) ∉ s.inFlight
  /-- A run never stops before all launches are finished, and it does not go on for ever. -/
  progress : ¬ Finished net s → ∃ t, Step net s t
  ends : ∀ t, Step net s t → measure net t < measure net s
  /-- Then every launch has brought each rank what it awaits. -/
  finished : Finished net s → s.inFlight = 0 ∧ ∀ launch < net.rounds, ∀ d ∈ net.ranks,
    ∀ c ∈ net.groups, s.received net launch d c = if (c : Int) = receiving d then awaited d else 0

section Exact

variable {launch : Launch} {gin : GinDevice} {puts : ThreadId → List Nat}
  {remote : Nat → Nat → Bool} {awaited : Nat → Nat} {closing : Bool} {s : State Nat Nat}

theorem signalKernel_exact (small : gridSize launch < 2 ^ 31)
    (puts_eq : ∀ t, puts t = (peersOf launch t).filter (remote t.rank))
    (awaited_eq : ∀ d < launch.nRanks, awaited d = (senders launch remote d).card)
    (reach : Reachable (signalKernel launch gin puts awaited closing) s) :
    SignalsExact (signalKernel launch gin puts awaited closing) (receivingCta launch) awaited
      s := by
  set net := signalKernel launch gin puts awaited closing
  have net_ok : Balanced net := signalKernel_balanced small puts_eq awaited_eq
  have inv := reach.inv net_ok
  have total {d c : Nat} (memD : d ∈ net.ranks) (memC : c ∈ net.groups) :
      net.total d c = if (c : Int) = receivingCta launch d then awaited d else 0 := by
    refine (net_ok.awaited d memD c memC).trans ?_
    simp only [net, signalKernel]
    split <;> rfl
  constructor
  · exact fun d _ =>
      ⟨ctaOf launch d, Finset.mem_range.2 (ctaOf_lt d), (receivingCta_eq small d).symm⟩
  · intro put mem
    obtain ⟨memRank, memC⟩ := inv.senders put mem
    have target : put.dst ∈ ctaPuts launch puts put.src put.group := inv.target_of_put mem
    obtain ⟨below, own, -⟩ := (mem_ctaPuts small puts_eq (Finset.mem_range.1 memRank)
      (Finset.mem_range.1 memC)).1 target
    have memD : put.dst ∈ net.ranks := Finset.mem_range.2 below
    exact ⟨memD, by rw [receivingCta_eq small, own], inv.read_of_put mem memD⟩
  · exact inv.counted
  · intro round d memD c memC
    rw [← total memD memC]
    exact inv.received_le memC
  · intro d memD c memC base some_
    rw [← total memD memC]
    exact inv.base d memD c memC base some_
  · intro round d memD c memC receiving waited
    have received := inv.received_of_waited memD memC waited
    rw [total memD memC, if_pos receiving] at received
    refine ⟨received, fun rank memRank cta memCta => ?_⟩
    have all : s.delivered.count ⟨round, rank, d, cta⟩ = (net.puts rank cta).count d := by
      rcases eq_or_ne cta c with rfl | other
      · exact inv.waited d memD cta memCta round waited rank memRank
      · -- no other block puts to the rank
        have none_ : (net.puts rank cta).count d = 0 := by
          refine Multiset.count_eq_zero.2 fun mem => other ?_
          obtain ⟨-, own, -⟩ := (mem_ctaPuts small puts_eq (Finset.mem_range.1 memRank)
            (Finset.mem_range.1 memCta)).1 mem
          rw [receivingCta_eq small, own] at receiving
          exact (Int.natCast_inj.1 receiving).symm
        have le : s.delivered.count ⟨round, rank, d, cta⟩ ≤ (net.puts rank cta).count d :=
          inv.delivered_le memRank memCta
        omega
    exact ⟨all, inv.not_inFlight memRank memCta all⟩
  · exact net_ok.progress reach
  · exact fun t step => step.measure_lt
  · intro finished
    refine ⟨inv.clean net_ok finished, fun round less d memD c memC => ?_⟩
    rw [← total memD memC]
    exact inv.received_of_waited memD memC (finished.hasWaited memD memC less)

theorem card_senders_gin (d : Nat) :
    (senders launch (fun _ _ => true) d).card = launch.nRanks := by
  simp [senders]

/-- A rank is remote for another one if it is outside its team, and then neither is in the
team of the other. -/
theorem LsaTeams.remote_iff {nRanks rank d : Nat} (teams : LsaTeams nRanks)
    (memRank : rank < nRanks) (memD : d < nRanks) :
    teams.remote rank d ↔
      rank ∉ Finset.Ico (teams.startLsa d) (teams.startLsa d + teams.size d) := by
  have le := teams.rank_le
  have lt := teams.rank_lt
  have inRank : teams.startLsa rank ≤ rank ∧ rank < teams.startLsa rank + teams.size rank := by
    have := le rank memRank
    have := lt rank memRank
    unfold startLsa
    omega
  have inD : teams.startLsa d ≤ d ∧ d < teams.startLsa d + teams.size d := by
    have := le d memD
    have := lt d memD
    unfold startLsa
    omega
  rw [remote, Bool.or_eq_true, decide_eq_true_iff, decide_eq_true_iff, Finset.mem_Ico]
  constructor
  · rintro far ⟨from_, below⟩
    obtain ⟨start, size⟩ := teams.agree d memD rank memRank from_ below
    change teams.startLsa rank = teams.startLsa d at start
    omega
  · intro outside
    by_contra near
    rw [not_or, Nat.not_lt, Nat.not_le] at near
    obtain ⟨start, size⟩ := teams.agree rank memRank d memD near.1 near.2
    change teams.startLsa d = teams.startLsa rank at start
    omega

theorem card_senders_hybrid (teams : LsaTeams launch.nRanks) {d : Nat} (memD : d < launch.nRanks) :
    (senders launch teams.remote d).card = launch.nRanks - teams.size d := by
  have team : Finset.Ico (teams.startLsa d) (teams.startLsa d + teams.size d) ⊆
      Finset.range launch.nRanks := by
    intro rank mem
    have := teams.inside d memD
    rw [Finset.mem_Ico, LsaTeams.startLsa] at mem
    rw [Finset.mem_range]
    omega
  have outside : senders launch teams.remote d = Finset.range launch.nRanks \
      Finset.Ico (teams.startLsa d) (teams.startLsa d + teams.size d) := by
    ext rank
    rw [senders, Finset.mem_filter, Finset.mem_sdiff]
    exact and_congr_right fun mem => teams.remote_iff (Finset.mem_range.1 mem) memD
  rw [outside, Finset.card_sdiff_of_subset team, Finset.card_range, Nat.card_Ico,
    Nat.add_sub_cancel_left]

/-- **The signals of both kernels are exact**, over any number of launches that never reset
them: each rank gets a signal from every rank, or from every rank outside its team, on the index
that its receiving block waits on, and never before this block has read it.

`small` keeps the index of a thread in an `int`, and `closing` says whether the GIN kernel has its
second barrier. A put counts at its target some time after its thread has gone on. The block waits
for the value it read plus the number of its senders, and a launch sends it just as many
(`signalKernel_balanced`), so that no signal of a later launch counts for an earlier one. -/
theorem signalAlltoAll_exact (launch : Launch) (small : gridSize launch < 2 ^ 31)
    (gin : GinDevice) :
    (∀ closing s, Reachable (ginAlltoAllKernel launch gin closing) s →
      SignalsExact (ginAlltoAllKernel launch gin closing) (receivingCta launch)
        (fun _ => launch.nRanks) s) ∧
    ∀ teams s, Reachable (hybridAlltoAllKernel launch gin teams) s →
      SignalsExact (hybridAlltoAllKernel launch gin teams) (receivingCta launch)
        (fun rank => launch.nRanks - teams.size rank) s := by
  refine ⟨fun closing s reach => ?_, fun teams s reach => ?_⟩
  · exact @signalKernel_exact launch gin (ginPuts launch) (fun _ _ => true) _ closing s small
      (fun t => (List.filter_eq_self.2 fun _ _ => rfl).symm)
      (fun d _ => (card_senders_gin d).symm) reach
  · exact @signalKernel_exact launch gin (hybridPuts launch teams) teams.remote _ true s small
      (fun t => rfl) (fun d memD => (card_senders_hybrid teams memD).symm) reach

/-- Three ranks on two blocks of one thread. -/
def twoBlocks : Launch := ⟨3, 2, 1, by decide, by decide⟩

/-- The first two ranks are a team. -/
def pairAndOne : LsaTeams 3 where
  rank r := if r = 1 then 1 else 0
  size r := if r = 2 then 1 else 2
  rank_le := by decide
  rank_lt := by decide
  inside := by decide
  agree := by decide

/-- Three launches, the signals being left over from others. -/
def threeLaunches : GinDevice where
  launches := 3
  signals _ _ := 40
  flushed _ _ _ := True
  flush _ _ _ _ := trivial

/-- In every launch the last rank gets the signals of the first two on its index 0. -/
theorem signalAlltoAll_exact_pairAndOne :
    ∃ s, Finished (hybridAlltoAllKernel twoBlocks threeLaunches pairAndOne) s ∧
      s.received (hybridAlltoAllKernel twoBlocks threeLaunches pairAndOne) 1 2 0 = 2 := by
  have small : gridSize twoBlocks < 2 ^ 31 := by norm_num [gridSize, twoBlocks]
  have balanced : Balanced (hybridAlltoAllKernel twoBlocks threeLaunches pairAndOne) :=
    @signalKernel_balanced twoBlocks (hybridPuts twoBlocks pairAndOne) pairAndOne.remote
      threeLaunches _ true small (fun _ => rfl)
      fun d memD => (@card_senders_hybrid twoBlocks pairAndOne d memD).symm
  obtain ⟨s, run, finished⟩ := balanced.finishes .refl
  have exact_ := (signalAlltoAll_exact twoBlocks small threeLaunches).2 pairAndOne s run
  have received := (exact_.finished finished).2 1 (by decide) 2 (by decide) 0 (by decide)
  rw [receivingCta_eq small] at received
  exact ⟨s, finished, received.trans (by decide)⟩

end Exact

end NcclTests.Device
