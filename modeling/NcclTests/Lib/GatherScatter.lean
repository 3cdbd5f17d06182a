import Mathlib
import NcclTests.Lib.Threads

/-!
# Copying and reducing through registers

A copy loads all its registers before it stores them; a reduction sums up what
several peers hold for each register and stores the sum to all of them, peer by peer
or, where an access reaches all peers at once, register by register. Since the loads
come first, source and destination of a register may be the same.
-/

namespace Threads

variable {π κ L β ρ : Type*}

/-- `r = *src(r)` for all registers, then `*dst(r) = r` for all registers. -/
def copyBody (rs : List ρ) (src dst : ρ → L) : List (Instr L β ρ) :=
  loads rs src (fun _ x => x) ++ stores rs dst

/-- `r = 0` for `all` registers; `r += *src(peer, r)` for every peer and the registers
that are `used`, and then `*dst(peer, r) = r` likewise. -/
def reduceBody [Zero β] [Add β] (peers : List π) (all used : List ρ) (src dst : π → ρ → L) :
    List (Instr L β ρ) :=
  sets all 0 ++ peers.flatMap (fun peer => loads used (src peer) (· + ·)) ++
    peers.flatMap fun peer => stores used (dst peer)

/-- `r = ∑ *src(peer)`. -/
def sumFrom [Zero β] [Add β] (peers : List π) (src : π → L) (r : ρ) : List (Instr L β ρ) :=
  .set r 0 :: peers.map fun peer => .load r (src peer) (· + ·)

/-- `*dst(peer) = r` for every peer. -/
def storeTo (peers : List π) (dst : π → L) (r : ρ) : List (Instr L β ρ) :=
  peers.map fun peer => .store (dst peer) r

/-- `r = 0` for `all` registers; `r = ∑ *src(peer, r)` for one register after the other of those
that are `used`, and then `*dst(peer, r) = r` likewise. -/
def reduceEachBody [Zero β] [Add β] (peers : List π) (all used : List ρ) (src dst : π → ρ → L) :
    List (Instr L β ρ) :=
  sets all 0 ++ used.flatMap (fun r => sumFrom peers (src · r) r) ++
    used.flatMap fun r => storeTo peers (dst · r) r

section Copy

variable [DecidableEq L] [DecidableEq ρ] {work : Work κ L β} {rs : List ρ} {src dst : ρ → L}
  {unit : ρ → κ}

/-- A copy does a unit for each register. -/
theorem does_copyBody (nodup : rs.Nodup) (inj : ∀ r ∈ rs, ∀ r' ∈ rs, dst r = dst r' → r = r')
    (ins : ∀ r ∈ rs, work.ins (unit r) = {src r}) (outs : ∀ r ∈ rs, work.outs (unit r) = {dst r})
    (value : ∀ r ∈ rs, ∀ m, work.value m (unit r) = m (src r)) :
    Does work (copyBody rs src dst) {k | ∃ r ∈ rs, k = unit r} := by
  constructor
  · intro l
    rw [copyBody, reads_append, reads_loads, reads_stores, List.append_nil, List.mem_map]
    constructor
    · rintro ⟨r, mem, rfl⟩
      exact ⟨unit r, ⟨r, mem, rfl⟩, by rw [ins r mem]; rfl⟩
    · rintro ⟨_, ⟨r, mem, rfl⟩, in_⟩
      rw [ins r mem] at in_
      exact ⟨r, mem, in_.symm⟩
  · intro l
    rw [copyBody, writes_append, writes_loads, writes_stores, List.nil_append, List.mem_map]
    constructor
    · rintro ⟨r, mem, rfl⟩
      exact ⟨unit r, ⟨r, mem, rfl⟩, by rw [outs r mem]; rfl⟩
    · rintro ⟨_, ⟨r, mem, rfl⟩, out⟩
      rw [outs r mem] at out
      exact ⟨r, mem, out.symm⟩
  · rw [copyBody, writes_append, writes_loads, writes_stores, List.nil_append]
    exact nodup.map_on inj
  · rintro regs mem _ ⟨r, memR, rfl⟩ l out
    rw [outs r memR] at out
    obtain rfl : l = dst r := out
    obtain ⟨same, loaded⟩ := run_loads src (fun _ x => x) regs mem nodup
    rw [copyBody, run_append, same, (run_stores _ mem inj).2 r memR, loaded r, if_pos memR,
      value r memR]

end Copy

section Reduce

variable [DecidableEq L] [DecidableEq ρ] {peers : List π} {all used : List ρ}
  {src dst : π → ρ → L} (regs : ρ → β) (mem : L → β)

/-- Loading the registers from one peer after the other. -/
theorem run_gather (peers : List π) (src : π → ρ → L) (f : β → β → β) (nodup : used.Nodup) :
    (run (peers.flatMap fun peer => loads used (src peer) f) regs mem).2 = mem ∧
      ∀ r ∈ used, (run (peers.flatMap fun peer => loads used (src peer) f) regs mem).1 r =
        (peers.map fun peer => mem (src peer r)).foldl f (regs r) := by
  induction peers generalizing regs with
  | nil => exact ⟨rfl, fun r _ => rfl⟩
  | cons peer peers ih =>
    obtain ⟨same, loaded⟩ := run_loads (src peer) f regs mem nodup
    rw [List.flatMap_cons, run_append, same]
    refine ⟨(ih _).1, fun r memR => ?_⟩
    rw [(ih _).2 r memR, loaded r, if_pos memR, List.map_cons, List.foldl_cons]

/-- Storing the registers to one peer after the other. -/
theorem run_scatter
    (inj : ∀ peer ∈ peers, ∀ r ∈ used, ∀ peer' ∈ peers, ∀ r' ∈ used,
      dst peer r = dst peer' r' → peer = peer' ∧ r = r') :
    ∀ peer ∈ peers, ∀ r ∈ used,
      (run (peers.flatMap fun peer => stores used (dst peer)) regs mem).2 (dst peer r) =
        regs r := by
  induction peers generalizing mem with
  | nil => exact fun peer memPeer => absurd memPeer List.not_mem_nil
  | cons first peers ih =>
    intro peer memPeer r memR
    obtain ⟨same, stored⟩ := run_stores regs mem
      fun r memR r' memR' target => (inj first List.mem_cons_self r memR first
        List.mem_cons_self r' memR' target).2
    rw [List.flatMap_cons, run_append, same]
    by_cases later : peer ∈ peers
    · exact ih _ (fun p memP r memR p' memP' r' memR' => inj p (List.mem_cons_of_mem _ memP) r memR
        p' (List.mem_cons_of_mem _ memP') r' memR') peer later r memR
    · obtain rfl := (List.mem_cons.1 memPeer).resolve_right later
      rw [run_frame, stored r memR]
      rw [writes_flatMap, List.mem_flatMap]
      rintro ⟨peer', memPeer', again⟩
      rw [writes_stores, List.mem_map] at again
      obtain ⟨r', memR', target⟩ := again
      refine later ?_
      rwa [← (inj peer' (List.mem_cons_of_mem _ memPeer') r' memR' peer List.mem_cons_self r memR
        target).1]

variable [AddMonoid β] {work : Work κ L β} {unit : ρ → κ}

/-- A reduction does a unit for each register that is used. -/
theorem does_reduceBody (nodupPeers : peers.Nodup) (nodup : used.Nodup) (sub : used ⊆ all)
    (inj : ∀ peer ∈ peers, ∀ r ∈ used, ∀ peer' ∈ peers, ∀ r' ∈ used,
      dst peer r = dst peer' r' → peer = peer' ∧ r = r')
    (ins : ∀ r ∈ used, ∀ l, l ∈ work.ins (unit r) ↔ ∃ peer ∈ peers, l = src peer r)
    (outs : ∀ r ∈ used, ∀ l, l ∈ work.outs (unit r) ↔ ∃ peer ∈ peers, l = dst peer r)
    (value : ∀ r ∈ used, ∀ m, work.value m (unit r) = (peers.map fun peer => m (src peer r)).sum) :
    Does work (reduceBody peers all used src dst) {k | ∃ r ∈ used, k = unit r} := by
  have none_ : (peers.flatMap fun _ => ([] : List L)) = [] :=
    List.flatMap_eq_nil_iff.2 fun _ _ => rfl
  have readsEq : reads (reduceBody peers all used src dst : List (Instr L β ρ)) =
      peers.flatMap fun peer => used.map (src peer) := by
    simp only [reduceBody, reads_append, reads_sets, reads_flatMap, reads_loads, reads_stores,
      none_, List.nil_append, List.append_nil]
  have writesEq : writes (reduceBody peers all used src dst : List (Instr L β ρ)) =
      peers.flatMap fun peer => used.map (dst peer) := by
    simp only [reduceBody, writes_append, writes_sets, writes_flatMap, writes_loads,
      writes_stores, none_, List.nil_append]
  constructor
  · intro l
    rw [readsEq, List.mem_flatMap]
    constructor
    · rintro ⟨peer, memPeer, inPeer⟩
      obtain ⟨r, memR, rfl⟩ := List.mem_map.1 inPeer
      exact ⟨unit r, ⟨r, memR, rfl⟩, (ins r memR _).2 ⟨peer, memPeer, rfl⟩⟩
    · rintro ⟨_, ⟨r, memR, rfl⟩, in_⟩
      obtain ⟨peer, memPeer, rfl⟩ := (ins r memR _).1 in_
      exact ⟨peer, memPeer, List.mem_map_of_mem memR⟩
  · intro l
    rw [writesEq, List.mem_flatMap]
    constructor
    · rintro ⟨peer, memPeer, inPeer⟩
      obtain ⟨r, memR, rfl⟩ := List.mem_map.1 inPeer
      exact ⟨unit r, ⟨r, memR, rfl⟩, (outs r memR _).2 ⟨peer, memPeer, rfl⟩⟩
    · rintro ⟨_, ⟨r, memR, rfl⟩, out⟩
      obtain ⟨peer, memPeer, rfl⟩ := (outs r memR _).1 out
      exact ⟨peer, memPeer, List.mem_map_of_mem memR⟩
  · rw [writesEq, List.nodup_flatMap]
    constructor
    · exact fun peer memPeer => nodup.map_on fun r memR r' memR' target =>
        (inj peer memPeer r memR peer memPeer r' memR' target).2
    · refine nodupPeers.pairwise_of_forall_ne fun peer memPeer peer' memPeer' ne l inL inL' => ?_
      obtain ⟨r, memR, rfl⟩ := List.mem_map.1 inL
      obtain ⟨r', memR', target⟩ := List.mem_map.1 inL'
      exact ne (inj peer' memPeer' r' memR' peer memPeer r memR target).1.symm
  · rintro regs mem _ ⟨r, memR, rfl⟩ l out
    obtain ⟨peer, memPeer, rfl⟩ := (outs r memR _).1 out
    obtain ⟨sameSets, zeroed⟩ := run_sets (0 : β) regs mem all
    obtain ⟨same, gathered⟩ := run_gather (run (sets all 0) regs mem).1 mem peers src
      (· + ·) nodup
    rw [reduceBody, run_append, run_append, sameSets, same,
      run_scatter _ mem inj peer memPeer r memR, gathered r memR, zeroed r, if_pos (sub memR),
      value r memR, List.sum_eq_foldl]

end Reduce

section ReduceEach

section Places

variable (peers : List π) (src dst : π → L) (r : ρ)

theorem reads_sumFrom [Zero β] [Add β] :
    reads (sumFrom peers src r : List (Instr L β ρ)) = peers.map src := by
  rw [sumFrom, reads]
  induction peers with
  | nil => rfl
  | cons peer peers ih => exact congrArg (src peer :: ·) ih

theorem writes_sumFrom [Zero β] [Add β] :
    writes (sumFrom peers src r : List (Instr L β ρ)) = [] := by
  rw [sumFrom, writes]
  induction peers with
  | nil => rfl
  | cons peer peers ih => exact ih

theorem reads_storeTo : reads (storeTo peers dst r : List (Instr L β ρ)) = [] := by
  rw [storeTo]
  induction peers with
  | nil => rfl
  | cons peer peers ih => exact ih

theorem writes_storeTo : writes (storeTo peers dst r : List (Instr L β ρ)) = peers.map dst := by
  rw [storeTo]
  induction peers with
  | nil => rfl
  | cons peer peers ih => exact congrArg (dst peer :: ·) ih

end Places

variable {peers : List π} {all used : List ρ} {src dst : π → ρ → L}

theorem reads_reduceEachBody [Zero β] [Add β] :
    reads (reduceEachBody peers all used src dst : List (Instr L β ρ)) =
      used.flatMap fun r => peers.map (src · r) := by
  have none_ : (used.flatMap fun _ => ([] : List L)) = [] :=
    List.flatMap_eq_nil_iff.2 fun _ _ => rfl
  simp only [reduceEachBody, reads_append, reads_sets, reads_flatMap, reads_sumFrom,
    reads_storeTo, none_, List.nil_append, List.append_nil]

theorem writes_reduceEachBody [Zero β] [Add β] :
    writes (reduceEachBody peers all used src dst : List (Instr L β ρ)) =
      used.flatMap fun r => peers.map (dst · r) := by
  have none_ : (used.flatMap fun _ => ([] : List L)) = [] :=
    List.flatMap_eq_nil_iff.2 fun _ _ => rfl
  simp only [reduceEachBody, writes_append, writes_sets, writes_flatMap, writes_sumFrom,
    writes_storeTo, none_, List.nil_append]

variable [DecidableEq L] [DecidableEq ρ] (regs : ρ → β) (mem : L → β)

theorem run_sumFrom [AddMonoid β] (peers : List π) (src : π → L) (r : ρ) :
    run (sumFrom peers src r) regs mem =
      (Function.update regs r (peers.map fun peer => mem (src peer)).sum, mem) := by
  have gather : ∀ regs : ρ → β, run (peers.map fun peer => .load r (src peer) (· + ·)) regs mem =
      (Function.update regs r (regs r + (peers.map fun peer => mem (src peer)).sum), mem) := by
    induction peers with
    | nil =>
      intro regs
      rw [List.map_nil, List.map_nil, List.sum_nil, add_zero, Function.update_eq_self]
      rfl
    | cons peer peers ih =>
      intro regs
      rw [List.map_cons, run, ih, Function.update_self, Function.update_idem, List.map_cons,
        List.sum_cons, add_assoc]
  rw [sumFrom, run, gather, Function.update_self, zero_add, Function.update_idem]

/-- Summing up one register after the other. -/
theorem run_sumEach [AddMonoid β] (peers : List π) (src : π → ρ → L) (nodup : used.Nodup) :
    (run (used.flatMap fun r => sumFrom peers (src · r) r) regs mem).2 = mem ∧
      ∀ r, (run (used.flatMap fun r => sumFrom peers (src · r) r) regs mem).1 r =
        if r ∈ used then (peers.map fun peer => mem (src peer r)).sum else regs r := by
  induction used generalizing regs with
  | nil => exact ⟨rfl, fun r => rfl⟩
  | cons first used ih =>
    rw [List.nodup_cons] at nodup
    rw [List.flatMap_cons, run_append, run_sumFrom]
    obtain ⟨content, loaded⟩ := ih (Function.update regs first
      (peers.map fun peer => mem (src peer first)).sum) nodup.2
    refine ⟨content, fun r => (loaded r).trans ?_⟩
    by_cases later : r ∈ used
    · rw [if_pos later, if_pos (List.mem_cons_of_mem _ later)]
    · rw [if_neg later]
      rcases eq_or_ne r first with rfl | other
      · rw [Function.update_self, if_pos List.mem_cons_self]
      · rw [Function.update_of_ne other, if_neg fun inside =>
          (List.mem_cons.1 inside).elim other later]

theorem run_storeTo (peers : List π) (dst : π → L) (r : ρ) :
    (run (storeTo peers dst r) regs mem).1 = regs ∧
      ∀ peer ∈ peers, (run (storeTo peers dst r) regs mem).2 (dst peer) = regs r := by
  induction peers generalizing mem with
  | nil => exact ⟨rfl, fun peer inside => absurd inside List.not_mem_nil⟩
  | cons first peers ih =>
    obtain ⟨same, stored⟩ := ih (Function.update mem (dst first) (regs r))
    refine ⟨same, fun peer inside => ?_⟩
    change (run (storeTo peers dst r) regs (Function.update mem (dst first) (regs r))).2
      (dst peer) = regs r
    by_cases later : dst peer ∈ peers.map dst
    · obtain ⟨peer', memPeer', target⟩ := List.mem_map.1 later
      rw [← target]
      exact stored peer' memPeer'
    · have target : dst peer = dst first := by
        rcases List.mem_cons.1 inside with rfl | rest
        · rfl
        · exact absurd (List.mem_map_of_mem rest) later
      rw [run_frame (by rwa [writes_storeTo]), target, Function.update_self]

/-- Storing one register after the other. -/
theorem run_storeEach
    (inj : ∀ peer ∈ peers, ∀ r ∈ used, ∀ peer' ∈ peers, ∀ r' ∈ used,
      dst peer r = dst peer' r' → peer = peer' ∧ r = r') :
    ∀ peer ∈ peers, ∀ r ∈ used,
      (run (used.flatMap fun r => storeTo peers (dst · r) r) regs mem).2 (dst peer r) =
        regs r := by
  induction used generalizing mem with
  | nil => exact fun peer _ r memR => absurd memR List.not_mem_nil
  | cons first used ih =>
    intro peer memPeer r memR
    obtain ⟨same, stored⟩ := run_storeTo regs mem peers (dst · first) first
    rw [List.flatMap_cons, run_append, same]
    by_cases later : r ∈ used
    · exact ih _ (fun p memP r memR p' memP' r' memR' => inj p memP r
        (List.mem_cons_of_mem _ memR) p' memP' r' (List.mem_cons_of_mem _ memR')) peer memPeer r
        later
    · obtain rfl := (List.mem_cons.1 memR).resolve_right later
      rw [run_frame, stored peer memPeer]
      rw [writes_flatMap, List.mem_flatMap]
      rintro ⟨r', memR', again⟩
      rw [writes_storeTo, List.mem_map] at again
      obtain ⟨peer', memPeer', target⟩ := again
      refine later ?_
      rwa [← (inj peer' memPeer' r' (List.mem_cons_of_mem _ memR') peer memPeer r
        List.mem_cons_self target).2]

variable [AddMonoid β] {work : Work κ L β} {unit : ρ → κ}

/-- A reduction register by register does a unit for each register that is used. -/
theorem does_reduceEachBody (nodupPeers : peers.Nodup) (nodup : used.Nodup)
    (inj : ∀ peer ∈ peers, ∀ r ∈ used, ∀ peer' ∈ peers, ∀ r' ∈ used,
      dst peer r = dst peer' r' → peer = peer' ∧ r = r')
    (ins : ∀ r ∈ used, ∀ l, l ∈ work.ins (unit r) ↔ ∃ peer ∈ peers, l = src peer r)
    (outs : ∀ r ∈ used, ∀ l, l ∈ work.outs (unit r) ↔ ∃ peer ∈ peers, l = dst peer r)
    (value : ∀ r ∈ used, ∀ m, work.value m (unit r) = (peers.map fun peer => m (src peer r)).sum) :
    Does work (reduceEachBody peers all used src dst) {k | ∃ r ∈ used, k = unit r} := by
  constructor
  · intro l
    rw [reads_reduceEachBody, List.mem_flatMap]
    constructor
    · rintro ⟨r, memR, inRegister⟩
      obtain ⟨peer, memPeer, rfl⟩ := List.mem_map.1 inRegister
      exact ⟨unit r, ⟨r, memR, rfl⟩, (ins r memR _).2 ⟨peer, memPeer, rfl⟩⟩
    · rintro ⟨_, ⟨r, memR, rfl⟩, in_⟩
      obtain ⟨peer, memPeer, rfl⟩ := (ins r memR _).1 in_
      exact ⟨r, memR, List.mem_map.2 ⟨peer, memPeer, rfl⟩⟩
  · intro l
    rw [writes_reduceEachBody, List.mem_flatMap]
    constructor
    · rintro ⟨r, memR, inRegister⟩
      obtain ⟨peer, memPeer, rfl⟩ := List.mem_map.1 inRegister
      exact ⟨unit r, ⟨r, memR, rfl⟩, (outs r memR _).2 ⟨peer, memPeer, rfl⟩⟩
    · rintro ⟨_, ⟨r, memR, rfl⟩, out⟩
      obtain ⟨peer, memPeer, rfl⟩ := (outs r memR _).1 out
      exact ⟨r, memR, List.mem_map.2 ⟨peer, memPeer, rfl⟩⟩
  · rw [writes_reduceEachBody, List.nodup_flatMap]
    constructor
    · exact fun r memR => nodupPeers.map_on fun peer memPeer peer' memPeer' target =>
        (inj peer memPeer r memR peer' memPeer' r memR target).1
    · refine nodup.pairwise_of_forall_ne fun r memR r' memR' ne l inL inL' => ?_
      obtain ⟨peer, memPeer, rfl⟩ := List.mem_map.1 inL
      obtain ⟨peer', memPeer', target⟩ := List.mem_map.1 inL'
      exact ne (inj peer' memPeer' r' memR' peer memPeer r memR target).2.symm
  · rintro regs mem _ ⟨r, memR, rfl⟩ l out
    obtain ⟨peer, memPeer, rfl⟩ := (outs r memR _).1 out
    obtain ⟨sameSets, -⟩ := run_sets (0 : β) regs mem all
    obtain ⟨same, summed⟩ := run_sumEach (run (sets all 0) regs mem).1 mem peers src nodup
    rw [reduceEachBody, run_append, run_append, sameSets, same,
      run_storeEach _ mem inj peer memPeer r memR, summed r, if_pos memR, value r memR]

end ReduceEach

/-! ## Loads and stores in balance -/

section Balanced

variable [DecidableEq L] {l l' : L} {p q : List (Instr L β ρ)}

/-- A program loads from `l` as often as it stores to `l'`. -/
def Balanced (l l' : L) (p : List (Instr L β ρ)) : Prop :=
  (reads p).count l = (writes p).count l'

theorem Balanced.nil : Balanced l l' ([] : List (Instr L β ρ)) := rfl

theorem Balanced.append (first : Balanced l l' p) (second : Balanced l l' q) :
    Balanced l l' (p ++ q) := by
  rw [Balanced] at first second ⊢
  rw [reads_append, writes_append, List.count_append, List.count_append, first, second]

theorem Balanced.flatMap {α : Type*} {xs : List α} {body : α → List (Instr L β ρ)}
    (each : ∀ x ∈ xs, Balanced l l' (body x)) : Balanced l l' (xs.flatMap body) := by
  induction xs with
  | nil => exact Balanced.nil
  | cons x xs ih =>
    rw [List.flatMap_cons]
    exact (each x List.mem_cons_self).append
      (ih fun y inRest => each y (List.mem_cons_of_mem _ inRest))

theorem balanced_reduceEachBody [Zero β] [Add β] {peers : List π} {all used : List ρ}
    {src dst : π → ρ → L} (same : ∀ peer r, src peer r = l ↔ dst peer r = l') :
    Balanced l l' (reduceEachBody peers all used src dst : List (Instr L β ρ)) := by
  rw [Balanced, reads_reduceEachBody, writes_reduceEachBody, List.count_flatMap,
    List.count_flatMap]
  congr 2
  funext r
  rw [Function.comp, Function.comp, List.count_eq_countP, List.count_eq_countP, List.countP_map,
    List.countP_map]
  refine List.countP_congr fun peer _ => ?_
  simp only [Function.comp, beq_iff_eq, same]

end Balanced

end Threads
