import Mathlib

/-!
# Threads on a shared memory

Threads with registers of their own run straight-line programs of loads and
stores on one memory, interleaved in any way. If no thread writes what another
one touches, every interleaving leaves what the threads compute one by one
(`Reachable.finished`); a program that is a sequence of bodies of which no one
writes what a later one touches computes what the bodies compute (`Performs.flatten`).
-/

/-- An instruction on locations `L`, values `β` and registers `ρ`. -/
inductive Instr (L β ρ : Type*)
  | set (r : ρ) (value : β)
  | load (r : ρ) (src : L) (f : β → β → β)
  | store (dst : L) (r : ρ)

namespace Threads

variable {ι L β ρ : Type*}

/-- The locations that a program loads. -/
def reads : List (Instr L β ρ) → List L
  | [] => []
  | .set _ _ :: prog => reads prog
  | .load _ src _ :: prog => src :: reads prog
  | .store _ _ :: prog => reads prog

/-- The locations that a program stores to, once for each store. -/
def writes : List (Instr L β ρ) → List L
  | [] => []
  | .set _ _ :: prog => writes prog
  | .load _ _ _ :: prog => writes prog
  | .store dst _ :: prog => dst :: writes prog

theorem reads_append (p q : List (Instr L β ρ)) : reads (p ++ q) = reads p ++ reads q := by
  induction p with
  | nil => rfl
  | cons instr p ih => cases instr <;> simp only [List.cons_append, reads, ih]

theorem writes_append (p q : List (Instr L β ρ)) : writes (p ++ q) = writes p ++ writes q := by
  induction p with
  | nil => rfl
  | cons instr p ih => cases instr <;> simp only [List.cons_append, writes, ih]

/-- No store of `p` is to what `q` loads or stores. -/
def Apart (p q : List (Instr L β ρ)) : Prop :=
  ∀ l ∈ writes p, l ∉ reads q ∧ l ∉ writes q

/-! ## One thread -/

section Run

variable [DecidableEq L] [DecidableEq ρ]

/-- Registers and memory after a program. -/
def run : List (Instr L β ρ) → (ρ → β) → (L → β) → (ρ → β) × (L → β)
  | [], regs, mem => (regs, mem)
  | .set r value :: prog, regs, mem => run prog (Function.update regs r value) mem
  | .load r src f :: prog, regs, mem =>
    run prog (Function.update regs r (f (regs r) (mem src))) mem
  | .store dst r :: prog, regs, mem => run prog regs (Function.update mem dst (regs r))

theorem run_append (p q : List (Instr L β ρ)) (regs : ρ → β) (mem : L → β) :
    run (p ++ q) regs mem = run q (run p regs mem).1 (run p regs mem).2 := by
  induction p generalizing regs mem with
  | nil => rfl
  | cons instr p ih => cases instr <;> exact ih _ _

/-- What a program does not store to stays. -/
theorem run_frame {prog : List (Instr L β ρ)} {regs : ρ → β} {mem : L → β} {l : L}
    (outside : l ∉ writes prog) : (run prog regs mem).2 l = mem l := by
  induction prog generalizing regs mem with
  | nil => rfl
  | cons instr prog ih =>
    cases instr with
    | set r value => exact ih outside
    | load r src f => exact ih outside
    | store dst r =>
      rw [writes, List.mem_cons, not_or] at outside
      exact (ih outside.2).trans (Function.update_of_ne outside.1 _ _)

/-- A program computes from what it loads: memories that agree there lead to the same
registers and to the same content wherever they agree or the program stores. -/
theorem run_agree {prog : List (Instr L β ρ)} {regs : ρ → β} {mem mem' : L → β} {S : Set L}
    (loads : ∀ l ∈ reads prog, l ∈ S) (agree : ∀ l ∈ S, mem l = mem' l) :
    (run prog regs mem).1 = (run prog regs mem').1 ∧
      ∀ l, l ∈ S ∨ l ∈ writes prog → (run prog regs mem).2 l = (run prog regs mem').2 l := by
  induction prog generalizing regs mem mem' S with
  | nil => exact ⟨rfl, fun l inside => agree l (inside.resolve_right List.not_mem_nil)⟩
  | cons instr prog ih =>
    cases instr with
    | set r value => exact ih loads agree
    | load r src f =>
      have same : mem src = mem' src := agree src (loads src List.mem_cons_self)
      simp only [run, writes, same]
      exact ih (fun l inside => loads l (List.mem_cons_of_mem _ inside)) agree
    | store dst r =>
      have agree_ : ∀ l ∈ insert dst S, Function.update mem dst (regs r) l =
          Function.update mem' dst (regs r) l := by
        intro l inside
        rcases eq_or_ne l dst with rfl | other
        · rw [Function.update_self, Function.update_self]
        · rw [Function.update_of_ne other, Function.update_of_ne other]
          exact agree l (inside.resolve_left other)
      have later := @ih regs _ _ _ (fun l inside => Or.inr (loads l inside)) agree_
      refine ⟨later.1, fun l inside => later.2 l ?_⟩
      rcases inside with old | stored
      · exact .inl (.inr old)
      · rcases List.mem_cons.1 stored with rfl | rest
        · exact .inl (.inl rfl)
        · exact .inr rest

end Run

/-! ## Straight-line loops -/

section Loops

/-- `r = f(r, *src(r))` for each of the registers. -/
def loads (rs : List ρ) (src : ρ → L) (f : β → β → β) : List (Instr L β ρ) :=
  rs.map fun r => .load r (src r) f

/-- `*dst(r) = r` for each of the registers. -/
def stores (rs : List ρ) (dst : ρ → L) : List (Instr L β ρ) := rs.map fun r => .store (dst r) r

/-- `r = value` for each of the registers. -/
def sets (rs : List ρ) (value : β) : List (Instr L β ρ) := rs.map fun r => .set r value

variable (rs : List ρ) (src dst : ρ → L) (f : β → β → β) (value : β)

theorem reads_loads : reads (loads rs src f) = rs.map src := by
  induction rs with
  | nil => rfl
  | cons r rs ih => exact congrArg (src r :: ·) ih

theorem writes_loads : writes (loads rs src f) = [] := by
  induction rs with
  | nil => rfl
  | cons r rs ih => exact ih

theorem reads_stores : reads (stores rs dst : List (Instr L β ρ)) = [] := by
  induction rs with
  | nil => rfl
  | cons r rs ih => exact ih

theorem writes_stores : writes (stores rs dst : List (Instr L β ρ)) = rs.map dst := by
  induction rs with
  | nil => rfl
  | cons r rs ih => exact congrArg (dst r :: ·) ih

theorem reads_sets : reads (sets rs value : List (Instr L β ρ)) = [] := by
  induction rs with
  | nil => rfl
  | cons r rs ih => exact ih

theorem writes_sets : writes (sets rs value : List (Instr L β ρ)) = [] := by
  induction rs with
  | nil => rfl
  | cons r rs ih => exact ih

theorem reads_flatMap {α : Type*} (xs : List α) (body : α → List (Instr L β ρ)) :
    reads (xs.flatMap body) = xs.flatMap fun x => reads (body x) := by
  induction xs with
  | nil => rfl
  | cons x xs ih => rw [List.flatMap_cons, reads_append, ih, List.flatMap_cons]

theorem writes_flatMap {α : Type*} (xs : List α) (body : α → List (Instr L β ρ)) :
    writes (xs.flatMap body) = xs.flatMap fun x => writes (body x) := by
  induction xs with
  | nil => rfl
  | cons x xs ih => rw [List.flatMap_cons, writes_append, ih, List.flatMap_cons]

variable [DecidableEq L] [DecidableEq ρ] {rs dst} (regs : ρ → β) (mem : L → β)

theorem run_sets (rs : List ρ) : (run (sets rs value) regs mem).2 = mem ∧
    ∀ r, (run (sets rs value) regs mem).1 r = if r ∈ rs then value else regs r := by
  induction rs generalizing regs with
  | nil => exact ⟨rfl, fun r => rfl⟩
  | cons first rs ih =>
    obtain ⟨content, set_⟩ := ih (Function.update regs first value)
    refine ⟨content, fun r => (set_ r).trans ?_⟩
    by_cases later : r ∈ rs
    · rw [if_pos later, if_pos (List.mem_cons_of_mem _ later)]
    · rw [if_neg later]
      rcases eq_or_ne r first with rfl | other
      · rw [Function.update_self, if_pos List.mem_cons_self]
      · rw [Function.update_of_ne other, if_neg fun mem =>
          (List.mem_cons.1 mem).elim other later]

theorem run_loads (nodup : rs.Nodup) : (run (loads rs src f) regs mem).2 = mem ∧
    ∀ r, (run (loads rs src f) regs mem).1 r =
      if r ∈ rs then f (regs r) (mem (src r)) else regs r := by
  induction rs generalizing regs with
  | nil => exact ⟨rfl, fun r => rfl⟩
  | cons first rs ih =>
    rw [List.nodup_cons] at nodup
    obtain ⟨content, loaded⟩ := ih (Function.update regs first
      (f (regs first) (mem (src first)))) nodup.2
    refine ⟨content, fun r => (loaded r).trans ?_⟩
    by_cases later : r ∈ rs
    · have other : r ≠ first := fun same => nodup.1 (same ▸ later)
      rw [if_pos later, if_pos (List.mem_cons_of_mem _ later), Function.update_of_ne other]
    · rw [if_neg later]
      rcases eq_or_ne r first with rfl | other
      · rw [Function.update_self, if_pos List.mem_cons_self]
      · rw [Function.update_of_ne other, if_neg fun mem =>
          (List.mem_cons.1 mem).elim other later]

theorem run_stores (inj : ∀ r ∈ rs, ∀ r' ∈ rs, dst r = dst r' → r = r') :
    (run (stores rs dst) regs mem).1 = regs ∧
      ∀ r ∈ rs, (run (stores rs dst) regs mem).2 (dst r) = regs r := by
  induction rs generalizing mem with
  | nil => exact ⟨rfl, fun r mem => absurd mem List.not_mem_nil⟩
  | cons first rs ih =>
    obtain ⟨same, stored⟩ := ih (Function.update mem (dst first) (regs first))
      fun r memR r' memR' => inj r (List.mem_cons_of_mem _ memR) r'
        (List.mem_cons_of_mem _ memR')
    refine ⟨same, fun r memR => ?_⟩
    by_cases later : r ∈ rs
    · exact stored r later
    · obtain rfl := (List.mem_cons.1 memR).resolve_right later
      change (run (stores rs dst) regs (Function.update mem (dst r) (regs r))).2 (dst r) = regs r
      rw [run_frame, Function.update_self]
      intro again
      rw [writes_stores, List.mem_map] at again
      obtain ⟨r', memR', target⟩ := again
      refine later ?_
      rwa [← inj r' (List.mem_cons_of_mem _ memR') r List.mem_cons_self target]

end Loops

/-! ## Units of work -/

/-- What a unit loads, what it stores to, and the value it leaves there. -/
structure Work (κ L β : Type*) where
  ins : κ → Set L
  outs : κ → Set L
  value : (L → β) → κ → β

variable {κ : Type*}

/-- No unit stores to what another one loads or stores. -/
def Work.Separate (work : Work κ L β) (dom : Set κ) : Prop :=
  ∀ k ∈ dom, ∀ k' ∈ dom, k ≠ k' → ∀ l ∈ work.outs k, l ∉ work.ins k' ∧ l ∉ work.outs k'

section Does

variable [DecidableEq L] [DecidableEq ρ]

/-- A program does the units, and stores to each location once. -/
structure Does (work : Work κ L β) (prog : List (Instr L β ρ)) (units : Set κ) : Prop where
  reads : ∀ l, l ∈ reads prog ↔ ∃ k ∈ units, l ∈ work.ins k
  writes : ∀ l, l ∈ writes prog ↔ ∃ k ∈ units, l ∈ work.outs k
  nodup : (Threads.writes prog).Nodup
  leaves : ∀ regs mem, ∀ k ∈ units, ∀ l ∈ work.outs k,
    (run prog regs mem).2 l = work.value mem k

variable {work : Work κ L β} {p q : List (Instr L β ρ)} {dom units units' : Set κ}

theorem Does.congr (does : Does work p units) (same : units = units') : Does work p units' :=
  same ▸ does

theorem Does.nil : Does work ([] : List (Instr L β ρ)) ∅ where
  reads l := by simp [Threads.reads]
  writes l := by simp [Threads.writes]
  nodup := List.nodup_nil
  leaves regs mem k inside := absurd inside (Set.notMem_empty k)

/-- Programs that do different units do not disturb each other. -/
theorem Does.apart (doesP : Does work p units) (doesQ : Does work q units')
    (separate : work.Separate dom) (sub : units ⊆ dom) (sub' : units' ⊆ dom)
    (disjoint : Disjoint units units') : Apart p q := by
  intro l stored
  obtain ⟨k, inUnits, out⟩ := (doesP.writes l).1 stored
  have other : ∀ k' ∈ units', k ≠ k' := fun k' inUnits' =>
    Set.disjoint_left.1 disjoint inUnits |> fun notIn same => notIn (same ▸ inUnits')
  constructor
  · intro loaded
    obtain ⟨k', inUnits', in_⟩ := (doesQ.reads l).1 loaded
    exact (separate k (sub inUnits) k' (sub' inUnits') (other k' inUnits') l out).1 in_
  · intro stored'
    obtain ⟨k', inUnits', out'⟩ := (doesQ.writes l).1 stored'
    exact (separate k (sub inUnits) k' (sub' inUnits') (other k' inUnits') l out).2 out'

theorem Does.append (doesP : Does work p units) (doesQ : Does work q units')
    (separate : work.Separate dom) (sub : units ⊆ dom) (sub' : units' ⊆ dom)
    (disjoint : Disjoint units units') : Does work (p ++ q) (units ∪ units') := by
  have apart := doesP.apart doesQ separate sub sub' disjoint
  constructor
  · intro l
    rw [reads_append, List.mem_append, doesP.reads, doesQ.reads]
    simp only [Set.mem_union, or_and_right, exists_or]
  · intro l
    rw [writes_append, List.mem_append, doesP.writes, doesQ.writes]
    simp only [Set.mem_union, or_and_right, exists_or]
  · rw [writes_append]
    exact doesP.nodup.append doesQ.nodup fun l stored stored' => (apart l stored).2 stored'
  · intro regs mem k inside l out
    rw [run_append]
    rcases inside with first | second
    · rw [run_frame (apart l ((doesP.writes l).2 ⟨k, first, out⟩)).2]
      exact doesP.leaves regs mem k first l out
    · rw [← doesQ.leaves (run p regs mem).1 mem k second l out]
      refine (run_agree (S := {l | l ∉ Threads.writes p}) (fun l' loaded stored => ?_) ?_).2 l
        (.inr ((doesQ.writes l).2 ⟨k, second, out⟩))
      · exact (apart l' stored).1 loaded
      · exact fun l' untouched => run_frame untouched

/-- Programs one after the other that do different units. -/
theorem Does.flatMap {α : Type*} {xs : List α} {body : α → List (Instr L β ρ)}
    {unitsOf : α → Set κ} (each : ∀ x ∈ xs, Does work (body x) (unitsOf x))
    (separate : work.Separate dom) (sub : ∀ x ∈ xs, unitsOf x ⊆ dom)
    (disjoint : xs.Pairwise fun x y => Disjoint (unitsOf x) (unitsOf y)) :
    Does work (xs.flatMap body) {k | ∃ x ∈ xs, k ∈ unitsOf x} := by
  induction xs with
  | nil =>
    have none_ : {k | ∃ x ∈ ([] : List α), k ∈ unitsOf x} = ∅ := by simp
    rw [none_]
    exact Does.nil
  | cons x xs ih =>
    rw [List.pairwise_cons] at disjoint
    have rest := ih (fun y mem => each y (List.mem_cons_of_mem _ mem))
      (fun y mem => sub y (List.mem_cons_of_mem _ mem)) disjoint.2
    have all : {k | ∃ y ∈ x :: xs, k ∈ unitsOf y} =
        unitsOf x ∪ {k | ∃ y ∈ xs, k ∈ unitsOf y} := by
      ext k
      simp only [Set.mem_ofPred_eq, Set.mem_union, List.mem_cons, exists_eq_or_imp]
    rw [all, List.flatMap_cons]
    refine (each x List.mem_cons_self).append rest separate (sub x List.mem_cons_self) ?_ ?_
    · rintro k ⟨y, mem, inside⟩
      exact sub y (List.mem_cons_of_mem _ mem) inside
    · rw [Set.disjoint_left]
      rintro k inside ⟨y, mem, inside'⟩
      exact Set.disjoint_left.1 (disjoint.1 y mem) inside inside'

end Does

/-! ## All threads -/

/-- What the threads have left to run, their registers, and the memory. -/
structure State (ι L β ρ : Type*) where
  rest : ι → List (Instr L β ρ)
  regs : ι → ρ → β
  mem : L → β

section Interleaving

variable [DecidableEq ι] [DecidableEq L] [DecidableEq ρ]

/-- A live thread runs its next instruction. -/
inductive Step (live : Finset ι) : State ι L β ρ → State ι L β ρ → Prop
  | instr {s : State ι L β ρ} {i : ι} {instr : Instr L β ρ} {rest : List (Instr L β ρ)}
      (mem : i ∈ live) (head : s.rest i = instr :: rest) :
      Step live s
        ⟨Function.update s.rest i rest,
          Function.update s.regs i (run [instr] (s.regs i) s.mem).1,
          (run [instr] (s.regs i) s.mem).2⟩

/-- States of the threads with programs `prog`, started with registers `regs₀` on the
memory `m₀`. -/
def Reachable (live : Finset ι) (prog : ι → List (Instr L β ρ)) (regs₀ : ι → ρ → β)
    (m₀ : L → β) (s : State ι L β ρ) : Prop :=
  Relation.ReflTransGen (Step live) ⟨prog, regs₀, m₀⟩ s

def State.Finished (live : Finset ι) (s : State ι L β ρ) : Prop := ∀ i ∈ live, s.rest i = []

/-- The instructions left in all threads. -/
def State.remaining (live : Finset ι) (s : State ι L β ρ) : Nat :=
  ∑ i ∈ live, (s.rest i).length

variable {live : Finset ι} {prog : ι → List (Instr L β ρ)} {regs₀ : ι → ρ → β} {m₀ : L → β}
  {s t : State ι L β ρ}

theorem Step.remaining_lt (step : Step live s t) : t.remaining live < s.remaining live := by
  cases step with
  | @instr i instr rest mem head =>
    refine Finset.sum_lt_sum (fun j _ => ?_) ⟨i, mem, ?_⟩
    · dsimp only
      rcases eq_or_ne j i with rfl | other
      · rw [Function.update_self, head]
        exact Nat.le_succ _
      · rw [Function.update_of_ne other]
    · dsimp only
      rw [Function.update_self, head]
      exact Nat.lt_succ_self _

/-- Threads do not wait for each other, and every instruction leaves fewer. -/
theorem State.progress (unfinished : ¬ s.Finished live) :
    ∃ t, Step live s t ∧ t.remaining live < s.remaining live := by
  unfold Finished at unfinished
  push Not at unfinished
  obtain ⟨i, mem, more⟩ := unfinished
  obtain ⟨instr, rest, head⟩ := List.exists_cons_of_ne_nil more
  have step := Step.instr mem head
  exact ⟨_, step, step.remaining_lt⟩

/-- Every thread is where it would be if it had run alone. -/
structure Inv (live : Finset ι) (prog : ι → List (Instr L β ρ)) (regs₀ : ι → ρ → β) (m₀ : L → β)
    (s : State ι L β ρ) : Prop where
  alone : ∀ i ∈ live, ∃ done, prog i = done ++ s.rest i ∧
    s.regs i = (run done (regs₀ i) m₀).1 ∧
    ∀ l, l ∈ reads (prog i) ∨ l ∈ writes (prog i) → s.mem l = (run done (regs₀ i) m₀).2 l
  frame : ∀ l, (∀ i ∈ live, l ∉ writes (prog i)) → s.mem l = m₀ l

theorem Inv.step (apart : ∀ i ∈ live, ∀ j ∈ live, i ≠ j → Apart (prog i) (prog j))
    (inv : Inv live prog regs₀ m₀ s) (step : Step live s t) : Inv live prog regs₀ m₀ t := by
  cases step with
  | @instr i instr rest mem head =>
    obtain ⟨done, split_, regs, content⟩ := inv.alone i mem
    rw [head] at split_
    have loads : ∀ l ∈ reads [instr], l ∈ reads (prog i) := by
      intro l inside
      rw [split_, ← List.singleton_append, reads_append, reads_append]
      exact List.mem_append_right _ (List.mem_append_left _ inside)
    have stores : ∀ l ∈ writes [instr], l ∈ writes (prog i) := by
      intro l inside
      rw [split_, ← List.singleton_append, writes_append, writes_append]
      exact List.mem_append_right _ (List.mem_append_left _ inside)
    constructor
    · intro j memJ
      dsimp only
      rcases eq_or_ne j i with rfl | other
      · refine ⟨done ++ [instr], ?_, ?_, ?_⟩
        · rw [Function.update_self, split_, List.append_assoc, List.singleton_append]
        · rw [Function.update_self, run_append, regs]
          exact (run_agree (S := {l | l ∈ reads (prog j) ∨ l ∈ writes (prog j)})
            (fun l inside => .inl (loads l inside)) content).1
        · intro l touched
          rw [run_append, regs]
          exact (run_agree (fun l inside => .inl (loads l inside)) content).2 l (.inl touched)
      · obtain ⟨done', split', regs', content'⟩ := inv.alone j memJ
        refine ⟨done', ?_, ?_, ?_⟩
        · rw [Function.update_of_ne other]
          exact split'
        · rw [Function.update_of_ne other]
          exact regs'
        · intro l touched
          rw [run_frame, content' l touched]
          intro stored
          have untouched := apart i mem j memJ other.symm l (stores l stored)
          exact touched.elim untouched.1 untouched.2
    · intro l outside
      dsimp only
      rw [run_frame fun stored => outside i mem (stores l stored), inv.frame l outside]

theorem Reachable.inv (apart : ∀ i ∈ live, ∀ j ∈ live, i ≠ j → Apart (prog i) (prog j))
    (reach : Reachable live prog regs₀ m₀ s) : Inv live prog regs₀ m₀ s := by
  induction reach with
  | refl => exact ⟨fun i _ => ⟨[], rfl, rfl, fun _ _ => rfl⟩, fun _ _ => rfl⟩
  | tail _ step ih => exact ih.step apart step

section Sharing

variable {κ : Type*} {work : Work κ L β} {dom : Set κ} {units : ι → Set κ}

/-- Threads share out the units of a domain. -/
structure Shares (work : Work κ L β) (dom : Set κ) (live : Finset ι)
    (prog : ι → List (Instr L β ρ)) (units : ι → Set κ) : Prop where
  separate : work.Separate dom
  each : ∀ i ∈ live, Does work (prog i) (units i)
  sub : ∀ i ∈ live, units i ⊆ dom
  once : ∀ i ∈ live, ∀ j ∈ live, i ≠ j → Disjoint (units i) (units j)
  all : ∀ k ∈ dom, ∃ i ∈ live, k ∈ units i

omit [DecidableEq ι] in
/-- What a unit stores to is stored to by its thread, once, and by no other thread. -/
theorem Shares.writes_once (shares : Shares work dom live prog units) {k : κ} (mem : k ∈ dom)
    {l : L} (out : l ∈ work.outs k) : ∑ i ∈ live, (writes (prog i)).count l = 1 := by
  obtain ⟨i, memI, inUnits⟩ := shares.all k mem
  have does := shares.each i memI
  rw [Finset.sum_eq_single_of_mem i memI]
  · exact List.count_eq_one_of_mem does.nodup ((does.writes l).2 ⟨k, inUnits, out⟩)
  · intro j memJ other
    refine List.count_eq_zero.2 fun stored => ?_
    obtain ⟨k', inUnits', out'⟩ := ((shares.each j memJ).writes l).1 stored
    have ne : k ≠ k' := by
      rintro rfl
      exact Set.disjoint_left.1 (shares.once j memJ i memI other) inUnits' inUnits
    exact (shares.separate k mem k' (shares.sub j memJ inUnits') ne l out).2 out'

omit [DecidableEq ι] in
/-- Nothing else is stored to. -/
theorem Shares.writes_frame (shares : Shares work dom live prog units) {l : L}
    (outside : ∀ k ∈ dom, l ∉ work.outs k) : ∑ i ∈ live, (writes (prog i)).count l = 0 := by
  refine Finset.sum_eq_zero fun i mem => List.count_eq_zero.2 fun stored => ?_
  obtain ⟨k, inUnits, out⟩ := ((shares.each i mem).writes l).1 stored
  exact outside k (shares.sub i mem inUnits) out

omit [DecidableEq ι] in
/-- Threads touch nothing but the places of units. -/
theorem Shares.touches (shares : Shares work dom live prog units) {i : ι} (mem : i ∈ live) :
    (∀ l ∈ reads (prog i), ∃ k ∈ dom, l ∈ work.ins k) ∧
      ∀ l ∈ writes (prog i), ∃ k ∈ dom, l ∈ work.outs k := by
  constructor
  · intro l loaded
    obtain ⟨k, inUnits, in_⟩ := ((shares.each i mem).reads l).1 loaded
    exact ⟨k, shares.sub i mem inUnits, in_⟩
  · intro l stored
    obtain ⟨k, inUnits, out⟩ := ((shares.each i mem).writes l).1 stored
    exact ⟨k, shares.sub i mem inUnits, out⟩

/-- If units load from different places, one thread loads and stores all of a unit. -/
theorem Shares.one_thread (shares : Shares work dom live prog units)
    (differ : ∀ k ∈ dom, ∀ k' ∈ dom, ∀ l ∈ work.ins k, l ∈ work.ins k' → k = k') {k : κ}
    (mem : k ∈ dom) :
    ∃ i ∈ live, ∀ j ∈ live, (∀ l ∈ work.ins k, l ∈ reads (prog j) ↔ j = i) ∧
      ∀ l ∈ work.outs k, (writes (prog j)).count l = if j = i then 1 else 0 := by
  obtain ⟨i, memI, inUnits⟩ := shares.all k mem
  have only : ∀ j ∈ live, k ∈ units j → j = i := by
    intro j memJ inUnits'
    by_contra other
    exact Set.disjoint_left.1 (shares.once j memJ i memI other) inUnits' inUnits
  refine ⟨i, memI, fun j memJ => ⟨fun l in_ => ?_, fun l out => ?_⟩⟩
  · rw [(shares.each j memJ).reads l]
    constructor
    · rintro ⟨k', inUnits', in'⟩
      obtain rfl := differ k mem k' (shares.sub j memJ inUnits') l in_ in'
      exact only j memJ inUnits'
    · rintro rfl
      exact ⟨k, inUnits, in_⟩
  · split
    case isTrue same =>
      subst same
      exact List.count_eq_one_of_mem (shares.each j memJ).nodup
        (((shares.each j memJ).writes l).2 ⟨k, inUnits, out⟩)
    case isFalse other =>
      refine List.count_eq_zero.2 fun stored => ?_
      obtain ⟨k', inUnits', out'⟩ := ((shares.each j memJ).writes l).1 stored
      have ne : k ≠ k' := by
        rintro rfl
        exact other (only j memJ inUnits')
      exact (shares.separate k mem k' (shares.sub j memJ inUnits') ne l out).2 out'

/-- **Every interleaving does the work** that the threads share. -/
theorem Shares.finished (shares : Shares work dom live prog units)
    (reach : Reachable live prog regs₀ m₀ s) (finished : s.Finished live) :
    (∀ k ∈ dom, ∀ l ∈ work.outs k, s.mem l = work.value m₀ k) ∧
      ∀ l, (∀ k ∈ dom, l ∉ work.outs k) → s.mem l = m₀ l := by
  have inv := reach.inv fun i memI j memJ ne =>
    (shares.each i memI).apart (shares.each j memJ) shares.separate (shares.sub i memI)
      (shares.sub j memJ) (shares.once i memI j memJ ne)
  constructor
  · intro k memK l out
    obtain ⟨i, mem, inUnits⟩ := shares.all k memK
    have does := shares.each i mem
    obtain ⟨done, split_, -, content⟩ := inv.alone i mem
    rw [finished i mem, List.append_nil] at split_
    rw [content l (.inr ((does.writes l).2 ⟨k, inUnits, out⟩)), ← split_]
    exact does.leaves _ _ k inUnits l out
  · intro l outside
    refine inv.frame l fun i mem stored => ?_
    obtain ⟨k, inUnits, out⟩ := ((shares.each i mem).writes l).1 stored
    exact outside k (shares.sub i mem inUnits) out

/-- Programs that share the same work leave the same memory. -/
theorem Shares.mem_eq {prog' : ι → List (Instr L β ρ)} {units' : ι → Set κ}
    {regs₀' : ι → ρ → β} {s' : State ι L β ρ} (shares : Shares work dom live prog units)
    (shares' : Shares work dom live prog' units') (reach : Reachable live prog regs₀ m₀ s)
    (finished : s.Finished live) (reach' : Reachable live prog' regs₀' m₀ s')
    (finished' : s'.Finished live) : s.mem = s'.mem := by
  obtain ⟨done, frame⟩ := shares.finished reach finished
  obtain ⟨done', frame'⟩ := shares'.finished reach' finished'
  funext l
  by_cases stored : ∃ k ∈ dom, l ∈ work.outs k
  · obtain ⟨k, mem, out⟩ := stored
    rw [done k mem l out, done' k mem l out]
  · push Not at stored
    rw [frame l stored, frame' l stored]

end Sharing

end Interleaving

end Threads
