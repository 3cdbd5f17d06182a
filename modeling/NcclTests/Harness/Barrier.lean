import Mathlib
import NcclTests.Lib.Rendezvous

/-!
# The rendezvous of the benchmark threads

`Barrier`, `Allreduce` and `GatherProcessMaxIterTimes` of one process, as three
instances of the rendezvous on two counters. `Barrier` shares nothing; `Allreduce`
accumulates the threads' values and reads the accumulator after the lock is dropped;
`GatherProcessMaxIterTimes` keeps the elementwise maximum of the threads' rows and
copies it out under the lock.

There are `n + 1` threads. The arguments of every thread's `k`-th call are functions
of the thread and of `k`.
-/

namespace NcclTests.Harness

open Rendezvous

variable {n : Nat}

/-! ## Barrier -/

def Barrier (calls : Fin (n + 1) → Nat) : Rendezvous (Fin (n + 1)) Unit where
  last := Fin.last n
  enter _ _ _ nothing := nothing
  finish _ nothing := nothing
  calls := calls

/-- **`Barrier` is reusable.** In every reachable state, a thread past its `k`-th call leaves all
others at least inside theirs; a thread about to count itself finds nobody inside an
earlier call of its epoch; and where every thread makes the call a thread has come to,
some thread can step.

Every waiting thread may wake up at any time. The thread with the last number resets the counter of
an epoch once all have counted themselves, and a thread that is a call ahead has the other epoch, so
that nobody who still tests the condition of the last call sees the counter of the next one. -/
theorem barrier_reusable (calls : Fin (n + 1) → Nat) (s : State (Fin (n + 1)) Unit)
    (reachable : (Barrier calls).Reachable (fun _ => ()) s) :
    (∀ t u k, k < (s.thread t).round → (s.thread u).Entered k) ∧
    (∀ t u, (s.thread t).position = .outside → (s.thread u).position ≠ .outside →
      (s.thread u).round < (s.thread t).round → (s.thread u).epoch ≠ (s.thread t).epoch) ∧
    (∀ t, (∀ u, (s.thread t).round < calls u) → ∃ s', (Barrier calls).Step s s') :=
  ⟨fun _ u _ returned => reachable.entered_of_returned returned u,
    fun _ u outside _ earlier => reachable.not_inside_earlier outside u earlier,
    fun _ everyone => reachable.exists_step everyone⟩

/-- Two threads: the second has returned from its first call and is about to count itself
again, while the first, woken, has yet to test its condition. -/
theorem barrier_reusable_two :
    let P := Barrier (n := 1) fun _ => 3
    let s := (P.check (P.arrive (P.check (P.arrive (.initial fun _ => ()) 0) 0) 1) 1).leave 1 ()
    P.Reachable (fun _ => ()) s ∧
    (s.thread 0).position = .testing ∧ (s.thread 0).round = 0 ∧
    (s.thread 1).position = .outside ∧ (s.thread 1).round = 1 ∧
    (∀ t u k, k < (s.thread t).round → (s.thread u).Entered k) ∧
    (∀ t u, (s.thread t).position = .outside → (s.thread u).position ≠ .outside →
      (s.thread u).round < (s.thread t).round → (s.thread u).epoch ≠ (s.thread t).epoch) ∧
    (∀ t, (∀ _u : Fin 2, (s.thread t).round < 3) → ∃ s', P.Step s s') := by
  intro P s
  have first : P.Reachable (fun _ => ()) (P.check (P.arrive (.initial fun _ => ()) 0) 0) :=
    .step .initial (.enter rfl (by decide))
  have reachable : P.Reachable (fun _ => ()) s :=
    .step (.step first (.enter rfl (by decide))) (.leave rfl)
  exact ⟨reachable, rfl, rfl, rfl, rfl, barrier_reusable (fun _ => 3) s reachable⟩

/-! ## Folds over all threads -/

section

variable {T : Type*}

theorem foldl_min_eq_inf' [LinearOrder T] (values : Fin (n + 1) → T) {t : Fin (n + 1)}
    {rest : List (Fin (n + 1))} (all : ∀ u, u ∈ t :: rest) :
    rest.foldl (fun d u => min d (values u)) (values t) =
      Finset.univ.inf' Finset.univ_nonempty values := by
  have bound (x : T) : ∀ (l : List (Fin (n + 1))) (d : T),
      x ≤ l.foldl (fun d u => min d (values u)) d ↔ x ≤ d ∧ ∀ u ∈ l, x ≤ values u := by
    intro l
    induction l with
    | nil => simp
    | cons u l ih =>
      intro d
      rw [List.foldl_cons, ih, le_min_iff, List.forall_mem_cons, and_assoc]
  refine eq_of_forall_le_iff fun x => ?_
  rw [bound, Finset.le_inf'_iff]
  constructor
  · rintro ⟨first, others⟩ u -
    rcases List.mem_cons.1 (all u) with rfl | later
    · exact first
    · exact others u later
  · intro below
    exact ⟨below t (Finset.mem_univ t), fun u _ => below u (Finset.mem_univ u)⟩

theorem foldl_max_eq_sup' [LinearOrder T] (values : Fin (n + 1) → T) {t : Fin (n + 1)}
    {rest : List (Fin (n + 1))} (all : ∀ u, u ∈ t :: rest) :
    rest.foldl (fun d u => max d (values u)) (values t) =
      Finset.univ.sup' Finset.univ_nonempty values :=
  foldl_min_eq_inf' (T := Tᵒᵈ) values all

theorem foldl_add_eq_sum [AddCommMonoid T] (values : Fin (n + 1) → T) {t : Fin (n + 1)}
    {rest : List (Fin (n + 1))} (nodup : (t :: rest).Nodup) (all : ∀ u, u ∈ t :: rest) :
    rest.foldl (fun d u => d + values u) (values t) = ∑ u, values u := by
  have split (l : List (Fin (n + 1))) (d : T) :
      l.foldl (fun d u => d + values u) d = d + (l.map values).sum := by
    induction l generalizing d with
    | nil => simp
    | cons u l ih => rw [List.foldl_cons, ih, List.map_cons, List.sum_cons, add_assoc]
  have everyone : (t :: rest).toFinset = Finset.univ :=
    Finset.eq_univ_iff_forall.2 fun u => List.mem_toFinset.2 (all u)
  rw [split, ← everyone, List.sum_toFinset values nodup, List.map_cons, List.sum_cons]

/-- Thread 0 sets the value whenever it comes. -/
theorem foldl_rank0 (values : Fin (n + 1) → T) (l : List (Fin (n + 1))) (d : T) :
    l.foldl (fun d u => if u = 0 then values u else d) d = if 0 ∈ l then values 0 else d := by
  induction l generalizing d with
  | nil => rfl
  | cons u l ih =>
    rw [List.foldl_cons, ih]
    by_cases later : (0 : Fin (n + 1)) ∈ l
    · rw [if_pos later, if_pos (List.mem_cons_of_mem u later)]
    rw [if_neg later]
    by_cases zero : u = 0
    · rw [if_pos zero, zero, if_pos List.mem_cons_self]
    · rw [if_neg zero, if_neg (by simp [later, Ne.symm zero])]

end

/-! ## Allreduce -/

/-- The argument `average`. -/
inductive Average
  | rank0
  | avg
  | min
  | max
  | sum
  deriving DecidableEq, Repr

section

variable {T : Type*} [AddCommMonoid T] [LinearOrder T]

/-- `divide` is the division by `totalProcs * nThreads`, with one process. -/
def Allreduce (calls : Fin (n + 1) → Nat) (divide : T → Nat → T) (average : Nat → Average)
    (value : Fin (n + 1) → Nat → T) : Rendezvous (Fin (n + 1)) T where
  last := Fin.last n
  enter t k empty accumulator :=
    if empty then if average k ≠ .rank0 ∨ t = 0 then value t k else accumulator
    else
      match average k with
      | .rank0 => if t = 0 then value t k else accumulator
      | .avg => accumulator + value t k
      | .min => min accumulator (value t k)
      | .max => max accumulator (value t k)
      | .sum => accumulator + value t k
  finish k accumulator :=
    if average k = .avg then divide accumulator (1 * (n + 1)) else accumulator
  calls := calls

/-- What the threads are to agree on. -/
def reduced (divide : T → Nat → T) (average : Average) (values : Fin (n + 1) → T) : T :=
  match average with
  | .rank0 => values 0
  | .avg => divide (∑ t, values t) (1 * (n + 1))
  | .min => Finset.univ.inf' Finset.univ_nonempty values
  | .max => Finset.univ.sup' Finset.univ_nonempty values
  | .sum => ∑ t, values t

variable {calls : Fin (n + 1) → Nat} {divide : T → Nat → T} {average : Nat → Average}
  {value : Fin (n + 1) → Nat → T}

/-- The order in which the threads arrive does not matter. -/
theorem allreduce_entered (k : Nat) (d : T) {l : List (Fin (n + 1))} (nodup : l.Nodup)
    (all : ∀ t, t ∈ l) :
    (Allreduce calls divide average value).finish k
        ((Allreduce calls divide average value).entered k d l) =
      reduced divide (average k) fun t => value t k := by
  obtain ⟨t, rest, rfl⟩ := List.exists_cons_of_ne_nil (List.ne_nil_of_mem (all 0))
  simp only [Allreduce, entered, reduced]
  cases average k with
  | rank0 =>
    simp only [reduceCtorEq, if_false, if_true, Bool.false_eq_true, ne_eq, not_true_eq_false,
      false_or]
    rw [foldl_rank0 fun u => value u k]
    by_cases later : 0 ∈ rest
    · rw [if_pos later]
    · have first : t = 0 := ((List.mem_cons.1 (all 0)).resolve_right later).symm
      rw [if_neg later, if_pos first, first]
  | avg =>
    simp only [if_true, Bool.false_eq_true, if_false, ne_eq, reduceCtorEq, not_false_eq_true,
      true_or]
    rw [foldl_add_eq_sum (fun t => value t k) nodup all]
  | min =>
    simpa using foldl_min_eq_inf' (fun t => value t k) all
  | max => simpa using foldl_max_eq_sup' (fun t => value t k) all
  | sum => simpa using foldl_add_eq_sum (fun t => value t k) nodup all

/-- The value each thread obtains from its `k`-th call. -/
theorem allreduce_returned {accumulator : Bool → T} {s : State (Fin (n + 1)) T}
    (reachable : (Allreduce calls divide average value).Reachable accumulator s)
    {t : Fin (n + 1)} {k : Nat} {r : T × T} (returned : (s.thread t).returned[k]? = some r) :
    r.2 = reduced divide (average k) fun u => value u k := by
  obtain ⟨d, l, nodup, all, same⟩ := reachable.outcome k
  rw [same t r returned]
  exact allreduce_entered k d nodup all

end

/-! ## GatherProcessMaxIterTimes -/

/-- The static buffers of one epoch, with the row copied to the caller's buffer. -/
structure GatherBuf (A T : Type*) where
  sendBuf : Nat → T
  sendBufIters : Nat
  recvPtr : Option A
  received : Option (A × List T)

section

variable {A T : Type*} [LinearOrder T]

def GatherProcessMaxIterTimes (calls : Fin (n + 1) → Nat) (nIters : Nat → Nat)
    (localTimes : Fin (n + 1) → Nat → Nat → T) (recvBuf : Fin (n + 1) → Nat → Option A) :
    Rendezvous (Fin (n + 1)) (GatherBuf A T) where
  last := Fin.last n
  enter t k empty b :=
    { sendBuf := fun i =>
        if i < nIters k then
          if empty then localTimes t k i else max (b.sendBuf i) (localTimes t k i)
        else b.sendBuf i
      sendBufIters := if b.sendBufIters < nIters k then nIters k else b.sendBufIters
      recvPtr := if t = 0 then recvBuf t k else b.recvPtr
      received := b.received }
  finish k b :=
    match b.recvPtr with
    | some p => { b with received := some (p, (List.range (nIters k)).map b.sendBuf) }
    | none => b
  calls := calls

variable {calls : Fin (n + 1) → Nat} {nIters : Nat → Nat}
  {localTimes : Fin (n + 1) → Nat → Nat → T} {recvBuf : Fin (n + 1) → Nat → Option A}

theorem gather_entered (k : Nat) (b : GatherBuf A T) {l : List (Fin (n + 1))}
    (all : ∀ t, t ∈ l) {i : Nat} (inside : i < nIters k) :
    ((GatherProcessMaxIterTimes calls nIters localTimes recvBuf).finish k
        ((GatherProcessMaxIterTimes calls nIters localTimes recvBuf).entered k b l)).sendBuf i =
      Finset.univ.sup' Finset.univ_nonempty fun t => localTimes t k i := by
  obtain ⟨t, rest, rfl⟩ := List.exists_cons_of_ne_nil (List.ne_nil_of_mem (all 0))
  have finished (b : GatherBuf A T) :
      ((GatherProcessMaxIterTimes calls nIters localTimes recvBuf).finish k b).sendBuf =
        b.sendBuf := by
    simp only [GatherProcessMaxIterTimes]
    cases b.recvPtr <;> rfl
  have column (l : List (Fin (n + 1))) (b : GatherBuf A T) :
      (l.foldl (fun d u => (GatherProcessMaxIterTimes calls nIters localTimes recvBuf).enter u k
        false d) b).sendBuf i = l.foldl (fun d u => max d (localTimes u k i)) (b.sendBuf i) := by
    induction l generalizing b with
    | nil => rfl
    | cons u l ih =>
      rw [List.foldl_cons, List.foldl_cons, ih]
      simp [GatherProcessMaxIterTimes, inside]
  rw [finished, entered, column, ← foldl_max_eq_sup' _ all]
  simp [GatherProcessMaxIterTimes, inside]

/-- The row each thread leaves its `k`-th call with. -/
theorem gather_returned {buf : Bool → GatherBuf A T} {s : State (Fin (n + 1)) (GatherBuf A T)}
    (reachable : (GatherProcessMaxIterTimes calls nIters localTimes recvBuf).Reachable buf s)
    {t : Fin (n + 1)} {k : Nat} {r : GatherBuf A T × GatherBuf A T}
    (returned : (s.thread t).returned[k]? = some r) {i : Nat} (inside : i < nIters k) :
    r.1.sendBuf i = Finset.univ.sup' Finset.univ_nonempty fun u => localTimes u k i := by
  obtain ⟨b, l, -, all, same⟩ := reachable.outcome k
  rw [same t r returned]
  exact gather_entered k b all inside

end

/-- **All threads agree.** The values all threads obtain from their `k`-th calls are of `Allreduce`
the reduction of exactly the `k`-th values, of `GatherProcessMaxIterTimes` the elementwise maximum
of exactly the `k`-th rows. The values are there to be had: where every thread makes the call
a thread has come to, some thread can step, and steps alone lead on from any state to one
where all threads have returned from their first `N` calls, if all make as many.

The data of a call is what every thread has entered once, in some order (`Reachable.outcome`), and
no thread enters the next call of the same epoch before all have read it, `Allreduce` after the
lock is dropped; the order makes no difference (`allreduce_entered`, `gather_entered`). -/
theorem threads_agree {T A : Type*} [AddCommMonoid T] [LinearOrder T]
    (calls : Fin (n + 1) → Nat) (divide : T → Nat → T) (average : Nat → Average)
    (value : Fin (n + 1) → Nat → T) (nIters : Nat → Nat)
    (localTimes : Fin (n + 1) → Nat → Nat → T) (recvBuf : Fin (n + 1) → Nat → Option A) :
    (∀ (accumulator : Bool → T) (s : State (Fin (n + 1)) T),
      (Allreduce calls divide average value).Reachable accumulator s →
      (∀ (t : Fin (n + 1)) (k : Nat) (r : T × T), (s.thread t).returned[k]? = some r →
        r.2 = reduced divide (average k) fun u => value u k) ∧
      (∀ t, (∀ u, (s.thread t).round < calls u) →
        ∃ s', (Allreduce calls divide average value).Step s s') ∧
      ∀ N, (∀ u, N ≤ calls u) →
        ∃ s', Relation.ReflTransGen (Allreduce calls divide average value).Step s s' ∧
          ∀ u, N ≤ (s'.thread u).round) ∧
    (∀ (buf : Bool → GatherBuf A T) (s : State (Fin (n + 1)) (GatherBuf A T)),
      (GatherProcessMaxIterTimes calls nIters localTimes recvBuf).Reachable buf s →
      (∀ (t : Fin (n + 1)) (k : Nat) (r : GatherBuf A T × GatherBuf A T),
        (s.thread t).returned[k]? = some r → ∀ i < nIters k,
          r.1.sendBuf i = Finset.univ.sup' Finset.univ_nonempty fun u => localTimes u k i) ∧
      (∀ t, (∀ u, (s.thread t).round < calls u) →
        ∃ s', (GatherProcessMaxIterTimes calls nIters localTimes recvBuf).Step s s') ∧
      ∀ N, (∀ u, N ≤ calls u) →
        ∃ s', Relation.ReflTransGen
            (GatherProcessMaxIterTimes calls nIters localTimes recvBuf).Step s s' ∧
          ∀ u, N ≤ (s'.thread u).round) := by
  refine ⟨fun _ s reachable => ⟨?_, ?_, ?_⟩, fun _ s reachable => ⟨?_, ?_, ?_⟩⟩
  · intro t k r returned
    exact allreduce_returned reachable returned
  · intro t everyone
    exact reachable.exists_step everyone
  · intro N everyone
    exact reachable.exists_returned everyone
  · intro t k r returned i inside
    exact gather_returned reachable returned inside
  · intro t everyone
    exact reachable.exists_step everyone
  · intro N everyone
    exact reachable.exists_returned everyone

/-- Two threads with two calls of each kind. The average of 4 and 8 comes back from the
first reduction and the maximum of 5 and 8 from the second; the second rows `1 5` and
`3 2` come back as `3 5`. -/
theorem threads_agree_two :
    let average := fun k => if k = 0 then Average.avg else .max
    let value : Fin 2 → Nat → Int := fun t k => if t = 0 then 4 + k else 8
    let localTimes : Fin 2 → Nat → Nat → Int := fun t k i =>
      if k = 0 then 7 else if t = 0 then 1 + 4 * i else 3 - i
    (∃ s, (Allreduce (n := 1) (fun _ => 2) (fun (x : Int) n => x / n) average value).Reachable
        (fun _ => 0) s ∧ ∀ t, ∃ r r', (s.thread t).returned[0]? = some r ∧ r.2 = 6 ∧
          (s.thread t).returned[1]? = some r' ∧ r'.2 = 8) ∧
    (∃ s, (GatherProcessMaxIterTimes (n := 1) (fun _ => 2) (fun _ => 2) localTimes
        fun _ _ => some ()).Reachable (fun _ => ⟨fun _ => 0, 0, none, none⟩) s ∧
      ∀ t, ∃ r, (s.thread t).returned[1]? = some r ∧ r.1.sendBuf 0 = 3 ∧ r.1.sendBuf 1 = 5) := by
  intro average value localTimes
  obtain ⟨sums, rows⟩ := threads_agree (fun _ : Fin 2 => 2) (fun (x : Int) n => x / n) average
    value (fun _ => 2) localTimes fun _ _ => some ()
  constructor
  · obtain ⟨-, -, progress⟩ := sums (fun _ => 0) _ .initial
    obtain ⟨s, steps, returned⟩ := progress 2 fun _ => le_rfl
    have reachable := Reachable.initial.steps steps
    refine ⟨s, reachable, fun t => ?_⟩
    have first := List.getElem?_eq_getElem (Nat.lt_of_lt_of_le Nat.zero_lt_two (returned t))
    have second := List.getElem?_eq_getElem (Nat.lt_of_lt_of_le Nat.one_lt_two (returned t))
    exact ⟨_, _, first, (sums _ s reachable).1 t 0 _ first, second,
      (sums _ s reachable).1 t 1 _ second⟩
  · obtain ⟨-, -, progress⟩ := rows (fun _ => ⟨fun _ => 0, 0, none, none⟩) _ .initial
    obtain ⟨s, steps, returned⟩ := progress 2 fun _ => le_rfl
    have reachable := Reachable.initial.steps steps
    refine ⟨s, reachable, fun t => ?_⟩
    have second := List.getElem?_eq_getElem (Nat.lt_of_lt_of_le Nat.one_lt_two (returned t))
    exact ⟨_, second, (rows _ s reachable).1 t 1 _ second 0 Nat.zero_lt_two,
      (rows _ s reachable).1 t 1 _ second 1 Nat.one_lt_two⟩

end NcclTests.Harness
