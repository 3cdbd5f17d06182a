import Mathlib

/-!
# The worker threads of `run`

The launch loop starts `threads[t]` for each `t` from the top down, and calls the function
of `threads[0]` itself; the join loop joins them in the same order. A `TESTCHECK` in either
loop returns at once. The workers run at their own pace.

`run` returns with every launched thread joined whatever the pace (`joined_on_return_iff`)
exactly where no result makes it return before the loop has joined `threads[1]`.
-/

namespace NcclTests.Harness

/-- `testResult_t`. -/
inductive TestResult
  | success
  | internalError
  | cudaError
  | ncclError
  | timeout
  | notImplemented
  | invalidUsage
  | numResults
  deriving DecidableEq, Repr

namespace RunThreads

/-- A `std::thread` of `threads`. -/
inductive Worker
  /-- As the constructor of the vector leaves it. -/
  | idle
  | running
  /-- The function has returned, and the thread is not joined. -/
  | finished
  | joined
  deriving DecidableEq, Repr

/-- `joinable()`: the destructor of such a thread terminates the process. -/
def Worker.Joinable : Worker → Prop
  | .running | .finished => True
  | .idle | .joined => False

/-- Where the main thread is; `left` turns of a loop are left, the next one is for
`t = left - 1`. -/
inductive Main
  | launching (left : Nat)
  | joining (left : Nat)
  | returned (r : TestResult)
  deriving DecidableEq, Repr

/-- `TESTCHECK`. -/
def testCheck (r : TestResult) (next : Main) : Main := if r ≠ .success then .returned r else next

/-- `thread` and `ret` of each element of `threads`. -/
structure State where
  main : Main
  thread : Nat → Worker
  ret : Nat → TestResult

/-- The vector is value-initialised. -/
def initial (nThreads : Nat) : State := ⟨.launching nThreads, fun _ => .idle, fun _ => .success⟩

/-- `func t` is what `threads[t].func` returns. -/
inductive Step (nThreads : Nat) (func : Nat → TestResult) : State → State → Prop
  | launch {s : State} {t : Nat} (turn : s.main = .launching (t + 1)) (worker : t ≠ 0) :
    Step nThreads func s ⟨.launching t, Function.update s.thread t .running, s.ret⟩
  /-- The main thread runs worker 0, whose result does not go to `threads[0].ret`. -/
  | call {s : State} (turn : s.main = .launching 1) :
    Step nThreads func s { s with main := testCheck (func 0) (.launching 0) }
  | launched {s : State} (turn : s.main = .launching 0) :
    Step nThreads func s { s with main := .joining nThreads }
  | join {s : State} {t : Nat} (turn : s.main = .joining (t + 1)) (worker : t ≠ 0)
    (finished : s.thread t = .finished) :
    Step nThreads func s
      ⟨testCheck (s.ret t) (.joining t), Function.update s.thread t .joined, s.ret⟩
  | check {s : State} (turn : s.main = .joining 1) :
    Step nThreads func s { s with main := testCheck (s.ret 0) (.joining 0) }
  /-- The rest of `run` returns something. -/
  | done {s : State} {r : TestResult} (turn : s.main = .joining 0) :
    Step nThreads func s { s with main := .returned r }
  /-- `threadLauncher` stores the result and returns. -/
  | finish {s : State} {t : Nat} (running : s.thread t = .running) :
    Step nThreads func s
      ⟨s.main, Function.update s.thread t .finished, Function.update s.ret t (func t)⟩

def Reachable (nThreads : Nat) (func : Nat → TestResult) : State → Prop :=
  Relation.ReflTransGen (Step nThreads func) (initial nThreads)

variable {nThreads t left : Nat} {func : Nat → TestResult} {s s' : State}

/-! ## Every run -/

/-- No result makes `run` return while it has a thread to join. -/
def Passes (nThreads : Nat) (func : Nat → TestResult) : Prop :=
  nThreads = 1 ∨ (func 0 = .success ∧ ∀ t, 2 ≤ t → t < nThreads → func t = .success)

/-- What the place of the main thread says about the threads. -/
def Placed (nThreads : Nat) (thread : Nat → Worker) : Main → Prop
  | .launching left => left ≤ nThreads ∧ ∀ t < left, thread t = .idle
  | .joining left => left ≤ nThreads ∧ ∀ t, (thread t).Joinable → t < left
  | .returned _ => ∀ t, ¬ (thread t).Joinable

structure Inv (nThreads : Nat) (func : Nat → TestResult) (s : State) : Prop where
  main_idle : s.thread 0 = .idle
  main_ret : s.ret 0 = .success
  /-- A finished worker has stored its result. -/
  stored : ∀ t, s.thread t = .finished → s.ret t = func t
  beyond : ∀ t, nThreads ≤ t → s.thread t = .idle
  placed : Placed nThreads s.thread s.main

theorem inv_initial (nThreads : Nat) (func : Nat → TestResult) :
    Inv nThreads func (initial nThreads) where
  main_idle := rfl
  main_ret := rfl
  stored := by
    intro t finished
    cases finished
  beyond _ _ := rfl
  placed := ⟨le_rfl, fun _ _ => rfl⟩

theorem Worker.joinable_iff (w : Worker) : w.Joinable ↔ w = .running ∨ w = .finished := by
  cases w <;> simp [Worker.Joinable]

@[simp] theorem Worker.not_joinable_idle : ¬ Worker.idle.Joinable := id

@[simp] theorem Worker.not_joinable_joined : ¬ Worker.joined.Joinable := id

@[simp] theorem testCheck_success (next : Main) : testCheck .success next = next := rfl

theorem testCheck_of_ne {r : TestResult} (failed : r ≠ .success) (next : Main) :
    testCheck r next = .returned r := if_pos failed

/-- A check after which nothing is joinable, or which passes. -/
theorem placed_testCheck {thread : Nat → Worker} {r : TestResult} {next : Main}
    (passed : Placed nThreads thread next)
    (failed : r ≠ .success → ∀ t, ¬ (thread t).Joinable) :
    Placed nThreads thread (testCheck r next) := by
  by_cases ok : r = .success
  · rwa [ok, testCheck_success]
  · rw [testCheck_of_ne ok]
    exact failed ok

/-- A worker changes from one joinable state to another. -/
theorem Placed.finish {thread : Nat → Worker} {main : Main} (placed : Placed nThreads thread main)
    (running : thread t = .running) :
    Placed nThreads (Function.update thread t .finished) main := by
  have joinable : ∀ u, (Function.update thread t .finished u).Joinable → (thread u).Joinable := by
    intro u h
    rcases eq_or_ne u t with rfl | other
    · rw [running]
      trivial
    · rwa [Function.update_of_ne other] at h
  cases main with
  | launching left =>
    refine ⟨placed.1, ?_⟩
    intro u below
    have idle := placed.2 u below
    rw [Function.update_of_ne, idle]
    rintro rfl
    rw [idle] at running
    cases running
  | joining left => exact ⟨placed.1, fun u h => placed.2 u (joinable u h)⟩
  | returned r => exact fun u h => placed u (joinable u h)

/-- One worker changes and the main thread moves on. -/
theorem Inv.update (inv : Inv nThreads func s) {main : Main} {w : Worker}
    {ret : Nat → TestResult} (worker : t ≠ 0) (below : t < nThreads)
    (others : ∀ u, u ≠ t → ret u = s.ret u) (stored : w = .finished → ret t = func t)
    (placed : Placed nThreads (Function.update s.thread t w) main) :
    Inv nThreads func ⟨main, Function.update s.thread t w, ret⟩ where
  main_idle := by
    change Function.update s.thread t w 0 = .idle
    rw [Function.update_of_ne worker.symm]
    exact inv.main_idle
  main_ret := (others 0 worker.symm).trans inv.main_ret
  stored := by
    intro u finished
    change Function.update s.thread t w u = .finished at finished
    rcases eq_or_ne u t with rfl | other
    · rw [Function.update_self] at finished
      exact stored finished
    · rw [Function.update_of_ne other] at finished
      exact (others u other).trans (inv.stored u finished)
  beyond := by
    intro u outside
    change Function.update s.thread t w u = .idle
    rw [Function.update_of_ne (by omega)]
    exact inv.beyond u outside
  placed := placed

/-- Only the main thread moves. -/
theorem Inv.atMain (inv : Inv nThreads func s) {main : Main}
    (placed : Placed nThreads s.thread main) : Inv nThreads func { s with main } :=
  ⟨inv.main_idle, inv.main_ret, inv.stored, inv.beyond, placed⟩

/-- Worker 0 is never a thread. -/
theorem Inv.not_joinable_zero (inv : Inv nThreads func s) : ¬ (s.thread 0).Joinable := by
  rw [inv.main_idle]
  exact Worker.not_joinable_idle

theorem Inv.not_joinable_beyond (inv : Inv nThreads func s) (outside : nThreads ≤ t) :
    ¬ (s.thread t).Joinable := by
  rw [inv.beyond t outside]
  exact Worker.not_joinable_idle

/-- A running worker is one of those launched. -/
theorem Inv.running (inv : Inv nThreads func s) (running : s.thread t = .running) :
    t ≠ 0 ∧ t < nThreads := by
  have joinable : (s.thread t).Joinable := (Worker.joinable_iff _).2 (.inl running)
  constructor
  · rintro rfl
    exact inv.not_joinable_zero joinable
  · by_contra outside
    exact inv.not_joinable_beyond (Nat.le_of_not_lt outside) joinable

/-- With the threads from `t` on joined, a failure of worker `t` leaves none to join. -/
theorem Passes.last_of_failed (passes : Passes nThreads func) (below : t < nThreads)
    (failed : func t ≠ .success) : t < 2 := by
  by_contra more
  rcases passes with single | ⟨-, ok⟩
  · omega
  · exact failed (ok t (by omega) below)

theorem Inv.step (inv : Inv nThreads func s) (passes : Passes nThreads func)
    (step : Step nThreads func s s') : Inv nThreads func s' := by
  have placed := inv.placed
  cases step with
  | @launch t turn worker =>
    rw [turn] at placed
    obtain ⟨bound, idle⟩ := placed
    refine inv.update worker bound (fun _ _ => rfl) ?_ ⟨by omega, ?_⟩
    · rintro ⟨⟩
    · intro u below
      rw [Function.update_of_ne (by omega)]
      exact idle u (by omega)
  | call turn =>
    refine inv.atMain (placed_testCheck ⟨Nat.zero_le _, fun t none => absurd none t.not_lt_zero⟩ ?_)
    intro failed t
    rcases passes with single | ⟨ok, -⟩
    · rcases Nat.eq_zero_or_pos t with rfl | above
      · exact inv.not_joinable_zero
      · exact inv.not_joinable_beyond (by omega)
    · exact absurd ok failed
  | launched turn =>
    refine inv.atMain ⟨le_rfl, ?_⟩
    intro t joinable
    by_contra outside
    exact inv.not_joinable_beyond (Nat.le_of_not_lt outside) joinable
  | @join t turn worker finished =>
    rw [turn] at placed
    obtain ⟨bound, before⟩ := placed
    have below : ∀ u, (Function.update s.thread t .joined u).Joinable →
        u < t ∧ (s.thread u).Joinable := by
      intro u joinable
      rcases eq_or_ne u t with rfl | other
      · rw [Function.update_self] at joinable
        exact joinable.elim
      · rw [Function.update_of_ne other] at joinable
        have := before u joinable
        exact ⟨by omega, joinable⟩
    refine inv.update worker bound (fun _ _ => rfl) ?_
      (placed_testCheck ⟨by omega, fun u joinable => (below u joinable).1⟩ ?_)
    · rintro ⟨⟩
    · intro failed u joinable
      rw [inv.stored t finished] at failed
      have last := passes.last_of_failed bound failed
      obtain ⟨less, joinable⟩ := below u joinable
      have u_zero : u = 0 := by omega
      rw [u_zero] at joinable
      exact inv.not_joinable_zero joinable
  | check turn =>
    rw [turn] at placed
    rw [inv.main_ret, testCheck_success]
    refine inv.atMain ⟨Nat.zero_le _, ?_⟩
    intro t joinable
    have t_zero : t = 0 := Nat.lt_one_iff.1 (placed.2 t joinable)
    rw [t_zero] at joinable
    exact absurd joinable inv.not_joinable_zero
  | done turn =>
    rw [turn] at placed
    exact inv.atMain fun t joinable => absurd (placed.2 t joinable) t.not_lt_zero
  | @finish t running =>
    obtain ⟨worker, below⟩ := inv.running running
    refine inv.update worker below ?_ ?_ (placed.finish running)
    · exact fun u other => Function.update_of_ne other _ _
    · exact fun _ => Function.update_self _ _ _

theorem Reachable.inv (passes : Passes nThreads func) (reach : Reachable nThreads func s) :
    Inv nThreads func s := by
  induction reach with
  | refl => exact inv_initial nThreads func
  | tail _ step ih => exact ih.step passes step

/-! ## Runs that return too early -/

/-- A run returns with a thread to join. -/
def ReturnsEarly (nThreads : Nat) (func : Nat → TestResult) : Prop :=
  ∃ s r t, Reachable nThreads func s ∧ s.main = .returned r ∧ (s.thread t).Joinable

/-- The turns of the launch loop down to `left` are made. -/
def launchedFrom (nThreads left : Nat) : State where
  main := .launching left
  thread t := if t ≠ 0 ∧ left ≤ t ∧ t < nThreads then .running else .idle
  ret _ := .success

/-- The turns of the join loop down to `left` are made, and the other workers still run. -/
def joinedFrom (nThreads : Nat) (func : Nat → TestResult) (left : Nat) : State where
  main := .joining left
  thread t := if t = 0 ∨ nThreads ≤ t then .idle else if t < left then .running else .joined
  ret t := if left ≤ t ∧ t < nThreads then func t else .success

theorem reachable_launchedFrom (bound : left ≤ nThreads) :
    1 ≤ left → Reachable nThreads func (launchedFrom nThreads left) := by
  induction bound using Nat.decreasingInduction with
  | of_succ t below ih =>
    intro worker
    refine (ih (by omega)).tail ?_
    have running : Function.update (launchedFrom nThreads (t + 1)).thread t .running =
        (launchedFrom nThreads t).thread := by
      funext u
      rcases eq_or_ne u t with rfl | other
      · rw [Function.update_self]
        exact (if_pos ⟨by omega, le_rfl, below⟩).symm
      · rw [Function.update_of_ne other]
        refine if_congr ?_ rfl rfl
        omega
    have turn : Step nThreads func (launchedFrom nThreads (t + 1))
        ⟨.launching t, Function.update (launchedFrom nThreads (t + 1)).thread t .running,
          (launchedFrom nThreads t).ret⟩ := .launch rfl (by omega)
    rw [running] at turn
    exact turn
  | self =>
    intro _
    have idle : (launchedFrom nThreads nThreads).thread = fun _ => .idle :=
      funext fun u => if_neg (by omega)
    have start : launchedFrom nThreads nThreads = initial nThreads := by
      rw [initial, ← idle]
      rfl
    rw [start]
    exact .refl

/-- A failure of worker 0 leaves the threads running. -/
theorem returnsEarly_of_main (several : 2 ≤ nThreads) (failed : func 0 ≠ .success) :
    ReturnsEarly nThreads func := by
  have reach : Reachable nThreads func (launchedFrom nThreads 1) :=
    reachable_launchedFrom (by omega) le_rfl
  refine ⟨_, func 0, 1, reach.tail (.call rfl), testCheck_of_ne failed _, ?_⟩
  rw [Worker.joinable_iff]
  exact .inl (if_pos ⟨by omega, le_rfl, several⟩)

theorem reachable_joinedFrom (positive : 1 ≤ nThreads) (ok : func 0 = .success) :
    Reachable nThreads func (joinedFrom nThreads func nThreads) := by
  have reach : Reachable nThreads func (launchedFrom nThreads 1) :=
    reachable_launchedFrom positive le_rfl
  have called := reach.tail (.call rfl)
  rw [ok, testCheck_success] at called
  have start : joinedFrom nThreads func nThreads =
      ⟨.joining nThreads, (launchedFrom nThreads 1).thread, (launchedFrom nThreads 1).ret⟩ := by
    have thread : (joinedFrom nThreads func nThreads).thread =
        (launchedFrom nThreads 1).thread := by
      funext t
      by_cases idle : t = 0 ∨ nThreads ≤ t
      · exact (if_pos idle).trans (if_neg (by omega)).symm
      · exact (if_neg idle).trans ((if_pos (by omega)).trans (if_pos (by omega)).symm)
    have ret : (joinedFrom nThreads func nThreads).ret = (launchedFrom nThreads 1).ret :=
      funext fun t => if_neg (by omega)
    rw [← thread, ← ret]
    rfl
  rw [start]
  exact called.tail (.launched rfl)

/-- Worker `t` finishes and is joined. -/
theorem reachable_join (worker : t ≠ 0) (below : t < nThreads)
    (reach : Reachable nThreads func (joinedFrom nThreads func (t + 1))) :
    Reachable nThreads func ⟨testCheck (func t) (.joining t), (joinedFrom nThreads func t).thread,
      (joinedFrom nThreads func t).ret⟩ := by
  have running : (joinedFrom nThreads func (t + 1)).thread t = .running :=
    (if_neg (by omega)).trans (if_pos (Nat.lt_succ_self t))
  have joined := (reach.tail (.finish running)).tail
    (.join rfl worker (Function.update_self _ _ _))
  have thread : (joinedFrom nThreads func t).thread =
      Function.update (joinedFrom nThreads func (t + 1)).thread t .joined := by
    funext u
    rcases eq_or_ne u t with rfl | other
    · rw [Function.update_self]
      exact (if_neg (by omega)).trans (if_neg (lt_irrefl u))
    · rw [Function.update_of_ne other]
      refine if_congr Iff.rfl rfl (if_congr ?_ rfl rfl)
      omega
  have ret : (joinedFrom nThreads func t).ret =
      Function.update (joinedFrom nThreads func (t + 1)).ret t (func t) := by
    funext u
    rcases eq_or_ne u t with rfl | other
    · rw [Function.update_self]
      exact if_pos ⟨le_rfl, below⟩
    · rw [Function.update_of_ne other]
      refine if_congr ?_ rfl rfl
      omega
  rw [thread, ret]
  dsimp only at joined
  rwa [Function.update_self, Function.update_idem] at joined

/-- A failure of worker `t` from 2 on leaves worker 1 running. -/
theorem returnsEarly_of_worker (more : 2 ≤ t) (below : t < nThreads) (failed : func t ≠ .success)
    (reach : Reachable nThreads func (joinedFrom nThreads func (t + 1))) :
    ReturnsEarly nThreads func := by
  refine ⟨_, func t, 1, reachable_join (by omega) below reach, testCheck_of_ne failed _, ?_⟩
  rw [Worker.joinable_iff]
  exact .inl ((if_neg (by omega)).trans (if_pos (by omega)))

/-- The join loop gets down to `left`, or returns before. -/
theorem reachable_joinedFrom_or (ok : func 0 = .success) (bound : left ≤ nThreads) :
    2 ≤ left →
      Reachable nThreads func (joinedFrom nThreads func left) ∨ ReturnsEarly nThreads func := by
  induction bound using Nat.decreasingInduction with
  | of_succ t below ih =>
    intro more
    rcases ih (by omega) with reach | early
    · by_cases passed : func t = .success
      · have joined := reachable_join (by omega) below reach
        rw [passed, testCheck_success] at joined
        exact .inl joined
      · exact .inr (returnsEarly_of_worker more below passed reach)
    · exact .inr early
  | self => exact fun several => .inl (reachable_joinedFrom (by omega) ok)

theorem returnsEarly_of_not_passes (positive : 1 ≤ nThreads) (fails : ¬ Passes nThreads func) :
    ReturnsEarly nThreads func := by
  rw [Passes, not_or, not_and] at fails
  obtain ⟨several, fails⟩ := fails
  by_cases ok : func 0 = .success
  · have failing := fails ok
    push Not at failing
    obtain ⟨t, more, below, failed⟩ := failing
    rcases reachable_joinedFrom_or ok below (by omega) with reach | early
    · exact returnsEarly_of_worker more below failed reach
    · exact early
  · exact returnsEarly_of_main (by omega) ok

/-- **When `run` returns, no thread is left to join**, on every run, exactly where there is
one worker, or worker 0 and the workers from 2 on succeed.

The launch loop starts the workers from the last one down to 1 and runs worker 0 itself, whose error
returns at once. The join loop goes the same way and returns at the first error, so that only one of
worker 1, the last to be joined, leaves none behind. -/
theorem joined_on_return_iff (nThreads : Nat) (positive : 1 ≤ nThreads)
    (func : Nat → TestResult) :
    (∀ s, Reachable nThreads func s → ∀ r, s.main = .returned r →
      ∀ t, ¬ (s.thread t).Joinable) ↔ Passes nThreads func := by
  constructor
  · intro joined
    by_contra fails
    obtain ⟨s, r, t, reach, returned, joinable⟩ := returnsEarly_of_not_passes positive fails
    exact joined s reach r returned t joinable
  · intro passes s reach r returned
    have placed := (reach.inv passes).placed
    rwa [returned] at placed

theorem joined_on_return_iff_two :
    (∀ s, Reachable 2 (fun _ => .success) s → ∀ r, s.main = .returned r →
      ∀ t, ¬ (s.thread t).Joinable) ↔ Passes 2 fun _ => .success :=
  joined_on_return_iff 2 (by decide) _

/-- Two workers of which worker 0 fails. -/
theorem joined_on_return_fails :
    ¬ ∀ nThreads : Nat, 1 ≤ nThreads → ∀ func s, Reachable nThreads func s →
      ∀ r, s.main = .returned r → ∀ t, ¬ (s.thread t).Joinable := by
  intro joined
  have early : ReturnsEarly 2 fun _ => .internalError :=
    returnsEarly_of_main le_rfl (by decide)
  obtain ⟨s, r, t, reach, returned, joinable⟩ := early
  exact joined 2 (by decide) _ s reach r returned t joinable

end RunThreads

end NcclTests.Harness
