import Mathlib

/-!
# Threads that meet in the same calls

A `Script` is a thread reduced to its rendezvous calls: it makes a call, goes on with
what the call returns, and ends with a value. A `Meeting` says what the calls do: whom
the `j`-th call of a kind waits for, and what it returns to a thread when the threads
waited for have entered their `j`-th call of that kind.

Threads enter and leave their calls one by one, in any order (`Step`). Nothing in the
steps keeps two threads at the same call: a thread can wait for one that never comes.

`Lockstep` rules that out by composition: scripts that make the same call, and again are
in lockstep with what it returns them. Then in every reachable state the calls two
threads have entered are prefixes of one sequence, two finished threads have made the
same calls, and as long as a thread is not finished some thread can step
(`Reachable.prefix_or_prefix`, `Reachable.calls_eq`, `Reachable.exists_step`).
-/

/-- A thread that makes calls of the kinds `K`, with arguments and results. -/
inductive Script (K : Type) (In Out : K → Type) (α : Type)
  | ret (a : α)
  | call (k : K) (input : In k) (next : Out k → Script K In Out α)

namespace Script

variable {K : Type} {In Out : K → Type} {α β : Type}

def bind : Script K In Out α → (α → Script K In Out β) → Script K In Out β
  | ret a, f => f a
  | call k input next, f => call k input fun out => (next out).bind f

/-- One call. -/
def perform (k : K) (input : In k) : Script K In Out (Out k) := call k input ret

theorem bind_assoc {γ : Type} (x : Script K In Out α) (f : α → Script K In Out β)
    (g : β → Script K In Out γ) : (x.bind f).bind g = x.bind fun a => (f a).bind g := by
  induction x with
  | ret a => rfl
  | call k input next ih => exact congrArg (call k input) (funext ih)

theorem bind_ret (x : Script K In Out α) : x.bind ret = x := by
  induction x with
  | ret a => rfl
  | call k input next ih => exact congrArg (call k input) (funext ih)

instance : Monad (Script K In Out) where
  pure := ret
  bind := bind

/-- An `if` without an `else`. -/
def onlyIf (c : Prop) [Decidable c] (body : Script K In Out Unit) : Script K In Out Unit :=
  if c then body else ret ()

/-- A `for` loop from 0 below `n`. -/
def forLoop (body : Nat → Script K In Out Unit) : Nat → Script K In Out Unit
  | 0 => ret ()
  | n + 1 => (forLoop body n).bind fun _ => body n

/-- Calls of one kind, one after the other. -/
def calls {A : Type} : List A → Script Unit (fun _ => A) (fun _ => Unit) Unit
  | [] => ret ()
  | input :: inputs => call () input fun _ => calls inputs

end Script

/-- What the calls of the threads `ι` do. -/
structure Meeting (ι K : Type) (In Out : K → Type) where
  /-- A call of the kind waits, in this thread, for that thread. -/
  waits : K → ι → ι → Prop
  /-- The result of a thread's `i`-th call, of the given kind, from the arguments of all. -/
  result : (k : K) → Nat → (ι → In k) → ι → Out k
  /-- Only the arguments of the threads waited for matter. -/
  result_congr : ∀ k i (input input' : ι → In k) t,
    (∀ u, waits k t u → input u = input' u) → result k i input t = result k i input' t

namespace Meeting

variable {ι K : Type} {In Out : K → Type} {α β : Type}

/-! ## Lockstep -/

/-- The same call of all threads. -/
structure Round (ι K : Type) (In Out : K → Type) (α : Type) where
  kind : K
  input : ι → In kind
  next : ι → Out kind → Script K In Out α

namespace Round

def before (r : Round ι K In Out α) : ι → Script K In Out α :=
  fun t => .call r.kind (r.input t) (r.next t)

def after (r : Round ι K In Out α) (M : Meeting ι K In Out) (i : Nat) :
    ι → Script K In Out α :=
  fun t => r.next t (M.result r.kind i r.input t)

def entry (t : ι) (r : Round ι K In Out α) : Σ k, In k := ⟨r.kind, r.input t⟩

end Round

/-- The scripts make the calls of the rounds, the first being everyone's `i`-th call, and
end with these values. -/
inductive Sync (M : Meeting ι K In Out) :
    Nat → (ι → Script K In Out α) → List (Round ι K In Out α) → (ι → α) → Prop
  | ret {i : Nat} (a : ι → α) : Sync M i (fun t => .ret (a t)) [] a
  | call {i : Nat} {r : Round ι K In Out α} {rounds : List (Round ι K In Out α)} {a : ι → α} :
    Sync M (i + 1) (r.after M i) rounds a → Sync M i r.before (r :: rounds) a

/-- The scripts make the same calls, wherever they start, and end with values that
satisfy `P`. -/
def Lockstep (M : Meeting ι K In Out) (scripts : ι → Script K In Out α) (P : (ι → α) → Prop) :
    Prop :=
  ∀ i, ∃ rounds a, Sync M i scripts rounds a ∧ P a

variable {M : Meeting ι K In Out} {P : (ι → α) → Prop} {Q : (ι → β) → Prop}

theorem Lockstep.mono {scripts : ι → Script K In Out α} {P' : (ι → α) → Prop}
    (lockstep : Lockstep M scripts P) (weaker : ∀ a, P a → P' a) : Lockstep M scripts P' := by
  intro i
  obtain ⟨rounds, a, sync, holds⟩ := lockstep i
  exact ⟨rounds, a, sync, weaker a holds⟩

theorem Lockstep.ret {a : ι → α} (holds : P a) : Lockstep M (fun t => .ret (a t)) P :=
  fun _ => ⟨[], a, .ret a, holds⟩

/-- The round of a call that all scripts make. -/
theorem Sync.next {i : Nat} {k : K} {input : ι → In k} {next : ι → Out k → Script K In Out α}
    {rounds : List (Round ι K In Out α)} {a : ι → α}
    (rest : Sync M (i + 1) (fun t => next t (M.result k i input t)) rounds a) :
    Sync M i (fun t => .call k (input t) (next t)) (⟨k, input, next⟩ :: rounds) a :=
  .call (r := ⟨k, input, next⟩) rest

theorem Lockstep.call {k : K} {input : ι → In k} {next : ι → Out k → Script K In Out α}
    (rest : ∀ i, Lockstep M (fun t => next t (M.result k i input t)) P) :
    Lockstep M (fun t => .call k (input t) (next t)) P := by
  intro i
  obtain ⟨rounds, a, sync, holds⟩ := rest i (i + 1)
  exact ⟨_, a, sync.next, holds⟩

theorem Sync.bind {f : ι → α → Script K In Out β} {i : Nat} {first : ι → Script K In Out α}
    {rounds : List (Round ι K In Out α)} {a : ι → α} (sync : Sync M i first rounds a)
    {rounds' : List (Round ι K In Out β)} {b : ι → β}
    (sync' : Sync M (i + rounds.length) (fun t => f t (a t)) rounds' b) :
    ∃ rounds'', Sync M i (fun t => (first t).bind (f t)) rounds'' b := by
  induction sync with
  | ret a => exact ⟨rounds', sync'⟩
  | @call i r rounds a _ ih =>
    rw [List.length_cons, ← Nat.add_assoc, Nat.add_right_comm] at sync'
    obtain ⟨rounds'', rest⟩ := ih sync'
    let r' : Round ι K In Out β := ⟨r.kind, r.input, fun t out => (r.next t out).bind (f t)⟩
    exact ⟨r' :: rounds'', .call (r := r') rest⟩

theorem Lockstep.bind {first : ι → Script K In Out α} {f : ι → α → Script K In Out β}
    (lockstep : Lockstep M first P) (rest : ∀ a, P a → Lockstep M (fun t => f t (a t)) Q) :
    Lockstep M (fun t => (first t).bind (f t)) Q := by
  intro i
  obtain ⟨rounds, a, sync, holds⟩ := lockstep i
  obtain ⟨rounds', b, sync', holds'⟩ := rest a holds (i + rounds.length)
  obtain ⟨rounds'', sync''⟩ := sync.bind sync'
  exact ⟨rounds'', b, sync'', holds'⟩

/-- A branch every thread takes. -/
theorem Lockstep.ite {c : Prop} [Decidable c] {yes no : ι → Script K In Out α}
    (ifTrue : c → Lockstep M yes P) (ifFalse : ¬ c → Lockstep M no P) :
    Lockstep M (fun t => if c then yes t else no t) P := by
  by_cases holds : c
  · simpa only [if_pos holds] using ifTrue holds
  · simpa only [if_neg holds] using ifFalse holds

theorem Lockstep.onlyIf {c : Prop} [Decidable c] {body : ι → Script K In Out Unit}
    (lockstep : c → Lockstep M body fun _ => True) :
    Lockstep M (fun t => Script.onlyIf c (body t)) fun _ => True :=
  .ite lockstep fun _ => .ret trivial

theorem Lockstep.forLoop {body : ι → Nat → Script K In Out Unit}
    (each : ∀ j, Lockstep M (fun t => body t j) fun _ => True) (n : Nat) :
    Lockstep M (fun t => Script.forLoop (body t) n) fun _ => True := by
  induction n with
  | zero => exact .ret trivial
  | succ n ih => exact ih.bind fun _ _ => each n

/-- What the threads run from the `c`-th round on. -/
def scriptsAt (rounds : List (Round ι K In Out α)) (a : ι → α) (c : Nat) :
    ι → Script K In Out α :=
  match rounds[c]? with
  | some r => r.before
  | none => fun t => .ret (a t)

theorem Sync.scriptsAt_zero {i : Nat} {scripts : ι → Script K In Out α}
    {rounds : List (Round ι K In Out α)} {a : ι → α} (sync : Sync M i scripts rounds a) :
    scriptsAt rounds a 0 = scripts := by
  cases sync <;> rfl

theorem Sync.scriptsAt_succ {i : Nat} {scripts : ι → Script K In Out α}
    {rounds : List (Round ι K In Out α)} {a : ι → α} (sync : Sync M i scripts rounds a)
    {c : Nat} {r : Round ι K In Out α} (round : rounds[c]? = some r) :
    scriptsAt rounds a (c + 1) = r.after M (i + c) := by
  induction sync generalizing c with
  | ret a => cases round
  | @call i r' rounds a rest ih =>
    cases c with
    | zero =>
      obtain rfl := Option.some.inj round
      exact rest.scriptsAt_zero
    | succ c =>
      have later := ih round
      rw [Nat.add_assoc, Nat.add_comm 1 c] at later
      exact later

variable {rounds : List (Round ι K In Out α)} {a : ι → α} {t : ι}

theorem scriptsAt_of_lt {c : Nat} (less : c < rounds.length) :
    scriptsAt rounds a c t = .call rounds[c].kind (rounds[c].input t) (rounds[c].next t) := by
  rw [scriptsAt, List.getElem?_eq_getElem less]
  rfl

theorem scriptsAt_of_le {c : Nat} (le : rounds.length ≤ c) :
    scriptsAt rounds a c t = .ret (a t) := by
  rw [scriptsAt, List.getElem?_eq_none le]

/-- A thread that is about to make a call or inside one is at a round of that kind. -/
theorem round_of_scriptsAt {c : Nat} {k : K} {input : In k} {next : Out k → Script K In Out α}
    (script : scriptsAt rounds a c t = .call k input next) :
    ∃ r, rounds[c]? = some r ∧ r.before t = .call k input next := by
  rcases Nat.lt_or_ge c rounds.length with less | le
  · exact ⟨rounds[c], List.getElem?_eq_getElem less, by rw [← script, scriptsAt_of_lt less]; rfl⟩
  · rw [scriptsAt_of_le le] at script
    cases script

theorem take_succ_of_getElem? {c : Nat} {r : Round ι K In Out α} (round : rounds[c]? = some r) :
    rounds.take (c + 1) = rounds.take c ++ [r] := by
  rw [List.take_add_one, round]
  rfl

/-- A thread: what is left of its script, from the call it is inside on, and the calls it
has entered, with their arguments. -/
structure Thread (K : Type) (In Out : K → Type) (α : Type) where
  script : Script K In Out α
  inside : Bool
  entered : List (Σ k, In k)

/-- The kinds of the calls entered. -/
def Thread.calls (thread : Thread K In Out α) : List K := thread.entered.map Sigma.fst

def Thread.Finished (thread : Thread K In Out α) : Prop := ∃ a, thread.script = .ret a

/-! ## The invariant -/

/-- A thread inside its next call or before it, all its calls being those of the rounds. -/
inductive OnTrack (rounds : List (Round ι K In Out α)) (a : ι → α) (t : ι) :
    Thread K In Out α → Prop
  | outside {c : Nat} : c ≤ rounds.length →
    OnTrack rounds a t ⟨scriptsAt rounds a c t, false, (rounds.take c).map (Round.entry t)⟩
  | inside {c : Nat} : c < rounds.length →
    OnTrack rounds a t ⟨scriptsAt rounds a c t, true, (rounds.take (c + 1)).map (Round.entry t)⟩

/-- The calls a thread on track has entered begin those of the rounds, and are all of them when
it has finished. -/
theorem OnTrack.entered {thread : Thread K In Out α} (track : OnTrack rounds a t thread) :
    thread.entered <+: rounds.map (Round.entry t) ∧
      (thread.Finished → thread.entered = rounds.map (Round.entry t)) := by
  cases track with
  | @outside c le =>
    refine ⟨(List.take_prefix c rounds).map (Round.entry t), ?_⟩
    rintro ⟨b, finished⟩
    have all : rounds.length ≤ c := by
      by_contra less
      rw [scriptsAt_of_lt (not_le.1 less)] at finished
      cases finished
    rw [List.take_of_length_le all]
  | @inside c less =>
    refine ⟨(List.take_prefix (c + 1) rounds).map (Round.entry t), ?_⟩
    rintro ⟨b, finished⟩
    rw [scriptsAt_of_lt less] at finished
    cases finished

theorem OnTrack.calls {thread : Thread K In Out α} (track : OnTrack rounds a t thread) :
    thread.calls <+: rounds.map Round.kind ∧
      (thread.Finished → thread.calls = rounds.map Round.kind) := by
  have kinds : (rounds.map (Round.entry t)).map Sigma.fst = rounds.map Round.kind := by
    rw [List.map_map]
    rfl
  rw [Thread.calls, ← kinds]
  exact ⟨track.entered.1.map Sigma.fst, fun finished => by rw [track.entered.2 finished]⟩

theorem OnTrack.enter {thread : Thread K In Out α} (track : OnTrack rounds a t thread) {k : K}
    {input : In k} {next : Out k → Script K In Out α}
    (script : thread.script = .call k input next) (outside : thread.inside = false) :
    OnTrack rounds a t ⟨thread.script, true, thread.entered ++ [⟨k, input⟩]⟩ := by
  cases track with
  | inside _ => cases outside
  | @outside c _ =>
    obtain ⟨r, round, before⟩ := round_of_scriptsAt script
    have less : c < rounds.length := (List.getElem?_eq_some_iff.1 round).1
    have entry : (⟨k, input⟩ : Σ k, In k) = r.entry t := by
      cases r
      cases before
      rfl
    dsimp only
    rw [entry, ← List.map_singleton, ← List.map_append, ← take_succ_of_getElem? round]
    exact .inside less

variable [DecidableEq K]

/-- The arguments of the calls of one kind. -/
def ofKind (k : K) (entered : List (Σ k, In k)) : List (In k) :=
  entered.filterMap fun c => if same : c.1 = k then some (same ▸ c.2) else none

theorem ofKind_append (k : K) (l l' : List (Σ k, In k)) :
    ofKind k (l ++ l') = ofKind k l ++ ofKind k l' := by
  simp [ofKind]

theorem ofKind_singleton_self (k : K) (input : In k) : ofKind k [⟨k, input⟩] = [input] := by
  simp [ofKind]

/-- Which calls of a kind have been made does not depend on the thread. -/
theorem length_ofKind_entry (k : K) (rounds : List (Round ι K In Out α)) (t u : ι) :
    (ofKind k (rounds.map (Round.entry t))).length =
      (ofKind k (rounds.map (Round.entry u))).length := by
  have counted (c : Σ k, In k) (l : List (Σ k, In k)) :
      (ofKind k (c :: l)).length = (if c.1 = k then 1 else 0) + (ofKind k l).length := by
    by_cases same : c.1 = k <;> simp [ofKind, same, Nat.add_comm]
  induction rounds with
  | nil => rfl
  | cons r rounds ih =>
    rw [List.map_cons, List.map_cons, counted, counted, ih]
    rfl

/-- The entry of the `c`-th round among the calls of its kind, if the thread has come there. -/
theorem getElem?_ofKind_entered {c : Nat} {r : Round ι K In Out α} (round : rounds[c]? = some r)
    {u : ι} {thread : Thread K In Out α} (track : OnTrack rounds a u thread) :
    (ofKind r.kind thread.entered)[(ofKind r.kind
        ((rounds.take c).map (Round.entry t))).length]? =
      if c < thread.entered.length then some (r.input u) else none := by
  have less : c < rounds.length := (List.getElem?_eq_some_iff.1 round).1
  obtain ⟨e, le, eq⟩ : ∃ e ≤ rounds.length,
      thread.entered = (rounds.take e).map (Round.entry u) := by
    cases track with
    | outside le => exact ⟨_, le, rfl⟩
    | inside less => exact ⟨_, less, rfl⟩
  rw [eq, length_ofKind_entry r.kind _ t u, List.length_map, List.length_take, min_eq_left le]
  rcases Nat.lt_or_ge c e with later | early
  · obtain ⟨rest, split⟩ : ∃ rest, rounds.take e = rounds.take (c + 1) ++ rest :=
      ⟨_, (List.take_append_drop (c + 1) (rounds.take e)).symm.trans
        (by rw [List.take_take, min_eq_left (by omega)])⟩
    rw [if_pos later, split, take_succ_of_getElem? round, List.map_append, List.map_append,
      ofKind_append, ofKind_append, List.map_singleton, Round.entry, ofKind_singleton_self,
      List.append_assoc, List.getElem?_append_right le_rfl, Nat.sub_self]
    rfl
  · obtain ⟨rest, split⟩ : ∃ rest, rounds.take c = rounds.take e ++ rest :=
      ⟨_, (List.take_append_drop e (rounds.take c)).symm.trans
        (by rw [List.take_take, min_eq_left early])⟩
    rw [if_neg early.not_gt, split, List.map_append, ofKind_append, List.length_append,
      List.getElem?_eq_none (Nat.le_add_right _ _)]

/-- A thread inside the `c`-th round has made so many calls of its kind before. -/
theorem length_ofKind_inside {c : Nat} {r : Round ι K In Out α} (round : rounds[c]? = some r) :
    (ofKind r.kind ((rounds.take (c + 1)).map (Round.entry t))).length - 1 =
      (ofKind r.kind ((rounds.take c).map (Round.entry t))).length := by
  rw [take_succ_of_getElem? round, List.map_append, ofKind_append, List.length_append,
    List.map_singleton, Round.entry, ofKind_singleton_self]
  rfl

/-- All a thread waits for have entered its round, with the arguments of the round. -/
theorem OnTrack.leave {scripts : ι → Script K In Out α} (sync : Sync M 0 scripts rounds a)
    {s : ι → Thread K In Out α} (track : ∀ u, OnTrack rounds a u (s u)) {k : K}
    {input : In k} {next : Out k → Script K In Out α} {inputs : ι → In k}
    (script : (s t).script = .call k input next) (inside : (s t).inside = true)
    (waited : ∀ u, M.waits k t u →
      (ofKind k (s u).entered)[(ofKind k (s t).entered).length - 1]? = some (inputs u)) :
    OnTrack rounds a t
      ⟨next (M.result k ((s t).entered.length - 1) inputs t), false, (s t).entered⟩ := by
  have place := track t
  generalize s t = thread at place script inside waited ⊢
  cases place with
  | outside _ => cases inside
  | @inside c less =>
    obtain ⟨r, round, before⟩ := round_of_scriptsAt script
    have next_round := sync.scriptsAt_succ round
    obtain ⟨kind, given, rest⟩ := r
    cases before
    have index : ((rounds.take (c + 1)).map (Round.entry t)).length - 1 = c := by
      rw [List.length_map, List.length_take]
      omega
    dsimp only at waited ⊢
    rw [length_ofKind_inside (t := t) round] at waited
    have same : M.result kind c inputs t = M.result kind c given t := by
      refine M.result_congr kind c inputs given t fun v waits => ?_
      have came := waited v waits
      rw [getElem?_ofKind_entered round (track v)] at came
      split at came
      · exact (Option.some.inj came).symm
      · cases came
    rw [index, same]
    have script_next : scriptsAt rounds a (c + 1) t = rest t (M.result kind c given t) := by
      rw [next_round, Nat.zero_add]
      rfl
    rw [← script_next]
    exact .outside less

/-! ## The steps -/

variable [DecidableEq ι] (M)

/-- A thread enters its next call, or leaves the `j`-th call of a kind after all it waits
for have entered theirs. -/
inductive Step : (ι → Thread K In Out α) → (ι → Thread K In Out α) → Prop
  | enter {s : ι → Thread K In Out α} {t : ι} {k : K} {input : In k}
    {next : Out k → Script K In Out α} :
    (s t).script = .call k input next → (s t).inside = false →
    Step s (Function.update s t ⟨(s t).script, true, (s t).entered ++ [⟨k, input⟩]⟩)
  | leave {s : ι → Thread K In Out α} {t : ι} {k : K} {input : In k}
    {next : Out k → Script K In Out α} {inputs : ι → In k} :
    (s t).script = .call k input next → (s t).inside = true →
    (∀ u, M.waits k t u →
      (ofKind k (s u).entered)[(ofKind k (s t).entered).length - 1]? = some (inputs u)) →
    Step s (Function.update s t
      ⟨next (M.result k ((s t).entered.length - 1) inputs t), false, (s t).entered⟩)

/-- The states some interleaving leads to when every thread runs its script. -/
inductive Reachable (scripts : ι → Script K In Out α) : (ι → Thread K In Out α) → Prop
  | start : Reachable scripts fun t => ⟨scripts t, false, []⟩
  | step {s s' : ι → Thread K In Out α} : Reachable scripts s → M.Step s s' →
    Reachable scripts s'

variable {M}

/-- Entering and leaving a call keeps to the rounds. -/
theorem OnTrack.step {scripts : ι → Script K In Out α} (sync : Sync M 0 scripts rounds a)
    {s s' : ι → Thread K In Out α} (track : ∀ t, OnTrack rounds a t (s t)) (step : M.Step s s') :
    ∀ t, OnTrack rounds a t (s' t) := by
  intro u
  cases step with
  | @enter t _ _ _ script outside =>
    rcases eq_or_ne u t with rfl | apart
    · rw [Function.update_self]
      exact (track u).enter script outside
    · rw [Function.update_of_ne apart]
      exact track u
  | @leave t _ _ _ _ script inside waited =>
    rcases eq_or_ne u t with rfl | apart
    · rw [Function.update_self]
      exact OnTrack.leave sync track script inside waited
    · rw [Function.update_of_ne apart]
      exact track u

theorem Reachable.onTrack {scripts : ι → Script K In Out α} (sync : Sync M 0 scripts rounds a)
    {s : ι → Thread K In Out α} (reachable : M.Reachable scripts s) (t : ι) :
    OnTrack rounds a t (s t) := by
  induction reachable generalizing t with
  | start =>
    rw [← sync.scriptsAt_zero]
    exact .outside (Nat.zero_le _)
  | step _ step ih => exact OnTrack.step sync ih step t

/-! ## What holds of every run -/

variable {scripts : ι → Script K In Out α} {P : (ι → α) → Prop} {s : ι → Thread K In Out α}

/-- Of two threads, one has entered the calls of the other, and possibly more. -/
theorem Reachable.prefix_or_prefix (lockstep : Lockstep M scripts P)
    (reachable : M.Reachable scripts s) (t u : ι) :
    (s t).calls <+: (s u).calls ∨ (s u).calls <+: (s t).calls := by
  obtain ⟨rounds, a, sync, -⟩ := lockstep 0
  exact List.prefix_or_prefix_of_prefix (reachable.onTrack sync t).calls.1
    (reachable.onTrack sync u).calls.1

/-- Finished threads have made the same calls. -/
theorem Reachable.calls_eq (lockstep : Lockstep M scripts P)
    (reachable : M.Reachable scripts s) {t u : ι} (finished : (s t).Finished)
    (finished' : (s u).Finished) : (s t).calls = (s u).calls := by
  obtain ⟨rounds, a, sync, -⟩ := lockstep 0
  rw [(reachable.onTrack sync t).calls.2 finished, (reachable.onTrack sync u).calls.2 finished']

/-- The values of finished threads are those the scripts end with together. -/
theorem Reachable.results (lockstep : Lockstep M scripts P) (reachable : M.Reachable scripts s) :
    ∃ a, P a ∧ ∀ t b, (s t).script = .ret b → b = a t := by
  obtain ⟨rounds, a, sync, holds⟩ := lockstep 0
  refine ⟨a, holds, fun t b finished => ?_⟩
  have track := reachable.onTrack sync t
  generalize s t = thread at track finished
  cases track with
  | @outside c _ =>
    rcases Nat.lt_or_ge c rounds.length with less | all
    · rw [scriptsAt_of_lt less] at finished
      cases finished
    · rw [scriptsAt_of_le all] at finished
      exact (Script.ret.inj finished).symm
  | @inside c less =>
    rw [scriptsAt_of_lt less] at finished
    cases finished

/-- No thread waits for one that never comes. -/
theorem Reachable.exists_step (lockstep : Lockstep M scripts P)
    (reachable : M.Reachable scripts s) {t : ι} (unfinished : ¬ (s t).Finished) :
    ∃ s', M.Step s s' := by
  obtain ⟨rounds, a, sync, -⟩ := lockstep 0
  have track := reachable.onTrack sync
  by_contra stuck
  -- of the unfinished threads, one that has entered the fewest calls
  obtain ⟨m, unfinished_m, fewest⟩ :=
    (measure fun u => (s u).entered.length).wf.has_min {u | ¬ (s u).Finished} ⟨t, unfinished⟩
  have place := track m
  cases at_ : s m with
  | mk script inside entered =>
    rw [at_] at place
    cases place with
    | @outside c le =>
      rcases le.lt_or_eq with less | rfl
      · have head : (s m).script =
            .call rounds[c].kind (rounds[c].input m) (rounds[c].next m) := by
          rw [at_, ← scriptsAt_of_lt less]
        exact stuck ⟨_, .enter head (by rw [at_])⟩
      · exact unfinished_m ⟨a m, by rw [at_, ← scriptsAt_of_le le_rfl]⟩
    | @inside c less =>
      have round := List.getElem?_eq_getElem less
      have head : (s m).script =
          .call rounds[c].kind (rounds[c].input m) (rounds[c].next m) := by
        rw [at_, ← scriptsAt_of_lt less]
      have count : (s m).entered.length = c + 1 := by
        rw [at_, List.length_map, List.length_take, min_eq_left less]
      have came (u : ι) : c < (s u).entered.length := by
        by_cases finished : (s u).Finished
        · have all := (track u).calls.2 finished
          have length := congrArg List.length all
          rw [Thread.calls, List.length_map, List.length_map] at length
          exact length ▸ less
        · have le : (s m).entered.length ≤ (s u).entered.length := not_lt.1 (fewest u finished)
          omega
      have waited : ∀ u, M.waits rounds[c].kind m u →
          (ofKind rounds[c].kind (s u).entered)[(ofKind rounds[c].kind
            (s m).entered).length - 1]? = some (rounds[c].input u) := by
        intro u _
        rw [at_, length_ofKind_inside round, getElem?_ofKind_entered round (track u),
          if_pos (came u)]
      exact stuck ⟨_, .leave head (by rw [at_]) waited⟩

/-! ## Runs to the end -/

section Completion

/-- The steps a thread has taken, plus one. -/
def Thread.progress (thread : Thread K In Out α) : Nat :=
  2 * thread.entered.length + if thread.inside then 0 else 1

omit [DecidableEq K] [DecidableEq ι] in
theorem OnTrack.progress_le {thread : Thread K In Out α} (track : OnTrack rounds a t thread) :
    thread.progress ≤ 2 * rounds.length + 1 := by
  cases track with
  | @outside c le =>
    rw [Thread.progress, List.length_map, List.length_take]
    dsimp only
    split <;> omega
  | @inside c less =>
    rw [Thread.progress, List.length_map, List.length_take]
    dsimp only
    split <;> omega

variable [Fintype ι]

omit [DecidableEq K] in
theorem sum_progress_update (s : ι → Thread K In Out α) (t : ι) (thread : Thread K In Out α)
    (next : thread.progress = (s t).progress + 1) :
    ∑ u, (Function.update s t thread u).progress = ∑ u, (s u).progress + 1 := by
  have others : ∀ u ∈ Finset.univ.erase t,
      (Function.update s t thread u).progress = (s u).progress := by
    intro u apart
    rw [Function.update_of_ne (Finset.ne_of_mem_erase apart)]
  rw [← Finset.add_sum_erase _ _ (Finset.mem_univ t), Finset.sum_congr rfl others,
    Function.update_self, next, ← Finset.add_sum_erase _ _ (Finset.mem_univ t)]
  omega

/-- Every step is one of some thread. -/
theorem Step.progress {s s' : ι → Thread K In Out α} (step : M.Step s s') :
    ∑ u, (s' u).progress = ∑ u, (s u).progress + 1 := by
  cases step with
  | enter script outside =>
    apply sum_progress_update
    rw [Thread.progress, Thread.progress, outside, List.length_append]
    rfl
  | leave script inside waited =>
    apply sum_progress_update
    rw [Thread.progress, Thread.progress, inside]
    rfl

/-- **Every run can be completed**, and any run that goes on long enough is. -/
theorem Reachable.exists_finished (lockstep : Lockstep M scripts P)
    (reachable : M.Reachable scripts s) :
    ∃ s', M.Reachable scripts s' ∧ Relation.ReflTransGen M.Step s s' ∧ ∀ t, (s' t).Finished := by
  obtain ⟨rounds, a, sync, -⟩ := lockstep 0
  have bounded : ∀ s', M.Reachable scripts s' →
      ∑ u, (s' u).progress ≤ Fintype.card ι * (2 * rounds.length + 1) := by
    intro s' reachable'
    have each := fun u (_ : u ∈ Finset.univ) => (reachable'.onTrack sync u).progress_le
    refine (Finset.sum_le_card_nsmul Finset.univ _ _ each).trans ?_
    rw [Finset.card_univ, smul_eq_mul]
  induction missing : Fintype.card ι * (2 * rounds.length + 1) - ∑ u, (s u).progress
    using Nat.strong_induction_on generalizing s with
  | _ n ih =>
    by_cases finished : ∀ t, (s t).Finished
    · exact ⟨s, reachable, .refl, finished⟩
    · obtain ⟨t, unfinished⟩ := not_forall.1 finished
      obtain ⟨s', step⟩ := reachable.exists_step lockstep unfinished
      have next := bounded s' (reachable.step step)
      have one := step.progress
      obtain ⟨last, reached, path, all⟩ := ih _ (by omega) (reachable.step step) rfl
      exact ⟨last, reached, .head step path, all⟩

end Completion

/-! ## Collectives -/

/-- Calls for which everybody waits, and that return nothing. -/
def collectives (ι A : Type) : Meeting ι Unit (fun _ => A) fun _ => Unit where
  waits _ _ _ := True
  result _ _ _ _ := ()
  result_congr _ _ _ _ _ _ := rfl

section Collectives

variable {ι A : Type}

/-- A list of calls makes rounds in which all give the same argument. -/
theorem sync_calls (inputs : List A) (i : Nat) :
    ∃ rounds a, Sync (collectives ι A) i (fun _ => Script.calls inputs) rounds a ∧
      ∀ t, rounds.map (Round.entry t) = inputs.map (⟨(), ·⟩) := by
  induction inputs generalizing i with
  | nil => exact ⟨[], _, .ret fun _ => (), fun _ => rfl⟩
  | cons input inputs ih =>
    obtain ⟨rounds, a, sync, same⟩ := ih (i + 1)
    let r : Round ι Unit (fun _ => A) (fun _ => Unit) Unit :=
      ⟨(), fun _ => input, fun _ _ => Script.calls inputs⟩
    have first : Sync (collectives ι A) i r.before (r :: rounds) a := .call sync
    refine ⟨r :: rounds, a, first, fun t => ?_⟩
    rw [List.map_cons, same]
    rfl

theorem lockstep_calls (inputs : List A) :
    Lockstep (collectives ι A) (fun _ => Script.calls inputs) fun _ => True := by
  intro i
  obtain ⟨rounds, a, sync, -⟩ := @sync_calls ι A inputs i
  exact ⟨rounds, a, sync, trivial⟩

variable [DecidableEq ι] {inputs : List A}
  {s : ι → Thread Unit (fun _ => A) (fun _ => Unit) Unit}

/-- What threads with one list of calls have entered begins that list, and is all of it when
they have finished. -/
theorem Reachable.entered
    (reachable : (collectives ι A).Reachable (fun _ => Script.calls inputs) s) (t : ι) :
    (s t).entered <+: inputs.map (⟨(), ·⟩) ∧
      ((s t).Finished → (s t).entered = inputs.map (⟨(), ·⟩)) := by
  obtain ⟨rounds, a, sync, same⟩ := sync_calls inputs 0
  rw [← same t]
  exact (reachable.onTrack sync t).entered

/-- The `j`-th calls of two such threads have the same argument. -/
theorem Reachable.entered_agree
    (reachable : (collectives ι A).Reachable (fun _ => Script.calls inputs) s) {t u : ι} {j : Nat}
    {call call' : Σ _ : Unit, A} (here : (s t).entered[j]? = some call)
    (there : (s u).entered[j]? = some call') : call = call' := by
  have listed {v : ι} {call : Σ _ : Unit, A} (entered : (s v).entered[j]? = some call) :
      (inputs.map (⟨(), ·⟩ : A → Σ _ : Unit, A))[j]? = some call := by
    obtain ⟨rest, all⟩ := (reachable.entered v).1
    obtain ⟨less, -⟩ := List.getElem?_eq_some_iff.1 entered
    rw [← all, List.getElem?_append_left less, entered]
  exact Option.some.inj ((listed here).symm.trans (listed there))

end Collectives

end Meeting
