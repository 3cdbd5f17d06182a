import Mathlib
import NcclTests.Lib.Ieee
import NcclTests.Lib.Loop

/-!
# The sweep over communicator sizes

The options of `comm_ops` that steer the sweep, their adjustment to the number of
ranks, and the loop of `main` from `args.beginranks` by `next_step` while
`keep_testing`. Arithmetic is that of the source: products and quotients of
doubles, `roundf` on a float, conversion to `int`. `nextStep` is undefined where
the conversion or a sum leaves the range of `int`.

A defined sweep ends, without visiting a size twice, exactly when it is
`Args.Progresses`:

* `fixed` stops by jumping to 0, so 0 has to be outside the range: it must not be
  the upper half of an ascending sweep, nor its end;
* `factor-N` steps by a rounded product, which has to lie on the far side of the
  size it is taken of, or on it. Rounding to `float` can turn it back only above
  `2 ^ 24` ranks (`Args.progresses_of_lt`);
* `step-N` always makes progress.
-/

namespace NcclTests.CommOps

open BinaryFloat

inductive SweepKind
  | factor
  | step
  | fixed
  deriving DecidableEq, Repr

/-- The text of `--sweep-comms`, with what `strtod` returns for the number in it and
whether it sets `errno`. -/
inductive StepText
  | factor (num : Value) (errno : Bool)
  | step (num : Value) (errno : Bool)
  | fixed
  | unknown

/-- The kind and the number stored; `none` where the caller aborts. An unknown text is
reported and leaves the kind as it is. -/
def parseStepKinds (kind : SweepKind) : StepText → Option (SweepKind × Value)
  | .fixed => some (.fixed, .finite 0)
  | .unknown => some (kind, .finite 0)
  | .factor num errno =>
    if errno then none
    else if num.le (.finite 0) then none
    else some (.factor, if num.lt (.finite 1) then num.inv binary64 else num)
  | .step num errno =>
    if errno then none
    else if num.le (.finite 0) then none
    else some (.step, if num.lt (.finite 0) then num.neg else num)

structure Args where
  beginranks : Int
  endranks : Int
  sweepKind : SweepKind
  sweepNum : Value

namespace Args

/-- `-b`, `-e` with the results of `atoi`, and `-s`. -/
inductive Opt
  | sweepBegin (ranks : Int)
  | sweepEnd (ranks : Int)
  | sweepComms (text : StepText)

def defaults : Args := ⟨0, 0, .factor, .finite 2⟩

def setOption (a : Args) : Opt → Option Args
  | .sweepBegin ranks => some { a with beginranks := ranks }
  | .sweepEnd ranks => some { a with endranks := ranks }
  | .sweepComms text =>
    (parseStepKinds a.sweepKind text).map fun parsed =>
      { a with sweepKind := parsed.1, sweepNum := parsed.2 }

/-- The defaults for zero and the restriction to the ranks there are. -/
def clampRanks (nranks : Int) (a : Args) : Args :=
  { a with
    beginranks := min (max (if a.beginranks = 0 then nranks else a.beginranks) 0) nranks
    endranks := min (max (if a.endranks = 0 then 1 else a.endranks) 0) nranks }

/-- The number is turned around when it leads away from `endranks`. -/
def adjustNum (a : Args) : Args :=
  match a.sweepKind with
  | .factor =>
    if decide (a.beginranks < a.endranks) ≠ (Value.finite 1).lt a.sweepNum then
      { a with sweepNum := a.sweepNum.inv binary64 }
    else a
  | .step =>
    if decide (a.beginranks < a.endranks) ≠ (Value.finite 0).lt a.sweepNum then
      { a with sweepNum := a.sweepNum.neg }
    else a
  | .fixed => a

/-- The part of `parse_args` that sets up the sweep. -/
def parseArgs (nranks : Int) (options : List Opt) : Option Args :=
  (options.foldlM setOption defaults).map fun a => (a.clampRanks nranks).adjustNum

/-- A sum of type `int`. -/
def addInt (x y : Int) : Option Int :=
  if -2 ^ 31 ≤ x + y ∧ x + y ≤ 2 ^ 31 - 1 then some (x + y) else none

variable (a : Args)

/-- `(int)roundf(current * args.sweep_num)` -/
def product (current : Int) : Option Int :=
  ((Value.mul binary64 (.finite current) a.sweepNum).convert binary32).round.toInt

/-- `(int)roundf(args.sweep_num)` -/
def increment : Option Int := (a.sweepNum.convert binary32).round.toInt

/-- One rank further where the computed size is the current one. -/
def force (current next : Int) : Option Int :=
  if next = current then addInt next (if a.beginranks < a.endranks then 1 else -1) else some next

def nextStep (current : Int) : Option Int :=
  match a.sweepKind with
  | .fixed => some 0
  | .factor => (a.product current).bind (a.force current)
  | .step => (a.increment.bind (addInt current)).bind (a.force current)

def KeepTesting (current : Int) : Prop :=
  if a.beginranks = a.endranks then current = a.endranks
  else if a.beginranks < a.endranks then current ≤ a.endranks
  else current ≥ a.endranks

/-- The loop of `main` ends, having tested the sizes in the list. -/
def Sweep (visited : List Int) : Prop :=
  LoopRun a.KeepTesting a.nextStep a.beginranks visited

/-- The loop of `main`, ending or not, tests this many ranks. -/
def Tests (current : Int) : Prop :=
  LoopVisits a.KeepTesting a.nextStep a.beginranks current

/-- Every step the sweep takes stays in the range of `int`. -/
def Defined : Prop := ∀ current, a.Tests current → (a.nextStep current).isSome

/-- The kind of sweep leads from `beginranks` past `endranks`. -/
def Progresses : Prop :=
  match a.sweepKind with
  | .fixed => 0 < a.endranks ∧ a.endranks ≤ a.beginranks
  | .step => True
  | .factor =>
    (a.beginranks < a.endranks → ∀ current next, a.beginranks ≤ current → current ≤ a.endranks →
      a.product current = some next → current ≤ next) ∧
    (a.endranks < a.beginranks → ∀ current next, a.endranks ≤ current → current ≤ a.beginranks →
      a.product current = some next → next ≤ current)

/-! ## What the options leave -/

/-- What is known of a sweep number before it is turned around. -/
structure Magnitude (kind : SweepKind) (num : Value) : Prop where
  not_below : num ≠ .infinity true
  nonneg : ∀ q, num = .finite q → 0 ≤ q
  factor : kind = .factor → ∀ q, num = .finite q → q = 0 ∨ 1 ≤ q

theorem magnitude_of_le {kind : SweepKind} {q : ℚ} (nonneg : 0 ≤ q)
    (factor : kind = .factor → q = 0 ∨ 1 ≤ q) : Magnitude kind (.finite q) where
  not_below := Value.noConfusion
  nonneg := by
    rintro _ ⟨⟩
    exact nonneg
  factor := by
    rintro isFactor _ ⟨⟩
    exact factor isFactor

theorem nearest_one : binary64.nearest 1 = 1 := by
  exact_mod_cast Format.nearest_natCast (F := binary64) (n := 1)
    (by norm_num [Format.bias, binary64]) (by norm_num [binary64])

theorem one_le_inv {q r : ℚ} (pos : 0 < q) (le : q ≤ 1)
    (inverse : (Value.finite q).inv binary64 = .finite r) : 1 ≤ r := by
  simp only [Value.inv, if_neg pos.ne'] at inverse
  have above := Format.nearest_mono_of_nonneg (F := binary64) one_pos.le (one_le_one_div pos le)
  rwa [nearest_one, ← (Value.ofRat_eq_finite inverse).1] at above

theorem inv_le_one {q r : ℚ} (le : 1 ≤ q)
    (inverse : (Value.finite q).inv binary64 = .finite r) : 0 ≤ r ∧ r ≤ 1 := by
  have pos : 0 < q := one_pos.trans_le le
  simp only [Value.inv, if_neg pos.ne'] at inverse
  rw [(Value.ofRat_eq_finite inverse).1]
  refine ⟨Format.nearest_nonneg (one_div_pos.2 pos).le, ?_⟩
  have below := Format.nearest_mono_of_nonneg (F := binary64) (one_div_pos.2 pos).le
    ((div_le_one pos).2 le)
  rwa [nearest_one] at below

theorem Magnitude.parseStepKinds {kind kind' : SweepKind} {text : StepText} {num : Value}
    (parsed : parseStepKinds kind text = some (kind', num)) : Magnitude kind' num := by
  cases text with
  | fixed =>
    cases parsed
    exact magnitude_of_le le_rfl fun _ => Or.inl rfl
  | unknown =>
    cases parsed
    exact magnitude_of_le le_rfl fun _ => Or.inl rfl
  | factor num₀ errno =>
    simp only [CommOps.parseStepKinds] at parsed
    split_ifs at parsed with _ positive small
    · cases parsed
      cases num₀ with
      | nan => cases small
      | infinity s => cases s <;> simp_all [Value.le, Value.lt]
      | finite q =>
        have pos : 0 < q := by simpa [Value.le] using positive
        have le : q < 1 := by simpa [Value.lt] using small
        refine ⟨?_, fun r inverse => one_pos.le.trans (one_le_inv pos le.le inverse),
          fun _ r inverse => Or.inr (one_le_inv pos le.le inverse)⟩
        intro below
        simp only [Value.inv, if_neg pos.ne', Value.ofRat] at below
        split_ifs at below
        exact pos.le.not_gt (by simpa using below)
    · cases parsed
      refine ⟨?_, ?_, ?_⟩
      · rintro rfl
        exact positive rfl
      · rintro q rfl
        have pos : 0 < q := by simpa [Value.le] using positive
        exact pos.le
      · rintro _ q rfl
        have large : 1 ≤ q := by simpa [Value.lt] using small
        exact Or.inr large
  | step num₀ errno =>
    simp only [CommOps.parseStepKinds] at parsed
    split_ifs at parsed with _ positive negative
    · cases parsed
      cases num₀ with
      | nan => cases negative
      | infinity s => cases s <;> simp_all [Value.le, Value.lt]
      | finite q =>
        have pos : 0 < q := by simpa [Value.le] using positive
        have neg : q < 0 := by simpa [Value.lt] using negative
        exact absurd neg pos.le.not_gt
    · cases parsed
      refine ⟨?_, ?_, ?_⟩
      · rintro rfl
        exact positive rfl
      · rintro q rfl
        have pos : 0 < q := by simpa [Value.le] using positive
        exact pos.le
      · intro kind
        cases kind

theorem Magnitude.foldlM {options : List Opt} {a a' : Args}
    (start : Magnitude a.sweepKind a.sweepNum) (parsed : options.foldlM setOption a = some a') :
    Magnitude a'.sweepKind a'.sweepNum := by
  induction options generalizing a with
  | nil =>
    cases parsed
    exact start
  | cons option options ih =>
    rw [List.foldlM_cons] at parsed
    obtain ⟨b, set, parsed⟩ := Option.bind_eq_some_iff.1 parsed
    refine ih ?_ parsed
    cases option with
    | sweepBegin ranks =>
      cases set
      exact start
    | sweepEnd ranks =>
      cases set
      exact start
    | sweepComms text =>
      obtain ⟨⟨kind, num⟩, kinds, rfl⟩ := Option.map_eq_some_iff.1 set
      exact .parseStepKinds kinds

/-- What the sweep relies on: sizes up to the number of ranks, and a number that leads
from `beginranks` towards `endranks`. -/
structure Adjusted (nranks : Int) (a : Args) : Prop where
  begin_nonneg : 0 ≤ a.beginranks
  begin_le : a.beginranks ≤ nranks
  end_nonneg : 0 ≤ a.endranks
  end_le : a.endranks ≤ nranks
  up_factor : a.sweepKind = .factor → a.beginranks < a.endranks →
    ∀ q, a.sweepNum = .finite q → 1 ≤ q
  down_factor : a.sweepKind = .factor → ¬ a.beginranks < a.endranks →
    ∀ q, a.sweepNum = .finite q → 0 ≤ q ∧ q ≤ 1
  up_step : a.sweepKind = .step → a.beginranks < a.endranks →
    ∀ q, a.sweepNum = .finite q → 0 ≤ q
  down_step : a.sweepKind = .step → ¬ a.beginranks < a.endranks →
    ∀ q, a.sweepNum = .finite q → q ≤ 0

theorem adjustNum_up_factor {a : Args} (size : Magnitude a.sweepKind a.sweepNum)
    (factor : a.sweepKind = .factor) (up : a.beginranks < a.endranks) {q : ℚ}
    (num : a.adjustNum.sweepNum = .finite q) : 1 ≤ q := by
  simp only [adjustNum, factor] at num
  split at num
  · next differ =>
    cases number : a.sweepNum with
    | nan => simp [number, Value.inv] at num
    | infinity s =>
      cases s
      · simp [number, up, Value.lt] at differ
      · exact absurd number size.not_below
    | finite p =>
      simp only [number] at num
      have le : p ≤ 1 := by simpa [number, up, Value.lt] using differ
      rcases size.factor factor p number with rfl | large
      · simp [Value.inv] at num
      · exact one_le_inv (one_pos.trans_le large) le num
  · next agree =>
    have large : 1 < q := by simpa [num, up, Value.lt] using agree
    exact large.le

theorem adjustNum_down_factor {a : Args} (size : Magnitude a.sweepKind a.sweepNum)
    (factor : a.sweepKind = .factor) (down : ¬ a.beginranks < a.endranks) {q : ℚ}
    (num : a.adjustNum.sweepNum = .finite q) : 0 ≤ q ∧ q ≤ 1 := by
  simp only [adjustNum, factor] at num
  split at num
  · next differ =>
    cases number : a.sweepNum with
    | nan => simp [number, Value.inv] at num
    | infinity s =>
      rw [number] at num
      cases num
      norm_num
    | finite p =>
      simp only [number] at num
      have large : 1 < p := by simpa [number, down, Value.lt] using differ
      exact inv_le_one large.le num
  · next agree =>
    have small : q ≤ 1 := by simpa [num, down, Value.lt] using agree
    exact ⟨size.nonneg q num, small⟩

theorem adjustNum_up_step {a : Args} (size : Magnitude a.sweepKind a.sweepNum)
    (step : a.sweepKind = .step) (up : a.beginranks < a.endranks) {q : ℚ}
    (num : a.adjustNum.sweepNum = .finite q) : 0 ≤ q := by
  simp only [adjustNum, step] at num
  split at num
  · next differ =>
    cases number : a.sweepNum with
    | nan => simp [number, Value.neg] at num
    | infinity s => simp [number, Value.neg] at num
    | finite p =>
      rw [number] at num
      cases num
      have le : p ≤ 0 := by simpa [number, up, Value.lt] using differ
      linarith
  · exact size.nonneg q num

theorem adjustNum_down_step {a : Args} (size : Magnitude a.sweepKind a.sweepNum)
    (step : a.sweepKind = .step) (down : ¬ a.beginranks < a.endranks) {q : ℚ}
    (num : a.adjustNum.sweepNum = .finite q) : q ≤ 0 := by
  simp only [adjustNum, step] at num
  split at num
  · cases number : a.sweepNum with
    | nan => simp [number, Value.neg] at num
    | infinity s => simp [number, Value.neg] at num
    | finite p =>
      rw [number] at num
      cases num
      have nonneg := size.nonneg p number
      linarith
  · next agree => simpa [num, down, Value.lt] using agree

@[simp] theorem adjustNum_beginranks (a : Args) : a.adjustNum.beginranks = a.beginranks := by
  unfold adjustNum
  split <;> (try split) <;> rfl

@[simp] theorem adjustNum_endranks (a : Args) : a.adjustNum.endranks = a.endranks := by
  unfold adjustNum
  split <;> (try split) <;> rfl

@[simp] theorem adjustNum_sweepKind (a : Args) : a.adjustNum.sweepKind = a.sweepKind := by
  unfold adjustNum
  split <;> (try split) <;> rfl

theorem adjusted_parseArgs {nranks : Int} {options : List Opt} {a : Args} (ranks : 1 ≤ nranks)
    (parsed : parseArgs nranks options = some a) : a.Adjusted nranks := by
  obtain ⟨b, folded, rfl⟩ := Option.map_eq_some_iff.1 parsed
  have start : Magnitude defaults.sweepKind defaults.sweepNum :=
    magnitude_of_le (by norm_num) fun _ => Or.inr (by norm_num)
  have folded_size : Magnitude b.sweepKind b.sweepNum := Magnitude.foldlM start folded
  have size : Magnitude (b.clampRanks nranks).sweepKind (b.clampRanks nranks).sweepNum :=
    folded_size
  refine ⟨?_, ?_, ?_, ?_, ?_, ?_, ?_, ?_⟩
  all_goals
    simp only [adjustNum_beginranks, adjustNum_endranks, adjustNum_sweepKind]
  · exact le_min (le_max_right _ _) (by omega)
  · exact min_le_right _ _
  · exact le_min (le_max_right _ _) (by omega)
  · exact min_le_right _ _
  · exact fun kind up _ => adjustNum_up_factor size kind up
  · exact fun kind down _ => adjustNum_down_factor size kind down
  · exact fun kind up _ => adjustNum_up_step size kind up
  · exact fun kind down _ => adjustNum_down_step size kind down

/-! ## One step -/

variable {a : Args} {nranks : Int}

theorem force_ne {current next n : Int} (forced : a.force current next = some n) :
    n ≠ current := by
  unfold force addInt at forced
  split_ifs at forced <;> cases forced <;> omega

theorem force_gt {current next n : Int} (up : a.beginranks < a.endranks) (le : current ≤ next)
    (forced : a.force current next = some n) : current < n := by
  unfold force addInt at forced
  split_ifs at forced <;> cases forced <;> omega

theorem force_lt {current next n : Int} (down : ¬ a.beginranks < a.endranks)
    (le : next ≤ current) (forced : a.force current next = some n) : n < current := by
  unfold force addInt at forced
  split_ifs at forced <;> cases forced <;> omega

/-- The value of `roundf` for a number computed as a double. -/
def rounding (q : ℚ) : Int := roundHalfAway (binary32.nearest (binary64.nearest q))

theorem rounding_nonneg {q : ℚ} (nonneg : 0 ≤ q) : 0 ≤ rounding q :=
  roundHalfAway_nonneg (Format.nearest_nonneg (Format.nearest_nonneg nonneg))

theorem rounding_mono_of_nonneg {p q : ℚ} (nonneg : 0 ≤ p) (le : p ≤ q) :
    rounding p ≤ rounding q :=
  roundHalfAway_mono_of_nonneg (Format.nearest_nonneg (Format.nearest_nonneg nonneg))
    (Format.nearest_mono_of_nonneg (Format.nearest_nonneg nonneg)
      (Format.nearest_mono_of_nonneg nonneg le))

/-- Floats hold every integer below `2 ^ 24`. -/
theorem rounding_of_lt {c : Int} (nonneg : 0 ≤ c) (less : c < 2 ^ 24) : rounding c = c := by
  obtain ⟨n, rfl⟩ := Int.eq_ofNat_of_zero_le nonneg
  have double : binary64.nearest n = n :=
    Format.nearest_natCast (by norm_num [Format.bias, binary64])
      (lt_of_lt_of_le (by omega : n < 2 ^ 24) (by norm_num [binary64]))
  have float : binary32.nearest n = n :=
    Format.nearest_natCast (by norm_num [Format.bias, binary32])
      (lt_of_lt_of_le (by omega : n < 2 ^ 24) (by norm_num [binary32]))
  rw [rounding, Int.cast_natCast, double, float, roundHalfAway_natCast]

/-- A defined product is the exact one rounded to a double, to a float and to an integer. -/
theorem product_eq_some {current next : Int} (defined : a.product current = some next) :
    ∃ q, a.sweepNum = .finite q ∧ next = rounding (current * q) := by
  obtain ⟨r, converted, rfl, -, -⟩ := Value.toInt_round_eq_some defined
  cases number : a.sweepNum with
  | nan => simp [number, Value.mul, Value.convert] at converted
  | infinity s =>
    simp only [number, Value.mul] at converted
    split_ifs at converted <;> simp [Value.convert] at converted
  | finite q =>
    rw [number] at converted
    refine ⟨q, rfl, ?_⟩
    simp only [Value.mul] at converted
    unfold Value.ofRat at converted
    split at converted
    · rw [rounding, (Value.ofRat_eq_finite converted).1]
    · simp [Value.convert] at converted

theorem increment_eq_some {s : Int} (defined : a.increment = some s) :
    ∃ q, a.sweepNum = .finite q ∧ s = roundHalfAway (binary32.nearest q) := by
  obtain ⟨r, converted, rfl, -, -⟩ := Value.toInt_round_eq_some defined
  cases number : a.sweepNum with
  | nan => simp [number, Value.convert] at converted
  | infinity s => simp [number, Value.convert] at converted
  | finite q =>
    rw [number] at converted
    exact ⟨q, rfl, by rw [(Value.ofRat_eq_finite converted).1]⟩

theorem Adjusted.factor_nonneg (adjusted : a.Adjusted nranks) (factor : a.sweepKind = .factor)
    {q : ℚ} (num : a.sweepNum = .finite q) : 0 ≤ q := by
  by_cases up : a.beginranks < a.endranks
  · exact one_pos.le.trans (adjusted.up_factor factor up q num)
  · exact (adjusted.down_factor factor up q num).1

theorem product_nonneg (adjusted : a.Adjusted nranks) (factor : a.sweepKind = .factor)
    {current next : Int} (nonneg : 0 ≤ current) (defined : a.product current = some next) :
    0 ≤ next := by
  obtain ⟨q, num, rfl⟩ := product_eq_some defined
  have exact_ : (0 : ℚ) ≤ current * q :=
    mul_nonneg (by exact_mod_cast nonneg) (adjusted.factor_nonneg factor num)
  exact rounding_nonneg exact_

/-- Rounding keeps the order of the products. -/
theorem product_mono (adjusted : a.Adjusted nranks) (factor : a.sweepKind = .factor)
    {c d c' d' : Int} (nonneg : 0 ≤ c) (le : c ≤ d) (defined : a.product c = some c')
    (defined' : a.product d = some d') : c' ≤ d' := by
  obtain ⟨q, num, rfl⟩ := product_eq_some defined
  obtain ⟨p, num', rfl⟩ := product_eq_some defined'
  obtain rfl : q = p := Value.finite.inj (num.symm.trans num')
  have q_nonneg := adjusted.factor_nonneg factor num
  have exact_ : (0 : ℚ) ≤ c * q := mul_nonneg (by exact_mod_cast nonneg) q_nonneg
  have le_ : (c : ℚ) * q ≤ d * q := mul_le_mul_of_nonneg_right (by exact_mod_cast le) q_nonneg
  exact rounding_mono_of_nonneg exact_ le_

theorem nextStep_ne (notFixed : a.sweepKind ≠ .fixed) {current n : Int}
    (step : a.nextStep current = some n) : n ≠ current := by
  unfold nextStep at step
  cases kind : a.sweepKind with
  | fixed => exact absurd kind notFixed
  | factor =>
    rw [kind] at step
    obtain ⟨next, -, forced⟩ := Option.bind_eq_some_iff.1 step
    exact force_ne forced
  | step =>
    rw [kind] at step
    obtain ⟨next, -, forced⟩ := Option.bind_eq_some_iff.1 step
    exact force_ne forced

theorem nextStep_gt (adjusted : a.Adjusted nranks) (progresses : a.Progresses)
    (up : a.beginranks < a.endranks) {current n : Int} (low : a.beginranks ≤ current)
    (high : current ≤ a.endranks) (step : a.nextStep current = some n) : current < n := by
  unfold nextStep at step
  unfold Progresses at progresses
  cases kind : a.sweepKind with
  | fixed =>
    rw [kind] at progresses
    exact absurd up progresses.2.not_gt
  | factor =>
    rw [kind] at step progresses
    obtain ⟨next, defined, forced⟩ := Option.bind_eq_some_iff.1 step
    exact force_gt up (progresses.1 up current next low high defined) forced
  | step =>
    rw [kind] at step
    obtain ⟨next, sum, forced⟩ := Option.bind_eq_some_iff.1 step
    obtain ⟨s, defined, added⟩ := Option.bind_eq_some_iff.1 sum
    obtain ⟨q, num, rfl⟩ := increment_eq_some defined
    have nonneg := roundHalfAway_nonneg
      (Format.nearest_nonneg (F := binary32) (adjusted.up_step kind up q num))
    refine force_gt up ?_ forced
    unfold addInt at added
    split_ifs at added
    cases added
    omega

theorem nextStep_lt (adjusted : a.Adjusted nranks) (progresses : a.Progresses)
    (down : a.endranks < a.beginranks) {current n : Int} (low : a.endranks ≤ current)
    (high : current ≤ a.beginranks) (step : a.nextStep current = some n) : n < current := by
  unfold nextStep at step
  unfold Progresses at progresses
  cases kind : a.sweepKind with
  | fixed =>
    rw [kind] at step progresses
    cases step
    exact progresses.1.trans_le low
  | factor =>
    rw [kind] at step progresses
    obtain ⟨next, defined, forced⟩ := Option.bind_eq_some_iff.1 step
    exact force_lt down.not_gt (progresses.2 down current next low high defined) forced
  | step =>
    rw [kind] at step
    obtain ⟨next, sum, forced⟩ := Option.bind_eq_some_iff.1 step
    obtain ⟨s, defined, added⟩ := Option.bind_eq_some_iff.1 sum
    obtain ⟨q, num, rfl⟩ := increment_eq_some defined
    have nonpos := roundHalfAway_nonpos
      (Format.nearest_nonpos (F := binary32) (adjusted.down_step kind down.not_gt q num))
    refine force_lt down.not_gt ?_ forced
    unfold addInt at added
    split_ifs at added
    cases added
    omega

/-! ## Whole sweeps -/

theorem tests_up (adjusted : a.Adjusted nranks) (progresses : a.Progresses)
    (up : a.beginranks < a.endranks) {current : Int} (tests : a.Tests current) :
    a.beginranks ≤ current ∧ current ≤ a.endranks := by
  have bound {x : Int} (kept : a.KeepTesting x) : x ≤ a.endranks := by
    rwa [KeepTesting, if_neg up.ne, if_pos up] at kept
  induction tests with
  | start kept => exact ⟨le_rfl, bound kept⟩
  | step _ step kept ih =>
    have further := nextStep_gt adjusted progresses up ih.1 ih.2 step
    exact ⟨ih.1.trans further.le, bound kept⟩

theorem tests_down (adjusted : a.Adjusted nranks) (progresses : a.Progresses)
    (down : a.endranks < a.beginranks) {current : Int} (tests : a.Tests current) :
    a.endranks ≤ current ∧ current ≤ a.beginranks := by
  have bound {x : Int} (kept : a.KeepTesting x) : a.endranks ≤ x := by
    rwa [KeepTesting, if_neg down.ne', if_neg down.not_gt] at kept
  induction tests with
  | start kept => exact ⟨bound kept, le_rfl⟩
  | step _ step kept ih =>
    have further := nextStep_lt adjusted progresses down ih.1 ih.2 step
    exact ⟨bound kept, further.le.trans ih.2⟩

theorem tests_equal (equal : a.beginranks = a.endranks) {current : Int}
    (tests : a.Tests current) : current = a.endranks := by
  have bound {x : Int} (kept : a.KeepTesting x) : x = a.endranks := by
    rwa [KeepTesting, if_pos equal] at kept
  cases tests with
  | start kept => exact bound kept
  | step _ _ kept => exact bound kept

/-- A defined sweep that progresses ends, without visiting a size twice. -/
theorem exists_sweep (adjusted : a.Adjusted nranks) (defined : a.Defined)
    (progresses : a.Progresses) :
    ∃ visited, a.Sweep visited ∧ visited.Nodup ∧ ∀ n ∈ visited, n ≤ nranks := by
  have steps (current : Int) (tests : a.Tests current) : ∃ n, a.nextStep current = some n :=
    Option.isSome_iff_exists.1 (defined current tests)
  rcases lt_trichotomy a.beginranks a.endranks with up | equal | down
  · obtain ⟨visited, sweep, nodup, tested⟩ := LoopRun.exists_nodup_of_measure
      (fun x => (a.endranks + 1 - x).toNat) (by
        intro x tests
        obtain ⟨n, step⟩ := steps x tests
        have within := tests_up adjusted progresses up tests
        have further := nextStep_gt adjusted progresses up within.1 within.2 step
        exact ⟨n, step, by omega⟩)
    exact ⟨visited, sweep, nodup, fun n member =>
      (tests_up adjusted progresses up (tested n member)).2.trans adjusted.end_le⟩
  · obtain ⟨visited, sweep, nodup, tested⟩ := LoopRun.exists_nodup_of_measure
      (fun x => if x = a.endranks then 1 else 0) (by
        intro x tests
        obtain ⟨n, step⟩ := steps x tests
        have here := tests_equal equal tests
        have apart : n ≠ a.endranks := by
          by_cases fixed : a.sweepKind = .fixed
          · unfold nextStep at step
            unfold Progresses at progresses
            rw [fixed] at step progresses
            cases step
            exact progresses.1.ne
          · exact here ▸ nextStep_ne fixed step
        refine ⟨n, step, ?_⟩
        rw [if_pos here, if_neg apart]
        exact Nat.one_pos)
    exact ⟨visited, sweep, nodup, fun n member =>
      (tests_equal equal (tested n member)).le.trans adjusted.end_le⟩
  · obtain ⟨visited, sweep, nodup, tested⟩ := LoopRun.exists_nodup_of_measure
      (fun x => (x + 1 - a.endranks).toNat) (by
        intro x tests
        obtain ⟨n, step⟩ := steps x tests
        have within := tests_down adjusted progresses down tests
        have further := nextStep_lt adjusted progresses down within.1 within.2 step
        exact ⟨n, step, by omega⟩)
    exact ⟨visited, sweep, nodup, fun n member =>
      (tests_down adjusted progresses down (tested n member)).2.trans adjusted.begin_le⟩

/-- A `fixed` sweep that 0 does not end is back at 0 for ever. -/
theorem fixed_endless (adjusted : a.Adjusted nranks) (fixed : a.sweepKind = .fixed)
    (inside : ¬ (0 < a.endranks ∧ a.endranks ≤ a.beginranks)) (visited : List Int) :
    ¬ a.Sweep visited := by
  have begin_nonneg := adjusted.begin_nonneg
  have end_nonneg := adjusted.end_nonneg
  refine LoopRun.not_of_closed (P := fun x => x = a.beginranks ∨ x = 0) ?_ ?_ (Or.inl rfl) _
  · intro x stuck
    unfold KeepTesting
    split_ifs <;> omega
  · intro x y _ step
    unfold nextStep at step
    rw [fixed] at step
    exact Or.inr (Option.some.inj step).symm

/-- Going up, a product below its size is a ceiling for every smaller size. -/
theorem up_endless (adjusted : a.Adjusted nranks) (factor : a.sweepKind = .factor)
    (up : a.beginranks < a.endranks) {b v : Int} (low : a.beginranks ≤ b) (high : b ≤ a.endranks)
    (defined : a.product b = some v) (back : v < b) (visited : List Int) :
    ¬ a.Sweep visited := by
  refine LoopRun.not_of_closed (P := fun x => 0 ≤ x ∧ x ≤ b) ?_ ?_
    ⟨adjusted.begin_nonneg, low⟩ _
  · intro x stuck
    rw [KeepTesting, if_neg up.ne, if_pos up]
    exact stuck.2.trans high
  · intro x y stuck step
    unfold nextStep at step
    rw [factor] at step
    obtain ⟨next, product, forced⟩ := Option.bind_eq_some_iff.1 step
    have nonneg := product_nonneg adjusted factor stuck.1 product
    have below := product_mono adjusted factor stuck.1 stuck.2 product defined
    unfold force addInt at forced
    split_ifs at forced <;> cases forced <;> omega

/-- Going down, a product above its size is a floor for every larger size. -/
theorem down_endless (adjusted : a.Adjusted nranks) (factor : a.sweepKind = .factor)
    (down : a.endranks < a.beginranks) {b v : Int} (low : a.endranks ≤ b)
    (high : b ≤ a.beginranks) (defined : a.product b = some v) (back : b < v)
    (visited : List Int) : ¬ a.Sweep visited := by
  have end_nonneg := adjusted.end_nonneg
  refine LoopRun.not_of_closed (P := fun x => b ≤ x) ?_ ?_ high _
  · intro x stuck
    rw [KeepTesting, if_neg down.ne', if_neg down.not_gt]
    exact low.trans stuck
  · intro x y stuck step
    unfold nextStep at step
    rw [factor] at step
    obtain ⟨next, product, forced⟩ := Option.bind_eq_some_iff.1 step
    have above := product_mono adjusted factor (end_nonneg.trans low) stuck defined product
    unfold force addInt at forced
    split_ifs at forced <;> cases forced <;> omega

/-- A sweep that ends progresses. -/
theorem Sweep.progresses (adjusted : a.Adjusted nranks) {visited : List Int}
    (sweep : a.Sweep visited) : a.Progresses := by
  unfold Progresses
  cases kind : a.sweepKind with
  | fixed =>
    by_contra inside
    exact fixed_endless adjusted kind inside visited sweep
  | step => trivial
  | factor =>
    refine ⟨fun up b v low high defined => ?_, fun down b v low high defined => ?_⟩
    · by_contra back
      exact up_endless adjusted kind up low high defined (not_le.1 back) visited sweep
    · by_contra back
      exact down_endless adjusted kind down low high defined (not_le.1 back) visited sweep

/-- **When the sweep over ranks ends.** For every number of ranks and all options `parse_args`
accepts (`parsed`), the sweep ends after finitely many sizes, pairwise distinct and at most the
number of ranks, exactly when its steps stay in the range of `int` and its kind leads past
`endranks`.

`Defined` is a condition on the sizes visited, that no conversion of a step to `int` overflows.
`Progresses` is one on the options: a fixed sweep goes on with zero, which must lie beyond
`endranks`; a step always leads towards it; and a rounded product must not lead away from it. -/
theorem sweep_ends_iff_progresses {nranks : Int} {options : List Opt} {a : Args}
    (ranks : 1 ≤ nranks) (parsed : parseArgs nranks options = some a) :
    (∃ visited, a.Sweep visited ∧ visited.Nodup ∧ ∀ n ∈ visited, n ≤ nranks) ↔
      a.Defined ∧ a.Progresses := by
  have adjusted := adjusted_parseArgs ranks parsed
  constructor
  · rintro ⟨visited, sweep, -, -⟩
    exact ⟨fun current tests => (sweep.visits current tests).2, sweep.progresses adjusted⟩
  · rintro ⟨defined, progresses⟩
    exact exists_sweep adjusted defined progresses

/-- `--sweep-comms fixed` on four ranks. -/
theorem sweep_ends_iff_progresses_fixed :
    (1 : Int) ≤ 4 ∧ parseArgs 4 [.sweepComms .fixed] = some ⟨4, 1, .fixed, .finite 0⟩ ∧
      ((∃ visited, Args.Sweep ⟨4, 1, .fixed, .finite 0⟩ visited ∧ visited.Nodup ∧
        ∀ n ∈ visited, n ≤ 4) ↔
        Args.Defined ⟨4, 1, .fixed, .finite 0⟩ ∧ Args.Progresses ⟨4, 1, .fixed, .finite 0⟩) :=
  have parsed : parseArgs 4 [.sweepComms .fixed] = some ⟨4, 1, .fixed, .finite 0⟩ := rfl
  ⟨by decide, parsed, sweep_ends_iff_progresses (by decide) parsed⟩

/-- `--sweep-begin 1 --sweep-end 4 --sweep-comms fixed` on four ranks: after one rank the
sweep tests none, over and over. -/
theorem fixed_sweep_up_endless :
    ¬ ∀ (nranks : Int) (options : List Opt) (a : Args), 1 ≤ nranks →
      parseArgs nranks options = some a →
      ∃ visited, a.Sweep visited ∧ visited.Nodup ∧ ∀ n ∈ visited, n ≤ nranks := by
  intro ends
  have parsed : parseArgs 4 [.sweepBegin 1, .sweepEnd 4, .sweepComms .fixed] =
      some ⟨1, 4, .fixed, .finite 0⟩ := rfl
  obtain ⟨visited, sweep, -⟩ := ends _ _ _ (by decide) parsed
  exact fixed_endless (adjusted_parseArgs (by decide) parsed) rfl (by decide) visited sweep

/-- Below `2 ^ 24` ranks no rounded product turns back. -/
theorem progresses_of_lt (adjusted : a.Adjusted nranks) (few : nranks < 2 ^ 24)
    (notFixed : a.sweepKind ≠ .fixed) : a.Progresses := by
  unfold Progresses
  cases kind : a.sweepKind with
  | fixed => exact absurd kind notFixed
  | step => trivial
  | factor =>
    refine ⟨fun up c v low high defined => ?_, fun down c v low high defined => ?_⟩
    · obtain ⟨q, num, rfl⟩ := product_eq_some defined
      have nonneg : 0 ≤ c := adjusted.begin_nonneg.trans low
      have le : c ≤ nranks := high.trans adjusted.end_le
      have cast : (0 : ℚ) ≤ c := by exact_mod_cast nonneg
      have larger : (c : ℚ) ≤ c * q :=
        le_mul_of_one_le_right cast (adjusted.up_factor kind up q num)
      calc c = rounding c := (rounding_of_lt nonneg (le.trans_lt few)).symm
        _ ≤ rounding (c * q) := rounding_mono_of_nonneg cast larger
    · obtain ⟨q, num, rfl⟩ := product_eq_some defined
      have nonneg : 0 ≤ c := adjusted.end_nonneg.trans low
      have le : c ≤ nranks := high.trans adjusted.begin_le
      have cast : (0 : ℚ) ≤ c := by exact_mod_cast nonneg
      obtain ⟨q_nonneg, q_le⟩ := adjusted.down_factor kind down.not_gt q num
      have smaller : (c : ℚ) * q ≤ c := mul_le_of_le_one_right cast q_le
      calc rounding (c * q) ≤ rounding c :=
            rounding_mono_of_nonneg (mul_nonneg cast q_nonneg) smaller
        _ = c := rounding_of_lt nonneg (le.trans_lt few)

end Args

end NcclTests.CommOps
