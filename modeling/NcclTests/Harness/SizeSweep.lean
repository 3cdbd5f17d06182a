import Mathlib
import NcclTests.Lib.Ieee
import NcclTests.Lib.Loop
import NcclTests.Lib.PowTwoOrbit

/-!
# The sweep over message sizes

How the size options are read and checked, and the loop of `TimeTest` over the
sizes between `minbytes` and `maxbytes`, in 64-bit unsigned arithmetic.

`main` checks only that `minBytes` is at most `maxBytes`, so the loop need not
leave that range: zero stays zero under multiplication, a step may be zero, and a
product or a sum may wrap around below the limit again. `Sizes.SweepEnds` is
exactly when some size exceeds the limit. For additive steps and for odd factors it
compares the limit with the largest size congruent to the first one; an even factor
is down to zero after 64 steps.
-/

namespace NcclTests.Harness

open BinaryFloat

/-- What `sscanf` reads off the text of a size: nothing, a number, or a number and a letter. -/
inductive SizeText
  | none
  | number (size : Value)
  | unit (size : Value) (sizeLit : Char)

def parsesize : SizeText → Value
  | .none => .finite (-1)
  | .number size => Value.mul binary64 size (.finite 1)
  | .unit size sizeLit =>
    if sizeLit = 'G' ∨ sizeLit = 'g' then Value.mul binary64 size (.finite (1024 * 1024 * 1024))
    else if sizeLit = 'M' ∨ sizeLit = 'm' then Value.mul binary64 size (.finite (1024 * 1024))
    else if sizeLit = 'K' ∨ sizeLit = 'k' then Value.mul binary64 size (.finite 1024)
    else .finite (-1)

/-- The size options, and the fields of `threadArgs` they end up in. -/
structure Sizes where
  minBytes : UInt64
  maxBytes : UInt64
  stepBytes : UInt64
  stepFactor : UInt64
  deriving DecidableEq, Repr

namespace Sizes

def defaults : Sizes := ⟨32 * 1024 * 1024, 32 * 1024 * 1024, 1 * 1024 * 1024, 1⟩

/-- `-b`, `-e` and `-i` with their text, and `-f` with the result of `strtol`. -/
inductive Opt
  | minbytes (text : SizeText)
  | maxbytes (text : SizeText)
  | stepbytes (text : SizeText)
  | stepfactor (parsed : Int)

/-- A parsed size as a `size_t`; `none` where `main` returns an error or the conversion
is undefined. -/
def ofParsed (parsed : Value) : Option UInt64 :=
  if parsed.lt (.finite 0) then none else parsed.toSizeT

def setOption (s : Sizes) : Opt → Option Sizes
  | .minbytes text => (ofParsed (parsesize text)).map fun v => { s with minBytes := v }
  | .maxbytes text => (ofParsed (parsesize text)).map fun v => { s with maxBytes := v }
  | .stepbytes text => (ofParsed (parsesize text)).map fun v => { s with stepBytes := v }
  | .stepfactor parsed => some { s with stepFactor := UInt64.ofInt parsed }

/-- The sizes `main` goes on with after its options and their check. -/
def accepted (options : List Opt) : Option Sizes :=
  (options.foldlM setOption defaults).bind fun s =>
    if s.minBytes > s.maxBytes then none else some s

/-- The reduction of the sizes to the memory of the device. -/
def limitMemory (s : Sizes) (memMaxBytes : UInt64) : Sizes :=
  if s.maxBytes > memMaxBytes then
    { s with maxBytes := memMaxBytes
             minBytes := if s.minBytes > memMaxBytes then memMaxBytes else s.minBytes }
  else s

variable (s : Sizes)

/-- The third expression of the `for` in `TimeTest`. -/
def nextSize (size : UInt64) : UInt64 :=
  if s.stepFactor > 1 then size * s.stepFactor else size + s.stepBytes

/-- One pass of the loop of `TimeTest` ends, having measured the sizes in the list. -/
def Sweep (visited : List UInt64) : Prop :=
  LoopRun (· ≤ s.maxBytes) (fun size => some (s.nextSize size)) s.minBytes visited

/-- The largest size congruent to `a` modulo `g`. -/
def largestSize (a g : Nat) : Nat := largestCongruent 64 a g

/-- Some size of the sweep exceeds the limit. -/
def SweepEnds : Prop :=
  let first := s.minBytes.toNat
  let limit := s.maxBytes.toNat
  let factor := s.stepFactor.toNat
  if factor ≤ 1 then limit < largestSize first (s.stepBytes.toNat.gcd (2 ^ 64))
  else if factor % 2 = 1 then
    limit < largestSize first ((first * (factor ^ 2 - 1)).gcd (2 ^ 64)) ∨
      limit < largestSize (first * factor) ((first * (factor ^ 2 - 1)).gcd (2 ^ 64))
  else ∃ steps < 64, limit < first * factor ^ steps % 2 ^ 64

instance : Decidable s.SweepEnds := by
  unfold SweepEnds
  infer_instance

variable {s}

theorem nextSize_add (single : s.stepFactor.toNat ≤ 1) :
    s.nextSize = fun size => size + s.stepBytes := by
  funext size
  have : ¬ s.stepFactor > 1 := by
    rw [gt_iff_lt, UInt64.lt_iff_toNat_lt]
    exact not_lt.2 single
  rw [nextSize, if_neg this]

theorem nextSize_mul (several : ¬ s.stepFactor.toNat ≤ 1) :
    s.nextSize = fun size => size * s.stepFactor := by
  funext size
  have : s.stepFactor > 1 := by
    rw [gt_iff_lt, UInt64.lt_iff_toNat_lt]
    exact not_le.1 several
  rw [nextSize, if_pos this]

theorem toNat_iterate_add (x step : UInt64) (k : Nat) :
    ((fun size => size + step)^[k] x).toNat = (x.toNat + k * step.toNat) % 2 ^ 64 := by
  induction k generalizing x with
  | zero => simp [Nat.mod_eq_of_lt x.toNat_lt]
  | succ k ih =>
    rw [Function.iterate_succ_apply, ih, UInt64.toNat_add, Nat.mod_add_mod]
    congr 1
    ring

theorem toNat_iterate_mul (x factor : UInt64) (k : Nat) :
    ((fun size => size * factor)^[k] x).toNat = x.toNat * factor.toNat ^ k % 2 ^ 64 := by
  induction k generalizing x with
  | zero => simp [Nat.mod_eq_of_lt x.toNat_lt]
  | succ k ih =>
    rw [Function.iterate_succ_apply, ih, UInt64.toNat_mul, Nat.mod_mul_mod]
    congr 1
    ring

/-- The sweep ends exactly when some iterate of the step exceeds the limit. -/
theorem exists_sweep_iff :
    (∃ visited, s.Sweep visited) ↔ ∃ k, s.maxBytes.toNat < (s.nextSize^[k] s.minBytes).toNat := by
  unfold Sweep
  rw [LoopRun.exists_iff_iterate]
  simp only [UInt64.not_le, UInt64.lt_iff_toNat_lt]

/-- **When the size sweep ends.** It ends after finitely many sizes exactly when `SweepEnds`: where
some size exceeds the limit, though sums and products wrap around at 64 bits.

With steps the sizes run through the residue class of the first one modulo the greatest common
divisor of the step and `2 ^ 64`, whose largest member decides. An odd factor permutes two such
classes, and an even one comes to zero within 64 steps. -/
theorem sweep_ends_iff (s : Sizes) : (∃ visited, s.Sweep visited) ↔ s.SweepEnds := by
  rw [exists_sweep_iff]
  unfold SweepEnds largestSize
  dsimp only
  by_cases single : s.stepFactor.toNat ≤ 1
  · rw [if_pos single, nextSize_add single]
    simp only [toNat_iterate_add]
    exact exists_lt_add_mul_iff _ _ _ _
  rw [if_neg single, nextSize_mul single]
  simp only [toNat_iterate_mul]
  by_cases odd : s.stepFactor.toNat % 2 = 1
  · rw [if_pos odd]
    exact exists_lt_mul_pow_iff_of_odd (Nat.odd_iff.2 odd) _ _ _
  · rw [if_neg odd]
    exact exists_lt_mul_pow_iff_of_even (Nat.even_iff.2 (by omega)) _ _ _

theorem sweep_endless_of_zero (zero : s.minBytes = 0) (several : ¬ s.stepFactor.toNat ≤ 1) :
    ¬ ∃ visited, s.Sweep visited := by
  rw [exists_sweep_iff, nextSize_mul several, zero]
  rintro ⟨k, above⟩
  rw [toNat_iterate_mul] at above
  simp at above

/-- `-b 0 -f 2`: zero times two is zero. -/
theorem sweep_from_zero_endless :
    ¬ ∀ (options : List Opt) (s : Sizes) (memMaxBytes : UInt64),
      accepted options = some s → ∃ visited, (s.limitMemory memMaxBytes).Sweep visited := by
  intro ends
  have zero : ofParsed (parsesize (.number (.finite 0))) = some 0 := by
    have rounded : Value.mul binary64 (.finite 0) (.finite 1) = .finite 0 := by
      have positive : (0 : ℚ) < 2 ^ (binary64.bias + 1) := zpow_pos (by norm_num) _
      simp [Value.mul, Value.ofRat, positive]
    have cast : UInt64.ofInt 0 = 0 := rfl
    simp [ofParsed, parsesize, rounded, Value.lt, Value.toSizeT, Value.toIntegral, truncate, cast]
  have taken : accepted [.minbytes (.number (.finite 0)), .stepfactor 2] =
      some ⟨0, 32 * 1024 * 1024, 1024 * 1024, 2⟩ := by
    simp [accepted, setOption, zero, defaults]
    decide
  exact sweep_endless_of_zero rfl (by decide) (ends _ _ (1024 * 1024 * 1024) taken)

end Sizes

end NcclTests.Harness
