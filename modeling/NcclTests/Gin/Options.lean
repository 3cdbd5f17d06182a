import Mathlib
import NcclTests.Lib.MachineInt
import NcclTests.Lib.Numeral
import NcclTests.Gin.PerfRun

/-!
# The options of the network benchmarks

`parse_args` from the options `getopt_long` delivers, with their text, to the checked `args_t`,
and `configure_test_args` with what a benchmark binary implements. On the platform `long` has 64
bits and `int` 32.
-/

namespace NcclTests.Gin

open Numeral

/-! ## args_t -/

/-- `gin_rsm_t`. -/
inductive GinRsm
  | unset | thread | cta | gpu
  deriving DecidableEq, Repr

/-- `gin_op_t`. -/
inductive GinTestOp
  | unset | put | putSignal | putCounter
  deriving DecidableEq, Repr

/-- `args_t`. -/
structure ArgsT extends Args where
  numCtas : Int
  numThreads : Int
  ginAggregateRequests : Bool
  ginBidirectional : Bool
  ginRsm : GinRsm
  ginOp : GinTestOp

def ArgsT.defaults : ArgsT where
  minbytes := 4
  maxbytes := 4 * 1024 * 1024
  stepfactor := 2
  stepbytes := 0
  warmupIters := 50
  iters := 500
  numCtas := 1
  numThreads := 1
  ginSkipCreditCheck := false
  ginStrongSignal := false
  ginAggregateRequests := false
  ginBidirectional := false
  queueDepth := 1024
  ginRsm := .unset
  ginOp := .unset

/-- Why a benchmark exits before MPI is up. -/
inductive ArgsError
  /-- `Error: invalid value for %s: '%s'` -/
  | invalidValue (opt : String) (str : List Char)
  /-- `Error: %s must be non-negative (got %lld)` -/
  | negative (opt : String) (val : Int)
  /-- `Error: malformed value for %s: '%s' (only K/M/G suffixes are recognised)` -/
  | malformed (opt : String) (str : List Char)
  /-- `Error: value for %s is too large: '%s'` -/
  | tooLarge (opt : String) (str : List Char)
  /-- `Error: invalid integer for %s: '%s'` -/
  | invalidInteger (opt : String) (str : List Char)
  /-- `Error: invalid value for --gin_rsm: '%s' (expected thread, cta, or gpu)` -/
  | invalidRsm (str : List Char)
  /-- `Error: invalid value for --gin_op: '%s' (expected put, put_signal, or put_counter)` -/
  | invalidOp (str : List Char)
  /-- `print_usage`. -/
  | usage
  /-- `Error: unexpected positional argument: '%s'` -/
  | positional (str : List Char)
  /-- `Error: --minbytes must be positive` -/
  | minbytesPositive
  /-- `Error: --maxbytes must be positive` -/
  | maxbytesPositive
  /-- `Error: --minbytes (%zu) must be <= --maxbytes (%zu)` -/
  | minbytesAbove (minbytes maxbytes : Nat)
  /-- `Error: --minbytes (%zu) must be a multiple of sizeof(int) (%zu)` -/
  | minbytesMultiple (minbytes : Nat)
  /-- `Error: --maxbytes (%zu) must be a multiple of sizeof(int) (%zu)` -/
  | maxbytesMultiple (maxbytes : Nat)
  /-- `Error: -f size factor must be > 1 when -i is not specified` -/
  | stepfactor
  /-- `Error: -i stepbytes (%zu) must be a multiple of sizeof(int) (%zu)` -/
  | stepbytesMultiple (stepbytes : Nat)
  /-- `Error: -w warmup_iters must be >= 0` -/
  | warmupIters
  /-- Error: `-n`/`--iters` must be > 0 -/
  | iters
  /-- Error: `-c`/`--num_ctas` must be > 0 -/
  | numCtas
  /-- Error: `-t`/`--num_threads` must be > 0 -/
  | numThreads
  /-- `Error: --gin_tx_depth must be > 0` -/
  | queueDepth
  /-- Error: `-e`/`--maxbytes` (%zu) exceeds the %zu-byte per-buffer limit (20 * 2^31, 40 GiB).
  Reduce -e. -/
  | maxbytesLimit (maxbytes maxBuf : Nat)
  /-- `Error: --gin_rsm thread is not supported by throughput tests (expected cta or gpu)` -/
  | threadRsm
  /-- `Error: --gin_op is only supported by the put benchmarks` -/
  | opUnsupported
  /-- `Error: --gin_op %s is not supported by this benchmark (accepted: …)` -/
  | opRefused (op : GinTestOp)
  /-- `Error: --gin_strong_signal is only supported by the signal tests and by put tests run`
  `with --gin_op put_signal` -/
  | strongSignal
  /-- `Error: --gin_ag is only supported by throughput tests` -/
  | aggregateRequests
  /-- `Error: --gin_bd is only supported by throughput (bandwidth) tests` -/
  | bidirectional
  /-- `Error: Setting > 1 cta or thread is only supported by throughput tests` -/
  | multiCtaThreads
  /-- Error: `--gin_ag` requires `-t`/`--num_threads` to be a multiple of 32 (got %d) -/
  | aggregateThreads (numThreads : Int)

/-! ## Values -/

/-- The unit of a suffix, and what follows it. -/
def sizeSuffix : List Char → Nat × List Char
  | [] => (1, [])
  | c :: rest =>
    if c = 'K' ∨ c = 'k' then (1024, rest)
    else if c = 'M' ∨ c = 'm' then (1024 * 1024, rest)
    else if c = 'G' ∨ c = 'g' then (1024 * 1024 * 1024, rest)
    else (1, c :: rest)

/-- `end == str` is the case where nothing was converted. -/
def parseSize (str : List Char) (opt : String) : Except ArgsError Nat :=
  let converted := strtol 10 str
  if converted.endptr = str ∨ converted.erange then .error (.invalidValue opt str)
  else if converted.result < 0 then .error (.negative opt converted.result)
  else
    let suffix := sizeSuffix converted.endptr
    if suffix.2 ≠ [] then .error (.malformed opt str)
    else if converted.result ≠ 0 ∧ (2 ^ 64 - 1) / suffix.1 < converted.result.toNat then
      .error (.tooLarge opt str)
    else .ok (converted.result.toNat * suffix.1 % 2 ^ 64)

def parseIntArg (str : List Char) (opt : String) : Except ArgsError Int :=
  let converted := strtol 10 str
  if converted.endptr = str ∨ converted.endptr ≠ [] ∨ converted.erange then
    .error (.invalidInteger opt str)
  else .ok (int32 converted.result)

def parseRsm (str : List Char) : Except ArgsError GinRsm :=
  if str = "thread".toList then .ok .thread
  else if str = "cta".toList then .ok .cta
  else if str = "gpu".toList then .ok .gpu
  else .error (.invalidRsm str)

def parseOp (str : List Char) : Except ArgsError GinTestOp :=
  if str = "put".toList then .ok .put
  else if str = "put_signal".toList then .ok .putSignal
  else if str = "put_counter".toList then .ok .putCounter
  else .error (.invalidOp str)

/-! ## What a value denotes -/

/-- The text is an integer in decimal: white space, a sign and digits. -/
def DenotesInt (str : List Char) (z : Int) : Prop :=
  ∃ blanks signText digits r, Spells 10 str blanks signText digits r ∧ r.rest = [] ∧ r.toInt = z

/-- The unit letters. -/
inductive SizeUnit : List Char → Nat → Prop
  | none : SizeUnit [] 1
  | kilo (c : Char) : c = 'K' ∨ c = 'k' → SizeUnit [c] 1024
  | mega (c : Char) : c = 'M' ∨ c = 'm' → SizeUnit [c] (1024 * 1024)
  | giga (c : Char) : c = 'G' ∨ c = 'g' → SizeUnit [c] (1024 * 1024 * 1024)

/-- The text is a non-negative decimal integer and a unit, or none. -/
def DenotesSize (str : List Char) (size : Nat) : Prop :=
  ∃ blanks signText digits r unit, Spells 10 str blanks signText digits r ∧
    SizeUnit r.rest unit ∧ r.toInt * unit = size

/-- What `parse_size` returns is what the text denotes. -/
def SizeExact (str : List Char) : Prop :=
  ∀ opt size, parseSize str opt = .ok size → DenotesSize str size

/-- What `parse_int_arg` returns is what the text denotes. -/
def IntExact (str : List Char) : Prop :=
  ∀ opt z, parseIntArg str opt = .ok z → DenotesInt str z

theorem read_decimal_iff {str : List Char} {r : Reading} :
    read 10 str = some r ↔ ∃ blanks signText digits, Spells 10 str blanks signText digits r :=
  read_iff (by decide) (by decide) (by decide)

theorem denotesInt_iff {str : List Char} {z : Int} :
    DenotesInt str z ↔ ∃ r, read 10 str = some r ∧ r.rest = [] ∧ r.toInt = z := by
  constructor
  · intro denotes
    rcases denotes with ⟨blanks, signText, digits, r, spells, ends, value⟩
    exact ⟨r, read_decimal_iff.2 ⟨blanks, signText, digits, spells⟩, ends, value⟩
  · intro reads
    rcases reads with ⟨r, reads, ends, value⟩
    obtain ⟨blanks, signText, digits, spells⟩ := read_decimal_iff.1 reads
    exact ⟨blanks, signText, digits, r, spells, ends, value⟩

/-- A conversion that is not refused read a number in the range of `long`. -/
theorem strtol_accepted {base : Nat} {str : List Char}
    (moved : (strtol base str).endptr ≠ str) (in_range : (strtol base str).erange = false) :
    ∃ r, read base str = some r ∧ -2 ^ 63 ≤ r.toInt ∧ r.toInt ≤ 2 ^ 63 - 1 ∧
      (strtol base str).result = r.toInt ∧ (strtol base str).endptr = r.rest := by
  unfold strtol at moved in_range ⊢
  cases reads : read base str with
  | none =>
    rw [reads] at moved
    exact absurd rfl moved
  | some r =>
    rw [reads] at in_range
    dsimp only at in_range ⊢
    split_ifs at in_range ⊢ with low high
    exact ⟨r, rfl, not_lt.1 low, not_lt.1 high, rfl, rfl⟩

theorem sizeUnit_sizeSuffix {rest : List Char} (ends : (sizeSuffix rest).2 = []) :
    SizeUnit rest (sizeSuffix rest).1 := by
  cases rest with
  | nil => exact .none
  | cons c rest =>
    simp only [sizeSuffix] at ends ⊢
    split_ifs at ends ⊢ with kilo mega giga
    · obtain rfl : rest = [] := ends
      exact .kilo c kilo
    · obtain rfl : rest = [] := ends
      exact .mega c mega
    · obtain rfl : rest = [] := ends
      exact .giga c giga

theorem sizeSuffix_pos (rest : List Char) : 0 < (sizeSuffix rest).1 := by
  cases rest with
  | nil => exact Nat.one_pos
  | cons c rest =>
    simp only [sizeSuffix]
    split_ifs <;> norm_num

/-- The division keeps the product in `size_t`. -/
theorem sizeExact (str : List Char) : SizeExact str := by
  intro opt size parsed
  simp only [parseSize] at parsed
  split_ifs at parsed with refused negative suffix large
  rw [not_or] at refused
  obtain ⟨r, reads, -, -, result, endptr⟩ :=
    strtol_accepted refused.1 (Bool.eq_false_iff.2 refused.2)
  obtain ⟨blanks, signText, digits, spells⟩ := read_decimal_iff.1 reads
  rw [endptr] at suffix
  rw [result] at negative
  rw [result, endptr] at large parsed
  have unit := sizeUnit_sizeSuffix (not_not.1 suffix)
  refine ⟨blanks, signText, digits, r, _, spells, unit, ?_⟩
  have fits : r.toInt.toNat * (sizeSuffix r.rest).1 ≤ 2 ^ 64 - 1 := by
    rw [← Nat.le_div_iff_mul_le (sizeSuffix_pos r.rest)]
    by_cases zero : r.toInt = 0
    · rw [zero]
      exact Nat.zero_le _
    · exact not_lt.1 fun above => large ⟨zero, above⟩
  cases parsed
  rw [Nat.mod_eq_of_lt (by omega)]
  push_cast
  rw [Int.toNat_of_nonneg (not_lt.1 negative)]

/-- What `parse_int_arg` returns for a number in the range of `long`. -/
theorem parseIntArg_eq {str : List Char} {opt : String} {z : Int} :
    parseIntArg str opt = .ok z ↔ ∃ r, read 10 str = some r ∧ r.rest = [] ∧
      -2 ^ 63 ≤ r.toInt ∧ r.toInt ≤ 2 ^ 63 - 1 ∧ int32 r.toInt = z := by
  constructor
  · intro parsed
    simp only [parseIntArg] at parsed
    split_ifs at parsed with refused
    rw [not_or, not_or, not_not] at refused
    obtain ⟨r, reads, low, high, result, endptr⟩ :=
      strtol_accepted refused.1 (Bool.eq_false_iff.2 refused.2.2)
    cases parsed
    exact ⟨r, reads, endptr ▸ refused.2.1, low, high, by rw [result]⟩
  · intro reads
    rcases reads with ⟨r, reads, ends, low, high, rfl⟩
    have nonempty : [] ≠ str := by
      intro empty
      have nothing : read 10 [] = none := rfl
      rw [← empty, nothing] at reads
      cases reads
    have converted : strtol 10 str = ⟨r.toInt, [], false⟩ := by
      rw [strtol, reads]
      simp only [if_neg (not_lt.2 low), if_neg (not_lt.2 high), ends]
    simp [parseIntArg, converted, nonempty]

/-- **What the parsers of the options promise.** `parse_size` returns what the text denotes, for
every text. `parse_int_arg` does so exactly where the text denotes no `long` that is no `int`:
`strtol` reports what does not fit in a `long`, and the cast after it narrows without a check
(`parseIntArg_eq`). -/
theorem options_exact_iff (str : List Char) :
    SizeExact str ∧ (IntExact str ↔ ∀ z, DenotesInt str z → -2 ^ 63 ≤ z → z ≤ 2 ^ 63 - 1 →
      -2 ^ 31 ≤ z ∧ z ≤ 2 ^ 31 - 1) := by
  refine ⟨sizeExact str, ?_⟩
  constructor
  · intro exact_ z denotes low high
    obtain ⟨r, reads, ends, rfl⟩ := denotesInt_iff.1 denotes
    have returned : parseIntArg str "" = .ok (int32 r.toInt) :=
      parseIntArg_eq.2 ⟨r, reads, ends, low, high, rfl⟩
    obtain ⟨s, reads', -, same⟩ := denotesInt_iff.1 (exact_ "" _ returned)
    obtain rfl := Option.some.inj (reads.symm.trans reads')
    exact int32_eq_iff.1 same.symm
  · intro narrow opt z parsed
    obtain ⟨r, reads, ends, low, high, rfl⟩ := parseIntArg_eq.1 parsed
    have denotes : DenotesInt str r.toInt := denotesInt_iff.2 ⟨r, reads, ends, rfl⟩
    have same := int32_eq_iff.2 (narrow _ denotes low high)
    rw [same]
    exact denotes

/-- `-n 4294967297` is one iteration. -/
theorem parseIntArg_narrows : ¬ ∀ str, SizeExact str ∧ IntExact str := by
  intro exact_
  have reads : read 10 "4294967297".toList = some ⟨false, 4294967297, []⟩ := by decide +kernel
  have returned : parseIntArg "4294967297".toList "-n/--iters" = .ok 1 :=
    parseIntArg_eq.2 ⟨_, reads, rfl, by decide, by decide, by decide⟩
  obtain ⟨r, reads', -, value⟩ := denotesInt_iff.1 ((exact_ _).2 _ _ returned)
  obtain rfl := Option.some.inj (reads.symm.trans reads')
  exact absurd value (by decide)

/-! ## parse_args -/

/-- What `getopt_long` delivers, with `optarg`. -/
inductive Opt
  | minbytes (optarg : List Char)
  | maxbytes (optarg : List Char)
  | stepfactor (optarg : List Char)
  | stepbytes (optarg : List Char)
  | warmupIters (optarg : List Char)
  | iters (optarg : List Char)
  | numCtas (optarg : List Char)
  | numThreads (optarg : List Char)
  | ginSkipCreditCheck
  | ginOp (optarg : List Char)
  | ginStrongSignal
  | ginAg
  | ginBd
  | ginRsm (optarg : List Char)
  | ginTxDepth (optarg : List Char)
  | unknown

namespace ArgsT

def setOption (args : ArgsT) : Opt → Except ArgsError ArgsT
  | .minbytes optarg => do return { args with minbytes := ← parseSize optarg "-b/--minbytes" }
  | .maxbytes optarg => do return { args with maxbytes := ← parseSize optarg "-e/--maxbytes" }
  | .stepfactor optarg => do return { args with stepfactor := ← parseIntArg optarg "-f" }
  | .stepbytes optarg => do return { args with stepbytes := ← parseSize optarg "-i" }
  | .warmupIters optarg => do return { args with warmupIters := ← parseIntArg optarg "-w" }
  | .iters optarg => do return { args with iters := ← parseIntArg optarg "-n/--iters" }
  | .numCtas optarg => do return { args with numCtas := ← parseIntArg optarg "-c/--num_ctas" }
  | .numThreads optarg => do
    return { args with numThreads := ← parseIntArg optarg "-t/--num_threads" }
  | .ginSkipCreditCheck => .ok { args with ginSkipCreditCheck := true }
  | .ginOp optarg => do return { args with ginOp := ← parseOp optarg }
  | .ginStrongSignal => .ok { args with ginStrongSignal := true }
  | .ginAg => .ok { args with ginAggregateRequests := true }
  | .ginBd => .ok { args with ginBidirectional := true }
  | .ginRsm optarg => do return { args with ginRsm := ← parseRsm optarg }
  | .ginTxDepth optarg => do
    return { args with queueDepth := ← parseIntArg optarg "--gin_tx_depth" }
  | .unknown => .error .usage

end ArgsT

/-- `gin_max_buffer_bytes`. -/
def ginMaxBufferBytes : Nat := 20 * 2 ^ 31

/-- The checks, in order; the first that fails is reported. -/
def ArgsT.validate (args : ArgsT) : Except ArgsError ArgsT :=
  if args.minbytes = 0 then .error .minbytesPositive
  else if args.maxbytes = 0 then .error .maxbytesPositive
  else if args.maxbytes < args.minbytes then .error (.minbytesAbove args.minbytes args.maxbytes)
  else if args.minbytes % 4 ≠ 0 then .error (.minbytesMultiple args.minbytes)
  else if args.maxbytes % 4 ≠ 0 then .error (.maxbytesMultiple args.maxbytes)
  else if args.stepfactor ≤ 1 ∧ args.stepbytes = 0 then .error .stepfactor
  else if args.stepbytes ≠ 0 ∧ args.stepbytes % 4 ≠ 0 then
    .error (.stepbytesMultiple args.stepbytes)
  else if args.warmupIters < 0 then .error .warmupIters
  else if args.iters ≤ 0 then .error .iters
  else if args.numCtas ≤ 0 then .error .numCtas
  else if args.numThreads ≤ 0 then .error .numThreads
  else if args.queueDepth ≤ 0 then .error .queueDepth
  else if ginMaxBufferBytes < args.maxbytes then
    .error (.maxbytesLimit args.maxbytes ginMaxBufferBytes)
  else .ok args

/-- `parse_args`, with the arguments that are left after the options. -/
def parseArgs (options : List Opt) (positional : List (List Char)) : Except ArgsError ArgsT := do
  let args ← options.foldlM ArgsT.setOption ArgsT.defaults
  match positional with
  | str :: _ => .error (.positional str)
  | [] => args.validate

/-- What the checks leave. -/
structure ArgsT.Valid (args : ArgsT) : Prop where
  minbytes_pos : 0 < args.minbytes
  minbytes_le : args.minbytes ≤ args.maxbytes
  minbytes_multiple : 4 ∣ args.minbytes
  maxbytes_multiple : 4 ∣ args.maxbytes
  progresses : 1 < args.stepfactor ∨ args.stepbytes ≠ 0
  stepbytes_multiple : 4 ∣ args.stepbytes
  warmupIters_nonneg : 0 ≤ args.warmupIters
  iters_pos : 0 < args.iters
  numCtas_pos : 0 < args.numCtas
  numThreads_pos : 0 < args.numThreads
  queueDepth_pos : 0 < args.queueDepth
  maxbytes_le : args.maxbytes ≤ ginMaxBufferBytes

/-- What is of type `int` fits in it. -/
structure ArgsT.InRange (args : ArgsT) : Prop where
  stepfactor : args.stepfactor < 2 ^ 31
  warmupIters : args.warmupIters < 2 ^ 31
  iters : args.iters < 2 ^ 31
  numCtas : args.numCtas < 2 ^ 31
  numThreads : args.numThreads < 2 ^ 31
  queueDepth : args.queueDepth < 2 ^ 31

theorem check_eq_ok {α : Type} {c : Prop} [Decidable c] {e : ArgsError} {x : Except ArgsError α}
    {a : α} (ok : (if c then .error e else x) = .ok a) : ¬ c ∧ x = .ok a := by
  split at ok
  · cases ok
  · next passed => exact ⟨passed, ok⟩

theorem ArgsT.validate_eq_ok {args args' : ArgsT} (checked : args.validate = .ok args') :
    args' = args ∧ args.Valid := by
  unfold validate at checked
  obtain ⟨minbytes, checked⟩ := check_eq_ok checked
  obtain ⟨maxbytes, checked⟩ := check_eq_ok checked
  obtain ⟨ordered, checked⟩ := check_eq_ok checked
  obtain ⟨minbytes_multiple, checked⟩ := check_eq_ok checked
  obtain ⟨maxbytes_multiple, checked⟩ := check_eq_ok checked
  obtain ⟨progresses, checked⟩ := check_eq_ok checked
  obtain ⟨stepbytes_multiple, checked⟩ := check_eq_ok checked
  obtain ⟨warmupIters, checked⟩ := check_eq_ok checked
  obtain ⟨iters, checked⟩ := check_eq_ok checked
  obtain ⟨numCtas, checked⟩ := check_eq_ok checked
  obtain ⟨numThreads, checked⟩ := check_eq_ok checked
  obtain ⟨queueDepth, checked⟩ := check_eq_ok checked
  obtain ⟨limit, checked⟩ := check_eq_ok checked
  cases checked
  refine ⟨rfl, ⟨?_, ?_, ?_, ?_, ?_, ?_, ?_, ?_, ?_, ?_, ?_, ?_⟩⟩
  all_goals omega

theorem parseIntArg_lt {str : List Char} {opt : String} {z : Int}
    (parsed : parseIntArg str opt = .ok z) : z < 2 ^ 31 := by
  obtain ⟨r, -, -, -, -, rfl⟩ := parseIntArg_eq.1 parsed
  exact int32_lt _

theorem bind_eq_ok {α β : Type} {x : Except ArgsError α} {f : α → Except ArgsError β} {b : β}
    (ok : x >>= f = .ok b) : ∃ a, x = .ok a ∧ f a = .ok b := by
  cases x with
  | error e => cases ok
  | ok a => exact ⟨a, rfl, ok⟩

theorem ArgsT.InRange.setOption {args args' : ArgsT} {option : Opt} (range : args.InRange)
    (set : args.setOption option = .ok args') : args'.InRange := by
  obtain ⟨stepfactor, warmupIters, iters, numCtas, numThreads, queueDepth⟩ := range
  cases option with
  | ginSkipCreditCheck | ginStrongSignal | ginAg | ginBd =>
    cases set
    exact ⟨stepfactor, warmupIters, iters, numCtas, numThreads, queueDepth⟩
  | unknown => cases set
  | minbytes optarg | maxbytes optarg | stepbytes optarg | ginOp optarg | ginRsm optarg =>
    obtain ⟨value, -, set⟩ := bind_eq_ok set
    cases set
    exact ⟨stepfactor, warmupIters, iters, numCtas, numThreads, queueDepth⟩
  | stepfactor optarg =>
    obtain ⟨value, parsed, set⟩ := bind_eq_ok set
    cases set
    exact ⟨parseIntArg_lt parsed, warmupIters, iters, numCtas, numThreads, queueDepth⟩
  | warmupIters optarg =>
    obtain ⟨value, parsed, set⟩ := bind_eq_ok set
    cases set
    exact ⟨stepfactor, parseIntArg_lt parsed, iters, numCtas, numThreads, queueDepth⟩
  | iters optarg =>
    obtain ⟨value, parsed, set⟩ := bind_eq_ok set
    cases set
    exact ⟨stepfactor, warmupIters, parseIntArg_lt parsed, numCtas, numThreads, queueDepth⟩
  | numCtas optarg =>
    obtain ⟨value, parsed, set⟩ := bind_eq_ok set
    cases set
    exact ⟨stepfactor, warmupIters, iters, parseIntArg_lt parsed, numThreads, queueDepth⟩
  | numThreads optarg =>
    obtain ⟨value, parsed, set⟩ := bind_eq_ok set
    cases set
    exact ⟨stepfactor, warmupIters, iters, numCtas, parseIntArg_lt parsed, queueDepth⟩
  | ginTxDepth optarg =>
    obtain ⟨value, parsed, set⟩ := bind_eq_ok set
    cases set
    exact ⟨stepfactor, warmupIters, iters, numCtas, numThreads, parseIntArg_lt parsed⟩

theorem ArgsT.InRange.foldlM {args args' : ArgsT} {options : List Opt} (range : args.InRange)
    (set : options.foldlM ArgsT.setOption args = .ok args') : args'.InRange := by
  induction options generalizing args with
  | nil =>
    cases set
    exact range
  | cons option options ih =>
    rw [List.foldlM_cons] at set
    obtain ⟨next, first, later⟩ := bind_eq_ok set
    exact ih (range.setOption first) later

/-- Accepted arguments passed the checks. -/
theorem parseArgs_valid {options : List Opt} {positional : List (List Char)} {args : ArgsT}
    (parsed : parseArgs options positional = .ok args) : args.Valid ∧ args.InRange := by
  obtain ⟨set, folded, checked⟩ := bind_eq_ok parsed
  have start : ArgsT.defaults.InRange := by
    refine ⟨?_, ?_, ?_, ?_, ?_, ?_⟩ <;> norm_num [ArgsT.defaults]
  cases positional with
  | cons str rest => cases checked
  | nil =>
    obtain ⟨rfl, valid⟩ := ArgsT.validate_eq_ok checked
    exact ⟨valid, start.foldlM folded⟩

/-! ## configure_test_args -/

/-- `GIN_OP_BIT`. -/
def ginOpBit : GinTestOp → Nat
  | .unset => 1 <<< 0
  | .put => 1 <<< 1
  | .putSignal => 1 <<< 2
  | .putCounter => 1 <<< 3

/-- `gin_test_caps_t`. -/
structure GinTestCaps where
  defaultRsm : GinRsm
  allowThreadRsm : Bool
  opMask : Nat
  defaultOp : GinTestOp
  isSignalOp : Bool
  allowAggregateRequests : Bool
  allowBidirectional : Bool
  allowMultiCtaThreads : Bool

def configureOp (args : ArgsT) (caps : GinTestCaps) : Except ArgsError ArgsT :=
  if caps.opMask = 0 then
    if args.ginOp ≠ .unset then .error .opUnsupported else .ok args
  else
    let args := if args.ginOp = .unset then { args with ginOp := caps.defaultOp } else args
    if caps.opMask &&& ginOpBit args.ginOp = 0 then .error (.opRefused args.ginOp) else .ok args

def configureTestArgs (args : ArgsT) (caps : GinTestCaps) : Except ArgsError ArgsT :=
  let args := if args.ginRsm = .unset then { args with ginRsm := caps.defaultRsm } else args
  if ¬ caps.allowThreadRsm ∧ args.ginRsm = .thread then .error .threadRsm
  else do
    let args ← configureOp args caps
    if ¬ (caps.isSignalOp ∨ args.ginOp = .putSignal) ∧ args.ginStrongSignal then
      .error .strongSignal
    else if ¬ caps.allowAggregateRequests ∧ args.ginAggregateRequests then
      .error .aggregateRequests
    else if ¬ caps.allowBidirectional ∧ args.ginBidirectional then .error .bidirectional
    else if ¬ caps.allowMultiCtaThreads ∧ (args.numCtas ≠ 1 ∨ args.numThreads ≠ 1) then
      .error .multiCtaThreads
    else if args.ginAggregateRequests ∧ Int.tmod args.numThreads 32 ≠ 0 then
      .error (.aggregateThreads args.numThreads)
    else .ok args

/-- The resource sharing and the operation are all that is set. -/
theorem configureTestArgs_eq_ok {args args' : ArgsT} {caps : GinTestCaps}
    (configured : configureTestArgs args caps = .ok args') :
    ∃ rsm op, args' = { args with ginRsm := rsm, ginOp := op } := by
  have op_only : ∀ a a' : ArgsT, configureOp a caps = .ok a' →
      ∃ op, a' = { a with ginOp := op } := by
    intro a a' set
    simp only [configureOp] at set
    split at set
    · obtain ⟨-, set⟩ := check_eq_ok set
      cases set
      exact ⟨_, rfl⟩
    · obtain ⟨-, set⟩ := check_eq_ok set
      cases set
      split
      · exact ⟨_, rfl⟩
      · exact ⟨_, rfl⟩
  have rsm_only : ∃ rsm, (if args.ginRsm = .unset then { args with ginRsm := caps.defaultRsm }
      else args) = { args with ginRsm := rsm } := by
    split
    · exact ⟨_, rfl⟩
    · exact ⟨_, rfl⟩
  obtain ⟨rsm, rsm_set⟩ := rsm_only
  unfold configureTestArgs at configured
  dsimp only at configured
  rw [rsm_set] at configured
  obtain ⟨-, configured⟩ := check_eq_ok configured
  obtain ⟨set, op_set, checked⟩ := bind_eq_ok configured
  obtain ⟨op, rfl⟩ := op_only _ _ op_set
  obtain ⟨-, checked⟩ := check_eq_ok checked
  obtain ⟨-, checked⟩ := check_eq_ok checked
  obtain ⟨-, checked⟩ := check_eq_ok checked
  obtain ⟨-, checked⟩ := check_eq_ok checked
  obtain ⟨-, checked⟩ := check_eq_ok checked
  cases checked
  exact ⟨rsm, op, rfl⟩

theorem configureTestArgs_valid {args args' : ArgsT} {caps : GinTestCaps}
    (configured : configureTestArgs args caps = .ok args') (valid : args.Valid)
    (range : args.InRange) : args'.Valid ∧ args'.InRange := by
  obtain ⟨rsm, op, rfl⟩ := configureTestArgs_eq_ok configured
  obtain ⟨v1, v2, v3, v4, v5, v6, v7, v8, v9, v10, v11, v12⟩ := valid
  obtain ⟨r1, r2, r3, r4, r5, r6⟩ := range
  exact ⟨⟨v1, v2, v3, v4, v5, v6, v7, v8, v9, v10, v11, v12⟩, ⟨r1, r2, r3, r4, r5, r6⟩⟩

end NcclTests.Gin
