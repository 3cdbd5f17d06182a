import Mathlib
import NcclTests.Collective.DistanceWeighted
import NcclTests.Collective.TrafficMatrix

/-!
# The settings of the irregular exchange

`AlltoAllvParseEnv` accepts what `strtod` takes whole, and then clamps it. The comparisons that
clamp, and those of the reader, are false of a NaN; so a NaN goes through all of them, and so
does the product of zero and an infinity.
-/

namespace NcclTests.Collective

open BinaryFloat

/-- The variables that are read; of the file, what opening it finds. -/
structure AlltoAllvEnv where
  matrixFile : Option MatrixFile
  spread : Option (List Char)
  scale : Option (List Char)

/-- The static variables of `alltoallv.cu`. -/
structure AlltoAllvState where
  useGeneratedPattern : Bool
  matrixFile : Option MatrixFile
  matrix : TrafficMatrix
  /-- `traffic_matrix_scale`. -/
  scale : Value
  /-- `distance_weighted_spread`. -/
  spread : Value
  inited : Bool
  errorSet : Bool

def AlltoAllvState.initial : AlltoAllvState where
  useGeneratedPattern := false
  matrixFile := none
  matrix := ⟨none, 0⟩
  scale := .finite 1
  spread := .finite 1
  inited := false
  errorSet := false

/-- The bounds of `distance_weighted_spread`. -/
def clampSpread (v : Value) : Value :=
  let v := if v.lt (.finite 0) then .finite 0 else v
  if (Value.finite 1).lt v then .finite 1 else v

/-- The bound of `traffic_matrix_scale`. -/
def clampScale (v : Value) : Value := if v.lt (.finite 0) then .finite 0 else v

namespace Platform

variable (P : Platform)

/-- A variable, if all of it is a number in range. -/
def readVariable (text : Option (List Char)) (previous : Value) : Value :=
  match text with
  | none => previous
  | some text =>
    let r := P.strtod text
    if r.erange = false ∧ r.length ≠ 0 ∧ text.drop r.length = [] then r.value else previous

/-- `AlltoAllvParseEnv`. -/
def parseEnv (env : AlltoAllvEnv) (s : AlltoAllvState) : AlltoAllvState :=
  { s with
    matrixFile := env.matrixFile.or s.matrixFile
    spread := clampSpread (P.readVariable env.spread s.spread)
    scale := clampScale (P.readVariable env.scale s.scale) }

/-- `AlltoAllvGetPeerBytesDistanceWeighted`. -/
def getPeerBytesDistanceWeighted (spread : Value) (i j nranks : Nat) (totalBytes : UInt64) :
    UInt64 :=
  if nranks = 1 then totalBytes &&& ~~~15
  else P.store (weightedBytes spread i j nranks totalBytes.toNat)

end Platform

/-- The values that it converts to `size_t`. -/
def weightedConversions (spread : Value) (i j nranks : Nat) (totalBytes : UInt64) : List Value :=
  if nranks = 1 then [] else [weightedBytes spread i j nranks totalBytes.toNat]

/-! ## Clamping -/

section Clamp

variable {v : Value}

theorem clampSpread_finite (q : ℚ) : clampSpread (.finite q) = .finite (min 1 (max 0 q)) := by
  have lt (p r : ℚ) : (Value.finite p).lt (.finite r) = decide (p < r) := rfl
  unfold clampSpread
  rcases lt_or_ge q 0 with negative | nonneg
  · rw [lt, decide_eq_true negative, max_eq_left negative.le, min_eq_right zero_le_one]
    rfl
  · rw [lt, decide_eq_false (not_lt.2 nonneg), max_eq_right nonneg]
    dsimp only
    rcases lt_or_ge 1 q with large | small
    · rw [if_neg Bool.false_ne_true, lt, decide_eq_true large, min_eq_left large.le]
      rfl
    · rw [if_neg Bool.false_ne_true, lt, decide_eq_false (not_lt.2 small), min_eq_right small]
      rfl

/-- Only a NaN is not clamped. -/
theorem exists_clampSpread_iff :
    (∃ q, clampSpread v = .finite q ∧ 0 ≤ q ∧ q ≤ 1) ↔ v ≠ .nan := by
  constructor
  · intro bounded nan
    rcases bounded with ⟨q, clamped, -⟩
    rw [nan] at clamped
    cases clamped
  · intro number
    cases v with
    | nan => exact absurd rfl number
    | infinity s =>
      cases s
      · exact ⟨1, rfl, zero_le_one, le_rfl⟩
      · exact ⟨0, rfl, le_rfl, zero_le_one⟩
    | finite q =>
      exact ⟨_, clampSpread_finite q, le_min zero_le_one (le_max_left 0 q), min_le_left 1 _⟩

theorem clampScale_iff :
    (∃ q, clampScale v = .finite q ∧ 0 ≤ q) ∨ clampScale v = .infinity false ↔ v ≠ .nan := by
  constructor
  · intro clamped nan
    rw [nan] at clamped
    rcases clamped with ⟨q, clamped, -⟩ | clamped
    · cases clamped
    · cases clamped
  · intro number
    cases v with
    | nan => exact absurd rfl number
    | infinity s =>
      cases s
      · exact .inr rfl
      · exact .inl ⟨0, rfl, le_rfl⟩
    | finite q =>
      refine .inl ?_
      by_cases negative : q < 0
      · exact ⟨0, by simp [clampScale, Value.lt, negative], le_rfl⟩
      · exact ⟨q, by simp [clampScale, Value.lt, negative], not_lt.1 negative⟩

theorem clampScale_eq_zero_iff : clampScale v = .finite 0 ↔ v.le (.finite 0) = true := by
  cases v with
  | nan => simp [clampScale, Value.lt, Value.le]
  | infinity s => cases s <;> simp [clampScale, Value.lt, Value.le]
  | finite q =>
    by_cases negative : q < 0
    · simp [clampScale, Value.lt, Value.le, negative, negative.le]
    · have nonneg := not_lt.1 negative
      simp only [clampScale, Value.lt, Value.le, negative, decide_false, Bool.false_eq_true,
        if_false, Value.finite.injEq, decide_eq_true_eq]
      exact ⟨le_of_eq, fun nonpos => le_antisymm nonpos nonneg⟩

theorem clampScale_eq_infinity_iff : clampScale v = .infinity false ↔ v = .infinity false := by
  cases v with
  | nan => simp [clampScale, Value.lt]
  | infinity s => cases s <;> simp [clampScale, Value.lt]
  | finite q =>
    by_cases negative : q < 0
    · simp [clampScale, Value.lt, negative]
    · simp [clampScale, Value.lt, negative]

/-- A clamped double is a double. -/
theorem isDouble_clampSpread (double : IsDouble v) : IsDouble (clampSpread v) := by
  have zero : IsDouble (.finite 0) := Format.nearest_zero
  have one : IsDouble (.finite 1) := nearest_one
  unfold clampSpread
  dsimp only
  split_ifs <;> assumption

/-- The largest spreads are those that were set so, or larger. -/
theorem le_clampSpread_iff {q c : ℚ} (clamped : clampSpread v = .finite q) (pos : 0 < c)
    (le_one : c ≤ 1) : c ≤ q ↔ (Value.finite c).le v = true := by
  cases v with
  | nan => cases clamped
  | infinity s =>
    cases s
    · obtain rfl := Value.finite.inj clamped
      exact iff_of_true le_one rfl
    · obtain rfl := Value.finite.inj clamped
      exact iff_of_false (not_le.2 pos) Bool.false_ne_true
  | finite p =>
    rw [clampSpread_finite] at clamped
    rw [← Value.finite.inj clamped, le_min_iff, and_iff_right le_one, le_max_iff,
      or_iff_right (not_le.2 pos)]
    simp [Value.le]

end Clamp

/-! ## Products -/

/-- What the first pass accepts is in range unless it is or becomes a NaN. -/
theorem Platform.Accepts.inSizeT_iff {P : Platform} {scale : Value} {w : Words.Word Char}
    (accepted : P.Accepts scale w)
    (range : (∃ q, scale = .finite q ∧ 0 ≤ q) ∨ scale = .infinity false) :
    let v := (P.strtod w.here).value
    InSizeT (P.scaled scale v) ↔ v ≠ .nan ∧ ¬ (v = .infinity false ∧ scale = .finite 0) ∧
      ¬ (v = .finite 0 ∧ scale = .infinity false) := by
  intro v
  have nonneg : v.lt (.finite 0) = false := accepted.nonneg
  have fits : (Value.finite (2 ^ 64 - 1)).lt (P.scaled scale v) = false := accepted.fits
  clear_value v
  have not_infinite : P.scaled scale v ≠ .infinity false := fun large => by
    rw [large] at fits
    cases fits
  cases v with
  | nan => exact iff_of_false not_inSizeT_nan fun ok => ok.1 rfl
  | infinity s =>
    obtain rfl : s = false := nonneg
    rcases range with ⟨q, rfl, pos⟩ | rfl
    · rcases pos.eq_or_lt with rfl | pos
      · exact iff_of_false not_inSizeT_nan fun ok => ok.2.1 ⟨rfl, rfl⟩
      · refine absurd ?_ not_infinite
        simp [Platform.scaled, Value.mul, pos.ne', pos.le]
    · exact absurd rfl not_infinite
  | finite p =>
    have p_nonneg : 0 ≤ p := by simpa [Value.lt] using nonneg
    rcases range with ⟨q, rfl, pos⟩ | rfl
    · refine iff_of_true ?_ (by simp)
      have product : 0 ≤ p * q := mul_nonneg p_nonneg pos
      rcases Value.ofRat_of_nonneg product with same | large
      · have scaled_ : P.scaled (.finite q) (.finite p) = .finite _ := same
        rw [scaled_] at fits ⊢
        exact ⟨_, rfl, Format.nearest_nonneg product, by simpa [Value.lt] using fits⟩
      · exact absurd large not_infinite
    · rcases p_nonneg.eq_or_lt with rfl | p_pos
      · exact iff_of_false not_inSizeT_nan fun ok => ok.2.2 ⟨rfl, rfl⟩
      · refine absurd ?_ not_infinite
        simp [Platform.scaled, Value.mul, p_pos.ne', p_pos.le]

/-! ## All conversions -/

namespace Platform

variable {P : Platform} {file : MatrixFile} {scale : Value}

/-- The first pass accepts the file, and the data has room. -/
structure Admits (P : Platform) (scale : Value) (file : MatrixFile) : Prop where
  calls : ∀ step, file.fails step = false
  square : file.Square
  accepts : ∀ line ∈ file.lines, ∀ w ∈ line, P.Accepts scale w

/-- The values that are converted are those of the tokens of a file that is accepted. -/
theorem mem_conversions_iff {v : Value} : v ∈ P.conversions scale file ↔
    P.Admits scale file ∧
      ∃ line ∈ file.lines, ∃ w ∈ line, P.scaled scale (P.strtod w.here).value = v := by
  unfold conversions
  cases measured : P.measure scale file with
  | error e =>
    refine iff_of_false List.not_mem_nil fun ok => ?_
    obtain ⟨⟨calls, square, accepts⟩, -⟩ := ok
    rw [measure_square.2 ⟨calls, square, accepts, rfl⟩] at measured
    cases measured
  | ok s =>
    obtain ⟨calls, square, accepts, -⟩ := measure_square.1 measured
    dsimp only
    rw [secondPass_of_measure measured, and_iff_right ⟨calls, square, accepts⟩]
    simp only [List.mem_map, List.mem_flatten]
    constructor
    · intro stored
      rcases stored with ⟨w, ⟨line, mem, inside⟩, same⟩
      exact ⟨line, mem, w, inside, same⟩
    · intro token
      rcases token with ⟨line, mem, w, inside, same⟩
      exact ⟨w, ⟨line, mem, inside⟩, same⟩

/-- The settings are numbers in range, and so is everything that becomes a `size_t`: the values
of a matrix, and the bytes from rank `i` to rank `j` of a generated pattern. -/
structure Numeric (P : Platform) (env : AlltoAllvEnv) (file : MatrixFile) (i j nranks : Nat)
    (totalBytes : UInt64) : Prop where
  spread : ∃ q, (P.parseEnv env .initial).spread = .finite q ∧ 0 ≤ q ∧ q ≤ 1
  scale : (∃ q, (P.parseEnv env .initial).scale = .finite q ∧ 0 ≤ q) ∨
    (P.parseEnv env .initial).scale = .infinity false
  matrix : ∀ v ∈ P.conversions (P.parseEnv env .initial).scale file, InSizeT v
  distance : ∀ v ∈ weightedConversions (P.parseEnv env .initial).spread i j nranks totalBytes,
    InSizeT v

theorem isDouble_readVariable (text : Option (List Char)) :
    IsDouble (P.readVariable text (.finite 1)) := by
  have one : IsDouble (.finite 1) := nearest_one
  unfold readVariable
  split
  · exact one
  · dsimp only
    split
    · exact P.double _
    · exact one

theorem numeric_matrix_iff (range : (∃ q, scale = .finite q ∧ 0 ≤ q) ∨ scale = .infinity false) :
    (∀ v ∈ P.conversions scale file, InSizeT v) ↔
      (P.Admits scale file → ∀ line ∈ file.lines, ∀ w ∈ line,
        let v := (P.strtod w.here).value
        v ≠ .nan ∧ ¬ (v = .infinity false ∧ scale = .finite 0) ∧
          ¬ (v = .finite 0 ∧ scale = .infinity false)) := by
  constructor
  · intro defined admits line mem w inside
    refine ((admits.accepts line mem w inside).inSizeT_iff range).1 (defined _ ?_)
    exact mem_conversions_iff.2 ⟨admits, line, mem, w, inside, rfl⟩
  · intro numbers v converted
    obtain ⟨admits, line, mem, w, inside, rfl⟩ := mem_conversions_iff.1 converted
    exact ((admits.accepts line mem w inside).inSizeT_iff range).2
      (numbers admits line mem w inside)

theorem numeric_distance_iff {v : Value} (double : IsDouble v) (number : v ≠ .nan)
    {i j nranks : Nat} (hi : i < nranks) (hj : j < nranks) (few : nranks < 2 ^ 31)
    (totalBytes : UInt64) :
    (∀ bytes ∈ weightedConversions (clampSpread v) i j nranks totalBytes, InSizeT bytes) ↔
      ¬ (nranks = 2 ∧ i ≠ j ∧ 2 ^ 64 - 1024 ≤ totalBytes.toNat ∧
        (Value.finite (1 - 2 ^ (-53 : Int))).le v = true) := by
  unfold weightedConversions
  split
  · next one =>
    refine iff_of_true (List.forall_mem_nil _) fun bad => ?_
    omega
  next several =>
  obtain ⟨q, clamped, low, high⟩ := exists_clampSpread_iff.2 number
  have q_double := isDouble_clampSpread double
  rw [clamped] at q_double
  rw [List.forall_mem_singleton, clamped, weightedBytes_inSizeT_iff q_double low high (by omega)
    few hi hj totalBytes.toNat_lt,
    le_clampSpread_iff clamped (by norm_num) (by norm_num)]

/-- **Numbers in range, but for NaN and one rounding.** Neither setting may be a NaN. If the
matrix is accepted it must have no NaN, no infinity when the scale is zero or less and no zero
when it is infinite. With two ranks and all but `2 ^ (-53)` of the weight on the distance, the
total must be less than `2 ^ 64 - 1024`. -/
theorem alltoAllvConversions_numeric_iff (P : Platform) (env : AlltoAllvEnv) (file : MatrixFile)
    {i j nranks : Nat} (hi : i < nranks) (hj : j < nranks) (few : nranks < 2 ^ 31)
    (totalBytes : UInt64) :
    let spread := P.readVariable env.spread (.finite 1)
    let scale := P.readVariable env.scale (.finite 1)
    P.Numeric env file i j nranks totalBytes ↔
      spread ≠ .nan ∧ scale ≠ .nan ∧
      (P.Admits (clampScale scale) file → ∀ line ∈ file.lines, ∀ w ∈ line,
        let v := (P.strtod w.here).value
        v ≠ .nan ∧ ¬ (v = .infinity false ∧ scale.le (.finite 0) = true) ∧
          ¬ (v = .finite 0 ∧ scale = .infinity false)) ∧
      ¬ (nranks = 2 ∧ i ≠ j ∧ 2 ^ 64 - 1024 ≤ totalBytes.toNat ∧
        (Value.finite (1 - 2 ^ (-53 : Int))).le spread = true) := by
  intro spread scale
  have double : IsDouble spread := isDouble_readVariable env.spread
  have matrix (number : scale ≠ .nan) := @numeric_matrix_iff P file _
    (clampScale_iff.2 number)
  simp only [clampScale_eq_zero_iff, clampScale_eq_infinity_iff] at matrix
  constructor
  · intro numeric
    have spread_number : spread ≠ .nan := exists_clampSpread_iff.1 numeric.spread
    have scale_number : scale ≠ .nan := clampScale_iff.1 numeric.scale
    exact ⟨spread_number, scale_number, (matrix scale_number).1 numeric.matrix,
      (numeric_distance_iff double spread_number hi hj few totalBytes).1 numeric.distance⟩
  · intro ⟨spread_number, scale_number, tokens, total⟩
    exact ⟨exists_clampSpread_iff.2 spread_number, clampScale_iff.2 scale_number,
      (matrix scale_number).2 tokens,
      (numeric_distance_iff double spread_number hi hj few totalBytes).2 total⟩

/-! ## A NaN for the spread -/

/-- A `strtod` that knows NaN as well. -/
def nanStrtod (text : List Char) : Conversion :=
  if text.take 3 = ['n', 'a', 'n'] then ⟨.nan, 3, false⟩ else decimalStrtod text

def withNan : Platform where
  strtod := nanStrtod
  consumes c rest _ := by
    unfold nanStrtod
    split
    · next nan =>
      have three := congrArg List.length nan
      simp only [List.length_take, List.length_cons, List.length_nil] at three
      dsimp only
      rw [nan]
      exact ⟨by rw [List.length_cons]; omega, by simp [Scanf.isSpace]⟩
    · exact decimalStrtod_consumes (c :: rest)
  double text := by
    unfold nanStrtod
    split
    · trivial
    · exact decimalStrtod_double text
  longDouble := extended
  sizeMax := decimal.sizeMax
  undefined _ := 0

/-- `NCCL_TESTS_ALLTOALLV_SPREAD=nan` is accepted, and the bytes are a NaN. -/
theorem alltoAllvConversions_numeric_nan :
    let env : AlltoAllvEnv := ⟨none, some ['n', 'a', 'n'], none⟩
    (withNan.parseEnv env .initial).spread = .nan ∧
    weightedConversions (withNan.parseEnv env .initial).spread 0 1 2 4096 = [.nan] ∧
    ¬ withNan.Numeric env twoByTwo 0 1 2 4096 := by
  intro env
  have spread : (withNan.parseEnv env .initial).spread = .nan := rfl
  refine ⟨spread, ?_, fun numeric => ?_⟩
  · rw [spread]
    rfl
  · obtain ⟨q, same, -⟩ := numeric.spread
    rw [spread] at same
    cases same

/-- Without any variable set, two ranks exchange 4096 bytes. -/
theorem alltoAllvConversions_numeric_default :
    decimal.Numeric ⟨none, none, none⟩ twoByTwo 0 1 2 4096 := by
  refine (alltoAllvConversions_numeric_iff decimal ⟨none, none, none⟩ twoByTwo (by decide)
    (by decide) (by decide) 4096).2 ⟨?_, ?_, fun _ line _ w _ => ?_, fun bad => ?_⟩
  · simp [readVariable]
  · simp [readVariable]
  · obtain ⟨n, value⟩ : ∃ n : ℚ, (decimal.strtod w.here).value = .finite n := by
      rcases decimalStrtod_cases w.here with ⟨n, -, same⟩ | same
      · exact ⟨n, congrArg Conversion.value same⟩
      · exact ⟨0, congrArg Conversion.value same⟩
    simp [value, readVariable]
  · exact absurd bad.2.2.1 (by decide)

end Platform

end NcclTests.Collective
