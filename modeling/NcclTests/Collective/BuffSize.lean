import Mathlib
import NcclTests.Collective.Counts
import NcclTests.Collective.TrafficEnv
import NcclTests.Lib.MachineInt

/-!
# The buffer size of the irregular exchange

`AlltoAllvGetBuffSize` initializes the test on its first call, and in matrix mode compares the
largest row and column total with the buffer size. Sizes are 64-bit words here, so that totals
wrap as they do in the source.
-/

namespace NcclTests.Collective

open BinaryFloat Words

/-- `AlltoAllvGetPeerBytesFromMatrix` with the matrix that is loaded. -/
def TrafficMatrix.peerBytes (m : TrafficMatrix) (i j : Nat) : UInt64 :=
  alltoAllvGetPeerBytesFromMatrix (m.data.getD []) m.dim i j

namespace Platform

variable (P : Platform) (env : AlltoAllvEnv) (s : AlltoAllvState)

/-- `AlltoAllvReadTrafficMatrix` and what its caller makes of the result. -/
def loadMatrix (file : MatrixFile) : AlltoAllvState :=
  match P.readTrafficMatrix s.scale file s.matrix with
  | (m, none) => { s with useGeneratedPattern := false, matrix := m }
  | (m, some _) => { s with useGeneratedPattern := false, matrix := m, errorSet := true }

/-- The part of `AlltoAllvInit` that only the first call does. -/
def initOnce : AlltoAllvState :=
  let s := P.parseEnv env s
  let s := match s.matrixFile with
    | some file => P.loadMatrix s file
    | none => { s with useGeneratedPattern := true }
  { s with inited := true }

/-- `AlltoAllvInit`. -/
def init (nranks : Nat) : AlltoAllvState :=
  let s := if s.inited then s else P.initOnce env s
  if s.matrixFile.isSome ∧ s.errorSet = false ∧ s.matrix.dim < nranks then
    { s with errorSet := true }
  else s

/-- `AlltoAllvComputeMaxCounts`: `maxSendCount` and `maxRecvCount`. -/
def computeMaxCounts (eltSize : UInt64) (nranks : Nat) (totalBytes : UInt64) : UInt64 × UInt64 :=
  if s.useGeneratedPattern then
    let rankTotal := (List.range nranks).foldl (fun total j =>
      total + P.getPeerBytesDistanceWeighted s.spread 0 j nranks totalBytes / eltSize) 0
    (rankTotal, rankTotal)
  else
    (List.range nranks).foldl (fun most i =>
      let rank := (List.range nranks).foldl (fun rank j =>
        (rank.1 + s.matrix.peerBytes i j / eltSize, rank.2 + s.matrix.peerBytes j i / eltSize))
        (0, 0)
      (max most.1 rank.1, max most.2 rank.2)) (0, 0)

/-- `AlltoAllvGetCollByteCount`. -/
def getCollByteCount (count eltSize : UInt64) (nranks : Nat) : CollByteCount :=
  let paramcount := if s.useGeneratedPattern then
      count / UInt64.ofNat nranks &&& ~~~(16 / eltSize - 1) else 0
  let totalBytes := paramcount * UInt64.ofNat nranks * eltSize
  let maxCounts := P.computeMaxCounts s eltSize nranks totalBytes
  { sendcount := maxCounts.1.toNat
    recvcount := maxCounts.2.toNat
    paramcount := paramcount.toNat
    sendInplaceOffset := 0
    recvInplaceOffset := 0 }

/-- `AlltoAllvGetBuffSize`: the state it leaves, `sendcount` and `recvcount`. -/
def getBuffSize (count : UInt64) (nranks : Nat) : AlltoAllvState × Nat × Nat :=
  let s := P.init env s nranks
  if s.errorSet then (s, 0, 0)
  else
    let counts := P.getCollByteCount s count 1 nranks
    if s.useGeneratedPattern = false ∧ count.toNat < max counts.sendcount counts.recvcount then
      ({ s with errorSet := true }, 0, 0)
    else (s, counts.sendcount, counts.recvcount)

end Platform

/-! ## Totals -/

namespace TrafficMatrix

variable (m : TrafficMatrix) (nranks : Nat)

/-- The bytes that rank `i` sends. -/
def sent (i : Nat) : Nat := ∑ j ∈ Finset.range nranks, (m.peerBytes i j).toNat

/-- The bytes that rank `i` receives. -/
def received (i : Nat) : Nat := ∑ j ∈ Finset.range nranks, (m.peerBytes j i).toNat

end TrafficMatrix

namespace Platform

variable {P : Platform} {env : AlltoAllvEnv} {s : AlltoAllvState} {count : UInt64} {nranks : Nat}

/-- The counts of a matrix are the largest totals, modulo the word size. -/
theorem computeMaxCounts_matrix (mode : s.useGeneratedPattern = false) (nranks : Nat)
    (totalBytes : UInt64) :
    (P.computeMaxCounts s 1 nranks totalBytes).1.toNat =
      (Finset.range nranks).sup (fun i => s.matrix.sent nranks i % 2 ^ 64) ∧
    (P.computeMaxCounts s 1 nranks totalBytes).2.toNat =
      (Finset.range nranks).sup (fun i => s.matrix.received nranks i % 2 ^ 64) := by
  have rank (i : Nat) := foldl_pair (fun total j => total + s.matrix.peerBytes i j)
    (fun total j => total + s.matrix.peerBytes j i) (List.range nranks) 0 0
  have most := foldl_pair
    (fun most i => max most
      ((List.range nranks).foldl (fun total j => total + s.matrix.peerBytes i j) 0))
    (fun most i => max most
      ((List.range nranks).foldl (fun total j => total + s.matrix.peerBytes j i) 0))
    (List.range nranks) 0 0
  rw [computeMaxCounts, if_neg (by simp [mode])]
  simp only [UInt64.div_one, rank, most, toNat_foldl_max, toNat_foldl_add]
  exact ⟨rfl, rfl⟩

/-- With a matrix that is read and large enough, only a total larger than the buffer is an error:
what counts is its remainder. -/
theorem getBuffSize_errorSet (ready : (P.init env s nranks).errorSet = false)
    (mode : (P.init env s nranks).useGeneratedPattern = false) {m : TrafficMatrix}
    (matrix : (P.init env s nranks).matrix = m) :
    (P.getBuffSize env s count nranks).1.errorSet = false ↔
      ∀ i < nranks, m.sent nranks i % 2 ^ 64 ≤ count.toNat ∧
        m.received nranks i % 2 ^ 64 ≤ count.toNat := by
  subst matrix
  set t := P.init env s nranks with t_
  obtain ⟨send, recv⟩ := @computeMaxCounts_matrix P t mode nranks
    ((if t.useGeneratedPattern then count / UInt64.ofNat nranks &&& ~~~(16 / 1 - 1) else 0) *
      UInt64.ofNat nranks * 1)
  have send_ : (P.getCollByteCount t count 1 nranks).sendcount = _ := send
  have recv_ : (P.getCollByteCount t count 1 nranks).recvcount = _ := recv
  have fits : max (P.getCollByteCount t count 1 nranks).sendcount
      (P.getCollByteCount t count 1 nranks).recvcount ≤ count.toNat ↔
      ∀ i < nranks, t.matrix.sent nranks i % 2 ^ 64 ≤ count.toNat ∧
        t.matrix.received nranks i % 2 ^ 64 ≤ count.toNat := by
    rw [send_, recv_, max_le_iff, Finset.sup_le_iff, Finset.sup_le_iff]
    simp only [Finset.mem_range, ← forall_and]
  rw [← fits, getBuffSize, ← t_]
  dsimp only
  rw [if_neg (by simp [ready])]
  split
  · next bad => exact iff_of_false Bool.noConfusion (not_le.2 bad.2)
  · next fine => exact iff_of_true ready (not_lt.1 fun less => fine ⟨mode, less⟩)

/-! ## Initialization -/

/-- The first call in matrix mode. -/
theorem init_initial {file : MatrixFile} (found : env.matrixFile = some file) {m : TrafficMatrix}
    (accepted : P.readTrafficMatrix (P.parseEnv env .initial).scale file ⟨none, 0⟩ = (m, none))
    (few : nranks ≤ m.dim) :
    (P.init env .initial nranks).errorSet = false ∧
    (P.init env .initial nranks).useGeneratedPattern = false ∧
    (P.init env .initial nranks).matrix = m := by
  have file_ : (P.parseEnv env .initial).matrixFile = some file := by
    rw [parseEnv, found]
    rfl
  have matrix_ : (P.parseEnv env .initial).matrix = ⟨none, 0⟩ := rfl
  have loaded : P.loadMatrix (P.parseEnv env .initial) file =
      { P.parseEnv env .initial with useGeneratedPattern := false, matrix := m } := by
    rw [loadMatrix, matrix_, accepted]
  have once : (P.initOnce env .initial).errorSet = false ∧
      (P.initOnce env .initial).useGeneratedPattern = false ∧
      (P.initOnce env .initial).matrix = m := by
    rw [initOnce]
    dsimp only
    rw [file_]
    dsimp only
    rw [loaded]
    exact ⟨rfl, rfl, rfl⟩
  have first : (if AlltoAllvState.initial.inited then AlltoAllvState.initial
      else P.initOnce env .initial) = P.initOnce env .initial := rfl
  have all : P.init env .initial nranks = P.initOnce env .initial := by
    rw [init, first]
    refine if_neg fun bad => ?_
    rw [once.2.2] at bad
    exact absurd bad.2.2 (not_lt.2 few)
  rwa [all]

/-- With the matrix of a file of at most 46340 lines, rank `i` sends rank `j` what token `j` of line
`i` says. Beyond that the index of the source is no `int`. -/
theorem peerBytes_of_accepted {scale : Value} {file : MatrixFile} {m before : TrafficMatrix}
    (accepted : P.readTrafficMatrix scale file before = (m, none))
    (small : file.lines.length * file.lines.length < 2 ^ 31) {i j : Nat} {row : List (Word Char)}
    {w : Word Char} (row_ : file.lines[i]? = some row) (w_ : row[j]? = some w) :
    m.peerBytes i j = P.store (P.scaled scale (P.strtod w.here).value) := by
  cases measured : P.measure scale file with
  | error e =>
    rw [readTrafficMatrix, measured] at accepted
    cases accepted
  | ok s =>
    obtain ⟨-, square, -, rfl⟩ := measure_square.1 measured
    rw [readTrafficMatrix_of_measure measured] at accepted
    obtain ⟨rfl, -⟩ := Prod.mk.inj accepted
    obtain ⟨memI, memJ, entry⟩ := square.getElem?_flatten row_ w_
    rw [TrafficMatrix.peerBytes, int32_of_lt (MatrixFile.length_lines_lt square),
      Option.getD_some, alltoAllvGetPeerBytesFromMatrix_eq _ small memI memJ,
      List.getD_eq_getElem?_getD, List.getElem?_map, List.getElem?_map, entry]
    rfl

/-- **What fits and what only wraps.** When the matrix is read and has a row for each rank, a
call without error means that the true totals fit if and only if none of them reaches `2 ^ 64`,
or one of them is too large even modulo `2 ^ 64`, and then there is an error.

The totals of the rows and columns are added in `size_t` before they are compared with `count`, so
that `few` and `accepted` leave the wrapped sums as the only difference to the true ones. -/
theorem alltoAllvGetBuffSize_fits_iff (P : Platform) (env : AlltoAllvEnv) {file : MatrixFile}
    (found : env.matrixFile = some file) {m : TrafficMatrix}
    (accepted : P.readTrafficMatrix (P.parseEnv env .initial).scale file ⟨none, 0⟩ = (m, none))
    {nranks : Nat} (few : nranks ≤ m.dim) (count : UInt64) :
    ((P.getBuffSize env .initial count nranks).1.errorSet = false →
      ∀ i < nranks, m.sent nranks i ≤ count.toNat ∧ m.received nranks i ≤ count.toNat) ↔
    (∀ i < nranks, m.sent nranks i < 2 ^ 64 ∧ m.received nranks i < 2 ^ 64) ∨
      ∃ i < nranks, count.toNat < m.sent nranks i % 2 ^ 64 ∨
        count.toNat < m.received nranks i % 2 ^ 64 := by
  obtain ⟨ready, mode, matrix⟩ := init_initial found accepted few
  rw [getBuffSize_errorSet ready mode matrix]
  constructor
  · intro property
    by_cases remainders : ∀ i < nranks, m.sent nranks i % 2 ^ 64 ≤ count.toNat ∧
        m.received nranks i % 2 ^ 64 ≤ count.toNat
    · refine .inl fun i mem => ?_
      obtain ⟨sent, received⟩ := property remainders i mem
      exact ⟨sent.trans_lt count.toNat_lt, received.trans_lt count.toNat_lt⟩
    · simp only [not_forall, not_and_or, not_le] at remainders
      obtain ⟨i, mem, large⟩ := remainders
      exact .inr ⟨i, mem, large⟩
  · intro condition remainders i mem
    obtain ⟨sent, received⟩ := remainders i mem
    rcases condition with true_ | ⟨k, mem', large⟩
    · rw [Nat.mod_eq_of_lt (true_ i mem).1] at sent
      rw [Nat.mod_eq_of_lt (true_ i mem).2] at received
      exact ⟨sent, received⟩
    · obtain ⟨sent, received⟩ := remainders k mem'
      rcases large with large | large
      · exact absurd sent (not_le.2 large)
      · exact absurd received (not_le.2 large)

/-! ## Two ranks -/

theorem store_decimal {w : Word Char} {n : Nat} (loads : decimal.Loads (.finite 1) w n)
    (fits : n < 2 ^ 64) :
    decimal.store (decimal.scaled (.finite 1) (decimal.strtod w.here).value) =
      UInt64.ofNat (n / 16 * 16) := by
  rw [← UInt64.toNat_inj, loads.store zero_le_one, Nat.floor_natCast, UInt64.toNat_ofNat']
  omega

/-- A matrix of two rows. -/
theorem readTrafficMatrix_two {file : MatrixFile} (calls : ∀ step, file.fails step = false)
    {a b c d : Word Char} (lines : file.lines = [[a, b], [c, d]]) {k l n o : Nat}
    (first : decimal.Loads (.finite 1) a k) (second : decimal.Loads (.finite 1) b l)
    (third : decimal.Loads (.finite 1) c n) (fourth : decimal.Loads (.finite 1) d o)
    (fits : k < 2 ^ 64 ∧ l < 2 ^ 64 ∧ n < 2 ^ 64 ∧ o < 2 ^ 64) (m : TrafficMatrix) :
    decimal.readTrafficMatrix (.finite 1) file m =
      (⟨some [UInt64.ofNat (k / 16 * 16), UInt64.ofNat (l / 16 * 16), UInt64.ofNat (n / 16 * 16),
        UInt64.ofNat (o / 16 * 16)], 2⟩, none) := by
  have accepts {w : Word Char} {v : Nat} (loads : decimal.Loads (.finite 1) w v)
      (mem : ∃ line ∈ file.lines, w ∈ line) : decimal.Accepts (.finite 1) w := by
    obtain ⟨line, mem, inside⟩ := mem
    exact (accepts_iff_loads (decimalStrtod_finite _) (MatrixFile.delimited mem inside).nonempty
      zero_le_one).2 ⟨v, loads⟩
  have measured : decimal.measure (.finite 1) file = .ok ⟨2, 2, 0⟩ := by
    refine measure_square.2 ⟨calls, square_two lines, ?_, by rw [lines]; rfl⟩
    rw [lines] at accepts ⊢
    simp only [List.forall_mem_cons, List.not_mem_nil, false_implies, implies_true, and_true]
    exact ⟨⟨accepts first (by simp), accepts second (by simp)⟩, accepts third (by simp),
      accepts fourth (by simp)⟩
  have two : int32 (2 : Nat) = 2 := int32_of_lt (by norm_num)
  rw [readTrafficMatrix_of_measure measured, lines, two]
  simp [store_decimal first fits.1, store_decimal second fits.2.1, store_decimal third fits.2.2.1,
    store_decimal fourth fits.2.2.2]

theorem scale_default (file : MatrixFile) :
    (decimal.parseEnv ⟨some file, none, none⟩ .initial).scale = .finite 1 := by
  have one : ¬ (1 : ℚ) < 0 := by norm_num
  simp [parseEnv, readVariable, AlltoAllvState.initial, clampScale, Value.lt, one]

def smallMatrix : TrafficMatrix := ⟨some [0, 16, 288, 0], 2⟩

theorem readTrafficMatrix_twoByTwo (m : TrafficMatrix) :
    decimal.readTrafficMatrix (.finite 1) twoByTwo m = (smallMatrix, none) :=
  readTrafficMatrix_two (fun _ => rfl)
    (a := ⟨['1'], [' ', '2', '0', '\n', '\n', '3', '0', '0', ' ', '4']⟩)
    (b := ⟨['2', '0'], ['\n', '\n', '3', '0', '0', ' ', '4']⟩)
    (c := ⟨['3', '0', '0'], [' ', '4']⟩) (d := ⟨['4'], []⟩) rfl
    (loads_small (n := 1) (by decide) rfl rfl) (loads_small (n := 20) (by decide) rfl rfl)
    (loads_small (n := 300) (by decide) rfl rfl) (loads_small (n := 4) (by decide) rfl rfl)
    (by decide) m

theorem alltoAllvGetBuffSize_fits_twoByTwo :
    (decimal.getBuffSize ⟨some twoByTwo, none, none⟩ .initial 4096 2).1.errorSet = false ∧
    smallMatrix.sent 2 1 ≤ 4096 := by
  have accepted : decimal.readTrafficMatrix
      (decimal.parseEnv ⟨some twoByTwo, none, none⟩ .initial).scale twoByTwo ⟨none, 0⟩ =
      (smallMatrix, none) := by
    rw [scale_default]
    exact readTrafficMatrix_twoByTwo _
  obtain ⟨ready, mode, matrix⟩ :=
    @init_initial decimal ⟨some twoByTwo, none, none⟩ 2 twoByTwo rfl smallMatrix accepted
      (by decide)
  have admitted : (decimal.getBuffSize ⟨some twoByTwo, none, none⟩ .initial 4096 2).1.errorSet =
      false := (getBuffSize_errorSet ready mode matrix).2 (by decide)
  have small : ∀ i < 2, smallMatrix.sent 2 i < 2 ^ 64 ∧ smallMatrix.received 2 i < 2 ^ 64 := by
    decide
  have few : ((2 : Nat) : Int) ≤ smallMatrix.dim := by decide
  have fits := (alltoAllvGetBuffSize_fits_iff decimal ⟨some twoByTwo, none, none⟩ rfl accepted few
    4096).2 (.inl small)
  exact ⟨admitted, (fits admitted 1 (by decide)).1⟩

/-- `2 ^ 63`. -/
def hugeToken : List Char :=
  ['9', '2', '2', '3', '3', '7', '2', '0', '3', '6', '8', '5', '4', '7', '7', '5', '8', '0', '8']

/-- `2 ^ 63` bytes between any two of two ranks. -/
def huge : MatrixFile where
  fails _ := false
  content := hugeToken ++ ' ' :: hugeToken ++ '\n' :: hugeToken ++ ' ' :: hugeToken
  fits := by decide

def hugeMatrix : TrafficMatrix :=
  ⟨some [9223372036854775808, 9223372036854775808, 9223372036854775808, 9223372036854775808], 2⟩

theorem readTrafficMatrix_huge (m : TrafficMatrix) :
    decimal.readTrafficMatrix (.finite 1) huge m = (hugeMatrix, none) := by
  have double : binary64.nearest (9223372036854775808 : Nat) = (9223372036854775808 : Nat) :=
    nearest_eq_self 1 63 (by norm_num) (by norm_num) (by norm_num)
  have large {w : Word Char} (read : Scanf.readNat w.here = some (9223372036854775808, w.after))
      (whole : (w.here.takeWhile Char.isDigit).length = w.text.length) :
      decimal.Loads (.finite 1) w (9223372036854775808 : Nat) :=
    loads_decimal double (by norm_num) read whole
  exact readTrafficMatrix_two (fun _ => rfl)
    (a := ⟨hugeToken, huge.content.drop 19⟩) (b := ⟨hugeToken, huge.content.drop 39⟩)
    (c := ⟨hugeToken, ' ' :: hugeToken⟩) (d := ⟨hugeToken, []⟩) rfl (large rfl rfl)
    (large rfl rfl) (large rfl rfl) (large rfl rfl) (by decide) m

/-- All totals wrap to zero, and 4096 bytes are enough. -/
theorem alltoAllvGetBuffSize_fits_huge :
    decimal.readTrafficMatrix (.finite 1) huge ⟨none, 0⟩ = (hugeMatrix, none) ∧
    (decimal.getBuffSize ⟨some huge, none, none⟩ .initial 4096 2).1.errorSet = false ∧
    4096 < hugeMatrix.sent 2 0 := by
  refine ⟨readTrafficMatrix_huge _, ?_, by decide⟩
  obtain ⟨ready, mode, matrix⟩ := @init_initial decimal ⟨some huge, none, none⟩ 2 huge rfl
    hugeMatrix (by rw [scale_default]; exact readTrafficMatrix_huge _) (by decide)
  rw [getBuffSize_errorSet ready mode matrix]
  decide

end Platform

end NcclTests.Collective
