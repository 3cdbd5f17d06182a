import Mathlib
import NcclTests.Lib.BitMask
import NcclTests.Lib.Blocks
import NcclTests.Lib.Ieee
import NcclTests.Lib.MachineInt
import NcclTests.Lib.Scanf
import NcclTests.Lib.Words

/-!
# Reading a traffic matrix

`AlltoAllvReadTrafficMatrix` goes over the text of the file twice. The first pass counts rows
and columns and checks every value; the second converts the values and knows nothing of rows.
Both stop at the first NUL, and both leave it to `strtod` where a value ends.

Rows, columns and indices are natural numbers: the text is in memory, so none of them wraps.
Allocations give the room they are asked for or fail. Messages are kept as the data in them.
-/

namespace NcclTests.Collective

open BinaryFloat Words

/-- What `strtod` returns, how far it moves `end`, and whether it sets `errno` to `ERANGE`. -/
structure Conversion where
  value : Value
  length : Nat
  erange : Bool

/-- The values of `double`. -/
def IsDouble : Value → Prop
  | .finite q => binary64.nearest q = q
  | _ => True

/-- What the source leaves to the C library and the machine: one on which `SIZE_MAX` is exact as
a `long double`, as on Linux with its 64 (x86-64) or 113 bits (AArch64), so none on which
`long double` is `double` (53 bits, as with MSVC). -/
structure Platform where
  strtod : List Char → Conversion
  /-- From a character that is not white space on, nothing that is white space is consumed. -/
  consumes : ∀ c rest, Scanf.isSpace c = false →
    (strtod (c :: rest)).length ≤ (c :: rest).length ∧
    ∀ d ∈ (c :: rest).take (strtod (c :: rest)).length, Scanf.isSpace d = false
  double : ∀ text, IsDouble (strtod text).value
  /-- The format of `long double`. -/
  longDouble : Format
  /-- `SIZE_MAX` is one of its numbers, which takes 64 bits. -/
  sizeMax : Value.ofRat longDouble (2 ^ 64 - 1) = .finite (2 ^ 64 - 1)
  /-- What a conversion to `size_t` gives where the language leaves it undefined. -/
  undefined : Value → UInt64

/-- The calls of the reader that can fail. -/
inductive ReadStep
  | fopen
  | fseekEnd
  | ftell
  | fseekSet
  | mallocBuf
  | fread
  | mallocData

structure MatrixFile where
  fails : ReadStep → Bool
  content : List Char
  /-- The size is a `long`, and `buf` has one byte more. -/
  fits : content.length + 1 < 2 ^ 63

/-- `buf`, as a string. -/
def MatrixFile.text (file : MatrixFile) : List Char := file.content.takeWhile (· ≠ '\x00')

/-- Why a matrix is not read. -/
inductive ReadError
  | call (step : ReadStep)
  /-- `column count in file %s row %zu. Expected %zu columns, got %zu.` -/
  | columnCount (row expected got : Nat)
  /-- `value at row %zu col %zu in file %s.` -/
  | value (row col : Nat)
  /-- `value at row %zu col %zu in file %s. Value must be non-negative.` -/
  | negative (row col : Nat)
  /-- `value at row %zu col %zu in file %s. Value overflow (value=%g scale=%g).` -/
  | overflow (row col : Nat) (value scale : Value)
  /-- `file %s is empty.` -/
  | empty
  /-- `file %s must be square (got %zux%zu).` -/
  | notSquare (rows cols : Nat)
  /-- `file %s has too many values.` -/
  | tooMany
  /-- `value at idx=%zu in file %s.` -/
  | valueAt (k : Nat)
  /-- `file %s has too few values (got %zu, expected %zu).` -/
  | tooFew (got expected : Nat)

/-- The errors of the second pass. -/
def ReadError.IsSecondPass : ReadError → Prop
  | tooMany => True
  | valueAt _ => True
  | tooFew _ _ => True
  | _ => False

/-! ## The passes -/

/-- `rows`, `cols` and `tmp_cols`. -/
structure Shape where
  rows : Nat
  cols : Nat
  tmpCols : Nat
  deriving DecidableEq

/-- The end of a row that has columns. -/
def Shape.endRow (s : Shape) : Except ReadError Shape :=
  if s.rows = 0 then .ok ⟨1, s.tmpCols, 0⟩
  else if s.tmpCols ≠ s.cols then .error (.columnCount s.rows s.cols s.tmpCols)
  else .ok ⟨s.rows + 1, s.cols, 0⟩

theorem error_ne_ok {e : ReadError} {s : Shape} : (.error e : Except ReadError Shape) ≠ .ok s := by
  intro same
  cases same

/-- `traffic_matrix_data` and `traffic_matrix_dim`. -/
structure TrafficMatrix where
  data : Option (List UInt64)
  dim : Int

namespace Platform

variable (P : Platform) (scale : Value)

/-- `(long double)v * (long double)traffic_matrix_scale`. -/
def scaled (v : Value) : Value := v.mul P.longDouble scale

/-- The checks of the first pass on a value: how many characters it takes. -/
def checkValue (text : List Char) (row col : Nat) : Except ReadError Nat :=
  let r := P.strtod text
  if r.length = 0 ∨ r.erange then .error (.value row col)
  else if ¬ Ends Scanf.isSpace (text.drop r.length) then .error (.value row col)
  else if r.value.lt (.finite 0) then .error (.negative row col)
  else if (Value.finite (2 ^ 64 - 1)).lt (P.scaled scale r.value) then
    .error (.overflow row col r.value scale)
  else .ok r.length

variable {P scale} in
theorem checkValue_eq_ok {text : List Char} {row col len : Nat} :
    P.checkValue scale text row col = .ok len ↔
      (P.strtod text).length ≠ 0 ∧ (P.strtod text).erange = false ∧
      Ends Scanf.isSpace (text.drop (P.strtod text).length) ∧
      (P.strtod text).value.lt (.finite 0) = false ∧
      (Value.finite (2 ^ 64 - 1)).lt (P.scaled scale (P.strtod text).value) = false ∧
      (P.strtod text).length = len := by
  unfold checkValue
  dsimp only
  split_ifs with failed ends negative overflow
  · simp only [false_iff]
    intro ⟨converted, in_range, _⟩
    exact failed.elim converted (by simp [in_range])
  · simp [negative]
  · simp [overflow]
  · rw [not_or, Bool.not_eq_true] at failed
    simp [failed, ends, negative, overflow]
  · simp [ends]

/-- The first pass from `p` on. -/
def firstPass (text : List Char) (s : Shape) : Except ReadError Shape :=
  match text with
  | [] => if s.tmpCols > 0 then s.endRow else .ok s
  | c :: rest =>
    if Scanf.isSpace c then
      if c = '\n' ∧ s.tmpCols > 0 then
        match s.endRow with
        | .ok s => firstPass rest s
        | .error e => .error e
      else firstPass rest s
    else
      match _checked : P.checkValue scale (c :: rest) s.rows s.tmpCols with
      | .ok len => firstPass ((c :: rest).drop len) { s with tmpCols := s.tmpCols + 1 }
      | .error e => .error e
  termination_by text.length
  decreasing_by
    · simp
    · simp
    · obtain ⟨some_, -, -, -, -, rfl⟩ := checkValue_eq_ok.1 _checked
      simp only [List.length_drop, List.length_cons]
      omega

/-- The second pass from `p` on, when `k` values are stored: those it converts, in order, and
the error it ends with. -/
def secondPass (nElts : Nat) (text : List Char) (k : Nat) : List Value × Option ReadError :=
  match text with
  | [] => ([], if k ≠ nElts then some (.tooFew k nElts) else none)
  | c :: rest =>
    if Scanf.isSpace c then secondPass nElts rest k
    else if k ≥ nElts then ([], some .tooMany)
    else
      let r := P.strtod (c :: rest)
      if _none : r.length = 0 then ([], some (.valueAt k))
      else
        let later := secondPass nElts ((c :: rest).drop r.length) (k + 1)
        (P.scaled scale r.value :: later.1, later.2)
  termination_by text.length
  decreasing_by
    · simp
    · have some_ : (P.strtod (c :: rest)).length ≠ 0 := _none
      simp only [List.length_drop, List.length_cons]
      omega

/-- `(size_t)v`. -/
def toSizeT (v : Value) : UInt64 := v.toSizeT.getD (P.undefined v)

/-- `((size_t)scaled) & ~(size_t)15`. -/
def store (v : Value) : UInt64 := P.toSizeT v &&& ~~~15

end Platform

/-! ## The reader -/

def MatrixFile.attempt (file : MatrixFile) (step : ReadStep) : Except ReadError Unit :=
  if file.fails step then .error (.call step) else .ok ()

namespace Platform

variable (P : Platform) (scale : Value) (file : MatrixFile)

/-- `AlltoAllvReadTrafficMatrix` up to the second pass. -/
def measure : Except ReadError Shape := do
  file.attempt .fopen
  file.attempt .fseekEnd
  file.attempt .ftell
  file.attempt .fseekSet
  file.attempt .mallocBuf
  file.attempt .fread
  let s ← P.firstPass scale file.text ⟨0, 0, 0⟩
  if s.rows = 0 then .error .empty
  else if s.rows ≠ s.cols then .error (.notSquare s.rows s.cols)
  else
    file.attempt .mallocData
    return s

/-- The values that the reader converts to `size_t`. -/
def conversions : List Value :=
  match P.measure scale file with
  | .ok s => (P.secondPass scale (s.rows * s.cols) file.text 0).1
  | .error _ => []

/-- `AlltoAllvReadTrafficMatrix`: it returns 1 if there is an error. -/
def readTrafficMatrix (m : TrafficMatrix) : TrafficMatrix × Option ReadError :=
  match P.measure scale file with
  | .error e => (m, some e)
  | .ok s =>
    match P.secondPass scale (s.rows * s.cols) file.text 0 with
    | (_, some e) => (m, some e)
    | (values, none) => (⟨some (values.map P.store), int32 s.rows⟩, none)

end Platform

/-! ## Tokens -/

/-- The tokens of each line. -/
def tokenLines (text : List Char) : List (List (Word Char)) :=
  wordLines (· == '\n') Scanf.isSpace text

theorem newline_space : ∀ c : Char, (c == '\n') = true → Scanf.isSpace c = true := by
  intro c newline
  rw [eq_of_beq newline]
  rfl

theorem tokenLines_here {w : Word Char} (word : w.Delimited Scanf.isSpace) :
    tokenLines w.here = consWord w (tokenLines w.after) :=
  word.wordLines_here newline_space

theorem tokenLines_newline (rest : List Char) :
    tokenLines ('\n' :: rest) = [] :: tokenLines rest := by
  rw [tokenLines, wordLines, if_pos (beq_self_eq_true '\n')]
  rfl

theorem tokenLines_space {c : Char} (space : Scanf.isSpace c = true) (other : c ≠ '\n')
    (rest : List Char) : tokenLines (c :: rest) = tokenLines rest := by
  rw [tokenLines, wordLines, if_neg fun newline => other (eq_of_beq newline), if_pos space]
  rfl

theorem flatten_consWord (w : Word Char) (lines : List (List (Word Char))) :
    (consWord w lines).flatten = w :: lines.flatten := by
  cases lines <;> rfl

/-- How many columns the rows have when `tmpCols` of the first one are counted. -/
def columnCounts (tmpCols : Nat) : List (List (Word Char)) → List Nat
  | [] => [tmpCols]
  | line :: lines => (tmpCols + line.length) :: lines.map List.length

theorem columnCounts_consWord (n : Nat) (w : Word Char) (lines : List (List (Word Char))) :
    columnCounts n (consWord w lines) = columnCounts (n + 1) lines := by
  cases lines with
  | nil => rfl
  | cons line lines =>
    rw [consWord, columnCounts, columnCounts, List.length_cons, Nat.add_assoc, Nat.add_comm 1]

theorem columnCounts_newline (n : Nat) (rest : List Char) :
    columnCounts n (tokenLines ('\n' :: rest)) = n :: columnCounts 0 (tokenLines rest) := by
  obtain ⟨line, lines, located⟩ := exists_wordLines (· == '\n') Scanf.isSpace rest
  rw [tokenLines_newline, tokenLines, located, columnCounts, columnCounts, Nat.zero_add]
  rfl

/-- A line with `n` columns. -/
def Shape.addLine (s : Shape) (n : Nat) : Except ReadError Shape :=
  if n > 0 then { s with tmpCols := n }.endRow else .ok { s with tmpCols := 0 }

theorem Shape.endRow_tmpCols {s s' : Shape} (ended : s.endRow = .ok s') : s'.tmpCols = 0 := by
  unfold endRow at ended
  split_ifs at ended
  · rw [← Except.ok.inj ended]
  · rw [← Except.ok.inj ended]

theorem Shape.addLine_tmpCols (s : Shape) :
    s.addLine s.tmpCols = if s.tmpCols > 0 then s.endRow else .ok s := by
  unfold addLine
  split
  · rfl
  · next none_ => rw [← Nat.eq_zero_of_not_pos none_]

/-- The columns that are counted are those of the first line. -/
theorem foldlM_addLine_tmpCols (s : Shape) (n k : Nat) (lines : List (List (Word Char))) :
    (columnCounts n lines).foldlM Shape.addLine { s with tmpCols := k } =
      (columnCounts n lines).foldlM Shape.addLine s := by
  cases lines <;> rfl

namespace Platform

variable {P : Platform} {scale : Value} {text : List Char} {s s' : Shape} {w : Word Char}

/-- What the first pass asks of a token. -/
structure Accepts (P : Platform) (scale : Value) (w : Word Char) : Prop where
  complete : (P.strtod w.here).length = w.text.length
  inRange : (P.strtod w.here).erange = false
  nonneg : (P.strtod w.here).value.lt (.finite 0) = false
  fits : (Value.finite (2 ^ 64 - 1)).lt (P.scaled scale (P.strtod w.here).value) = false

theorem checkValue_here (word : w.Delimited Scanf.isSpace) {row col len : Nat} :
    P.checkValue scale w.here row col = .ok len ↔ P.Accepts scale w ∧ w.text.length = len := by
  rw [checkValue_eq_ok]
  constructor
  · intro ⟨some_, in_range, ends, nonneg, fits, same⟩
    obtain ⟨c, rest, here, letter⟩ := word.exists_here
    obtain ⟨within, letters⟩ := P.consumes c rest (Bool.not_eq_true _ ▸ letter)
    rw [← here] at within letters
    have complete := word.length_eq within (fun d inside => by simp [letters d inside]) ends
    exact ⟨⟨complete, in_range, nonneg, fits⟩, complete ▸ same⟩
  · intro whole
    rcases whole with ⟨⟨complete, in_range, nonneg, fits⟩, rfl⟩
    have ends : Ends Scanf.isSpace (w.here.drop (P.strtod w.here).length) := by
      rw [complete, Word.here, List.drop_left]
      exact word.ends
    have some_ : (P.strtod w.here).length ≠ 0 := by
      rw [complete]
      exact fun none_ => word.nonempty (List.eq_nil_of_length_eq_zero none_)
    exact ⟨some_, in_range, ends, nonneg, fits, complete⟩

/-- **The first pass** accepts every token and ends every row. -/
theorem firstPass_eq_ok_iff :
    P.firstPass scale text s = .ok s' ↔
      (∀ w ∈ (tokenLines text).flatten, P.Accepts scale w) ∧
      (columnCounts s.tmpCols (tokenLines text)).foldlM Shape.addLine s = .ok s' := by
  fun_induction P.firstPass scale text s with
  | case1 s columns =>
    have line : s.addLine s.tmpCols = s.endRow := by
      rw [Shape.addLine_tmpCols, if_pos columns]
    simp [tokenLines, wordLines, columnCounts, line]
  | case2 s none_ =>
    have line : s.addLine s.tmpCols = .ok s := by rw [Shape.addLine_tmpCols, if_neg none_]
    simp [tokenLines, wordLines, columnCounts, line]
  | case3 s c rest space row s₁ ended ih =>
    obtain ⟨rfl, columns⟩ := row
    rw [ih, columnCounts_newline, tokenLines_newline, List.foldlM_cons, Shape.addLine_tmpCols,
      if_pos columns, ended, Shape.endRow_tmpCols ended]
    rfl
  | case4 s c rest space row e failed =>
    obtain ⟨rfl, columns⟩ := row
    rw [columnCounts_newline, List.foldlM_cons, Shape.addLine_tmpCols, if_pos columns, failed]
    exact iff_of_false error_ne_ok fun ok => error_ne_ok ok.2
  | case5 s c rest space no_row ih =>
    by_cases newline : c = '\n'
    · subst newline
      have none_ : ¬ s.tmpCols > 0 := fun columns => no_row ⟨rfl, columns⟩
      rw [ih, columnCounts_newline, tokenLines_newline, List.foldlM_cons, Shape.addLine_tmpCols,
        if_neg none_, Nat.eq_zero_of_not_pos none_]
      rfl
    · rw [ih, tokenLines_space space newline]
  | case6 s c rest letter len checked ih =>
    obtain ⟨w, here, word⟩ := exists_delimited letter rest
    rw [← here] at checked ih ⊢
    obtain ⟨accepted, rfl⟩ := (checkValue_here word).1 checked
    rw [Word.here, List.drop_left, foldlM_addLine_tmpCols] at ih
    rw [Word.here, List.drop_left, ih, ← Word.here, tokenLines_here word, columnCounts_consWord]
    refine and_congr_left fun _ => ?_
    rw [flatten_consWord, List.forall_mem_cons, and_iff_right accepted]
  | case7 s c rest letter e failed =>
    obtain ⟨w, here, word⟩ := exists_delimited letter rest
    rw [← here] at failed ⊢
    refine iff_of_false error_ne_ok fun ok => ?_
    have accepted := ok.1 w (by
      rw [tokenLines_here word, flatten_consWord]
      exact List.mem_cons_self)
    rw [(checkValue_here word).2 ⟨accepted, rfl⟩] at failed
    cases failed

/-- **The second pass** converts the value of every accepted token. -/
theorem secondPass_eq {nElts k : Nat}
    (accepted : ∀ w ∈ (tokenLines text).flatten, P.Accepts scale w)
    (count : k + (tokenLines text).flatten.length = nElts) :
    P.secondPass scale nElts text k =
      ((tokenLines text).flatten.map fun w => P.scaled scale (P.strtod w.here).value, none) := by
  fun_induction P.secondPass scale nElts text k with
  | case1 k =>
    have all : k = nElts := count
    simp [tokenLines, wordLines, all]
  | case2 k c rest space ih =>
    have same : (tokenLines (c :: rest)).flatten = (tokenLines rest).flatten := by
      by_cases newline : c = '\n'
      · rw [newline, tokenLines_newline]
        rfl
      · rw [tokenLines_space space newline]
    rw [same] at accepted count ⊢
    exact ih accepted count
  | case3 k c rest letter full =>
    obtain ⟨w, here, word⟩ := exists_delimited letter rest
    rw [← here, tokenLines_here word, flatten_consWord, List.length_cons] at count
    omega
  | case4 k c rest letter room r none_ =>
    obtain ⟨w, here, word⟩ := exists_delimited letter rest
    rw [← here, tokenLines_here word, flatten_consWord] at accepted
    have complete := (accepted w List.mem_cons_self).complete
    rw [here, none_] at complete
    exact absurd (List.eq_nil_of_length_eq_zero complete.symm) word.nonempty
  | case5 k c rest letter room r some_ later ih =>
    obtain ⟨w, here, word⟩ := exists_delimited letter rest
    rw [← here, tokenLines_here word, flatten_consWord] at accepted count ⊢
    have complete : r.length = w.text.length := by
      rw [← (accepted w List.mem_cons_self).complete, here]
    have after : (c :: rest).drop r.length = w.after := by
      rw [← here, complete, Word.here, List.drop_left]
    rw [List.length_cons] at count
    rw [after] at ih
    have rest_ := ih (fun v mem => accepted v (List.mem_cons_of_mem w mem)) (by omega)
    have later_ : later = _ := (congrArg (P.secondPass scale nElts · (k + 1)) after).trans rest_
    rw [later_, List.map_cons, here]

end Platform

/-! ## Rows -/

theorem Shape.addLine_eq_ok_iff {rows cols n : Nat} (started : 0 < rows) (pos : 0 < n) {s : Shape} :
    Shape.addLine ⟨rows, cols, 0⟩ n = .ok s ↔ n = cols ∧ s = ⟨rows + 1, cols, 0⟩ := by
  rw [addLine, if_pos pos, endRow, if_neg started.ne']
  dsimp only
  split
  · next other => exact iff_of_false error_ne_ok fun ok => other ok.1
  · next same =>
    rw [not_not] at same
    rw [Except.ok.injEq, eq_comm]
    exact (and_iff_right same).symm

/-- Blank lines do not count. -/
theorem foldlM_addLine_filter (rows cols : Nat) (counts : List Nat) :
    counts.foldlM Shape.addLine ⟨rows, cols, 0⟩ =
      (counts.filter fun n => 0 < n).foldlM Shape.addLine ⟨rows, cols, 0⟩ := by
  induction counts generalizing rows cols with
  | nil => rfl
  | cons n counts ih =>
    rw [List.foldlM_cons]
    rcases Nat.eq_zero_or_pos n with rfl | pos
    · rw [List.filter_cons_of_neg (by simp), ← ih]
      rfl
    · rw [List.filter_cons_of_pos (by simpa using pos), List.foldlM_cons]
      cases ended : Shape.addLine ⟨rows, cols, 0⟩ n with
      | error e => rfl
      | ok s =>
        have clear : s.tmpCols = 0 := by
          rw [Shape.addLine, if_pos pos] at ended
          exact Shape.endRow_tmpCols ended
        obtain ⟨rows, cols, tmpCols⟩ := s
        obtain rfl : tmpCols = 0 := clear
        exact ih rows cols

/-- Every row after the first is as long as that. -/
theorem foldlM_addLine {cols : Nat} {counts : List Nat} (pos : ∀ n ∈ counts, 0 < n) {rows : Nat}
    (started : 0 < rows) {s : Shape} :
    counts.foldlM Shape.addLine ⟨rows, cols, 0⟩ = .ok s ↔
      (∀ n ∈ counts, n = cols) ∧ s = ⟨rows + counts.length, cols, 0⟩ := by
  induction counts generalizing rows with
  | nil => simp [pure, Except.pure, eq_comm]
  | cons n counts ih =>
    obtain ⟨first, others⟩ := List.forall_mem_cons.1 pos
    rw [List.foldlM_cons]
    cases ended : Shape.addLine ⟨rows, cols, 0⟩ n with
    | error e =>
      refine iff_of_false error_ne_ok fun ok => ?_
      rw [(Shape.addLine_eq_ok_iff started first).2 ⟨ok.1 n List.mem_cons_self, rfl⟩] at ended
      cases ended
    | ok s₁ =>
      obtain ⟨rfl, rfl⟩ := (Shape.addLine_eq_ok_iff started first).1 ended
      refine (ih others (Nat.succ_pos rows)).trans ?_
      rw [List.forall_mem_cons, List.length_cons, Nat.succ_add_eq_add_succ]
      exact and_congr_left fun _ => (and_iff_right rfl).symm

/-- The rows that end are as many as the columns of each. -/
theorem square_iff {counts : List Nat} (pos : ∀ n ∈ counts, 0 < n) {s : Shape} :
    counts.foldlM Shape.addLine ⟨0, 0, 0⟩ = .ok s ∧ s.rows ≠ 0 ∧ s.rows = s.cols ↔
      counts ≠ [] ∧ (∀ n ∈ counts, n = counts.length) ∧
        s = ⟨counts.length, counts.length, 0⟩ := by
  cases counts with
  | nil =>
    refine iff_of_false (fun ok => ?_) fun ok => ok.1 rfl
    obtain rfl := Except.ok.inj ok.1
    exact ok.2.1 rfl
  | cons n counts =>
    obtain ⟨first, others⟩ := List.forall_mem_cons.1 pos
    have started : Shape.addLine ⟨0, 0, 0⟩ n = .ok ⟨1, n, 0⟩ := by
      rw [Shape.addLine, if_pos first]
      rfl
    rw [List.foldlM_cons, started]
    refine (and_congr_left' (foldlM_addLine others Nat.one_pos)).trans ?_
    rw [List.length_cons, Nat.add_comm 1]
    constructor
    · intro counted
      rcases counted with ⟨⟨same, rfl⟩, -, square⟩
      dsimp only at square
      refine ⟨List.cons_ne_nil n counts, ?_, by rw [square]⟩
      rw [List.forall_mem_cons]
      exact ⟨square.symm, fun m mem => (same m mem).trans square.symm⟩
    · intro square
      rcases square with ⟨-, same, rfl⟩
      obtain ⟨square, same⟩ := List.forall_mem_cons.1 same
      exact ⟨⟨fun m mem => (same m mem).trans square.symm, by rw [square]⟩,
        Nat.succ_ne_zero _, rfl⟩

/-! ## The whole file -/

namespace MatrixFile

variable {file : MatrixFile}

/-- The tokens of the lines that have any. -/
def lines (file : MatrixFile) : List (List (Word Char)) :=
  (tokenLines file.text).filter fun line => !line.isEmpty

/-- The tokens are the pieces between white space of the pieces between newlines. -/
theorem map_text_lines : file.lines.map (List.map Word.text) =
    ((file.text.splitOnP (· == '\n')).map (words Scanf.isSpace)).filter fun line =>
      !line.isEmpty := by
  rw [← map_text_wordLines newline_space, List.filter_map, lines]
  refine congrArg _ (List.filter_congr fun line _ => ?_)
  cases line <;> rfl

theorem flatten_lines : file.lines.flatten = (tokenLines file.text).flatten :=
  List.flatten_filter_not_isEmpty

theorem map_length_lines : file.lines.map List.length =
    (columnCounts 0 (tokenLines file.text)).filter fun n => 0 < n := by
  obtain ⟨line, others, located⟩ := exists_wordLines (· == '\n') Scanf.isSpace file.text
  have counts : columnCounts 0 (tokenLines file.text) = (tokenLines file.text).map List.length := by
    rw [tokenLines, located, columnCounts, Nat.zero_add]
    rfl
  rw [counts, List.filter_map, lines]
  refine congrArg _ (List.filter_congr fun line _ => ?_)
  cases line <;> simp

/-- As many rows as each has columns, and at least one. -/
structure Square (file : MatrixFile) : Prop where
  nonempty : file.lines ≠ []
  length_eq : ∀ line ∈ file.lines, line.length = file.lines.length

theorem delimited {line : List (Word Char)} {w : Word Char} (mem : line ∈ file.lines)
    (inside : w ∈ line) : w.Delimited Scanf.isSpace :=
  delimited_of_mem line (List.mem_filter.1 mem).1 w inside

theorem Square.length_flatten (square : file.Square) :
    file.lines.flatten.length = file.lines.length * file.lines.length := by
  rw [List.length_flatten, List.map_eq_replicate_iff.2 square.length_eq, List.sum_replicate,
    smul_eq_mul]

/-- Where a token stands in the file. -/
theorem Square.getElem?_flatten (square : file.Square) {i j : Nat} {row : List (Word Char)}
    {w : Word Char} (row_ : file.lines[i]? = some row) (w_ : row[j]? = some w) :
    i < file.lines.length ∧ j < file.lines.length ∧
      file.lines.flatten[i * file.lines.length + j]? = some w := by
  have mem := List.mem_of_getElem? row_
  have place : j < file.lines.length :=
    (List.getElem?_eq_some_iff.1 w_).1.trans_eq (square.length_eq row mem)
  refine ⟨(List.getElem?_eq_some_iff.1 row_).1, place, ?_⟩
  rw [getElem?_flatten_block square.length_eq place, row_, Option.bind_some, w_]

theorem attempt_bind_eq_ok {step : ReadStep} {next : Except ReadError Shape} {s : Shape} :
    (file.attempt step >>= fun _ => next) = .ok s ↔ file.fails step = false ∧ next = .ok s := by
  unfold attempt
  cases file.fails step
  · exact (and_iff_right rfl).symm
  · exact iff_of_false error_ne_ok fun ok => Bool.noConfusion ok.1

end MatrixFile

namespace Platform

variable {P : Platform} {scale : Value} {file : MatrixFile} {s : Shape}

/-- The checks between the passes. -/
theorem shape_checks_eq_ok_iff (pass : Except ReadError Shape) :
    (pass >>= fun s =>
      if s.rows = 0 then .error .empty
      else if s.rows ≠ s.cols then .error (.notSquare s.rows s.cols)
      else file.attempt .mallocData >>= fun _ => pure s) = .ok s ↔
      file.fails .mallocData = false ∧ pass = .ok s ∧ s.rows ≠ 0 ∧ s.rows = s.cols := by
  cases pass with
  | error e => exact iff_of_false error_ne_ok fun ok => error_ne_ok ok.2.1
  | ok s₁ =>
    rw [Except.ok.injEq]
    show ite _ _ _ = _ ↔ _
    split
    · next empty =>
      refine iff_of_false error_ne_ok ?_
      intro ok
      rcases ok with ⟨-, rfl, some_, -⟩
      exact some_ empty
    split
    · next oblong =>
      refine iff_of_false error_ne_ok ?_
      intro ok
      rcases ok with ⟨-, rfl, -, square⟩
      exact oblong square
    · next some_ square =>
      rw [MatrixFile.attempt_bind_eq_ok]
      refine and_congr_right fun _ => ?_
      constructor
      · intro same
        obtain rfl := Except.ok.inj same
        exact ⟨rfl, some_, not_not.1 square⟩
      · intro ok
        rcases ok with ⟨rfl, -⟩
        rfl

/-- What it takes to reach the second pass. -/
theorem measure_eq_ok_iff : P.measure scale file = .ok s ↔
    (∀ step, file.fails step = false) ∧ P.firstPass scale file.text ⟨0, 0, 0⟩ = .ok s ∧
      s.rows ≠ 0 ∧ s.rows = s.cols := by
  have calls : (∀ step, file.fails step = false) ↔
      file.fails .fopen = false ∧ file.fails .fseekEnd = false ∧ file.fails .ftell = false ∧
      file.fails .fseekSet = false ∧ file.fails .mallocBuf = false ∧ file.fails .fread = false ∧
      file.fails .mallocData = false :=
    ⟨fun ok => ⟨ok _, ok _, ok _, ok _, ok _, ok _, ok _⟩,
      fun ok step => by cases step <;> simp only [ok]⟩
  simp only [measure, MatrixFile.attempt_bind_eq_ok]
  rw [shape_checks_eq_ok_iff, calls]
  tauto

theorem measure_square : P.measure scale file = .ok s ↔
    (∀ step, file.fails step = false) ∧ file.Square ∧
      (∀ line ∈ file.lines, ∀ w ∈ line, P.Accepts scale w) ∧
      s = ⟨file.lines.length, file.lines.length, 0⟩ := by
  have pos : ∀ n ∈ file.lines.map List.length, 0 < n := by
    rw [MatrixFile.map_length_lines]
    exact fun n mem => of_decide_eq_true (List.mem_filter.1 mem).2
  have tokens : (∀ w ∈ (tokenLines file.text).flatten, P.Accepts scale w) ↔
      ∀ line ∈ file.lines, ∀ w ∈ line, P.Accepts scale w := by
    rw [← MatrixFile.flatten_lines, List.forall_mem_flatten]
  rw [measure_eq_ok_iff, firstPass_eq_ok_iff, tokens, foldlM_addLine_filter,
    ← MatrixFile.map_length_lines, and_assoc, square_iff pos, List.forall_mem_map,
    List.length_map, ne_eq, List.map_eq_nil_iff]
  constructor
  · intro counted
    rcases counted with ⟨calls, accepted, some_, square, same⟩
    exact ⟨calls, ⟨some_, square⟩, accepted, same⟩
  · intro read
    rcases read with ⟨calls, ⟨some_, square⟩, accepted, same⟩
    exact ⟨calls, accepted, some_, square, same⟩

/-! ## Errors -/

theorem endRow_error {e : ReadError} (failed : s.endRow = .error e) : ¬ e.IsSecondPass := by
  unfold Shape.endRow at failed
  split_ifs at failed
  rw [← Except.error.inj failed]
  exact not_false

theorem checkValue_error {text : List Char} {row col : Nat} {e : ReadError}
    (failed : P.checkValue scale text row col = .error e) : ¬ e.IsSecondPass := by
  unfold checkValue at failed
  dsimp only at failed
  split_ifs at failed <;> rw [← Except.error.inj failed] <;> exact not_false

theorem firstPass_error {text : List Char} {e : ReadError}
    (failed : P.firstPass scale text s = .error e) : ¬ e.IsSecondPass := by
  fun_induction P.firstPass scale text s with
  | case1 s columns => exact endRow_error failed
  | case2 s none_ => cases failed
  | case3 s c rest space row s₁ ended ih => exact ih failed
  | case4 s c rest space row e' ended =>
    obtain rfl := Except.error.inj failed
    exact endRow_error ended
  | case5 s c rest space no_row ih => exact ih failed
  | case6 s c rest letter len checked ih => exact ih failed
  | case7 s c rest letter e' checked =>
    obtain rfl := Except.error.inj failed
    exact checkValue_error checked

theorem attempt_error {step : ReadStep} {next : Except ReadError Shape}
    (next_ : ∀ e, next = .error e → ¬ e.IsSecondPass) :
    ∀ e, (file.attempt step >>= fun _ => next) = .error e → ¬ e.IsSecondPass := by
  intro e failed
  unfold MatrixFile.attempt at failed
  split at failed
  · rw [← Except.error.inj failed]
    exact not_false
  · exact next_ e failed

theorem measure_error {e : ReadError} (failed : P.measure scale file = .error e) :
    ¬ e.IsSecondPass := by
  refine attempt_error (attempt_error (attempt_error (attempt_error (attempt_error
    (attempt_error fun e failed => ?_))))) e failed
  cases first : P.firstPass scale file.text ⟨0, 0, 0⟩ with
  | error e' =>
    rw [first] at failed
    obtain rfl := Except.error.inj failed
    exact firstPass_error first
  | ok s =>
    rw [first] at failed
    replace failed : ite _ _ _ = _ := failed
    split at failed
    · rw [← Except.error.inj failed]
      exact not_false
    split at failed
    · rw [← Except.error.inj failed]
      exact not_false
    · exact attempt_error (fun e ok => absurd ok.symm error_ne_ok) e failed

/-- The second pass agrees with the first. -/
theorem secondPass_of_measure (ok : P.measure scale file = .ok s) :
    P.secondPass scale (s.rows * s.cols) file.text 0 =
      (file.lines.flatten.map fun w => P.scaled scale (P.strtod w.here).value, none) := by
  obtain ⟨-, square, accepted, rfl⟩ := measure_square.1 ok
  have count := square.length_flatten
  rw [MatrixFile.flatten_lines] at count ⊢
  rw [← List.forall_mem_flatten, MatrixFile.flatten_lines] at accepted
  exact secondPass_eq accepted (by rw [count, Nat.zero_add])

/-- The reader succeeds if the first pass does. -/
theorem readTrafficMatrix_of_measure (ok : P.measure scale file = .ok s) (m : TrafficMatrix) :
    P.readTrafficMatrix scale file m =
      (⟨some ((file.lines.flatten.map fun w => P.scaled scale (P.strtod w.here).value).map P.store),
        int32 s.rows⟩, none) := by
  rw [readTrafficMatrix, ok]
  dsimp only
  rw [secondPass_of_measure ok]

end Platform

/-! ## The dimension -/

theorem MatrixFile.length_lines_lt {file : MatrixFile} (square : file.Square) :
    file.lines.length < 2 ^ 31 := by
  have words_ : 2 * (tokenLines file.text).flatten.length ≤
      file.text.length + if Ends Scanf.isSpace file.text then 0 else 1 := two_mul_length_le _
  have text : file.text.length ≤ file.content.length := (List.takeWhile_sublist _).length_le
  have fits := file.fits
  rw [← flatten_lines, square.length_flatten] at words_
  by_contra large
  have squares := Nat.mul_le_mul (not_lt.1 large) (not_lt.1 large)
  split at words_ <;> omega

namespace Platform

variable {P : Platform} {file : MatrixFile} {w : Word Char} {q : ℚ}

/-- `strtod` takes the whole token for a number of which `s` is the scaled value. -/
def Loads (P : Platform) (scale : Value) (w : Word Char) (s : ℚ) : Prop :=
  let r := P.strtod w.here
  r.length = w.text.length ∧ r.erange = false ∧
    ∃ v, r.value = .finite v ∧ 0 ≤ v ∧ P.scaled scale r.value = .finite s ∧ s ≤ 2 ^ 64 - 1

theorem store_finite {s : ℚ} (nonneg : 0 ≤ s) (fits : s ≤ 2 ^ 64 - 1) :
    (P.store (.finite s)).toNat = ⌊s⌋₊ / 16 * 16 := by
  obtain ⟨n, converted, whole⟩ := Value.toSizeT_finite nonneg fits
  rw [store, toSizeT, converted, Option.getD_some, BitMask.toNat_and_not, whole]
  exact BitMask.ldiff_two_pow_sub_one _ 4

theorem Loads.store {s : ℚ} (nonneg : 0 ≤ q) (loads : P.Loads (.finite q) w s) :
    (P.store (P.scaled (.finite q) (P.strtod w.here).value)).toNat = ⌊s⌋₊ / 16 * 16 := by
  obtain ⟨-, -, v, value, pos, same, fits⟩ := loads
  rw [same]
  refine store_finite ?_ fits
  rw [value] at same
  rw [(Value.ofRat_eq_finite same).1]
  exact Format.nearest_nonneg (mul_nonneg pos nonneg)

/-- With finite numbers, the checks are what they should be. -/
theorem accepts_iff_loads
    (number : (P.strtod w.here).length = 0 ∨ (P.strtod w.here).erange = true ∨
      ∃ v, (P.strtod w.here).value = .finite v)
    (nonempty : w.text ≠ []) (nonneg : 0 ≤ q) :
    P.Accepts (.finite q) w ↔ ∃ s, P.Loads (.finite q) w s := by
  constructor
  · intro accepts
    obtain ⟨complete, in_range, positive, fits⟩ := accepts
    obtain ⟨v, value⟩ : ∃ v, (P.strtod w.here).value = .finite v := by
      rcases number with none_ | out | number
      · exact absurd (List.eq_nil_of_length_eq_zero (complete.symm.trans none_)) nonempty
      · rw [in_range] at out
        cases out
      · exact number
    rw [value] at positive fits
    have pos : 0 ≤ v := by simpa [Value.lt] using positive
    rcases Value.ofRat_of_nonneg (mul_nonneg pos nonneg) with same | large
    · have scaled_ : P.scaled (.finite q) (.finite v) = .finite _ := same
      rw [scaled_] at fits
      exact ⟨_, complete, in_range, v, value, pos, value ▸ scaled_, by simpa [Value.lt] using fits⟩
    · have scaled_ : P.scaled (.finite q) (.finite v) = .infinity false := large
      rw [scaled_] at fits
      cases fits
  · intro loads
    obtain ⟨s, complete, in_range, v, value, pos, same, fits⟩ := loads
    refine ⟨complete, in_range, ?_, ?_⟩
    · rw [value]
      simpa [Value.lt] using pos
    · rw [same]
      simpa [Value.lt] using fits

/-- **Exactly the square matrices are read.** The reader succeeds if and only if no call
fails, there are as many lines with tokens as each of them has tokens, and every token is a
number that is not negative nor too large when scaled. Then entry `i * d + j` is the scaled
token `j` of line `i`, rounded down to a multiple of 16. The second pass finds no errors, and
where there is one nothing changes.

`number` says that `strtod` consumes nothing, reports a range error or returns a finite number, and
`nonneg` is what the clamp leaves of the scale. Both passes cut the text into the same tokens, and
what the first one has accepted the second one stores (`secondPass_of_measure`). -/
theorem alltoAllvReadTrafficMatrix_square (P : Platform)
    (number : ∀ c rest, Scanf.isSpace c = false → (P.strtod (c :: rest)).length = 0 ∨
      (P.strtod (c :: rest)).erange = true ∨ ∃ v, (P.strtod (c :: rest)).value = .finite v)
    {scale : ℚ} (nonneg : 0 ≤ scale) (file : MatrixFile) (m : TrafficMatrix) :
    let result := P.readTrafficMatrix (.finite scale) file m
    let d := file.lines.length
    (result.2 = none ↔ (∀ step, file.fails step = false) ∧ file.Square ∧
      ∀ line ∈ file.lines, ∀ w ∈ line, ∃ s, P.Loads (.finite scale) w s) ∧
    (result.2 = none → result.1.dim = d ∧ ∃ data, result.1.data = some data ∧
      data.length = d * d ∧ ∀ i row j w, file.lines[i]? = some row → row[j]? = some w →
        ∃ entry s, data[i * d + j]? = some entry ∧ P.Loads (.finite scale) w s ∧
          entry.toNat = ⌊s⌋₊ / 16 * 16) ∧
    ∀ e, result.2 = some e → result.1 = m ∧ ¬ e.IsSecondPass := by
  intro result d
  have loads : (∀ line ∈ file.lines, ∀ w ∈ line, P.Accepts (.finite scale) w) ↔
      ∀ line ∈ file.lines, ∀ w ∈ line, ∃ s, P.Loads (.finite scale) w s := by
    refine forall₂_congr fun line mem => forall₂_congr fun w inside => ?_
    have word := MatrixFile.delimited mem inside
    obtain ⟨c, rest, here, letter⟩ := word.exists_here
    refine accepts_iff_loads ?_ word.nonempty nonneg
    rw [here]
    exact number c rest (Bool.not_eq_true _ ▸ letter)
  cases measured : P.measure (.finite scale) file with
  | error e =>
    have failed : result = (m, some e) := by simp only [result, readTrafficMatrix, measured]
    have some_ : result.2 ≠ none := by
      rw [failed]
      exact Option.some_ne_none e
    refine ⟨iff_of_false some_ fun ok => ?_, fun none_ => absurd none_ some_, fun e' same => ?_⟩
    · rw [measure_square.2 ⟨ok.1, ok.2.1, loads.2 ok.2.2, rfl⟩] at measured
      cases measured
    · rw [failed] at same ⊢
      obtain rfl := Option.some.inj same
      exact ⟨rfl, measure_error measured⟩
  | ok s =>
    have done : result = _ := readTrafficMatrix_of_measure measured m
    obtain ⟨calls, square, accepted, rfl⟩ := measure_square.1 measured
    rw [done]
    refine ⟨iff_of_true rfl ⟨calls, square, loads.1 accepted⟩, fun _ => ⟨?_, _, rfl, ?_, ?_⟩,
      fun e same => absurd same.symm (Option.some_ne_none e)⟩
    · dsimp only
      rw [int32_of_lt (MatrixFile.length_lines_lt square)]
    · rw [List.length_map, List.length_map, square.length_flatten]
    · intro i row j w row_ w_
      have mem := List.mem_of_getElem? row_
      have inside := List.mem_of_getElem? w_
      obtain ⟨s, loaded⟩ := loads.1 accepted row mem w inside
      refine ⟨_, s, ?_, loaded, loaded.store nonneg⟩
      rw [List.getElem?_map, List.getElem?_map, (square.getElem?_flatten row_ w_).2.2]
      rfl

/-! ## A small matrix -/

/-- A `strtod` that knows the natural numbers of `double`. -/
def decimalStrtod (text : List Char) : Conversion :=
  match Scanf.readNat text with
  | some (n, _) =>
    if binary64.nearest n = n then ⟨.finite n, (text.takeWhile Char.isDigit).length, false⟩
    else ⟨.finite 0, 0, false⟩
  | none => ⟨.finite 0, 0, false⟩

theorem decimalStrtod_cases (text : List Char) :
    (∃ n : Nat, binary64.nearest n = n ∧
      decimalStrtod text = ⟨.finite n, (text.takeWhile Char.isDigit).length, false⟩) ∨
    decimalStrtod text = ⟨.finite 0, 0, false⟩ := by
  unfold decimalStrtod
  split
  · next n rest _ =>
    split
    · next exact_ => exact .inl ⟨n, exact_, rfl⟩
    · exact .inr rfl
  · exact .inr rfl

theorem decimalStrtod_finite (text : List Char) :
    (decimalStrtod text).length = 0 ∨ (decimalStrtod text).erange = true ∨
      ∃ v, (decimalStrtod text).value = .finite v := by
  rcases decimalStrtod_cases text with ⟨n, -, same⟩ | same
  · rw [same]
    exact .inr (.inr ⟨n, rfl⟩)
  · rw [same]
    exact .inl rfl

theorem decimalStrtod_consumes (text : List Char) :
    (decimalStrtod text).length ≤ text.length ∧
    ∀ d ∈ text.take (decimalStrtod text).length, Scanf.isSpace d = false := by
  rcases decimalStrtod_cases text with ⟨n, -, same⟩ | same
  · rw [same]
    refine ⟨(List.takeWhile_sublist _).length_le, fun d inside => ?_⟩
    rw [← List.prefix_iff_eq_take.1 (List.takeWhile_prefix _)] at inside
    exact Scanf.isSpace_eq_false_of_isDigit (List.mem_takeWhile_imp inside)
  · rw [same]
    exact ⟨Nat.zero_le _, by simp⟩

theorem decimalStrtod_double (text : List Char) : IsDouble (decimalStrtod text).value := by
  rcases decimalStrtod_cases text with ⟨n, exact_, same⟩ | same
  · rw [same]
    exact exact_
  · rw [same]
    exact Format.nearest_zero

def decimal : Platform where
  strtod := decimalStrtod
  consumes c rest _ := decimalStrtod_consumes (c :: rest)
  double := decimalStrtod_double
  longDouble := extended
  sizeMax := by
    have exact_ : Value.ofRat extended (2 ^ 64 - 1 : Nat) = .finite (2 ^ 64 - 1 : Nat) :=
      Value.ofRat_natCast (by decide) (by decide) (by decide)
    norm_num at exact_ ⊢
    exact exact_
  undefined _ := 0

theorem decimalStrtod_natCast {text rest : List Char} {n : Nat} (double : binary64.nearest n = n)
    (read : Scanf.readNat text = some (n, rest)) :
    decimalStrtod text = ⟨.finite n, (text.takeWhile Char.isDigit).length, false⟩ := by
  rw [decimalStrtod, read]
  exact if_pos double

theorem loads_decimal {n : Nat} (double : binary64.nearest n = n) (fits : n < 2 ^ 64)
    (read : Scanf.readNat w.here = some (n, w.after))
    (whole : (w.here.takeWhile Char.isDigit).length = w.text.length) :
    decimal.Loads (.finite 1) w n := by
  have value : decimal.strtod w.here = _ := decimalStrtod_natCast double read
  have exact_ : Value.ofRat extended n = .finite n :=
    Value.ofRat_natCast (by decide) (by decide) fits
  refine ⟨?_, ?_, n, ?_, Nat.cast_nonneg n, ?_, ?_⟩
  · rw [value, whole]
  · rw [value]
  · rw [value]
  · rw [value]
    show Value.ofRat extended (n * 1) = _
    rw [mul_one, exact_]
  · have below : (n : ℚ) + 1 ≤ 2 ^ 64 := by exact_mod_cast fits
    exact le_sub_iff_add_le.2 below

theorem loads_small {n : Nat} (fits : n < 2 ^ 53)
    (read : Scanf.readNat w.here = some (n, w.after))
    (whole : (w.here.takeWhile Char.isDigit).length = w.text.length) :
    decimal.Loads (.finite 1) w n :=
  loads_decimal (nearest_natCast_double fits) (fits.trans (by norm_num)) read whole

theorem square_two {a b c d : Word Char} (lines : file.lines = [[a, b], [c, d]]) :
    file.Square := by
  constructor
  · rw [lines]
    exact List.cons_ne_nil _ _
  · rw [lines]
    simp

/-- A blank line, and no newline at the end. -/
def twoByTwo : MatrixFile where
  fails _ := false
  content := ['1', ' ', '2', '0', '\n', '\n', '3', '0', '0', ' ', '4']
  fits := by decide

theorem alltoAllvReadTrafficMatrix_square_twoByTwo :
    (decimal.readTrafficMatrix (.finite 1) twoByTwo ⟨none, 0⟩).2 = none ∧
    (decimal.readTrafficMatrix (.finite 1) twoByTwo ⟨none, 0⟩).1.dim = 2 := by
  have lines : twoByTwo.lines = [
      [⟨['1'], [' ', '2', '0', '\n', '\n', '3', '0', '0', ' ', '4']⟩,
        ⟨['2', '0'], ['\n', '\n', '3', '0', '0', ' ', '4']⟩],
      [⟨['3', '0', '0'], [' ', '4']⟩, ⟨['4'], []⟩]] := rfl
  obtain ⟨loaded, entries, -⟩ :=
    alltoAllvReadTrafficMatrix_square decimal (fun c rest _ => decimalStrtod_finite (c :: rest))
      zero_le_one twoByTwo ⟨none, 0⟩
  have done := loaded.2 ⟨fun _ => rfl, square_two lines, by
    rw [lines]
    simp only [List.forall_mem_cons, List.not_mem_nil, false_implies, implies_true, and_true]
    refine ⟨⟨⟨1, ?_⟩, 20, ?_⟩, ⟨300, ?_⟩, 4, ?_⟩
    · exact_mod_cast @loads_small ⟨['1'], _⟩ 1 (by decide) rfl rfl
    · exact_mod_cast @loads_small ⟨['2', '0'], _⟩ 20 (by decide) rfl rfl
    · exact_mod_cast @loads_small ⟨['3', '0', '0'], _⟩ 300 (by decide) rfl rfl
    · exact_mod_cast @loads_small ⟨['4'], _⟩ 4 (by decide) rfl rfl⟩
  exact ⟨done, (entries done).1.trans (by rw [lines]; rfl)⟩

end Platform

end NcclTests.Collective
