import Mathlib
import NcclTests.Collective.TrafficEnv
import NcclTests.Collective.Counts
import NcclTests.Harness.RunThreads
import NcclTests.Harness.SizeSweep
import NcclTests.Verifiable.Kernels

/-!
# The tests of a run

From the texts of the options `-d`, `-o` and `-r` to the calls of `TimeTest`: the tables of
types and operations, what a text is looked up as, what is left out on old hardware, and the
`runTest` of every collective. Each combination that is selected is tested once, under its
own name, and no other is (`runTest_plan`).
-/

namespace NcclTests.Harness

open Collective Verifiable

/-! ## The tables -/

/-- `NCCL_VERSION(2, minor, 0)`. -/
def ncclVersion (minor : Nat) : Nat := if minor ≤ 8 then 2000 + 100 * minor else 20000 + 100 * minor

/-- What the program is built with. A CUDA with the 8-bit types has `bfloat16`. -/
structure Build where
  ncclVersionCode : Nat
  bf16TypesExist : Bool
  fp8TypesExist : Bool
  bf16_of_fp8 : fp8TypesExist = true → bf16TypesExist = true

namespace Build

variable (b : Build)

def haveBf16 : Prop := b.bf16TypesExist = true ∧ ncclVersion 10 ≤ b.ncclVersionCode

def haveFp8 : Prop := b.haveBf16 ∧ b.fp8TypesExist = true ∧ ncclVersion 24 ≤ b.ncclVersionCode

instance : Decidable b.haveBf16 := by
  unfold haveBf16
  infer_instance

instance : Decidable b.haveFp8 := by
  unfold haveFp8
  infer_instance

def testTypes : List DataType :=
  [.int8, .uint8, .int32, .uint32, .int64, .uint64, .float16, .float32, .float64] ++
    (if b.haveBf16 then [.bfloat16] else []) ++
    (if b.haveFp8 then [.float8e4m3, .float8e5m2] else [])

def testTypenames : List String :=
  ["int8", "uint8", "int32", "uint32", "int64", "uint64", "half", "float", "double"] ++
    (if b.haveBf16 then ["bfloat16"] else []) ++
    (if b.haveFp8 then ["f8e4m3", "f8e5m2"] else [])

def testOps : List RedOp :=
  [.sum, .prod, .max, .min] ++
    (if ncclVersion 10 ≤ b.ncclVersionCode then [.avg] else []) ++
    (if ncclVersion 11 ≤ b.ncclVersionCode then [.preMulSum] else [])

/-- As `main` counts them, with the version of the library it runs with. -/
def testTypenum (testNcclVersion : Nat) : Nat :=
  9 + (if b.bf16TypesExist ∧ ncclVersion 10 ≤ b.ncclVersionCode ∧ ncclVersion 10 ≤ testNcclVersion
      then 1 else 0) +
    (if b.fp8TypesExist ∧ ncclVersion 24 ≤ b.ncclVersionCode ∧ ncclVersion 24 ≤ testNcclVersion
      then 2 else 0)

def testOpnum (testNcclVersion : Nat) : Nat :=
  4 + (if ncclVersion 10 ≤ b.ncclVersionCode ∧ ncclVersion 10 ≤ testNcclVersion then 1 else 0) +
    (if ncclVersion 11 ≤ b.ncclVersionCode ∧ ncclVersion 11 ≤ testNcclVersion then 1 else 0)

end Build

def testOpnames : List String := ["sum", "prod", "max", "min", "avg", "mulsum"]

/-- The values of `ncclDataType_t`. -/
def ncclDataType : List DataType :=
  [.int8, .uint8, .int32, .uint32, .int64, .uint64, .float16, .float32, .float64, .bfloat16,
    .float8e4m3, .float8e5m2]

/-- The values of `ncclRedOp_t`; `ncclNumOps` stands for the premultiplied sum. -/
def ncclRedOp : List RedOp := [.sum, .prod, .max, .min, .avg, .preMulSum]

/-! ## Looking up the options -/

/-- Of `ncclstringtotype` and `ncclstringtoop`: the index of the text among the first `num`
names, -1 for all of them, or the default. -/
def stringTo (names : List String) (num : Nat) (fallback : Int) (str : String) : Int :=
  match (names.take num).findIdx? (· = str) with
  | some t => t
  | none => if str = "all" then -1 else fallback

/-- With `ncclFloat`. -/
def ncclstringtotype (b : Build) (testNcclVersion : Nat) (str : String) : Int :=
  stringTo b.testTypenames (b.testTypenum testNcclVersion) 7 str

/-- With `ncclSum`. -/
def ncclstringtoop (b : Build) (testNcclVersion : Nat) (str : String) : Int :=
  stringTo testOpnames (b.testOpnum testNcclVersion) 0 str

/-- At the beginning of a `runTest`: the value selected, with its name, or all of them. -/
def choose {α : Type} (values : List α) (names : List String) (all : List (α × String))
    (selected : Int) : List (α × String) :=
  if selected ≠ -1 then ((values.zip names)[selected.toNat]?).toList else all

/-! ## What a run chooses from -/

/-- `test_types` with `test_typenames`, and `test_typenum`. -/
structure TypeTable where
  entries : List (DataType × String)
  num : Nat

/-- The loop that leaves out the 8-bit types moves the other entries to the front. -/
def TypeTable.filterFp8 (table : TypeTable) : TypeTable :=
  let kept := (table.entries.take table.num).filter fun entry =>
    !(entry.1 = .float8e4m3 || entry.1 = .float8e5m2)
  ⟨kept ++ table.entries.drop kept.length, kept.length⟩

/-- The texts of the last `-d` and the last `-o`, the number of the last `-r`, and what the
program runs on. -/
structure TestOptions where
  build : Build
  testNcclVersion : Nat
  minCudaArch : Int
  typeText : Option String
  opText : Option String
  ncclroot : Int

namespace TestOptions

variable (o : TestOptions)

def nccltype : Int := o.typeText.elim 7 (ncclstringtotype o.build o.testNcclVersion)

def ncclop : Int := o.opText.elim 0 (ncclstringtoop o.build o.testNcclVersion)

/-- When the tests start. -/
def typeTable : TypeTable :=
  let table : TypeTable := ⟨o.build.testTypes.zip o.build.testTypenames,
    o.build.testTypenum o.testNcclVersion⟩
  if o.build.fp8TypesExist ∧ ncclVersion 24 ≤ o.build.ncclVersionCode ∧
      ncclVersion 24 ≤ o.testNcclVersion ∧ o.minCudaArch < 900 then
    table.filterFp8
  else table

/-- `run_types` with `run_typenames`; the type is `(ncclDataType_t)nccltype`. -/
def runTypes : List (DataType × String) :=
  choose ncclDataType (o.typeTable.entries.map Prod.snd)
    (o.typeTable.entries.take o.typeTable.num) o.nccltype

/-- `run_ops` with `run_opnames`; the operation is `(ncclRedOp_t)ncclop`. -/
def runOps : List (RedOp × String) :=
  choose ncclRedOp testOpnames
    ((o.build.testOps.zip testOpnames).take (o.build.testOpnum o.testNcclVersion)) o.ncclop

/-- From `begin_root` to `end_root`. -/
def runRoots (nranks : Nat) : List Int :=
  if o.ncclroot ≠ -1 then [o.ncclroot] else (List.range nranks).map Int.ofNat

end TestOptions

/-- The arguments of a call of `TimeTest`. -/
structure TimeTest where
  type : DataType
  typeName : String
  op : RedOp
  opName : String
  root : Int
  deriving DecidableEq, Repr

/-- The loops of a `runTest` over types, operations and roots. -/
def timeTests (types : List (DataType × String)) (ops : List (RedOp × String))
    (roots : List Int) : List TimeTest :=
  types.flatMap fun type => ops.flatMap fun op => roots.map fun root =>
    ⟨type.1, type.2, op.1, op.2, root⟩

section RunTest

variable (o : TestOptions) (nranks : Nat)

def allReduceRunTest : List TimeTest := timeTests o.runTypes o.runOps [-1]

def reduceScatterRunTest : List TimeTest := timeTests o.runTypes o.runOps [-1]

def sendRecvRunTest : List TimeTest := timeTests o.runTypes o.runOps [-1]

def reduceRunTest : List TimeTest := timeTests o.runTypes o.runOps (o.runRoots nranks)

def broadcastRunTest : List TimeTest :=
  timeTests o.runTypes [(.sum, "none")] (o.runRoots nranks)

def gatherRunTest : List TimeTest := timeTests o.runTypes [(.sum, "none")] (o.runRoots nranks)

def scatterRunTest : List TimeTest := timeTests o.runTypes [(.sum, "none")] (o.runRoots nranks)

def allGatherRunTest : List TimeTest := timeTests o.runTypes [(.sum, "none")] [-1]

def alltoAllRunTest : List TimeTest := timeTests o.runTypes [(.sum, "none")] [-1]

/-- A traffic matrix must have been read without an error, and is for one size. -/
def alltoAllvRunTest (s : AlltoAllvState) (sizes : Sizes) : Except TestResult (List TimeTest) :=
  if s.useGeneratedPattern = false ∧ (s.errorSet = true ∨ sizes.minBytes ≠ sizes.maxBytes) then
    .error .internalError
  else .ok (timeTests o.runTypes [(.sum, "none")] [-1])

/-- Only for a power of two. -/
def hyperCubeRunTest : List TimeTest :=
  if nranks ≠ 0 ∧ nranks &&& (nranks - 1) = 0 then timeTests o.runTypes [(.sum, "")] [-1] else []

/-- `ncclTestEngine.runTest`. -/
def runTest (s : AlltoAllvState) (sizes : Sizes) : Coll → Except TestResult (List TimeTest)
  | .allReduce => .ok (allReduceRunTest o)
  | .allGather => .ok (allGatherRunTest o)
  | .reduceScatter => .ok (reduceScatterRunTest o)
  | .broadcast => .ok (broadcastRunTest o nranks)
  | .reduce => .ok (reduceRunTest o nranks)
  | .alltoAll => .ok (alltoAllRunTest o)
  | .alltoAllv => alltoAllvRunTest o s sizes
  | .gather => .ok (gatherRunTest o nranks)
  | .scatter => .ok (scatterRunTest o nranks)
  | .sendRecv => .ok (sendRecvRunTest o)
  | .hyperCube => .ok (hyperCubeRunTest o nranks)

end RunTest

/-! ## What is selected -/

/-- The name of a type in reports and options. -/
def typeName : DataType → String
  | .int8 => "int8"
  | .uint8 => "uint8"
  | .int32 => "int32"
  | .uint32 => "uint32"
  | .int64 => "int64"
  | .uint64 => "uint64"
  | .float16 => "half"
  | .float32 => "float"
  | .float64 => "double"
  | .bfloat16 => "bfloat16"
  | .float8e4m3 => "f8e4m3"
  | .float8e5m2 => "f8e5m2"

def opName : RedOp → String
  | .sum => "sum"
  | .prod => "prod"
  | .max => "max"
  | .min => "min"
  | .avg => "avg"
  | .preMulSum => "mulsum"

namespace TestOptions

variable (o : TestOptions)

/-- Program and library both know the type. -/
def Supports : DataType → Prop
  | .bfloat16 => o.build.haveBf16 ∧ ncclVersion 10 ≤ o.testNcclVersion
  | .float8e4m3 | .float8e5m2 => o.build.haveFp8 ∧ ncclVersion 24 ≤ o.testNcclVersion
  | _ => True

def SupportsOp : RedOp → Prop
  | .avg => ncclVersion 10 ≤ o.build.ncclVersionCode ∧ ncclVersion 10 ≤ o.testNcclVersion
  | .preMulSum => ncclVersion 11 ≤ o.build.ncclVersionCode ∧ ncclVersion 11 ≤ o.testNcclVersion
  | _ => True

/-- The type is named, or all are and the hardware has it, or it is the default. -/
def Selects (type : DataType) : Prop :=
  (o.Supports type ∧ (o.typeText = some (typeName type) ∨ o.typeText = some "all" ∧
    (o.minCudaArch < 900 → type ≠ .float8e4m3 ∧ type ≠ .float8e5m2))) ∨
  (type = .float32 ∧ ∀ text, o.typeText = some text → text ≠ "all" ∧
    ∀ known, o.Supports known → typeName known ≠ text)

def SelectsOp (op : RedOp) : Prop :=
  (o.SupportsOp op ∧ (o.opText = some (opName op) ∨ o.opText = some "all")) ∨
  (op = .sum ∧ ∀ text, o.opText = some text → text ≠ "all" ∧
    ∀ known, o.SupportsOp known → opName known ≠ text)

def SelectsRoot (nranks : Nat) (root : Int) : Prop :=
  if o.ncclroot = -1 then 0 ≤ root ∧ root < nranks else root = o.ncclroot

end TestOptions

/-- The collectives that are tested with operations. -/
def withOps : Coll → Bool
  | .allReduce | .reduceScatter | .reduce | .sendRecv => true
  | _ => false

/-- The collectives that are tested with roots. -/
def withRoots : Coll → Bool
  | .reduce | .broadcast | .gather | .scatter => true
  | _ => false

/-! ## The tables agree -/

namespace TestOptions

variable {o : TestOptions}

/-- The types are counted in the order of their values. -/
theorem testTypenum_cases (o : TestOptions) :
    o.build.testTypenum o.testNcclVersion = 9 ∧ ¬ o.Supports .bfloat16 ∧
        ¬ o.Supports .float8e4m3 ∨
      o.build.testTypenum o.testNcclVersion = 10 ∧ o.Supports .bfloat16 ∧
        ¬ o.Supports .float8e4m3 ∨
      o.build.testTypenum o.testNcclVersion = 12 ∧ o.Supports .bfloat16 ∧
        o.Supports .float8e4m3 := by
  have ten : ncclVersion 10 = 21000 := rfl
  have newer : ncclVersion 24 = 22400 := rfl
  have cuda := o.build.bf16_of_fp8
  simp only [Build.testTypenum, Supports, Build.haveFp8, Build.haveBf16, ten, newer]
  split_ifs <;> simp_all
  all_goals omega

theorem mem_take_iff_supports (type : DataType) :
    type ∈ ncclDataType.take (o.build.testTypenum o.testNcclVersion) ↔ o.Supports type := by
  rcases testTypenum_cases o with ⟨num, bf16, fp8⟩ | ⟨num, bf16, fp8⟩ | ⟨num, bf16, fp8⟩ <;>
    rw [num] <;> cases type <;> simp_all [ncclDataType, Supports]

/-- Types and names are listed in the same order, and those counted come first. -/
theorem tables_eq (o : TestOptions) :
    ∃ k, o.build.testTypenum o.testNcclVersion ≤ k ∧ (o.build.haveFp8 → k = 12) ∧
      o.build.testTypes = ncclDataType.take k ∧
      o.build.testTypenames = (ncclDataType.take k).map typeName := by
  have ten : ncclVersion 10 = 21000 := rfl
  have newer : ncclVersion 24 = 22400 := rfl
  rw [Build.testTypes, Build.testTypenames]
  by_cases bf16 : o.build.haveBf16
  · by_cases fp8 : o.build.haveFp8
    · refine ⟨12, ?_, fun _ => rfl, ?_⟩
      · rw [Build.testTypenum]
        split_ifs <;> omega
      · rw [if_pos bf16, if_pos fp8, if_pos bf16, if_pos fp8]
        exact ⟨rfl, rfl⟩
    · refine ⟨10, ?_, fun known => absurd known fp8, ?_⟩
      · rcases testTypenum_cases o with ⟨num, _⟩ | ⟨num, _⟩ | ⟨num, _, supported⟩
        · omega
        · omega
        · exact absurd supported.1 fp8
      · rw [if_pos bf16, if_neg fp8, if_pos bf16, if_neg fp8]
        exact ⟨rfl, rfl⟩
  · have fp8 : ¬ o.build.haveFp8 := fun known => bf16 known.1
    refine ⟨9, ?_, fun known => absurd known fp8, ?_⟩
    · rcases testTypenum_cases o with ⟨num, _⟩ | ⟨num, supported, _⟩ | ⟨num, supported, _⟩
      · omega
      · exact absurd supported.1 bf16
      · exact absurd supported.1 bf16
    · rw [if_neg bf16, if_neg fp8, if_neg bf16, if_neg fp8]
      exact ⟨rfl, rfl⟩

theorem zip_map_self {α β : Type} (l : List α) (f : α → β) :
    l.zip (l.map f) = l.map fun x => (x, f x) := by
  have zipped := @List.zip_map' _ _ _ id f l
  rwa [List.map_id] at zipped

/-- The 8-bit types come last, so the loop that leaves them out moves nothing. -/
theorem typeTable_eq (o : TestOptions) :
    o.typeTable.entries = o.build.testTypes.zip o.build.testTypenames ∧
      o.typeTable.entries.take o.typeTable.num =
        ((ncclDataType.take (o.build.testTypenum o.testNcclVersion)).filter fun type =>
          900 ≤ o.minCudaArch ∨ type ≠ .float8e4m3 ∧ type ≠ .float8e5m2).map fun type =>
            (type, typeName type) := by
  obtain ⟨k, within, all, types, names⟩ := tables_eq o
  have members := @mem_take_iff_supports o
  rw [typeTable]
  split
  case isTrue old =>
    obtain ⟨exist, code, version, arch⟩ := old
    have known : o.build.haveFp8 := by
      have ten : ncclVersion 10 = 21000 := rfl
      have newer : ncclVersion 24 = 22400 := rfl
      exact ⟨⟨o.build.bf16_of_fp8 exist, by omega⟩, exist, code⟩
    have fp8 : o.Supports .float8e4m3 := ⟨known, version⟩
    have num : o.build.testTypenum o.testNcclVersion = 12 := by
      rcases testTypenum_cases o with ⟨_, _, no⟩ | ⟨_, _, no⟩ | ⟨num, _⟩
      · exact absurd fp8 no
      · exact absurd fp8 no
      · exact num
    have late : ¬ 900 ≤ o.minCudaArch := by omega
    rw [types, names, zip_map_self, num, all known, TypeTable.filterFp8]
    simp only [late, false_or]
    exact ⟨rfl, rfl⟩
  case isFalse current =>
    refine ⟨rfl, ?_⟩
    rw [types, names, zip_map_self, ← List.map_take, List.take_take, min_eq_left within,
      List.filter_eq_self.2]
    intro type inside
    rw [decide_eq_true_eq]
    by_contra left_out
    push Not at left_out
    have supported := (members type).1 inside
    have fp8 : o.Supports .float8e4m3 := by
      by_cases first : type = .float8e4m3
      · rwa [first] at supported
      · rw [left_out.2 first] at supported
        exact supported
    exact current ⟨fp8.1.2.1, fp8.1.2.2, fp8.2, left_out.1⟩

end TestOptions

/-! ## Looking up a name -/

theorem typeName_injective : Function.Injective typeName := by
  intro a b same
  cases a <;> cases b <;> first | rfl | exact absurd same (by decide)

theorem typeName_ne_all (type : DataType) : typeName type ≠ "all" := by
  cases type <;> decide

theorem opName_injective : Function.Injective opName := by
  intro a b same
  cases a <;> cases b <;> first | rfl | exact absurd same (by decide)

theorem opName_ne_all (op : RedOp) : opName op ≠ "all" := by
  cases op <;> decide

section Choose

variable {α : Type} {values : List α} {names : List String} {num : Nat} {name : α → String}

/-- The index of a name among those counted, or what stands for none of them. -/
theorem stringTo_cases (same : names.take num = (values.take num).map name) (fallback : Int)
    (str : String) :
    (∃ t x, stringTo names num fallback str = (t : Nat) ∧ x ∈ values.take num ∧
        values[t]? = some x ∧ names[t]? = some str ∧ name x = str) ∨
      (∀ x ∈ values.take num, name x ≠ str) ∧
        stringTo names num fallback str = if str = "all" then -1 else fallback := by
  rw [stringTo, same, List.findIdx?_map]
  cases found : (values.take num).findIdx? ((· = str) ∘ name) with
  | none =>
    rw [List.findIdx?_eq_none_iff] at found
    exact .inr ⟨fun x inside => of_decide_eq_false (found x inside), rfl⟩
  | some t =>
    obtain ⟨less, here, -⟩ := List.findIdx?_eq_some_iff_getElem.1 found
    have named : name (values.take num)[t] = str := of_decide_eq_true here
    have counted := less
    rw [List.length_take] at counted
    refine .inl ⟨t, (values.take num)[t], rfl, List.getElem_mem _, ?_, ?_, named⟩
    · rw [List.getElem_take, ← List.getElem?_eq_getElem]
    · have listed : (names.take num)[t]? = some str := by
        rw [same, List.getElem?_map, List.getElem?_eq_getElem less, Option.map_some, named]
      rwa [List.getElem?_take_of_lt (by omega)] at listed

theorem choose_index {t : Nat} {x : α} {str : String} (value : values[t]? = some x)
    (named : names[t]? = some str) (all : List (α × String)) :
    choose values names all t = [(x, str)] := by
  have both : (values.zip names)[t]? = some (x, str) :=
    List.getElem?_zip_eq_some.2 ⟨value, named⟩
  rw [choose, if_pos (by omega), Int.toNat_natCast, both, Option.toList_some]

/-- **What an option chooses**: the value it names; all of them, if it says so; or the
default, if it is not given or names nothing. -/
theorem mem_choose (injective : Function.Injective name) (ne_all : ∀ x, name x ≠ "all")
    (same : names.take num = (values.take num).map name) {fallback : Nat} {default : α}
    (value : values[fallback]? = some default)
    (named : names[fallback]? = some (name default)) (all : List (α × String))
    (text : Option String) (x : α) (label : String) :
    (x, label) ∈ choose values names all (text.elim fallback (stringTo names num fallback)) ↔
      text = some "all" ∧ (x, label) ∈ all ∨
        (x ∈ values.take num ∧ text = some (name x) ∨
          x = default ∧ ∀ str, text = some str → str ≠ "all" ∧
            ∀ known ∈ values.take num, name known ≠ str) ∧ label = name x := by
  cases text with
  | none =>
    rw [Option.elim_none, choose_index value named, List.mem_singleton, Prod.mk.injEq]
    constructor
    · intro h
      obtain ⟨rfl, rfl⟩ := h
      exact .inr ⟨.inr ⟨rfl, fun _ given => nomatch given⟩, rfl⟩
    · intro h
      rcases h with ⟨given, _⟩ | ⟨⟨_, given⟩ | ⟨rfl, _⟩, rfl⟩
      · cases given
      · cases given
      · exact ⟨rfl, rfl⟩
  | some str =>
    rw [Option.elim_some]
    rcases stringTo_cases same fallback str with
      ⟨t, y, index, inside, here, listed, rfl⟩ | ⟨unknown, rest⟩
    · rw [index, choose_index here listed, List.mem_singleton, Prod.mk.injEq]
      constructor
      · intro h
        obtain ⟨rfl, rfl⟩ := h
        exact .inr ⟨.inl ⟨inside, rfl⟩, rfl⟩
      · intro h
        rcases h with ⟨given, _⟩ | ⟨⟨_, given⟩ | ⟨rfl, unnamed⟩, rfl⟩
        · exact absurd (Option.some.inj given) (ne_all y)
        · rw [injective (Option.some.inj given)]
          exact ⟨rfl, rfl⟩
        · exact absurd rfl ((unnamed _ rfl).2 y inside)
    · rw [rest]
      split
      case isTrue every =>
        constructor
        · intro inside
          exact .inl ⟨congrArg some every, inside⟩
        · intro h
          rcases h with ⟨_, inside⟩ | ⟨⟨_, given⟩ | ⟨rfl, unnamed⟩, rfl⟩
          · exact inside
          · exact absurd ((Option.some.inj given).symm.trans every) (ne_all x)
          · exact absurd every (unnamed _ rfl).1
      case isFalse other =>
        rw [choose_index value named, List.mem_singleton, Prod.mk.injEq]
        constructor
        · intro h
          obtain ⟨rfl, rfl⟩ := h
          refine .inr ⟨.inr ⟨rfl, fun text given => ?_⟩, rfl⟩
          rw [← Option.some.inj given]
          exact ⟨other, unknown⟩
        · intro h
          rcases h with ⟨given, _⟩ | ⟨⟨inside, given⟩ | ⟨rfl, _⟩, rfl⟩
          · exact absurd (Option.some.inj given) other
          · exact absurd (Option.some.inj given).symm (unknown x inside)
          · exact ⟨rfl, rfl⟩

theorem nodup_choose {all : List (α × String)} (nodup : all.Nodup) (selected : Int) :
    (choose values names all selected).Nodup := by
  rw [choose]
  split
  · cases (values.zip names)[selected.toNat]? with
    | none => exact List.nodup_nil
    | some entry => exact List.nodup_singleton entry
  · exact nodup

end Choose

namespace TestOptions

variable {o : TestOptions}

/-- Membership in all values and in the value chosen, taken together. -/
theorem choice_iff (all supported has named fallback label : Prop) :
    all ∧ (supported ∧ has) ∧ label ∨ (supported ∧ named ∨ fallback) ∧ label ↔
      (supported ∧ (named ∨ all ∧ has) ∨ fallback) ∧ label := by
  tauto

theorem mem_runTypes (type : DataType) (label : String) :
    (type, label) ∈ o.runTypes ↔ o.Selects type ∧ label = typeName type := by
  obtain ⟨entries, counted⟩ := typeTable_eq o
  obtain ⟨k, within, _, types, names⟩ := tables_eq o
  have labels : o.typeTable.entries.map Prod.snd = o.build.testTypenames := by
    rw [entries, types, names, zip_map_self, List.map_map]
    rfl
  have same : o.build.testTypenames.take (o.build.testTypenum o.testNcclVersion) =
      (ncclDataType.take (o.build.testTypenum o.testNcclVersion)).map typeName := by
    rw [names, ← List.map_take, List.take_take, min_eq_left within]
  have float : o.build.testTypenames[7]? = some (typeName .float32) := by
    have several : 9 ≤ o.build.testTypenum o.testNcclVersion := by
      rw [Build.testTypenum]
      omega
    rw [names, List.getElem?_map, List.getElem?_take_of_lt (by omega)]
    rfl
  have every : (type, label) ∈ o.typeTable.entries.take o.typeTable.num ↔
      (o.Supports type ∧ (o.minCudaArch < 900 → type ≠ .float8e4m3 ∧ type ≠ .float8e5m2)) ∧
        label = typeName type := by
    simp only [counted, List.mem_map, List.mem_filter, mem_take_iff_supports, Prod.mk.injEq,
      decide_eq_true_eq, ← not_lt, ← imp_iff_not_or]
    constructor
    · intro h
      obtain ⟨_, selected, rfl, rfl⟩ := h
      exact ⟨selected, rfl⟩
    · intro h
      exact ⟨type, h.1, rfl, h.2.symm⟩
  have chosen := mem_choose typeName_injective typeName_ne_all same
    (show ncclDataType[7]? = some .float32 from rfl) float
    (o.typeTable.entries.take o.typeTable.num) o.typeText type label
  simp only [mem_take_iff_supports, every] at chosen
  rw [runTypes, labels, Selects]
  exact chosen.trans (choice_iff _ _ _ _ _ _)

theorem nodup_runTypes (o : TestOptions) : o.runTypes.Nodup := by
  refine nodup_choose ?_ _
  rw [(typeTable_eq o).2]
  refine List.Nodup.map (fun a b same => (Prod.mk.inj same).1) (List.Nodup.filter _ ?_)
  exact List.Nodup.sublist (List.take_sublist _ _) (by decide)

/-- The operations counted, and their names. -/
theorem opTables_eq (o : TestOptions) :
    (o.build.testOps.zip testOpnames).take (o.build.testOpnum o.testNcclVersion) =
        (ncclRedOp.take (o.build.testOpnum o.testNcclVersion)).map fun op => (op, opName op) := by
  have ten : ncclVersion 10 = 21000 := rfl
  have next : ncclVersion 11 = 21100 := rfl
  simp only [Build.testOps, Build.testOpnum]
  split_ifs <;> first | omega | rfl

theorem mem_take_iff_supportsOp (op : RedOp) :
    op ∈ ncclRedOp.take (o.build.testOpnum o.testNcclVersion) ↔ o.SupportsOp op := by
  have ten : ncclVersion 10 = 21000 := rfl
  have next : ncclVersion 11 = 21100 := rfl
  rw [Build.testOpnum]
  split_ifs <;> cases op <;> simp_all [ncclRedOp, SupportsOp]
  all_goals omega

theorem mem_runOps (op : RedOp) (label : String) :
    (op, label) ∈ o.runOps ↔ o.SelectsOp op ∧ label = opName op := by
  have same : testOpnames.take (o.build.testOpnum o.testNcclVersion) =
      (ncclRedOp.take (o.build.testOpnum o.testNcclVersion)).map opName := by
    rw [List.map_take]
    rfl
  have chosen := mem_choose opName_injective opName_ne_all same
    (show ncclRedOp[0]? = some .sum from rfl) (show testOpnames[0]? = some (opName .sum) from rfl)
    ((o.build.testOps.zip testOpnames).take (o.build.testOpnum o.testNcclVersion)) o.opText
    op label
  have every : (op, label) ∈ (o.build.testOps.zip testOpnames).take
        (o.build.testOpnum o.testNcclVersion) ↔ o.SupportsOp op ∧ label = opName op := by
    simp only [opTables_eq, List.mem_map, mem_take_iff_supportsOp, Prod.mk.injEq]
    constructor
    · intro h
      obtain ⟨_, supported, rfl, rfl⟩ := h
      exact ⟨supported, rfl⟩
    · intro h
      exact ⟨op, h.1, rfl, h.2.symm⟩
  simp only [mem_take_iff_supportsOp, every] at chosen
  rw [runOps, SelectsOp]
  refine chosen.trans ?_
  tauto

theorem nodup_runOps (o : TestOptions) : o.runOps.Nodup := by
  refine nodup_choose ?_ _
  rw [opTables_eq]
  refine List.Nodup.map (fun a b same => (Prod.mk.inj same).1) ?_
  exact List.Nodup.sublist (List.take_sublist _ _) (by decide)

theorem mem_runRoots (nranks : Nat) (root : Int) :
    root ∈ o.runRoots nranks ↔ o.SelectsRoot nranks root := by
  rw [runRoots, SelectsRoot]
  by_cases all : o.ncclroot = -1
  · rw [if_neg (not_not.2 all), if_pos all, List.mem_map]
    constructor
    · intro h
      obtain ⟨rank, below, rfl⟩ := h
      exact ⟨Int.natCast_nonneg rank, Int.ofNat_lt.2 (List.mem_range.1 below)⟩
    · intro h
      exact ⟨root.toNat, List.mem_range.2 (by omega), Int.toNat_of_nonneg h.1⟩
  · rw [if_pos all, if_neg all, List.mem_singleton]

theorem nodup_runRoots (o : TestOptions) (nranks : Nat) : (o.runRoots nranks).Nodup := by
  rw [runRoots]
  split
  · exact List.nodup_singleton _
  · exact List.Nodup.map (fun a b same => Int.ofNat.inj same) List.nodup_range

end TestOptions

/-! ## The plan -/

theorem mem_timeTests {types : List (DataType × String)} {ops : List (RedOp × String)}
    {roots : List Int} (test : TimeTest) :
    test ∈ timeTests types ops roots ↔ (test.type, test.typeName) ∈ types ∧
      (test.op, test.opName) ∈ ops ∧ test.root ∈ roots := by
  simp only [timeTests, List.mem_flatMap, List.mem_map]
  constructor
  · intro h
    obtain ⟨type, ht, op, ho, root, hr, rfl⟩ := h
    exact ⟨ht, ho, hr⟩
  · intro h
    exact ⟨_, h.1, _, h.2.1, _, h.2.2, rfl⟩

/-- The loops go through every combination once. -/
theorem nodup_timeTests {types : List (DataType × String)} {ops : List (RedOp × String)}
    {roots : List Int} (ht : types.Nodup) (ho : ops.Nodup) (hr : roots.Nodup) :
    (timeTests types ops roots).Nodup := by
  let combine (choice : (DataType × String) × (RedOp × String) × Int) : TimeTest :=
    ⟨choice.1.1, choice.1.2, choice.2.1.1, choice.2.1.2, choice.2.2⟩
  have injective : Function.Injective combine := by
    intro a b same
    obtain ⟨⟨_, _⟩, ⟨_, _⟩, _⟩ := a
    cases same
    rfl
  have combined : timeTests types ops roots = (types ×ˢ (ops ×ˢ roots)).map combine := by
    simp only [timeTests, SProd.sprod, List.product, List.map_flatMap, List.map_map]
    rfl
  rw [combined]
  exact List.Nodup.map injective (ht.product (ho.product hr))

section Plan

variable (o : TestOptions) (nranks : Nat)

/-- The tests of one shape of a `runTest`. -/
theorem timeTests_plan {ops : List (RedOp × String)} {roots : List Int} (ho : ops.Nodup)
    (hr : roots.Nodup) {op : RedOp → String → Prop} {root : Int → Prop}
    (memOps : ∀ value label, (value, label) ∈ ops ↔ op value label)
    (memRoots : ∀ value, value ∈ roots ↔ root value) :
    (timeTests o.runTypes ops roots).Nodup ∧
      ∀ test : TimeTest, test ∈ timeTests o.runTypes ops roots ↔
        (o.Selects test.type ∧ test.typeName = typeName test.type) ∧
          op test.op test.opName ∧ root test.root := by
  refine ⟨nodup_timeTests (TestOptions.nodup_runTypes o) ho hr, fun test => ?_⟩
  rw [mem_timeTests, TestOptions.mem_runTypes, memOps, memRoots]

theorem mem_unnamed (label : String) (op : RedOp) (opName : String) :
    (op, opName) ∈ [(RedOp.sum, label)] ↔ op = .sum ∧ opName = label := by
  rw [List.mem_singleton, Prod.mk.injEq]

theorem timeTests_unnamed (label : String) {roots : List Int} (hr : roots.Nodup)
    {root : Int → Prop} (memRoots : ∀ value, value ∈ roots ↔ root value) :
    (timeTests o.runTypes [(.sum, label)] roots).Nodup ∧
      ∀ test : TimeTest, test ∈ timeTests o.runTypes [(.sum, label)] roots ↔
        (o.Selects test.type ∧ test.typeName = typeName test.type) ∧
          (test.op = .sum ∧ test.opName = label) ∧ root test.root :=
  timeTests_plan o (List.nodup_singleton _) hr (mem_unnamed label) memRoots

/-- The check of `HyperCubeRunTest`. -/
theorem and_sub_one_iff : nranks ≠ 0 ∧ nranks &&& (nranks - 1) = 0 ↔ ∃ k, nranks = 2 ^ k :=
  Nat.ne_zero_and_sub_one_eq_zero_iff_isPowerOfTwo

variable {o nranks}

/-- **The tests of a run.** A `runTest` that does not return an error calls `TimeTest` exactly
once for every combination of a type, an operation and a root that the options select, with
the names of the type and the operation in the tables, and for no other.

The loops go over `runTypes`, `runOps` and `runRoots`, or over the one operation or root of a
collective that has none. These lists have no element twice, for the tables name no type or
operation twice (`nodup_runTypes`, `nodup_runOps`), and hold what the options select. -/
theorem runTest_plan {s : AlltoAllvState} {sizes : Sizes} {coll : Coll} {tests : List TimeTest}
    (run : runTest o nranks s sizes coll = .ok tests) :
    tests.Nodup ∧ ∀ test : TimeTest, test ∈ tests ↔
      (coll = .hyperCube → ∃ k, nranks = 2 ^ k) ∧
      (o.Selects test.type ∧ test.typeName = typeName test.type) ∧
      (if withOps coll then o.SelectsOp test.op ∧ test.opName = opName test.op
        else test.op = .sum ∧ test.opName = if coll = .hyperCube then "" else "none") ∧
      if withRoots coll then o.SelectsRoot nranks test.root else test.root = -1 := by
  have no_root : ∀ value : Int, value ∈ [-1] ↔ value = -1 := fun _ => List.mem_singleton
  have reductions := timeTests_plan o (TestOptions.nodup_runOps o) (List.nodup_singleton (-1))
    TestOptions.mem_runOps no_root
  have copies := timeTests_unnamed o "none" (List.nodup_singleton (-1)) no_root
  have rooted := timeTests_unnamed o "none" (TestOptions.nodup_runRoots o nranks)
    (TestOptions.mem_runRoots nranks)
  have rooted_reductions := timeTests_plan o (TestOptions.nodup_runOps o)
    (TestOptions.nodup_runRoots o nranks) TestOptions.mem_runOps (TestOptions.mem_runRoots nranks)
  cases coll with
  | allReduce | reduceScatter | sendRecv =>
    cases run
    simpa [withOps, withRoots, allReduceRunTest, reduceScatterRunTest, sendRecvRunTest]
      using reductions
  | reduce =>
    cases run
    simpa [withOps, withRoots, reduceRunTest] using rooted_reductions
  | allGather | alltoAll =>
    cases run
    simpa [withOps, withRoots, allGatherRunTest, alltoAllRunTest] using copies
  | broadcast | gather | scatter =>
    cases run
    simpa [withOps, withRoots, broadcastRunTest, gatherRunTest, scatterRunTest] using rooted
  | alltoAllv =>
    simp only [runTest, alltoAllvRunTest] at run
    split at run
    case isTrue => cases run
    case isFalse =>
      cases run
      simpa [withOps, withRoots] using copies
  | hyperCube =>
    cases run
    rw [hyperCubeRunTest]
    split
    case isTrue power =>
      have powers := (and_sub_one_iff nranks).1 power
      have unnamed := timeTests_unnamed o "" (List.nodup_singleton (-1)) no_root
      simpa [withOps, withRoots, powers] using unnamed
    case isFalse other =>
      have powers := mt (and_sub_one_iff nranks).2 other
      refine ⟨List.nodup_nil, fun test => ⟨fun inside => ?_, fun h => absurd (h.1 rfl) powers⟩⟩
      cases inside

/-- `-d all -o max -r -1` with three ranks before Hopper: thirty tests, each once; of two types
one is among them and one, which is for Hopper, is not. -/
theorem runTest_plan_reduce :
    let o : TestOptions :=
      ⟨⟨22403, true, true, fun _ => rfl⟩, 22403, 800, some "all", some "max", -1⟩
    (reduceRunTest o 3).Nodup ∧ (reduceRunTest o 3).length = 30 ∧
      ⟨.float32, "float", .max, "max", 2⟩ ∈ reduceRunTest o 3 ∧
      ⟨.float8e4m3, "f8e4m3", .max, "max", 2⟩ ∉ reduceRunTest o 3 := by
  intro o
  obtain ⟨once, selected⟩ := @runTest_plan o 3 .initial Sizes.defaults .reduce _ rfl
  have float : o.Selects .float32 :=
    .inl ⟨trivial, .inr ⟨rfl, fun _ => ⟨by decide, by decide⟩⟩⟩
  have max_ : o.SelectsOp .max := .inl ⟨trivial, .inl rfl⟩
  have root : o.SelectsRoot 3 2 := ⟨by decide, by decide⟩
  refine ⟨once, by decide +kernel, ?_, fun inside => ?_⟩
  · exact (selected _).2 ⟨fun other => (nomatch other), ⟨float, rfl⟩, ⟨max_, rfl⟩, root⟩
  · obtain ⟨-, ⟨⟨-, named | ⟨-, hopper⟩⟩ | ⟨other, -⟩, -⟩, -⟩ := (selected _).1 inside
    · exact absurd named (by decide)
    · exact (hopper (by decide)).1 rfl
    · cases other

end Plan

end NcclTests.Harness
