import Mathlib
import NcclTests.Verifiable.CopyData
import NcclTests.Verifiable.GenericFold

/-!
# Which generator a type and an operation pick

The overloads of `genInput` and `genOutput` side by side: those of integers, of copies, and
of the minimum and the maximum of floats. Sums, products and averages of floats are left to
a parameter. Where an overload is known, a reduction of the inputs yields the output,
whatever its shape and order: `Generators.overloads_predicts`.
-/

namespace NcclTests.Verifiable

/-! ## Transport along a change of type -/

/-- The same functor on another representation of the values. -/
def Functor.map {A B : Type} (e : A ≃ B) (op : Functor A) : Functor B where
  preOp x rankMe := e (op.preOp (e.symm x) rankMe)
  apply a b := e (op.apply (e.symm a) (e.symm b))
  postOp x := e (op.postOp (e.symm x))

theorem reduced_map {A B : Type} (e : A ≃ B) (op : Functor A) (genInput : Nat → A)
    (t : ReduceTree Nat) :
    reduced (op.map e) (fun r => e (genInput r)) t = e (reduced op genInput t) := by
  have inner : t.eval (op.map e).apply (fun r => (op.map e).preOp (e (genInput r)) r) =
      e (t.eval op.apply fun r => op.preOp (genInput r) r) := by
    induction t with
    | leaf r => simp only [ReduceTree.eval, Functor.map, Equiv.symm_apply_apply]
    | node left right ihLeft ihRight =>
      rw [ReduceTree.eval, ihLeft, ihRight]
      simp only [ReduceTree.eval, Functor.map, Equiv.symm_apply_apply]
  rw [reduced, inner, reduced]
  simp only [Functor.map, Equiv.symm_apply_apply]

/-- A tree over a single rank. -/
theorem reduced_one {A : Type} (op : Functor A) (genInput : Nat → A) {t : ReduceTree Nat}
    (perm : t.leaves.Perm (List.range 1)) :
    reduced op genInput t = op.postOp (op.preOp (genInput 0) 0) := by
  have single : t.leaves = [0] := List.perm_singleton.1 perm
  cases t with
  | leaf r =>
    have zero : r = 0 := List.singleton_inj.1 single
    rw [zero]
    rfl
  | node left right =>
    have some_ (u : ReduceTree Nat) : 0 < u.leaves.length := by
      induction u with
      | leaf r => exact Nat.one_pos
      | node left right ihLeft _ =>
        rw [ReduceTree.leaves, List.length_append]
        omega
    have total := congrArg List.length single
    rw [ReduceTree.leaves, List.length_append] at total
    have left_ := some_ left
    have right_ := some_ right
    simp only [List.length_cons, List.length_nil] at total
    omega

/-! ## The types -/

def IntegerType.dataType : IntegerType → DataType
  | int8 => .int8
  | uint8 => .uint8
  | int32 => .int32
  | uint32 => .uint32
  | int64 => .int64
  | uint64 => .uint64

def FloatLayout.dataType : FloatLayout → DataType
  | float => .float32
  | double => .float64
  | half => .float16
  | bfloat16 => .bfloat16
  | fp8E4m3 => .float8e4m3
  | fp8E5m2 => .float8e5m2

theorem IntegerType.sizeof_dataType (I : IntegerType) : 8 * I.sizeof = 8 * I.dataType.sizeof := by
  cases I <;> rfl

theorem FloatLayout.sizeof_dataType (F : FloatLayout) : 8 * F.sizeof = 8 * F.dataType.sizeof := by
  cases F <;> rfl

/-- `IsIntegral<T>`, with the type in question. -/
inductive TypeView : DataType → Type
  | integer (I : IntegerType) : TypeView I.dataType
  | float (F : FloatLayout) : TypeView F.dataType

def DataType.view : (T : DataType) → TypeView T
  | int8 => .integer .int8
  | uint8 => .integer .uint8
  | int32 => .integer .int32
  | uint32 => .integer .uint32
  | int64 => .integer .int64
  | uint64 => .integer .uint64
  | float16 => .float .half
  | bfloat16 => .float .bfloat16
  | float8e4m3 => .float .fp8E4m3
  | float8e5m2 => .float .fp8E5m2
  | float32 => .float .float
  | float64 => .float .double

/-- One pattern of bits, with its width written in two ways. -/
def castBits {v w : Nat} (same : v = w) : BitVec v ≃ BitVec w where
  toFun x := x.cast same
  invFun x := x.cast same.symm
  left_inv x := by subst same; rfl
  right_inv x := by subst same; rfl

/-- What `red_op` a functor other than `ReduceNil` stands for. -/
def ReduceFn.redOp : ReduceFn → Option RedOp
  | nil => none
  | sum => some .sum
  | min => some .min
  | max => some .max
  | prod => some .prod
  | avg _ => some .avg
  | preMulSum => some .preMulSum

/-- The operations of floats that fold. -/
def RedOp.foldOp : RedOp → Option FloatLayout.FoldOp
  | min => some .min
  | max => some .max
  | sum | prod | avg | preMulSum => none

/-! ## The overloads -/

/-- `genInput` of `ReduceNil` for a floating `T`: the body is that of `ReduceMax`. -/
def FloatLayout.genInputNil (T : FloatLayout) (rankMe : Nat) (seed : BitVec 64) (index : Int) :
    T.Bits :=
  genInputMax T rankMe seed index

section Overloads

variable (cuda : FloatLayout.Intrinsics) (arch : Nat)

/-- The functor of an operation on `T`, where the operation folds. -/
def DataType.functor (T : DataType) (redOp : RedOp) (rankN : Nat) : Option (Functor T.Bits) :=
  match T, T.view with
  | _, .integer I => some ((I.functor redOp rankN).map (castBits I.sizeof_dataType))
  | _, .float F => redOp.foldOp.map fun op =>
      (F.functor cuda arch op).map (castBits F.sizeof_dataType)

/-- The overloads that are known, and those of `gen` for the rest. -/
def Generators.overloads (gen : Generators) : Generators where
  genInput T op rankN rankMe seed index :=
    match T, T.view, op.redOp with
    | _, .integer I, none => genInputNil I.dataType rankN rankMe seed index
    | _, .integer I, some redOp =>
      castBits I.sizeof_dataType (I.genInput redOp rankMe.toNat seed index)
    | _, .float F, none => castBits F.sizeof_dataType (F.genInputNil rankMe.toNat seed index)
    | _, .float F, some redOp =>
      match redOp.foldOp with
      | some fold => castBits F.sizeof_dataType (F.genInput fold rankMe.toNat seed index)
      | none => gen.genInput F.dataType op rankN rankMe seed index
  genOutput T op rankN seed index :=
    match T, T.view, op.redOp with
    | _, .integer I, none => genOutputNil I.dataType rankN seed index
    | _, .integer I, some redOp =>
      castBits I.sizeof_dataType
        (Verifiable.genOutput (I.functor redOp rankN.toNat) rankN.toNat
          (I.genInput redOp · seed index))
    | _, .float F, none => castBits F.sizeof_dataType (F.genInputNil 0 seed index)
    | _, .float F, some redOp =>
      match redOp.foldOp with
      | some fold =>
        castBits F.sizeof_dataType
          (Verifiable.genOutput (F.functor cuda arch fold) rankN.toNat
            (F.genInput fold · seed index))
      | none => gen.genOutput F.dataType op rankN seed index

end Overloads

/-! ## Inputs and output agree -/

/-- Reducing the inputs of all ranks in any shape and order yields the output. -/
def Generators.Predicts (gen : Generators) (T : DataType) (redOp : RedOp) (rankN : Nat)
    (op : Functor T.Bits) : Prop :=
  ∀ (seed : BitVec 64) (index : Int) (t : ReduceTree Nat), t.leaves.Perm (List.range rankN) →
    reduced op (fun r => gen.genInput T (redOp.reduceFn rankN) rankN r seed index) t =
      gen.genOutput T (redOp.reduceFn rankN) rankN seed index

theorem RedOp.reduceFn_redOp (redOp : RedOp) {rankN : Nat} (two : 2 ≤ rankN) :
    (redOp.reduceFn rankN).redOp = some redOp := by
  have many : ¬((rankN : Int) = 1) := by omega
  cases redOp <;> exact (congrArg ReduceFn.redOp (if_neg many)).trans rfl

theorem RedOp.reduceFn_one (redOp : RedOp) : redOp.reduceFn (1 : Nat) = .nil := by
  cases redOp <;> rfl

theorem IntegerType.ofInt_toInt (I : IntegerType) (x : I.Bits) :
    BitVec.ofInt (8 * I.sizeof) (I.toInt x) = x := by
  rw [toInt]
  split
  · exact BitVec.ofInt_toInt
  · rw [BitVec.ofInt_natCast, BitVec.ofNat_toNat, BitVec.setWidth_eq]

/-- A single rank leaves its contribution as it is. -/
theorem IntegerType.functor_one (I : IntegerType) (redOp : RedOp) (x : I.Bits) :
    (I.functor redOp 1).postOp ((I.functor redOp 1).preOp x 0) = x := by
  cases redOp with
  | avg =>
    change BitVec.ofInt _ ((I.toInt x).tdiv 1) = x
    rw [Int.tdiv_one, I.ofInt_toInt]
  | preMulSum => exact BitVec.mul_one x
  | sum | prod | max | min => rfl

section Equations

variable {cuda : FloatLayout.Intrinsics} {arch : Nat} {gen : Generators} {op : ReduceFn}
  {redOp : RedOp} {fold : FloatLayout.FoldOp} {rankN rankMe : Int} {seed : BitVec 64} {index : Int}

theorem view_integer (I : IntegerType) : I.dataType.view = .integer I := by cases I <;> rfl

theorem view_float (F : FloatLayout) : F.dataType.view = .float F := by cases F <;> rfl

/-- Every type is an integer or a float. -/
theorem DataType.integer_or_float (T : DataType) :
    (∃ I : IntegerType, I.dataType = T) ∨ ∃ F : FloatLayout, F.dataType = T :=
  match T, T.view with
  | _, .integer I => Or.inl ⟨I, rfl⟩
  | _, .float F => Or.inr ⟨F, rfl⟩

theorem functor_integer (I : IntegerType) (n : Nat) : I.dataType.functor cuda arch redOp n =
    some ((I.functor redOp n).map (castBits I.sizeof_dataType)) := by
  simp only [DataType.functor, view_integer]

theorem functor_float (F : FloatLayout) (n : Nat) : F.dataType.functor cuda arch redOp n =
    redOp.foldOp.map fun fold =>
      (F.functor cuda arch fold).map (castBits F.sizeof_dataType) := by
  simp only [DataType.functor, view_float]

theorem overloads_genInput_integer (I : IntegerType) (known : op.redOp = some redOp) :
    (gen.overloads cuda arch).genInput I.dataType op rankN rankMe seed index =
      castBits I.sizeof_dataType (I.genInput redOp rankMe.toNat seed index) := by
  simp only [Generators.overloads, view_integer, known]

theorem overloads_genOutput_integer (I : IntegerType) (known : op.redOp = some redOp) :
    (gen.overloads cuda arch).genOutput I.dataType op rankN seed index =
      castBits I.sizeof_dataType
        (genOutput (I.functor redOp rankN.toNat) rankN.toNat (I.genInput redOp · seed index)) := by
  simp only [Generators.overloads, view_integer, known]

theorem overloads_genInput_float (F : FloatLayout) (known : op.redOp = some redOp)
    (folds : redOp.foldOp = some fold) :
    (gen.overloads cuda arch).genInput F.dataType op rankN rankMe seed index =
      castBits F.sizeof_dataType (F.genInput fold rankMe.toNat seed index) := by
  simp only [Generators.overloads, view_float, known, folds]

theorem overloads_genOutput_float (F : FloatLayout) (known : op.redOp = some redOp)
    (folds : redOp.foldOp = some fold) :
    (gen.overloads cuda arch).genOutput F.dataType op rankN seed index =
      castBits F.sizeof_dataType
        (genOutput (F.functor cuda arch fold) rankN.toNat (F.genInput fold · seed index)) := by
  simp only [Generators.overloads, view_float, known, folds]

/-- What a copy expects is the contribution of rank 0. -/
theorem overloads_nil (T : DataType) :
    (gen.overloads cuda arch).genOutput T .nil 1 seed index =
      (gen.overloads cuda arch).genInput T .nil 1 0 seed index := by
  cases T <;> rfl

end Equations

section Predicts

variable {cuda : FloatLayout.Intrinsics} (arch : Nat) (gen : Generators)

/-- A single rank leaves its contribution as it is. -/
theorem DataType.functor_one {T : DataType} {redOp : RedOp} {op : Functor T.Bits}
    (folds : T.functor cuda arch redOp 1 = some op) (x : T.Bits) :
    op.postOp (op.preOp x 0) = x := by
  rcases T.integer_or_float with ⟨I, rfl⟩ | ⟨F, rfl⟩
  · rw [functor_integer] at folds
    rw [← Option.some.inj folds]
    simp only [Functor.map, Equiv.symm_apply_apply]
    rw [I.functor_one, Equiv.apply_symm_apply]
  · rw [functor_float] at folds
    obtain ⟨fold, -, rfl⟩ := Option.map_eq_some_iff.1 folds
    simp only [Functor.map, FloatLayout.functor, Equiv.apply_symm_apply]

/-- **The output is what any reduction of the inputs yields**, where an overload is known. -/
theorem Generators.overloads_predicts (documented : cuda.Documented) {T : DataType}
    {redOp : RedOp} {rankN : Nat} (pos : 0 < rankN) {op : Functor T.Bits}
    (folds : T.functor cuda arch redOp rankN = some op) :
    (gen.overloads cuda arch).Predicts T redOp rankN op := by
  intro seed index t perm
  rcases Nat.lt_or_ge 1 rankN with two | one
  case inr =>
    -- copies of the contribution of the only rank
    obtain rfl : rankN = 1 := by omega
    rw [reduced_one op _ perm, DataType.functor_one arch folds, redOp.reduceFn_one]
    exact (overloads_nil T).symm
  have known := redOp.reduceFn_redOp two
  rcases T.integer_or_float with ⟨I, rfl⟩ | ⟨F, rfl⟩
  · rw [functor_integer] at folds
    rw [← Option.some.inj folds, overloads_genOutput_integer I known, Int.toNat_natCast]
    simp only [overloads_genInput_integer I known, Int.toNat_natCast]
    rw [reduced_map]
    congr 1
    exact (genOutput_eq_reduced (I.commutesOn_functor redOp rankN) (fun _ => trivial) pos perm).symm
  · rw [functor_float] at folds
    obtain ⟨fold, foldOp, rfl⟩ := Option.map_eq_some_iff.1 folds
    rw [overloads_genOutput_float F known foldOp, Int.toNat_natCast]
    simp only [overloads_genInput_float F known foldOp, Int.toNat_natCast]
    rw [reduced_map]
    congr 1
    have normal (r : Nat) := FloatLayout.normalBits_genInput F fold r seed index
    exact (genOutput_eq_reduced (FloatLayout.commutesOn_functor documented arch F fold) normal pos
      perm).symm

/-- Verification has no tolerance for what folds. -/
theorem tolerance_of_functor {T : DataType} {redOp : RedOp} {rankN : Nat} {op : Functor T.Bits}
    (folds : T.functor cuda arch redOp rankN = some op) : tolerance T redOp = 0 := by
  rcases T.integer_or_float with ⟨I, rfl⟩ | ⟨F, rfl⟩
  · apply tolerance_integral
    cases I <;> rfl
  · rw [functor_float] at folds
    obtain ⟨fold, foldOp, -⟩ := Option.map_eq_some_iff.1 folds
    have exact_ : (redOp == .avg) = false := by
      cases redOp <;> first | rfl | cases foldOp
    rw [tolerance, exact_, Bool.and_false]
    rfl

end Predicts

end NcclTests.Verifiable
