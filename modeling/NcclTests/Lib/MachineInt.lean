import Mathlib

/-!
# Machine integers

Values of the C types `unsigned int`, `int` and `size_t` on a 64-bit machine, as
numbers that wrap around.
-/

/-- The value of an expression of type `unsigned int`. -/
def uint32 (n : Nat) : Nat := n % 2 ^ 32

/-- The value of an expression of type `int`. -/
def int32 (i : Int) : Int := Int.bmod i (2 ^ 32)

/-- The value of a signed expression, `none` where it overflows. -/
def checkedInt (i : Int) : Option Int := if -2 ^ 31 ≤ i ∧ i < 2 ^ 31 then some i else none

/-- An `int` as a `size_t`. -/
def sizeT (i : Int) : Nat := (i % 2 ^ 64).toNat

theorem uint32_of_lt {n : Nat} (less : n < 2 ^ 32) : uint32 n = n := Nat.mod_eq_of_lt less

theorem int32_of_lt {n : Nat} (less : n < 2 ^ 31) : int32 n = n := by
  rw [int32, Int.bmod_eq_of_le] <;> omega

theorem int32_lt (i : Int) : int32 i < 2 ^ 31 := by
  have := @Int.bmod_lt i (2 ^ 32) (by norm_num)
  rw [int32]
  omega

theorem le_int32 (i : Int) : -2 ^ 31 ≤ int32 i := by
  have := @Int.le_bmod i (2 ^ 32) (by norm_num)
  rw [int32]
  omega

/-- An `int` is the number it is read as exactly where that is one. -/
theorem int32_eq_iff {i : Int} : int32 i = i ↔ -2 ^ 31 ≤ i ∧ i ≤ 2 ^ 31 - 1 := by
  constructor
  · intro same
    have low := le_int32 i
    have high := int32_lt i
    omega
  · intro range
    rw [int32, Int.bmod_eq_of_le] <;> omega

theorem checkedInt_eq_some {i : Int} (low : -2 ^ 31 ≤ i) (high : i < 2 ^ 31) :
    checkedInt i = some i := if_pos ⟨low, high⟩

theorem checkedInt_eq_none {i : Int} (high : 2 ^ 31 ≤ i) : checkedInt i = none :=
  if_neg fun range => by omega

theorem sizeT_natCast {n : Nat} (less : n < 2 ^ 64) : sizeT n = n := by
  rw [sizeT]
  omega

theorem sizeT_modEq (i : Int) : (sizeT i : Int) ≡ i [ZMOD (2 ^ 64 : Nat)] := by
  rw [sizeT, Int.toNat_of_nonneg (Int.emod_nonneg _ (by norm_num))]
  exact Int.mod_modEq i _

/-! ## Accumulators -/

/-- A sum of words is the sum modulo their size. -/
theorem toNat_foldl_add (g : Nat → UInt64) (n : Nat) :
    ((List.range n).foldl (fun acc j => acc + g j) 0).toNat =
      (∑ j ∈ Finset.range n, (g j).toNat) % 2 ^ 64 := by
  induction n with
  | zero => rfl
  | succ n ih =>
    rw [List.range_succ, List.foldl_append, List.foldl_cons, List.foldl_nil, UInt64.toNat_add, ih,
      Finset.sum_range_succ, Nat.mod_add_mod]

theorem toNat_foldl_max (g : Nat → UInt64) (n : Nat) :
    ((List.range n).foldl (fun m i => max m (g i)) 0).toNat =
      (Finset.range n).sup fun i => (g i).toNat := by
  induction n with
  | zero => rfl
  | succ n ih =>
    rw [List.range_succ, List.foldl_append, List.foldl_cons, List.foldl_nil, UInt64.toNat_max, ih,
      Finset.range_add_one, Finset.sup_insert, max_comm]

/-- Two accumulators of one loop. -/
theorem foldl_pair {α β γ : Type*} (f : α → γ → α) (g : β → γ → β) (l : List γ) (a : α) (b : β) :
    l.foldl (fun s x => (f s.1 x, g s.2 x)) (a, b) = (l.foldl f a, l.foldl g b) := by
  induction l generalizing a b with
  | nil => rfl
  | cons x l ih => exact ih _ _
