import Mathlib
import NcclTests.Lib.WordPerm
import NcclTests.Verifiable.Kernels
import NcclTests.Verifiable.Random

/-!
# The data of copies

A collective that only moves data is verified as a reduction of one rank. Elements of an
integral type are then bits of the mixer, and those of 8 bytes are all of its bits: an
element tells the index it was generated for, since no step of the mixer loses information.
-/

namespace NcclTests.Verifiable

open WordPerm

/-! ## The mixers -/

/-- The four assignments of `mixBits` after each other. -/
theorem mixBits_eq : mixBits =
    xorLow (m := 32) (n := 32) (fun hi => hi <<< 16 ^^^ hi >>> 16) ∘
      (fun u64 : BitVec 64 => u64 * 0x9e3779b97f4a7c13) ∘ xorLow (m := 32) (n := 32) id ∘
        onHigh (m := 32) (n := 32) fun hi => hi + 1 := by
  funext x
  simp only [mixBits, Function.comp, xorLow, onHigh, id_eq, BitVec.extractLsb'_append_eq_left,
    BitVec.extractLsb'_append_eq_right]

/-- The seven assignments of `hashOf` after each other. -/
theorem hashOf_eq (b : BitVec 64) : (fun a => hashOf a b) =
    (fun a : BitVec 64 => a * 0xc4ceb9fe1a85ec53) ∘ (fun a : BitVec 64 => a ^^^ a >>> 32) ∘
      (fun a => a + (b >>> 16 ^^^ b <<< 48)) ∘ (fun a : BitVec 64 => a * 0x9e3779b97f4a7c13) ∘
      (fun a : BitVec 64 => a ^^^ a >>> 32) ∘ (fun a => a + b) ∘ fun a => a + 1 <<< 32 := rfl

theorem mixBits_bijective : Function.Bijective mixBits := by
  have increment : Function.Bijective fun hi : BitVec 32 => hi + 1 := AddGroup.addRight_bijective 1
  rw [mixBits_eq]
  refine (xorLow_involutive _).bijective.comp ?_
  refine (mul_odd_bijective (by decide)).comp ?_
  exact (xorLow_involutive id).bijective.comp (onHigh_bijective increment)

theorem hashOf_bijective (b : BitVec 64) : Function.Bijective fun a => hashOf a b := by
  have shifted : Function.Bijective fun a : BitVec 64 => a ^^^ a >>> 32 :=
    (xor_shiftRight_involutive (by norm_num)).bijective
  rw [hashOf_eq]
  refine (mul_odd_bijective (by decide)).comp (shifted.comp ?_)
  refine (AddGroup.addRight_bijective _).comp ?_
  refine (mul_odd_bijective (by decide)).comp (shifted.comp ?_)
  exact (AddGroup.addRight_bijective b).comp (AddGroup.addRight_bijective _)

/-! ## The elements -/

/-- `genInput` of `ReduceNil` for an integral `T`; `tmp` is the low part of `bits`. -/
def genInputNil (T : DataType) (_rankN _rankMe : Int) (seed : BitVec 64) (index : Int) : T.Bits :=
  let bits : BitVec 64 := mixBits (seed ^^^ BitVec.ofInt 64 index)
  let bits := bits >>> (64 - 8 * T.sizeof)
  let bits := bits &&& BitVec.allOnes 64 >>> (64 - 8 * T.sizeof)
  bits.setWidth (8 * T.sizeof)

/-- `genOutput` of `ReduceNil` for an integral `T`. -/
def genOutputNil (T : DataType) (rankN : Int) (seed : BitVec 64) (index : Int) : T.Bits :=
  genInputNil T rankN 0 seed index

/-- The overloads for `ReduceNil` of an integral type beside the other ones. -/
def Generators.withNil (gen : Generators) : Generators where
  genInput T op rankN rankMe seed index :=
    if op = .nil ∧ T.floating = false then genInputNil T rankN rankMe seed index
    else gen.genInput T op rankN rankMe seed index
  genOutput T op rankN seed index :=
    if op = .nil ∧ T.floating = false then genOutputNil T rankN seed index
    else gen.genOutput T op rankN seed index

/-- The numbers of an `intptr_t`. -/
def intptr : Set Int := Set.Ico (-2 ^ 63) (2 ^ 63)

/-- The types of 8 bytes take all bits of the mixer. -/
theorem genInputNil_toNat {T : DataType} (wide : T.sizeof = 8) (rankN rankMe : Int)
    (seed : BitVec 64) (index : Int) :
    (genInputNil T rankN rankMe seed index).toNat =
      (mixBits (seed ^^^ BitVec.ofInt 64 index)).toNat := by
  have whole : 64 - 8 * T.sizeof = 0 := by omega
  rw [genInputNil, whole, BitVec.ushiftRight_zero, BitVec.ushiftRight_zero, BitVec.and_allOnes,
    wide, BitVec.setWidth_eq]

/-- Elements of 8 bytes at different indices are different. -/
theorem genInputNil_injOn {T : DataType} (wide : T.sizeof = 8) (rankN rankMe : Int)
    (seed : BitVec 64) : Set.InjOn (genInputNil T rankN rankMe seed) intptr := by
  intro i hi j hj same
  have mixed := congrArg BitVec.toNat same
  rw [genInputNil_toNat wide, genInputNil_toNat wide] at mixed
  have masked := mixBits_bijective.injective (BitVec.eq_of_toNat_eq mixed)
  have words := (BitVec.xor_right_inj seed).1 masked
  refine ofInt_injOn (fun k hk => ?_) hi hj words
  obtain ⟨low, high⟩ := hk
  omega

/-! ## What verification sees -/

section Copies

variable {gen : Generators} {T : DataType} {redOp : RedOp} {rankMe : Int} {seed : BitVec 64}
  {results expected elts : Nat → T.Bits} {eltN bad : Nat} {eltIx0 : Int}

theorem withNil_genInput (integral : T.floating = false) (index : Int) :
    gen.withNil.genInput T (redOp.reduceFn 1) 1 rankMe seed index =
      genInputNil T 1 rankMe seed index :=
  if_pos ⟨rfl, integral⟩

theorem withNil_genOutput (integral : T.floating = false) (index : Int) :
    gen.withNil.genOutput T (redOp.reduceFn 1) 1 seed index = genOutputNil T 1 seed index :=
  if_pos ⟨rfl, integral⟩

/-- Integral types are verified without tolerance. -/
theorem tolerance_integral (integral : T.floating = false) : tolerance T redOp = 0 := by
  rw [tolerance, integral, Bool.false_and]
  rfl

/-- Without tolerance an element is right only if it is what is expected. -/
theorem mem_badElts_zero {w : Nat} {results expected : Nat → BitVec w} {i : Nat} :
    i ∈ badElts 0 results expected eltN ↔ i < eltN ∧ results i ≠ expected i := by
  rw [badElts, Finset.mem_filter, Finset.mem_range, Int.natAbs_pos, ne_eq, ne_eq, sub_eq_zero,
    Nat.cast_inj, BitVec.toNat_inj]

/-- The positions of a buffer that verification counts. -/
def wrong (T : DataType) (seed : BitVec 64) (results : Nat → T.Bits) (eltN : Nat) (eltIx0 : Int) :
    Finset Nat :=
  badElts 0 results (fun i => genOutputNil T 1 seed (eltIx0 + i)) eltN

theorem verify_copy_inline (integral : T.floating = false) :
    NcclVerifiableVerify gen.withNil T redOp 1 seed results none eltN eltIx0 bad ↔
      bad = (wrong T seed results eltN eltIx0).card := by
  rw [verify_inline_iff, tolerance_integral integral, wrong]
  simp only [withNil_genOutput integral]

theorem verify_copy_prepared (integral : T.floating = false)
    (prepared : NcclVerifiablePrepareExpected gen.withNil T redOp 1 seed eltN eltIx0 elts
      expected) :
    NcclVerifiableVerify gen.withNil T redOp 1 seed results (some expected) eltN eltIx0 bad ↔
      bad = (wrong T seed results eltN eltIx0).card := by
  have filled_ := Prepare.eq_filled prepared
  have same : ∀ i < eltN, expected i = genOutputNil T 1 seed (eltIx0 + i) := by
    intro i inside
    rw [filled_, filled, if_pos inside, withNil_genOutput integral]
  rw [verify_prepared_iff, tolerance_integral integral, badElts_congr same, wrong]

/-- An element that was generated for another index is counted, and only then. -/
theorem mem_wrong_iff (wide : T.sizeof = 8) {i : Nat} (inside : i < eltN)
    (here : eltIx0 + i ∈ intptr) {j : Int} (there : j ∈ intptr)
    (moved : results i = genInputNil T 1 rankMe seed j) :
    i ∈ wrong T seed results eltN eltIx0 ↔ j ≠ eltIx0 + i := by
  rw [wrong, mem_badElts_zero, moved, genOutputNil]
  -- no generator looks at the rank
  have same : genInputNil T 1 rankMe seed j = genInputNil T 1 0 seed j := rfl
  rw [same, ne_eq, (genInputNil_injOn wide 1 0 seed).eq_iff there here]
  exact and_iff_right inside

end Copies

/-- **The mixers lose no information, so that no misplaced element of 8 bytes goes unnoticed.**
Both mixers permute the words of 64 bits. The elements of integral types of 8 bytes that copies
move are then different at different indices. Verification has no tolerance for them: with
stored elements as with generated ones, what it counts is the elements that are wrong, and an
element that was generated for some index is wrong at every other index.

A step of the mixers adds a constant or the other argument, multiplies by an odd number, or combines
one half of the word with what is shifted out of the other, and each of these can be undone. -/
theorem copies_distinguished :
    Function.Bijective mixBits ∧
    (∀ b, Function.Bijective fun a => hashOf a b) ∧
    (∀ (T : DataType) (rankN rankMe : Int) (seed : BitVec 64), T.sizeof = 8 →
      Set.InjOn (genInputNil T rankN rankMe seed) intptr) ∧
    ∀ (gen : Generators) (T : DataType) (redOp : RedOp) (rankMe : Int) (seed : BitVec 64),
      T.floating = false → T.sizeof = 8 →
      tolerance T redOp = 0 ∧
      ∀ (eltN : Nat) (eltIx0 : Int) (results elts expected : Nat → T.Bits),
        (∀ i < eltN, eltIx0 + i ∈ intptr) →
        NcclVerifiablePrepareExpected gen.withNil T redOp 1 seed eltN eltIx0 elts expected →
        (∀ bad,
          (NcclVerifiableVerify gen.withNil T redOp 1 seed results (some expected) eltN eltIx0 bad ↔
            bad = (wrong T seed results eltN eltIx0).card) ∧
          (NcclVerifiableVerify gen.withNil T redOp 1 seed results none eltN eltIx0 bad ↔
            bad = (wrong T seed results eltN eltIx0).card)) ∧
        ∀ i < eltN, ∀ j ∈ intptr,
          results i = gen.withNil.genInput T (redOp.reduceFn 1) 1 rankMe seed j →
          (i ∈ wrong T seed results eltN eltIx0 ↔ j ≠ eltIx0 + i) := by
  refine ⟨mixBits_bijective, hashOf_bijective,
    fun T rankN rankMe seed wide => genInputNil_injOn wide rankN rankMe seed, ?_⟩
  intro gen T redOp rankMe seed integral wide
  refine ⟨tolerance_integral integral, ?_⟩
  intro eltN eltIx0 results elts expected addressable prepared
  refine ⟨fun bad => ⟨verify_copy_prepared integral prepared, verify_copy_inline integral⟩, ?_⟩
  intro i inside j there moved
  rw [withNil_genInput integral] at moved
  exact mem_wrong_iff wide inside (addressable i inside) there moved

/-- Two elements of four have changed places. -/
theorem copies_distinguished_swapped :
    NcclVerifiableVerify indexGenerators.withNil .uint64 .sum 1 33
      (fun i => indexGenerators.withNil.genInput .uint64 .nil 1 0 33 ([-2, 0, -1, 1].getD i 0))
      none 4 (-2) 2 := by
  obtain ⟨-, -, -, copies⟩ := copies_distinguished
  obtain ⟨-, verified⟩ := copies indexGenerators .uint64 .sum 0 33 rfl rfl
  have addressable : ∀ i : Nat, i < 4 → (-2 : Int) + i ∈ intptr := by
    intro i inside
    rw [intptr, Set.mem_Ico]
    omega
  obtain ⟨counted, -⟩ := verified 4 (-2) _ (fun _ => 0) _ addressable (prepare_filled _ 4 (-2) _)
  exact (counted 2).2.2 (by decide +kernel)

end NcclTests.Verifiable
