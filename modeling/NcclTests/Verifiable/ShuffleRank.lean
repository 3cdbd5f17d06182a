import Mathlib
import NcclTests.Lib.PowTwoPerm
import NcclTests.Verifiable.Random

/-!
# The rank shuffle

`shuffleRank` of `verifiable/verifiable.cu` permutes the ranks and advances the
generator by one step that does not depend on the rank, so all ranks stay in
agreement about the random bits drawn afterwards.
-/

namespace NcclTests.Verifiable

open PowTwoPerm

/-- The pair of one-to-one functions applied to the bottom `n2 + 1` ranks. -/
def scrambleBottom (mul add n2 r : BitVec 32) : BitVec 32 :=
  let r := r * (mul ||| 1) + add &&& n2
  (r * r + r) / 2 &&& n2

/-- The largest power of two that is at most `rankN`, less one. -/
def bottomMask (rankN : Nat) : BitVec 32 :=
  (~~~(0 : BitVec 32) >>> 1) >>> clz32 (BitVec.ofNat 32 rankN)

/-- The shuffled rank and the advanced generator state. `rankMe` is an `int` that
the caller of the average generator passes as `-1`; the returned rank is below
`rankN` when `rankMe` is a rank. -/
def shuffleRank (rankN : Nat) (rankMe : Int) (rng : BitVec 64) : Nat × BitVec 64 :=
  let a : BitVec 32 := rng.setWidth 32
  let b : BitVec 32 := (rng >>> 32).setWidth 32
  let rng := mixBits rng
  let r : BitVec 32 := BitVec.ofInt 32 rankMe
  let n2 := bottomMask rankN
  let r :=
    if r ≤ n2 then
      -- shuffle the bottom, then rotate it to the top
      scrambleBottom a b n2 r + (BitVec.ofNat 32 rankN - (n2 + 1))
    else r - (n2 + 1)
  let r := if r ≤ n2 then scrambleBottom b a n2 r else r
  (r.toNat, rng)

@[simp] theorem shuffleRank_rng (rankN : Nat) (rankMe : Int) (rng : BitVec 64) :
    (shuffleRank rankN rankMe rng).2 = mixBits rng := rfl

/-! ## The bottom block -/

/-- The scramble on natural numbers below `2 ^ k`. -/
def scrambleNat (k : Nat) (mul add : BitVec 32) (r : Nat) : Nat :=
  let r := (r * (mul ||| 1).toNat + add.toNat) % 2 ^ k
  (r * r + r) / 2 % 2 ^ k

theorem or_one_odd (x : BitVec 32) : (x ||| 1).toNat % 2 = 1 := by
  rw [BitVec.toNat_or]
  have := Nat.or_mod_two_eq_one (a := x.toNat) (b := (1 : BitVec 32).toNat)
  rw [this]
  exact Or.inr rfl

theorem scrambleNat_mapsTo (k : Nat) (mul add : BitVec 32) :
    Set.MapsTo (scrambleNat k mul add) (Below (2 ^ k)) (Below (2 ^ k)) :=
  fun _ _ => Nat.mod_lt _ (Nat.two_pow_pos k)

theorem scrambleNat_injOn (k : Nat) (mul add : BitVec 32) :
    Set.InjOn (scrambleNat k mul add) (Below (2 ^ k)) := by
  have affine := affine_injOn (k := k) (b := add.toNat) (or_one_odd mul)
  exact (triangle_injOn (k := k)).comp affine fun _ _ => Nat.mod_lt _ (Nat.two_pow_pos k)

/-- Masking with a run of ones is a remainder. -/
theorem and_mask_toNat {k : Nat} {n2 : BitVec 32} (mask : n2.toNat = 2 ^ k - 1)
    (x : BitVec 32) : (x &&& n2).toNat = x.toNat % 2 ^ k := by
  rw [BitVec.toNat_and, mask, Nat.and_two_pow_sub_one_eq_mod]

theorem half_mod_two_pow {k : Nat} (le : k ≤ 31) (x : Nat) :
    x % 2 ^ 32 / 2 % 2 ^ k = x / 2 % 2 ^ k := by
  have half : x % 2 ^ 32 / 2 = x / 2 % 2 ^ 31 := by omega
  rw [half, Nat.mod_mod_of_dvd _ (Nat.pow_dvd_pow 2 le)]

/-- The 32-bit products wrap, but only above the masked bits. -/
theorem scrambleBottom_toNat {k : Nat} (le : k ≤ 31) {n2 : BitVec 32}
    (mask : n2.toNat = 2 ^ k - 1) (mul add r : BitVec 32) :
    (scrambleBottom mul add n2 r).toNat = scrambleNat k mul add r.toNat := by
  have first : (r * (mul ||| 1) + add &&& n2).toNat =
      (r.toNat * (mul ||| 1).toNat + add.toNat) % 2 ^ k := by
    rw [and_mask_toNat mask, BitVec.toNat_add, BitVec.toNat_mul, Nat.mod_add_mod,
      Nat.mod_mod_of_dvd _ (Nat.pow_dvd_pow 2 (by omega))]
  rw [scrambleBottom, and_mask_toNat mask, BitVec.toNat_udiv, BitVec.toNat_add, BitVec.toNat_mul,
    Nat.mod_add_mod, first, scrambleNat]
  exact half_mod_two_pow le _

theorem bottomMask_toNat {rankN : Nat} (pos : 0 < rankN) (int_ : rankN < 2 ^ 31) :
    (bottomMask rankN).toNat = 2 ^ rankN.log2 - 1 := by
  have top : rankN.log2 < 31 := (Nat.log2_lt (by omega)).2 int_
  have same : (BitVec.ofNat 32 rankN).toNat = rankN := by
    rw [BitVec.toNat_ofNat, Nat.mod_eq_of_lt (by omega)]
  have nonzero : BitVec.ofNat 32 rankN ≠ 0 := by
    intro zero
    rw [zero] at same
    simp at same
    omega
  have ones : (~~~(0 : BitVec 32) >>> 1).toNat = 2 ^ 31 - 1 := by decide
  have widths : 2 ^ 31 = 2 ^ rankN.log2 * 2 ^ (31 - rankN.log2) := by
    rw [← pow_add]
    congr 1
    omega
  have blocks : 2 ^ 31 - 1 =
      2 ^ (31 - rankN.log2) - 1 + 2 ^ (31 - rankN.log2) * (2 ^ rankN.log2 - 1) := by
    have := Nat.two_pow_pos (31 - rankN.log2)
    rw [Nat.mul_sub, Nat.mul_comm, ← widths, mul_one]
    have : 2 ^ (31 - rankN.log2) ≤ 2 ^ 31 := Nat.pow_le_pow_right (by norm_num) (by omega)
    omega
  rw [bottomMask, BitVec.toNat_ushiftRight, ones, clz32, if_neg nonzero, same,
    Nat.shiftRight_eq_div_pow, blocks, Nat.add_mul_div_left _ _ (Nat.two_pow_pos _),
    Nat.div_eq_of_lt (by have := Nat.two_pow_pos (31 - rankN.log2); omega), Nat.zero_add]

/-! ## The permutation -/

/-- The whole shuffle on natural numbers. -/
def shuffleNat (rankN : Nat) (a b : BitVec 32) (r : Nat) : Nat :=
  fixed (2 ^ rankN.log2) (scrambleNat rankN.log2 b a)
    (rotated (2 ^ rankN.log2) rankN (scrambleNat rankN.log2 a b) r)

theorem shuffleNat_bijOn {rankN : Nat} (pos : 0 < rankN) (a b : BitVec 32) :
    Set.BijOn (shuffleNat rankN a b) (Below rankN) (Below rankN) := by
  have le : 2 ^ rankN.log2 ≤ rankN := Nat.log2_self_le (by omega)
  exact (fixed_bijOn le (scrambleNat_mapsTo _ b a) (scrambleNat_injOn _ b a)).comp
    (rotated_bijOn le (scrambleNat_mapsTo _ a b) (scrambleNat_injOn _ a b))

section Stages

variable {rankN : Nat} (pos : 0 < rankN) (int_ : rankN < 2 ^ 31)

include pos int_

theorem le_bottomMask_iff (x : BitVec 32) :
    x ≤ bottomMask rankN ↔ x.toNat < 2 ^ rankN.log2 := by
  have blockPos := Nat.two_pow_pos rankN.log2
  rw [BitVec.le_def, bottomMask_toNat pos int_]
  omega

theorem bottomMask_add_one_toNat : (bottomMask rankN + 1).toNat = 2 ^ rankN.log2 := by
  have block : 2 ^ rankN.log2 ≤ rankN := Nat.log2_self_le (by omega)
  have blockPos := Nat.two_pow_pos rankN.log2
  rw [BitVec.toNat_add, bottomMask_toNat pos int_]
  simp
  omega

theorem scrambleBottom_bottomMask_toNat (mul add r : BitVec 32) :
    (scrambleBottom mul add (bottomMask rankN) r).toNat =
      scrambleNat rankN.log2 mul add r.toNat := by
  have top : rankN.log2 < 31 := (Nat.log2_lt (by omega)).2 int_
  exact scrambleBottom_toNat (by omega) (bottomMask_toNat pos int_) mul add r

/-- The first stage on words is the rotation on numbers. -/
theorem rotateStage_toNat (mul add r : BitVec 32) :
    (if r ≤ bottomMask rankN then
        scrambleBottom mul add (bottomMask rankN) r +
          (BitVec.ofNat 32 rankN - (bottomMask rankN + 1))
      else r - (bottomMask rankN + 1)).toNat =
      rotated (2 ^ rankN.log2) rankN (scrambleNat rankN.log2 mul add) r.toNat := by
  have block : 2 ^ rankN.log2 ≤ rankN := Nat.log2_self_le (by omega)
  have size := bottomMask_add_one_toNat pos int_
  have whole : (BitVec.ofNat 32 rankN).toNat = rankN := by
    rw [BitVec.toNat_ofNat, Nat.mod_eq_of_lt (by omega)]
  have rest : (BitVec.ofNat 32 rankN - (bottomMask rankN + 1)).toNat =
      rankN - 2 ^ rankN.log2 := by
    rw [BitVec.toNat_sub_of_le (by rw [BitVec.le_def, size, whole]; exact block), size, whole]
  rw [rotated]
  by_cases low : r.toNat < 2 ^ rankN.log2
  · have image : scrambleNat rankN.log2 mul add r.toNat < 2 ^ rankN.log2 :=
      scrambleNat_mapsTo _ _ _ low
    rw [if_pos ((le_bottomMask_iff pos int_ r).2 low), if_pos low, BitVec.toNat_add, rest,
      scrambleBottom_bottomMask_toNat pos int_, Nat.mod_eq_of_lt (by omega)]
  · rw [if_neg (fun le => low ((le_bottomMask_iff pos int_ r).1 le)), if_neg low,
      BitVec.toNat_sub_of_le (by rw [BitVec.le_def, size]; omega), size]

/-- The second stage on words leaves the top alone. -/
theorem bottomStage_toNat (mul add r : BitVec 32) :
    (if r ≤ bottomMask rankN then scrambleBottom mul add (bottomMask rankN) r else r).toNat =
      fixed (2 ^ rankN.log2) (scrambleNat rankN.log2 mul add) r.toNat := by
  rw [fixed]
  by_cases low : r.toNat < 2 ^ rankN.log2
  · rw [if_pos ((le_bottomMask_iff pos int_ r).2 low), if_pos low,
      scrambleBottom_bottomMask_toNat pos int_]
  · rw [if_neg (fun le => low ((le_bottomMask_iff pos int_ r).1 le)), if_neg low]

end Stages

theorem shuffleRank_eq_shuffleNat {rankN rankMe : Nat} (int_ : rankN < 2 ^ 31)
    (mem : rankMe < rankN) (rng : BitVec 64) :
    (shuffleRank rankN rankMe rng).1 =
      shuffleNat rankN (rng.setWidth 32) ((rng >>> 32).setWidth 32) rankMe := by
  have pos : 0 < rankN := by omega
  have me : (BitVec.ofInt 32 (rankMe : Int)).toNat = rankMe := by
    rw [BitVec.ofInt_natCast, BitVec.toNat_ofNat, Nat.mod_eq_of_lt (by omega)]
  have rotate := rotateStage_toNat pos int_ (rng.setWidth 32) ((rng >>> 32).setWidth 32)
    (BitVec.ofInt 32 (rankMe : Int))
  rw [me] at rotate
  rw [shuffleNat, ← rotate]
  exact bottomStage_toNat pos int_ _ _ _

/-- **The shuffle permutes the ranks.** -/
theorem shuffleRank_bijOn {rankN : Nat} (pos : 0 < rankN) (int_ : rankN < 2 ^ 31)
    (rng : BitVec 64) :
    Set.BijOn (fun r : Nat => (shuffleRank rankN r rng).1) (Below rankN) (Below rankN) :=
  (shuffleNat_bijOn pos _ _).congr fun _ mem => (shuffleRank_eq_shuffleNat int_ mem rng).symm

theorem shuffleRank_lt {rankN rankMe : Nat} (int_ : rankN < 2 ^ 31) (mem : rankMe < rankN)
    (rng : BitVec 64) : (shuffleRank rankN rankMe rng).1 < rankN :=
  (shuffleRank_bijOn (by omega) int_ rng).mapsTo mem

/-- **All ranks shuffle alike.** For every state of the generator the shuffle is a permutation
of the ranks, and it leaves the same state behind for every rank and also for `-1`. -/
theorem shuffleRank_permutes (rankN : Nat) (pos : 0 < rankN) (int_ : rankN < 2 ^ 31)
    (rng : BitVec 64) :
    Set.BijOn (fun r : Nat => (shuffleRank rankN r rng).1) {r | r < rankN} {r | r < rankN} ∧
      ∀ rankMe rankMe' : Int,
        (shuffleRank rankN rankMe rng).2 = (shuffleRank rankN rankMe' rng).2 :=
  ⟨shuffleRank_bijOn pos int_ rng, fun rankMe rankMe' => by
    rw [shuffleRank_rng, shuffleRank_rng]⟩

/-- Six ranks, of which four are scrambled. -/
theorem shuffleRank_permutes_six :
    Set.BijOn (fun r : Nat => (shuffleRank 6 r 0x9e3779b97f4a7c13).1) {r | r < 6} {r | r < 6} ∧
      ∀ rankMe rankMe' : Int, (shuffleRank 6 rankMe 0x9e3779b97f4a7c13).2 =
        (shuffleRank 6 rankMe' 0x9e3779b97f4a7c13).2 :=
  shuffleRank_permutes 6 (by decide) (by decide) 0x9e3779b97f4a7c13

end NcclTests.Verifiable
