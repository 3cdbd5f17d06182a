import Mathlib

/-!
# Permutations of the residues modulo a power of two

An affine map with an odd multiplier and the triangular map `(x * x + x) / 2`
permute `[0, 2 ^ k)`. The last section glues a permutation of a lower block
`[0, m)` to a rotation of `[0, n)`, which moves the top `n - m` numbers to the
bottom so that a second pass reaches them.
-/

namespace PowTwoPerm

/-- The numbers below `n`. -/
def Below (n : Nat) : Set Nat := {r | r < n}

@[simp] theorem mem_below {n r : Nat} : r ∈ Below n ↔ r < n := Iff.rfl

theorem coe_range (n : Nat) : (Finset.range n : Set Nat) = Below n := by
  ext r
  simp

/-- An injection of a finite block into itself permutes it. -/
theorem bijOn_below {n : Nat} {f : Nat → Nat} (maps : Set.MapsTo f (Below n) (Below n))
    (inj : Set.InjOn f (Below n)) : Set.BijOn f (Below n) (Below n) := by
  refine ⟨maps, inj, ?_⟩
  rw [← coe_range] at maps inj ⊢
  exact Finset.surjOn_of_injOn_of_card_le f maps inj le_rfl

/-- Going round a cycle from any start meets every place once. -/
theorem rotate_bijOn {n : Nat} (i : Nat) (some_ : 0 < n) :
    Set.BijOn (fun j => (i + j) % n) (Below n) (Below n) := by
  refine bijOn_below (fun j _ => Nat.mod_lt _ some_) fun j hj k hk same => ?_
  have cancel : j ≡ k [MOD n] := Nat.ModEq.add_left_cancel' i same
  exact cancel.eq_of_lt_of_lt hj hk

/-- A permutation of the indices does not change a sum. -/
theorem sum_comp_bijOn {M : Type*} [AddCommMonoid M] {n : Nat} {f : Nat → Nat}
    (perm : Set.BijOn f (Below n) (Below n)) (g : Nat → M) :
    ∑ r ∈ Finset.range n, g (f r) = ∑ r ∈ Finset.range n, g r := by
  rw [← coe_range] at perm
  exact Finset.sum_nbij f (fun _ mem => perm.mapsTo mem) perm.injOn perm.surjOn fun _ _ => rfl

/-! ## The two mixers -/

theorem affine_injOn {k a b : Nat} (odd : a % 2 = 1) :
    Set.InjOn (fun r => (r * a + b) % 2 ^ k) (Below (2 ^ k)) := by
  intro x hx y hy same
  have coprime : Nat.Coprime (2 ^ k) a :=
    Nat.Coprime.pow_left k ((Nat.coprime_two_left).2 (Nat.odd_iff.2 odd))
  have sums : x * a + b ≡ y * a + b [MOD 2 ^ k] := same
  have products : x * a ≡ y * a [MOD 2 ^ k] := Nat.ModEq.add_right_cancel' b sums
  have residues : x ≡ y [MOD 2 ^ k] := Nat.ModEq.cancel_right_of_coprime coprime products
  exact residues.eq_of_lt_of_lt hx hy

theorem two_dvd_triangle (x : Nat) : 2 ∣ x * x + x := by
  rw [← Nat.mul_succ]
  exact (Nat.even_mul_succ_self x).two_dvd

/-- Equal triangular numbers modulo `2 ^ k` factor through the difference and
the sum of the indices, one of which is odd. -/
theorem triangle_injOn {k : Nat} :
    Set.InjOn (fun r => (r * r + r) / 2 % 2 ^ k) (Below (2 ^ k)) := by
  have main : ∀ x y : Nat, x < 2 ^ k → y < 2 ^ k → x ≤ y →
      (x * x + x) / 2 % 2 ^ k = (y * y + y) / 2 % 2 ^ k → x = y := by
    intro x y hx hy le same
    obtain ⟨d, rfl⟩ := Nat.exists_eq_add_of_le le
    have halves : 2 ^ k ∣ ((x + d) * (x + d) + (x + d)) / 2 - (x * x + x) / 2 :=
      (Nat.modEq_iff_dvd' (Nat.div_le_div_right (by nlinarith))).1 same
    have factor : 2 ^ (k + 1) ∣ d * (2 * x + d + 1) := by
      obtain ⟨c, hc⟩ := halves
      obtain ⟨p, hp⟩ := two_dvd_triangle (x + d)
      obtain ⟨q, hq⟩ := two_dvd_triangle x
      rw [hp, hq, Nat.mul_div_cancel_left _ (by norm_num),
        Nat.mul_div_cancel_left _ (by norm_num)] at hc
      refine ⟨c, ?_⟩
      have step : d * (2 * x + d + 1) = 2 * p - 2 * q := by
        have expand : (x + d) * (x + d) + (x + d) = x * x + x + d * (2 * x + d + 1) := by ring
        omega
      rw [step, pow_succ, ← Nat.mul_sub, hc]
      ring
    have small : d = 0 := by
      by_contra pos
      rcases Nat.even_or_odd d with even | odd
      · have coprime : Nat.Coprime (2 ^ (k + 1)) (2 * x + d + 1) :=
          Nat.Coprime.pow_left _ (Nat.coprime_two_left.2 (by
            obtain ⟨e, rfl⟩ := even
            exact ⟨x + e, by ring⟩))
        have dvd := Nat.le_of_dvd (by omega) (coprime.dvd_of_dvd_mul_right factor)
        rw [pow_succ] at dvd
        omega
      · have coprime : Nat.Coprime (2 ^ (k + 1)) d :=
          Nat.Coprime.pow_left _ (Nat.coprime_two_left.2 odd)
        have dvd := Nat.le_of_dvd (by omega) (coprime.dvd_of_dvd_mul_left factor)
        rw [pow_succ] at dvd
        omega
    omega
  intro x hx y hy same
  rcases le_total x y with le | le
  · exact main x y hx hy le same
  · exact (main y x hy hx le same.symm).symm

/-! ## A permuted block and a rotation -/

/-- Permute the lower block `[0, m)`, then rotate the top to the bottom. -/
def rotated (m n : Nat) (f : Nat → Nat) (r : Nat) : Nat :=
  if r < m then f r + (n - m) else r - m

/-- Permute the lower block `[0, m)` and leave the rest. -/
def fixed (m : Nat) (f : Nat → Nat) (r : Nat) : Nat := if r < m then f r else r

variable {m n : Nat} {f : Nat → Nat}

theorem rotated_bijOn (le : m ≤ n) (maps : Set.MapsTo f (Below m) (Below m))
    (inj : Set.InjOn f (Below m)) : Set.BijOn (rotated m n f) (Below n) (Below n) := by
  have image : ∀ r, r < m → f r < m := fun r hr => maps hr
  refine bijOn_below ?_ ?_
  · intro r hr
    simp only [mem_below, rotated] at hr ⊢
    split
    case isTrue low =>
      have := image r low
      omega
    case isFalse high => omega
  · intro x hx y hy same
    simp only [mem_below, rotated] at hx hy same
    split at same <;> split at same
    case isTrue.isTrue lowX lowY => exact inj lowX lowY (by omega)
    case isTrue.isFalse lowX highY => omega
    case isFalse.isTrue highX lowY => omega
    case isFalse.isFalse highX highY => omega

theorem fixed_bijOn (le : m ≤ n) (maps : Set.MapsTo f (Below m) (Below m))
    (inj : Set.InjOn f (Below m)) : Set.BijOn (fixed m f) (Below n) (Below n) := by
  have image : ∀ r, r < m → f r < m := fun r hr => maps hr
  refine bijOn_below ?_ ?_
  · intro r hr
    simp only [mem_below, fixed] at hr ⊢
    split
    case isTrue low =>
      have := image r low
      omega
    case isFalse high => omega
  · intro x hx y hy same
    simp only [mem_below, fixed] at hx hy same
    split at same <;> split at same
    case isTrue.isTrue lowX lowY => exact inj lowX lowY same
    case isTrue.isFalse lowX highY =>
      have := image x lowX
      omega
    case isFalse.isTrue highX lowY =>
      have := image y lowY
      omega
    case isFalse.isFalse highX highY => exact same

end PowTwoPerm
