import Mathlib

/-!
# Orbits of a step modulo a power of two

Which residues modulo `2 ^ n` a counter reaches by adding the same number again
and again, or by multiplying by it, and how large the largest one is.

* Adding `s` reaches exactly the class of the start modulo `gcd s (2 ^ n)`
  (`exists_add_mul_modEq`).
* Multiplying by `h` with `h % 4 = 1` reaches exactly the class of the start
  `x` modulo `gcd (x * (h - 1)) (2 ^ n)` (`exists_mul_pow_modEq`): every power
  `h ^ 2 ^ i` is one plus an odd multiple of its power of two, so the bits above
  are set one after the other.
-/

/-- The largest number below `2 ^ n` congruent to `a` modulo a divisor `g` of `2 ^ n`. -/
def largestCongruent (n a g : Nat) : Nat := 2 ^ n - g + a % g

theorem le_largestCongruent {n a g y : Nat} (divides : g ∣ 2 ^ n) (less : y < 2 ^ n)
    (same : y ≡ a [MOD g]) : y ≤ largestCongruent n a g := by
  obtain ⟨c, hc⟩ := divides
  have below : y / g < c := Nat.div_lt_of_lt_mul (hc ▸ less)
  have blocks : g * (y / g) + g ≤ 2 ^ n := by
    rw [hc, ← Nat.mul_succ]
    exact Nat.mul_le_mul_left g below
  have split := Nat.div_add_mod y g
  rw [largestCongruent, ← show y % g = a % g from same]
  omega

theorem largestCongruent_lt {n a g : Nat} (divides : g ∣ 2 ^ n) :
    largestCongruent n a g < 2 ^ n := by
  have pos : 0 < g := Nat.pos_of_dvd_of_pos divides (by positivity)
  have rest := Nat.mod_lt a pos
  have le := Nat.le_of_dvd (by positivity) divides
  rw [largestCongruent]
  omega

theorem largestCongruent_modEq {n a g : Nat} (divides : g ∣ 2 ^ n) :
    largestCongruent n a g ≡ a [MOD g] := by
  have none : 2 ^ n - g ≡ 0 [MOD g] :=
    (Nat.modEq_zero_iff_dvd).2 (Nat.dvd_sub divides dvd_rfl)
  simpa [largestCongruent] using none.add (Nat.mod_modEq a g)

/-- A residue sequence that stays in one class and meets every member of it exceeds
`m` exactly when the largest member of the class does. -/
theorem exists_lt_iff_largestCongruent {n a g m : Nat} {seq : Nat → Nat} (divides : g ∣ 2 ^ n)
    (stays : ∀ k, seq k ≡ a [MOD g]) (meets : ∀ y, a ≡ y [MOD g] → ∃ k, seq k ≡ y [MOD 2 ^ n]) :
    (∃ k, m < seq k % 2 ^ n) ↔ m < largestCongruent n a g := by
  constructor
  · rintro ⟨k, above⟩
    have class_ : seq k % 2 ^ n ≡ a [MOD g] :=
      ((Nat.mod_modEq _ _).of_dvd divides).trans (stays k)
    exact above.trans_le
      (le_largestCongruent divides (Nat.mod_lt _ (by positivity)) class_)
  · intro above
    obtain ⟨k, reached⟩ := meets _ (largestCongruent_modEq divides).symm
    refine ⟨k, ?_⟩
    rwa [reached, Nat.mod_eq_of_lt (largestCongruent_lt divides)]

/-! ## Adding -/

theorem add_mul_modEq_gcd (x s k n : Nat) : x + k * s ≡ x [MOD s.gcd (2 ^ n)] := by
  have multiple : k * s ≡ 0 [MOD s.gcd (2 ^ n)] :=
    (Nat.modEq_zero_iff_dvd).2 ((Nat.gcd_dvd_left s _).mul_left k)
  simpa using multiple.add_left x

/-- Adding `s` reaches every member of the class of `x`, by the identity of Bézout. -/
theorem exists_add_mul_modEq {x y s n : Nat} (same : x ≡ y [MOD s.gcd (2 ^ n)]) :
    ∃ k, x + k * s ≡ y [MOD 2 ^ n] := by
  obtain ⟨t, ht⟩ := (Int.modEq_iff_dvd).1 ((Int.natCast_modEq_iff).2 same)
  have bezout := Nat.gcd_eq_gcd_ab s (2 ^ n)
  have positive : (0 : Int) < (2 ^ n : Nat) := by positivity
  obtain ⟨k, hk⟩ : ∃ k : Nat, (k : Int) ≡ s.gcdA (2 ^ n) * t [ZMOD (2 ^ n : Nat)] := by
    refine ⟨(s.gcdA (2 ^ n) * t % (2 ^ n : Nat)).toNat, ?_⟩
    rw [Int.toNat_of_nonneg (Int.emod_nonneg _ positive.ne')]
    exact Int.mod_modEq _ _
  refine ⟨k, (Int.natCast_modEq_iff).1 ?_⟩
  push_cast
  have solved : (x : Int) + s.gcdA (2 ^ n) * t * s ≡ y [ZMOD (2 ^ n : Nat)] := by
    refine (Int.modEq_iff_dvd).2 ⟨s.gcdB (2 ^ n) * t, ?_⟩
    calc (y : Int) - (x + s.gcdA (2 ^ n) * t * s)
        = (s.gcd (2 ^ n) : Nat) * t - s.gcdA (2 ^ n) * t * s := by rw [← ht]; ring
      _ = (2 ^ n : Nat) * (s.gcdB (2 ^ n) * t) := by rw [bezout]; ring
  have moved := ((hk.mul_right (s : Int)).add_left (x : Int)).trans solved
  simpa using moved

/-- When repeated addition exceeds `m`. -/
theorem exists_lt_add_mul_iff (x s m n : Nat) :
    (∃ k, m < (x + k * s) % 2 ^ n) ↔ m < largestCongruent n x (s.gcd (2 ^ n)) :=
  exists_lt_iff_largestCongruent (Nat.gcd_dvd_right _ _) (add_mul_modEq_gcd x s · n)
    fun _ same => exists_add_mul_modEq same

/-! ## Multiplying by an odd number -/

theorem mul_pow_modEq_gcd {h : Nat} (pos : 0 < h) (x k n : Nat) :
    x * h ^ k ≡ x [MOD (x * (h - 1)).gcd (2 ^ n)] := by
  have one : h ≡ 1 [MOD h - 1] := ((Nat.modEq_iff_dvd' pos).2 dvd_rfl).symm
  have power : h ^ k ≡ 1 [MOD h - 1] := by simpa using one.pow k
  have scaled : x * h ^ k ≡ x * 1 [MOD x * (h - 1)] := power.mul_left' x
  simpa using scaled.of_dvd (Nat.gcd_dvd_left _ _)

/-- Squaring moves the lowest bit of `h - 1` up by one. -/
theorem exists_odd_pow_two_pow {b u : Nat} (four : 2 ≤ b) (odd : Odd u) (i : Nat) :
    ∃ w, Odd w ∧ (1 + 2 ^ b * u) ^ 2 ^ i = 1 + 2 ^ (b + i) * w := by
  induction i with
  | zero => exact ⟨u, odd, by simp⟩
  | succ i ih =>
    obtain ⟨w, odd_w, hw⟩ := ih
    refine ⟨w + 2 ^ (b + i - 1) * w ^ 2, ?_, ?_⟩
    · have even : Even (2 ^ (b + i - 1) * w ^ 2) :=
        (even_two.pow_of_ne_zero (by omega)).mul_right _
      exact odd_w.add_even even
    · obtain ⟨c, hc⟩ : ∃ c, b + i = c + 1 := ⟨b + i - 1, by omega⟩
      rw [pow_succ, pow_mul, hw, ← add_assoc, hc, Nat.add_sub_cancel]
      ring

/-- Bit by bit: a power of `1 + 2 ^ b * u` agreeing with `y` on the low `a + b + d` bits
is corrected in the next bit, if need be, by `2 ^ d` further factors. -/
theorem exists_mul_pow_modEq_of_odd {a b m u : Nat} {y : Int} (four : 2 ≤ b) (odd_m : Odd m)
    (odd_u : Odd u) (same : (2 ^ a * m : Int) ≡ y [ZMOD 2 ^ (a + b)]) (d : Nat) :
    ∃ k, (2 ^ a * m * (1 + 2 ^ b * u) ^ k : Int) ≡ y [ZMOD 2 ^ (a + b + d)] := by
  induction d with
  | zero => exact ⟨0, by simpa using same⟩
  | succ d ih =>
    obtain ⟨k, hk⟩ := ih
    obtain ⟨t, ht⟩ := (Int.modEq_iff_dvd).1 hk
    rcases Int.even_or_odd t with ⟨r, hr⟩ | odd_t
    · refine ⟨k, (Int.modEq_iff_dvd).2 ⟨r, ?_⟩⟩
      rw [ht, hr]
      ring
    obtain ⟨w, odd_w, hw⟩ := exists_odd_pow_two_pow four odd_u d
    have power : ((1 + 2 ^ b * u : Int)) ^ 2 ^ d = 1 + 2 ^ (b + d) * w := by exact_mod_cast hw
    have odd_h : Odd ((1 + 2 ^ b * u : Int) ^ k) := by
      refine Odd.pow ?_
      have even : Even ((2 : Int) ^ b * u) := (even_two.pow_of_ne_zero (by omega)).mul_right _
      exact odd_one.add_even even
    have odd_change : Odd ((m : Int) * (1 + 2 ^ b * u) ^ k * w) :=
      (((Int.odd_coe_nat m).2 odd_m).mul odd_h).mul ((Int.odd_coe_nat w).2 odd_w)
    obtain ⟨r, hr⟩ := odd_t.sub_odd odd_change
    refine ⟨k + 2 ^ d, (Int.modEq_iff_dvd).2 ⟨r, ?_⟩⟩
    rw [pow_add, power]
    calc y - 2 ^ a * m * ((1 + 2 ^ b * u) ^ k * (1 + 2 ^ (b + d) * w))
        = (y - 2 ^ a * m * (1 + 2 ^ b * u) ^ k)
            - 2 ^ (a + b + d) * (m * (1 + 2 ^ b * u) ^ k * w) := by ring
      _ = 2 ^ (a + b + d) * (t - m * (1 + 2 ^ b * u) ^ k * w) := by rw [ht]; ring
      _ = 2 ^ (a + b + (d + 1)) * r := by rw [hr]; ring

theorem gcd_two_pow_mul_odd {c n v : Nat} (odd : Odd v) :
    (2 ^ c * v).gcd (2 ^ n) = 2 ^ min c n := by
  rw [Nat.Coprime.gcd_mul_right_cancel _ (odd.coprime_two_right.pow_right n)]
  rcases Nat.le_total c n with le | le
  · rw [Nat.gcd_eq_left (pow_dvd_pow 2 le), min_eq_left le]
  · rw [Nat.gcd_eq_right (pow_dvd_pow 2 le), min_eq_right le]

/-- Multiplying by `h` reaches every member of the class of `x`. -/
theorem exists_mul_pow_modEq {x y h n : Nat} (one : h % 4 = 1)
    (same : x ≡ y [MOD (x * (h - 1)).gcd (2 ^ n)]) : ∃ k, x * h ^ k ≡ y [MOD 2 ^ n] := by
  rcases Nat.eq_zero_or_pos x with rfl | x_pos
  · exact ⟨0, by simpa using same⟩
  rcases Nat.eq_zero_or_pos (h - 1) with trivial_ | h_pos
  · exact ⟨0, by simpa [trivial_] using same⟩
  obtain ⟨a, m, odd_m, rfl⟩ := Nat.exists_eq_two_pow_mul_odd x_pos.ne'
  obtain ⟨b, u, odd_u, hb⟩ := Nat.exists_eq_two_pow_mul_odd h_pos.ne'
  have four : 2 ≤ b := by
    by_contra small
    have cases_ : b = 0 ∨ b = 1 := by omega
    obtain ⟨v, rfl⟩ := odd_u
    rcases cases_ with rfl | rfl <;> omega
  have split : 2 ^ a * m * (h - 1) = 2 ^ (a + b) * (m * u) := by rw [hb]; ring
  rw [split, gcd_two_pow_mul_odd (odd_m.mul odd_u)] at same
  rcases Nat.le_total n (a + b) with few | many
  · rw [min_eq_right few] at same
    exact ⟨0, by simpa using same⟩
  rw [min_eq_left many] at same
  obtain ⟨d, rfl⟩ := Nat.exists_eq_add_of_le many
  have cast : ((2 ^ a * m : Nat) : Int) ≡ y [ZMOD (2 ^ (a + b) : Nat)] :=
    (Int.natCast_modEq_iff).2 same
  push_cast at cast
  obtain ⟨k, hk⟩ := exists_mul_pow_modEq_of_odd four odd_m odd_u cast d
  have whole : h = 1 + 2 ^ b * u := by omega
  refine ⟨k, (Int.natCast_modEq_iff).1 ?_⟩
  rw [whole]
  push_cast
  exact hk

theorem sq_mod_four_of_odd {f : Nat} (odd : Odd f) : f ^ 2 % 4 = 1 := by
  obtain ⟨r, rfl⟩ := odd
  have expand : (2 * r + 1) ^ 2 = 4 * (r ^ 2 + r) + 1 := by ring
  omega

/-- When repeated multiplication by an odd number exceeds `m`: the even powers fill the
class of `x`, the odd ones that of `x * f`. -/
theorem exists_lt_mul_pow_iff_of_odd {f : Nat} (odd : Odd f) (x m n : Nat) :
    (∃ k, m < x * f ^ k % 2 ^ n) ↔
      m < largestCongruent n x ((x * (f ^ 2 - 1)).gcd (2 ^ n)) ∨
        m < largestCongruent n (x * f) ((x * (f ^ 2 - 1)).gcd (2 ^ n)) := by
  have one := sq_mod_four_of_odd odd
  have pos : 0 < f ^ 2 := pow_pos odd.pos 2
  have from_ (z : Nat) : (∃ k, m < z * (f ^ 2) ^ k % 2 ^ n) ↔
      m < largestCongruent n z ((z * (f ^ 2 - 1)).gcd (2 ^ n)) :=
    exists_lt_iff_largestCongruent (Nat.gcd_dvd_right _ _) (mul_pow_modEq_gcd pos z · n)
      fun _ same => exists_mul_pow_modEq one same
  have gcd_eq : (x * f * (f ^ 2 - 1)).gcd (2 ^ n) = (x * (f ^ 2 - 1)).gcd (2 ^ n) := by
    rw [Nat.mul_right_comm, Nat.Coprime.gcd_mul_right_cancel _ (odd.coprime_two_right.pow_right n)]
  rw [← from_ x, ← gcd_eq, ← from_ (x * f)]
  constructor
  · rintro ⟨k, above⟩
    rcases Nat.even_or_odd' k with ⟨r, rfl | rfl⟩
    · exact Or.inl ⟨r, by rwa [← pow_mul]⟩
    · refine Or.inr ⟨r, ?_⟩
      rwa [← pow_mul, mul_assoc, ← pow_succ']
  · rintro (⟨r, above⟩ | ⟨r, above⟩)
    · exact ⟨2 * r, by rwa [pow_mul]⟩
    · exact ⟨2 * r + 1, by rwa [pow_succ', pow_mul, ← mul_assoc]⟩

/-! ## Multiplying by an even number -/

theorem mul_pow_mod_eq_zero_of_even {f : Nat} (even : Even f) {k n : Nat} (late : n ≤ k)
    (x : Nat) : x * f ^ k % 2 ^ n = 0 := by
  obtain ⟨r, rfl⟩ := even.two_dvd
  rw [mul_pow]
  exact Nat.mod_eq_zero_of_dvd (((pow_dvd_pow 2 late).mul_right _).mul_left x)

/-- After `n` doublings nothing is left. -/
theorem exists_lt_mul_pow_iff_of_even {f : Nat} (even : Even f) (x m n : Nat) :
    (∃ k, m < x * f ^ k % 2 ^ n) ↔ ∃ k < n, m < x * f ^ k % 2 ^ n := by
  constructor
  · rintro ⟨k, above⟩
    refine ⟨k, ?_, above⟩
    by_contra late
    rw [mul_pow_mod_eq_zero_of_even even (not_lt.1 late)] at above
    exact Nat.not_lt_zero _ above
  · rintro ⟨k, -, above⟩
    exact ⟨k, above⟩
