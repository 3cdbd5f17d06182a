import Mathlib

/-!
# Splitting a total over a staircase

`n` contributors are cut into `p` groups of `s`; a member of group `i` gives
`i + 1`, everyone beyond the groups gives nothing. The staircase sums to `s`
times a triangular number; the last contributor may add what is missing to a
given total.
-/

namespace Staircase

/-- The sum `1 + 2 + ... + p`. -/
def triangle (p : Nat) : Nat := p * (p + 1) / 2

theorem triangle_succ (p : Nat) : triangle (p + 1) = triangle p + (p + 1) := by
  have expand : (p + 1) * (p + 1 + 1) = p * (p + 1) + (p + 1) * 2 := by ring
  rw [triangle, triangle, expand, Nat.add_mul_div_right _ _ (by norm_num)]

theorem two_mul_triangle (p : Nat) : 2 * triangle p = p * (p + 1) :=
  Nat.mul_div_cancel' (Nat.even_mul_succ_self p).two_dvd

theorem triangle_mono {p q : Nat} (le : p ≤ q) : triangle p ≤ triangle q :=
  Nat.div_le_div_right (Nat.mul_le_mul le (by omega))

/-- What contributor `r` gives when `p` groups of `s` are formed. -/
def height (s p r : Nat) : Nat := if r / s < p then 1 + r / s else 0

theorem sum_group (s p : Nat) (pos : 0 < s) :
    ∑ i ∈ Finset.range s, (1 + (s * p + i) / s) = s * (p + 1) := by
  have level : ∀ i ∈ Finset.range s, 1 + (s * p + i) / s = p + 1 := by
    intro i mem
    rw [Nat.mul_add_div pos, Nat.div_eq_of_lt (Finset.mem_range.1 mem)]
    omega
  rw [Finset.sum_congr rfl level, Finset.sum_const, Finset.card_range, smul_eq_mul]

theorem sum_groups (s p : Nat) (pos : 0 < s) :
    ∑ r ∈ Finset.range (s * p), (1 + r / s) = s * triangle p := by
  induction p with
  | zero => simp [triangle]
  | succ p ih =>
    rw [Nat.mul_succ, Finset.sum_range_add, ih, sum_group s p pos, triangle_succ]
    ring

/-- The staircase over `n` contributors that all fit. -/
theorem sum_height {s p n : Nat} (pos : 0 < s) (fits : s * p ≤ n) :
    ∑ r ∈ Finset.range n, height s p r = s * triangle p := by
  have low : ∀ r ∈ Finset.range (s * p), height s p r = 1 + r / s := by
    intro r mem
    have below : r / s < p := (Nat.div_lt_iff_lt_mul pos).2 (by
      rw [Nat.mul_comm]
      exact Finset.mem_range.1 mem)
    rw [height, if_pos below]
  have high : ∀ i ∈ Finset.range (n - s * p), height s p (s * p + i) = 0 := by
    intro i _
    have above : p ≤ (s * p + i) / s := by
      rw [Nat.mul_add_div pos]
      exact Nat.le_add_right _ _
    rw [height, if_neg (by omega)]
  rw [← Nat.add_sub_cancel' fits, Finset.sum_range_add, Finset.sum_congr rfl low,
    Finset.sum_congr rfl high, sum_groups s p pos]
  simp

/-- The staircase with the last contributor adding what is missing. -/
def share (s p n total r : Nat) : Nat :=
  height s p r + if r = n - 1 then total - s * triangle p else 0

theorem sum_share {s p n total : Nat} (pos : 0 < s) (fits : s * p ≤ n) (some_ : 0 < n)
    (under : s * triangle p ≤ total) :
    ∑ r ∈ Finset.range n, share s p n total r = total := by
  have last : n - 1 ∈ Finset.range n := Finset.mem_range.2 (by omega)
  simp only [share]
  rw [Finset.sum_add_distrib, sum_height pos fits, Finset.sum_ite_eq' _ _ _, if_pos last]
  omega

theorem share_le {s p n total r : Nat} (pos : 0 < s) (fits : s * p ≤ n)
    (under : s * triangle p ≤ total) (mem : r < n) : share s p n total r ≤ total := by
  calc share s p n total r
      ≤ ∑ r ∈ Finset.range n, share s p n total r :=
        Finset.single_le_sum (f := share s p n total) (fun _ _ => Nat.zero_le _)
          (Finset.mem_range.2 mem)
    _ = total := sum_share pos fits (by omega) under

/-- The triangular number of a positive number below `2 ^ k` is no multiple of `2 ^ k`. -/
theorem triangle_mod_two_pow_pos {n k : Nat} (some_ : 0 < n) (less : n < 2 ^ k) :
    0 < triangle n % 2 ^ k := by
  refine Nat.pos_of_ne_zero fun zero => ?_
  have twice := two_mul_triangle n
  have whole : 2 ^ (k + 1) ∣ n * (n + 1) := by
    rw [← twice, pow_succ, Nat.mul_comm]
    exact Nat.mul_dvd_mul_left 2 (Nat.dvd_of_mod_eq_zero zero)
  -- one of two neighbours is odd
  rcases Nat.even_or_odd n with even | odd
  · have coprime : Nat.Coprime (2 ^ (k + 1)) (n + 1) :=
      (Nat.coprime_two_left.2 even.add_one).pow_left _
    have le := Nat.le_of_dvd some_ (coprime.dvd_of_dvd_mul_right whole)
    rw [pow_succ] at le
    omega
  · have coprime : Nat.Coprime (2 ^ (k + 1)) n := (Nat.coprime_two_left.2 odd).pow_left _
    have le := Nat.le_of_dvd (Nat.succ_pos n) (coprime.dvd_of_dvd_mul_left whole)
    rw [pow_succ] at le
    omega

theorem le_triangle (n : Nat) : n ≤ triangle n := by
  have twice := two_mul_triangle n
  rcases Nat.eq_zero_or_pos n with rfl | some_
  · exact Nat.zero_le _
  · have more : n * 2 ≤ n * (n + 1) := Nat.mul_le_mul_left n (by omega)
    omega

/-- Contributors that each make up a group of their own. -/
theorem sum_succ (n : Nat) : ∑ r ∈ Finset.range n, (1 + r) = triangle n := by
  have groups_ := sum_groups 1 n Nat.one_pos
  simpa only [Nat.one_mul, Nat.div_one] using groups_

/-- As many groups as make `total` about `n` shares of the mean height, but no
more than contributors. -/
def groups (n total : Nat) : Nat := min n (if n = 1 then 1 else 2 * (total / n) - 1)

theorem groups_pos {n total : Nat} (some_ : 0 < n) (enough : n ≤ total) :
    0 < groups n total := by
  have quotient : 0 < total / n := Nat.div_pos enough some_
  rw [groups]
  split <;> omega

theorem groups_le (n total : Nat) : groups n total ≤ n := Nat.min_le_left _ _

/-- One contributor per group never overshoots the total. -/
theorem triangle_groups_le {n total : Nat} (some_ : 0 < n) (enough : n ≤ total) :
    triangle (groups n total) ≤ total := by
  have quotient : 0 < total / n := Nat.div_pos enough some_
  have back : n * (total / n) ≤ total := Nat.mul_div_le total n
  have twice := two_mul_triangle (groups n total)
  have width := groups_le n total
  by_cases one : n = 1
  · have small : groups n total ≤ 1 := by omega
    have := triangle_mono small
    simp [triangle] at this ⊢
    omega
  · have height_ : groups n total + 1 ≤ 2 * (total / n) := by
      rw [groups, if_neg one]
      omega
    have : groups n total * (groups n total + 1) ≤ n * (2 * (total / n)) :=
      Nat.mul_le_mul width height_
    nlinarith

/-- Members per group: as many as contributors allow, without overshooting. -/
def members (n total : Nat) : Nat :=
  min (total / triangle (groups n total)) (n / groups n total)

theorem members_pos {n total : Nat} (some_ : 0 < n) (enough : n ≤ total) :
    0 < members n total := by
  have pos := groups_pos some_ enough
  have tri : 0 < triangle (groups n total) := triangle_mono pos
  exact Nat.lt_min.2 ⟨Nat.div_pos (triangle_groups_le some_ enough) tri,
    Nat.div_pos (groups_le n total) pos⟩

theorem members_mul_groups_le (n total : Nat) : members n total * groups n total ≤ n :=
  (Nat.mul_le_mul_right _ (Nat.min_le_right _ _)).trans (Nat.div_mul_le_self _ _)

theorem members_mul_triangle_le (n total : Nat) :
    members n total * triangle (groups n total) ≤ total :=
  (Nat.mul_le_mul_right _ (Nat.min_le_left _ _)).trans (Nat.div_mul_le_self _ _)

/-- The share of contributor `r` when `n` contributors split `total`. -/
def split (n total r : Nat) : Nat := share (members n total) (groups n total) n total r

theorem sum_split {n total : Nat} (some_ : 0 < n) (enough : n ≤ total) :
    ∑ r ∈ Finset.range n, split n total r = total :=
  sum_share (members_pos some_ enough) (members_mul_groups_le n total) some_
    (members_mul_triangle_le n total)

theorem split_le {n total r : Nat} (enough : n ≤ total) (mem : r < n) :
    split n total r ≤ total :=
  share_le (members_pos (by omega) enough) (members_mul_groups_le n total)
    (members_mul_triangle_le n total) mem

/-! ## Two kinds of contributors -/

/-- Even indices draw on one family and odd indices on another. -/
theorem sum_even_odd {M : Type*} [AddCommMonoid M] (f g : Nat → M) (n : Nat) :
    ∑ q ∈ Finset.range n, (if q % 2 = 0 then f (q / 2) else g (q / 2)) =
      ∑ k ∈ Finset.range ((n + 1) / 2), f k + ∑ k ∈ Finset.range (n / 2), g k := by
  induction n with
  | zero => simp
  | succ n ih =>
    rw [Finset.sum_range_succ, ih]
    by_cases even : n % 2 = 0
    · have evens : (n + 1 + 1) / 2 = (n + 1) / 2 + 1 := by omega
      have odds : (n + 1) / 2 = n / 2 := by omega
      rw [if_pos even, evens, Finset.sum_range_succ, odds]
      exact add_right_comm _ _ _
    · have evens : (n + 1 + 1) / 2 = (n + 1) / 2 := by omega
      have odds : (n + 1) / 2 = n / 2 + 1 := by omega
      rw [if_neg even, evens, odds, add_assoc, ← Finset.sum_range_succ]

end Staircase
