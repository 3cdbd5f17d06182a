import Mathlib
import NcclTests.Lib.Blocks

/-!
# Grid-stride loops

`for (offset = start; offset < bound; offset += step)`. Loops that start at
`0, …, step - 1` share out the numbers below the bound: `x` falls to the loop that
starts at `x % step`. Unrolled loops take several numbers a round, a whole grid
apart or, for the lanes of a warp, a warp apart.
-/

namespace StrideLoop

/-- The values of the loop variable, at most `fuel` of them. -/
def strideFrom (bound step : Nat) : Nat → Nat → List Nat
  | 0, _ => []
  | fuel + 1, offset =>
    if offset < bound then offset :: strideFrom bound step fuel (offset + step) else []

/-- A loop with a positive step makes at most `bound` rounds. -/
def gridStride (start bound step : Nat) : List Nat := strideFrom bound step bound start

variable {start bound step fuel x : Nat}

theorem mem_strideFrom (enough : bound ≤ start + fuel * step) :
    x ∈ strideFrom bound step fuel start ↔ x < bound ∧ ∃ k, x = start + k * step := by
  induction fuel generalizing start with
  | zero =>
    rw [strideFrom]
    constructor
    · intro mem
      cases mem
    · rintro ⟨less, k, rfl⟩
      omega
  | succ fuel ih =>
    rw [strideFrom]
    have next : bound ≤ start + step + fuel * step := by
      rw [Nat.succ_mul] at enough
      omega
    split
    case isTrue less =>
      rw [List.mem_cons, ih next]
      constructor
      · rintro (rfl | ⟨lessX, k, rfl⟩)
        · exact ⟨less, 0, by rw [Nat.zero_mul, Nat.add_zero]⟩
        · exact ⟨lessX, k + 1, by rw [Nat.succ_mul]; omega⟩
      · rintro ⟨lessX, k, rfl⟩
        rcases k with _ | k
        · left
          rw [Nat.zero_mul, Nat.add_zero]
        · right
          exact ⟨lessX, k, by rw [Nat.succ_mul]; omega⟩
    case isFalse more =>
      constructor
      · intro mem
        cases mem
      · rintro ⟨lessX, k, rfl⟩
        omega

theorem mem_gridStride (pos : 0 < step) :
    x ∈ gridStride start bound step ↔ x < bound ∧ ∃ k, x = start + k * step :=
  mem_strideFrom (le_trans (Nat.le_mul_of_pos_right bound pos) (Nat.le_add_left _ _))

/-- Loops that start below the step share out the numbers by their remainders. -/
theorem mem_gridStride_of_lt (less : start < step) :
    x ∈ gridStride start bound step ↔ x < bound ∧ x % step = start := by
  rw [mem_gridStride (Nat.zero_lt_of_lt less)]
  refine and_congr_right fun _ => ?_
  constructor
  · rintro ⟨k, rfl⟩
    rw [Nat.add_mul_mod_self_right, Nat.mod_eq_of_lt less]
  · rintro rfl
    exact ⟨x / step, by rw [Nat.mul_comm]; exact (Nat.mod_add_div x step).symm⟩

/-- Loops that start at `m, …, m + step - 1` share out the numbers from `m` on. -/
theorem mem_gridStride_from {m t : Nat} (less : t < step) :
    x ∈ gridStride (m + t) bound step ↔ m ≤ x ∧ x < bound ∧ (x - m) % step = t := by
  rw [mem_gridStride (Nat.zero_lt_of_lt less)]
  constructor
  · rintro ⟨below, k, rfl⟩
    refine ⟨by omega, below, ?_⟩
    rw [Nat.add_assoc, Nat.add_sub_cancel_left, Nat.add_mul_mod_self_right, Nat.mod_eq_of_lt less]
  · rintro ⟨from_, below, rfl⟩
    refine ⟨below, (x - m) / step, ?_⟩
    have split_ := Nat.mod_add_div' (x - m) step
    omega

/-- Loops that start behind `m` numbers share out the numbers from there on. -/
theorem mem_gridStride_add {m t : Nat} (whole : step ∣ m) (less : t < step) :
    x ∈ gridStride (m + t) bound step ↔ m ≤ x ∧ x < bound ∧ x % step = t := by
  rw [mem_gridStride_from less]
  refine and_congr_right fun from_ => ?_
  obtain ⟨q, rfl⟩ := whole
  rw [Nat.sub_mul_mod from_]

/-- A loop takes every value once, in increasing order. -/
theorem pairwise_strideFrom (pos : 0 < step) :
    (strideFrom bound step fuel start).Pairwise (· < ·) := by
  induction fuel generalizing start with
  | zero => exact List.Pairwise.nil
  | succ fuel ih =>
    rw [strideFrom]
    split
    case isFalse => exact List.Pairwise.nil
    case isTrue =>
      refine List.pairwise_cons.2 ⟨fun y mem => ?_, ih⟩
      have later : ∀ fuel start, y ∈ strideFrom bound step fuel start → start ≤ y := by
        intro fuel
        induction fuel with
        | zero =>
          intro start mem
          cases mem
        | succ fuel ih =>
          intro start mem
          rw [strideFrom] at mem
          split at mem
          case isFalse => cases mem
          case isTrue =>
            rcases List.mem_cons.1 mem with rfl | rest
            · exact le_refl _
            · exact le_trans (Nat.le_add_right _ _) (ih _ rest)
      have := later _ _ mem
      omega

theorem pairwise_gridStride (pos : 0 < step) :
    (gridStride start bound step).Pairwise (· < ·) := pairwise_strideFrom pos

/-! ## Unrolled loops -/

section Unrolled

variable {n u t a v base base' i i' : Nat}

/-- A round of an unrolled loop stays in a block of `n * u` numbers. -/
theorem unrolled_place (less : t < n) (lane : i < u) : i * n + t < n * u := by
  have next := Nat.mul_le_mul_left n lane
  rw [Nat.mul_succ] at next
  rw [Nat.mul_comm i n]
  omega

/-- Loops of threads `t < n` over blocks of `n * u` numbers, each with `u` accesses that
are `n` apart, share out the numbers by their remainders modulo `n`. -/
theorem unrolled_iff (less : t < n) :
    (∃ base, (base < a * (n * u) ∧ base % (n * u) = t) ∧ ∃ i < u, v = base + i * n) ↔
      v < a * (n * u) ∧ v % n = t := by
  constructor
  · rintro ⟨base, ⟨below, start⟩, i, lane, rfl⟩
    obtain ⟨q, memQ, place, inside, rfl⟩ := exists_block below
    rw [block_mod inside] at start
    subst start
    have step := unrolled_place less lane
    have whole : q * (n * u) + place + i * n = q * (n * u) + (i * n + place) := by omega
    refine ⟨whole ▸ block_lt memQ step, ?_⟩
    rw [whole, ← Nat.mul_assoc, Nat.mul_right_comm, ← Nat.add_assoc, ← Nat.add_mul]
    exact block_mod less
  · rintro ⟨below, rfl⟩
    obtain ⟨q, memQ, place, inside, rfl⟩ := exists_block below
    rw [Nat.mul_comm n u] at inside
    obtain ⟨i, lane, t, less', rfl⟩ := exists_block inside
    have remainder : (q * (n * u) + (i * n + t)) % n = t := by
      rw [← Nat.mul_assoc, Nat.mul_right_comm, ← Nat.add_assoc, ← Nat.add_mul]
      exact block_mod less'
    rw [remainder] at less ⊢
    have start : t < n * u := by
      have := unrolled_place less lane
      omega
    exact ⟨q * (n * u) + t, ⟨block_lt memQ start, block_mod start⟩, i, lane, by omega⟩

/-- Different rounds take different numbers. -/
theorem unrolled_base_inj (less : t < n) (start : base % (n * u) = t)
    (start' : base' % (n * u) = t) (lane : i < u) (lane' : i' < u)
    (same : base + i * n = base' + i' * n) : base = base' := by
  have split_ := Nat.div_add_mod' base (n * u)
  have split' := Nat.div_add_mod' base' (n * u)
  rw [start] at split_
  rw [start'] at split'
  have blocks : base / (n * u) * (n * u) + (i * n + t) =
      base' / (n * u) * (n * u) + (i' * n + t) := by omega
  obtain ⟨rounds, -⟩ := block_inj (unrolled_place less lane) (unrolled_place less lane') blocks
  rw [← split_, ← split', rounds]

end Unrolled

/-! ## Interleaved lanes -/

section Interleaved

variable {n u w b p l v : Nat}

/-- Each block of numbers falls into `n` groups, one for each warp, and a group into `u`
rows of `w` numbers, one for each lane of the warp. The numbers that lane `l` of warp `p`
takes in block `b` are those with these coordinates. -/
theorem interleaved_iff (rows : 0 < u) (lane : l < w) (warp : p < n) :
    (∃ i < u, v = b * (n * (u * w)) + (p * (u * w) + (i * w + l))) ↔
      v / (n * (u * w)) = b ∧ v % (n * (u * w)) / (u * w) = p ∧ v % w = l := by
  constructor
  · rintro ⟨i, row, rfl⟩
    have inGroup : i * w + l < u * w := block_lt row lane
    have inBlock : p * (u * w) + (i * w + l) < n * (u * w) := block_lt warp inGroup
    have byRows : b * (n * (u * w)) + (p * (u * w) + (i * w + l)) =
        (b * (n * u) + p * u + i) * w + l := by ring
    refine ⟨block_div inBlock, ?_, ?_⟩
    · rw [block_mod inBlock, block_div inGroup]
    · rw [byRows, block_mod lane]
  · rintro ⟨rfl, rfl, rfl⟩
    have group : 0 < u * w := Nat.mul_pos rows (Nat.zero_lt_of_lt lane)
    refine ⟨v % (n * (u * w)) % (u * w) / w, ?_, ?_⟩
    · exact Nat.div_lt_of_lt_mul ((Nat.mod_lt _ group).trans_eq (Nat.mul_comm u w))
    · have sameLane : v % (n * (u * w)) % (u * w) % w = v % w := by
        rw [Nat.mod_mod_of_dvd _ (Nat.dvd_mul_left w u),
          Nat.mod_mod_of_dvd _ ((Nat.dvd_mul_left w u).mul_left n)]
      rw [← sameLane, Nat.div_add_mod', Nat.div_add_mod', Nat.div_add_mod']

end Interleaved

end StrideLoop
