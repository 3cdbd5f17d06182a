import Mathlib
import NcclTests.Lib.MachineInt
import NcclTests.Lib.Segments
import NcclTests.Lib.Stores
import NcclTests.CommOps.Timers

/-!
# Roots and colors

`rootCount` sizes the array of unique ids, `isRoot` says which ranks send one, and the
loop before `MPI_Allgatherv` says where each goes. The ranks of color 0 are the first ones,
so that in `main_grow` they have the same ranks in the smaller communicator.

The displacements are added up in an `int`, after the last rank too, so that the layout is
right (`consistent_iff`) exactly while all ids together have less than `2 ^ 31` bytes.
-/

namespace NcclTests.CommOps

open BinaryFloat

/-! ## The code -/

/-- `rootCount`, with `args.root_every`. -/
def rootCount (rootEvery : Int) (nranks : Nat) : Int :=
  if rootEvery > 0 then 1 + ((nranks : Int) - 1).tdiv rootEvery else 1

def isRoot (rootEvery : Int) (rank : Nat) : Bool :=
  if rootEvery > 0 then (rank : Int).tmod rootEvery == 0 else rank == 0

/-- `recv_displ[i]` and `recv_count[i]`. -/
structure Slot where
  displ : Int
  count : Int
  deriving DecidableEq, Repr

/-- The slots from `i` on, `none` where `c` overflows. `idBytes` is `NCCL_UNIQUE_ID_BYTES`. -/
def recvLoop (rootEvery : Int) (idBytes : Nat) :
    (remaining i : Nat) → (c : Int) → Option (List Slot)
  | 0, _, _ => some []
  | remaining + 1, i, c => do
    let peerSize : Int := if isRoot rootEvery i then idBytes else 0
    let next ← checkedInt (c + peerSize)
    let slots ← recvLoop rootEvery idBytes remaining (i + 1) next
    some (⟨c, peerSize⟩ :: slots)

/-- `recv_displ` and `recv_count` of a communicator. -/
def recvLayout (rootEvery : Int) (idBytes nranks : Nat) : Option (List Slot) :=
  recvLoop rootEvery idBytes nranks 0 0

/-- The stores of `MPI_Allgatherv`: byte `x` that rank `i` sends, for each of its slot. -/
def allgatherv {β : Type*} (layout : List Slot) (sent : Nat → Nat → β) : List (Int × β) :=
  layout.zipIdx.flatMap fun (slot, i) =>
    (List.range slot.count.toNat).map fun x : Nat => (slot.displ + x, sent i x)

/-- `initial_count` of `main_grow`. -/
def initialCount (args : TestArgs) (nranks : Nat) : Nat :=
  (List.range nranks).countP fun other => pickColor args other nranks = 0

/-- The rank that `MPI_Comm_split` gives `rank`, the keys being the old ranks. -/
def splitRank (color : Nat → Nat) (rank : Nat) : Nat :=
  (List.range rank).countP fun other => color other = color rank

/-- The roots in increasing order. -/
def roots (rootEvery : Int) (nranks : Nat) : List Nat :=
  (List.range nranks).filter fun i => isRoot rootEvery i

/-! ## Colors -/

theorem le_finite_of_le {v : Value} {p q : ℚ} (below : v.le (.finite p)) (le : p ≤ q) :
    v.le (.finite q) := by
  cases v with
  | nan => exact below
  | infinity s => exact below
  | finite r =>
    simp only [Value.le, decide_eq_true_eq] at below ⊢
    exact below.trans le

/-- A color is a comparison of the rank with something that it does not change. -/
theorem exists_limit (args : TestArgs) (count : Nat) : ∃ limit : Value, ∀ rank : Nat,
    pickColor args rank count = if limit.le (.finite rank) then 1 else 0 :=
  ⟨_, fun _ => rfl⟩

/-- **Colors grow with the rank.** -/
theorem pickColor_mono (args : TestArgs) (count : Nat) {rank other : Nat} (le : rank ≤ other) :
    pickColor args rank count ≤ pickColor args other count := by
  obtain ⟨limit, color⟩ := exists_limit args count
  rw [color rank, color other]
  split
  · next above =>
    have later := le_finite_of_le above (Nat.cast_le.2 le)
    rw [if_pos later]
  · exact Nat.zero_le _

theorem countP_range_le (p : Nat → Bool) (n : Nat) : (List.range n).countP p ≤ n :=
  List.countP_le_length.trans_eq List.length_range

/-- A predicate that holds up to somewhere holds of as many numbers as are below. -/
theorem lt_countP_range_iff {p : Nat → Bool} (closed : ∀ i j, i ≤ j → p j → p i)
    {n i : Nat} (inside : i < n) : i < (List.range n).countP p ↔ p i := by
  induction n with
  | zero => cases inside
  | succ n ih =>
    have bound := countP_range_le p n
    rw [List.range_succ, List.countP_append, List.countP_singleton]
    by_cases last : p n
    · have all : (List.range n).countP p = n := by
        rw [List.countP_eq_length.2, List.length_range]
        intro j below
        exact closed j n (List.mem_range.1 below).le last
      rw [all, if_pos last]
      exact iff_of_true inside (closed i n (Nat.le_of_lt_succ inside) last)
    · rw [if_neg last, Nat.add_zero]
      rcases Nat.lt_succ_iff_lt_or_eq.1 inside with before | rfl
      · exact ih before
      · exact iff_of_false bound.not_gt last

theorem lt_initialCount_iff (args : TestArgs) {nranks rank : Nat} (inside : rank < nranks) :
    rank < initialCount args nranks ↔ pickColor args rank nranks = 0 := by
  rw [initialCount, lt_countP_range_iff _ inside, decide_eq_true_eq]
  intro i j le zero
  have := pickColor_mono args nranks le
  rw [decide_eq_true_eq] at zero ⊢
  omega

/-- The ranks of color 0 keep their rank. -/
theorem splitRank_pickColor (args : TestArgs) {nranks rank : Nat}
    (zero : pickColor args rank nranks = 0) :
    splitRank (fun other => pickColor args other nranks) rank = rank := by
  rw [splitRank, List.countP_eq_length.2, List.length_range]
  intro other below
  have := pickColor_mono args nranks (List.mem_range.1 below).le
  rw [decide_eq_true_eq]
  omega

theorem initialCount_le (args : TestArgs) (nranks : Nat) : initialCount args nranks ≤ nranks :=
  countP_range_le _ nranks

/-! ## Roots -/

theorem countP_dvd (d n : Nat) :
    (List.range (n + 1)).countP (fun i => i % d == 0) = 1 + n / d := by
  induction n with
  | zero => simp
  | succ n ih =>
    rw [List.range_succ, List.countP_append, ih, List.countP_singleton, Nat.succ_div, Nat.add_assoc]
    simp only [beq_iff_eq, Nat.dvd_iff_mod_eq_zero]

/-- **`rootCount` counts the roots.** -/
theorem rootCount_eq_countP (rootEvery : Int) {nranks : Nat} (positive : 1 ≤ nranks) :
    rootCount rootEvery nranks = ((List.range nranks).countP (isRoot rootEvery) : Nat) := by
  obtain ⟨n, rfl⟩ := Nat.exists_eq_add_of_le' positive
  by_cases every : rootEvery > 0
  · obtain ⟨d, rfl⟩ := Int.eq_ofNat_of_zero_le every.le
    have same : isRoot d = fun i => i % d == 0 := by
      funext i
      rw [isRoot, if_pos every, ← Int.ofNat_tmod, Bool.eq_iff_iff, beq_iff_eq, beq_iff_eq]
      exact Int.natCast_eq_zero
    rw [rootCount, if_pos every, same, countP_dvd]
    push_cast
    rw [add_sub_cancel_right]
    rfl
  · have same : isRoot rootEvery = fun i => i == 0 := by
      funext i
      exact if_neg every
    rw [rootCount, if_neg every, same, List.range_succ_eq_map, List.countP_cons, List.countP_map]
    simp [Function.comp_def]

/-- The roots below a root are as many as its place among the roots. -/
theorem of_roots_getElem? {rootEvery : Int} {nranks k i : Nat}
    (root : (roots rootEvery nranks)[k]? = some i) :
    i < nranks ∧ isRoot rootEvery i ∧ (List.range i).countP (isRoot rootEvery) = k := by
  induction nranks with
  | zero => simp [roots] at root
  | succ n ih =>
    rw [roots, List.range_succ, List.filter_append, ← roots] at root
    rcases Nat.lt_or_ge k (roots rootEvery n).length with before | after
    · rw [List.getElem?_append_left before] at root
      obtain ⟨less, rest⟩ := ih root
      exact ⟨less.trans (Nat.lt_succ_self n), rest⟩
    · rw [List.getElem?_append_right after] at root
      by_cases last : isRoot rootEvery n
      · rw [List.filter_cons_of_pos last, List.filter_nil, List.getElem?_singleton] at root
        split at root
        · next first =>
          obtain rfl := Option.some.inj root
          refine ⟨Nat.lt_succ_self n, last, ?_⟩
          rw [List.countP_eq_length_filter]
          exact Nat.le_antisymm after (Nat.sub_eq_zero_iff_le.1 first)
        · cases root
      · rw [List.filter_cons_of_neg last, List.filter_nil] at root
        cases root

/-! ## The layout -/

/-- The bytes that rank `i` sends. -/
def peerSize (rootEvery : Int) (idBytes i : Nat) : Nat := if isRoot rootEvery i then idBytes else 0

/-- Where the bytes of rank `i` go. -/
def place (rootEvery : Int) (idBytes : Nat) : Nat → Nat :=
  Segments.start (peerSize rootEvery idBytes)

theorem place_succ (rootEvery : Int) (idBytes i : Nat) :
    place rootEvery idBytes (i + 1) = place rootEvery idBytes i + peerSize rootEvery idBytes i :=
  Segments.start_succ

theorem place_eq (rootEvery : Int) (idBytes i : Nat) :
    place rootEvery idBytes i = (List.range i).countP (isRoot rootEvery) * idBytes := by
  induction i with
  | zero => simp [place]
  | succ i ih =>
    rw [place_succ, ih, List.range_succ, List.countP_append, List.countP_singleton, peerSize]
    split
    · rw [Nat.succ_mul]
    · rfl

/-- The slot of rank `i`. -/
def slot (rootEvery : Int) (idBytes i : Nat) : Slot :=
  ⟨place rootEvery idBytes i, peerSize rootEvery idBytes i⟩

def slots (rootEvery : Int) (idBytes nranks : Nat) : List Slot :=
  (List.range nranks).map (slot rootEvery idBytes)

/-- The loop adds up the places until one is no `int`. -/
theorem recvLoop_eq (rootEvery : Int) (idBytes remaining i : Nat)
    (below : place rootEvery idBytes i < 2 ^ 31) :
    recvLoop rootEvery idBytes remaining i (place rootEvery idBytes i) =
      if place rootEvery idBytes (i + remaining) < 2 ^ 31 then
        some ((List.range' i remaining).map (slot rootEvery idBytes))
      else none := by
  induction remaining generalizing i with
  | zero => rw [Nat.add_zero, if_pos below, recvLoop, List.range'_zero, List.map_nil]
  | succ remaining ih =>
    have sent : (if isRoot rootEvery i then (idBytes : Int) else 0) =
        (peerSize rootEvery idBytes i : Nat) := by
      rw [peerSize]
      split <;> rfl
    have next : (place rootEvery idBytes i : Int) + (peerSize rootEvery idBytes i : Nat) =
        (place rootEvery idBytes (i + 1) : Nat) := by
      rw [place_succ, Nat.cast_add]
    have last : i + (remaining + 1) = i + 1 + remaining := by omega
    rw [recvLoop, sent, next, last]
    by_cases fits : place rootEvery idBytes (i + 1) < 2 ^ 31
    · rw [checkedInt_eq_some (by omega) (by exact_mod_cast fits), Option.bind_eq_bind,
        Option.bind_some, ih (i + 1) fits]
      split
      · rw [List.range'_succ, List.map_cons]
        rfl
      · rfl
    · have later : place rootEvery idBytes (i + 1) ≤
          place rootEvery idBytes (i + 1 + remaining) := Segments.start_mono (by omega)
      rw [checkedInt_eq_none (by exact_mod_cast Nat.le_of_not_lt fits), if_neg (by omega)]
      rfl

theorem recvLayout_eq (rootEvery : Int) (idBytes nranks : Nat) :
    recvLayout rootEvery idBytes nranks =
      if place rootEvery idBytes nranks < 2 ^ 31 then some (slots rootEvery idBytes nranks)
      else none := by
  have first : place rootEvery idBytes 0 = 0 := Segments.start_zero
  have loop := recvLoop_eq rootEvery idBytes nranks 0 (by omega)
  rw [first, Nat.zero_add] at loop
  rw [recvLayout, slots, List.range_eq_range', ← loop, Nat.cast_zero]

theorem slots_getElem? {rootEvery : Int} {idBytes nranks i : Nat} {s : Slot} :
    (slots rootEvery idBytes nranks)[i]? = some s ↔
      i < nranks ∧ slot rootEvery idBytes i = s := by
  rw [slots, List.getElem?_map]
  by_cases inside : i < nranks
  · rw [List.getElem?_range inside]
    simp [inside]
  · rw [List.getElem?_eq_none (by rw [List.length_range]; omega)]
    simp [inside]

theorem mem_allgatherv {β : Type*} {layout : List Slot} {sent : Nat → Nat → β} {l : Int}
    {value : β} : (l, value) ∈ allgatherv layout sent ↔
      ∃ i s, layout[i]? = some s ∧ ∃ x : Nat, x < s.count.toNat ∧ s.displ + x = l ∧
        sent i x = value := by
  simp only [allgatherv, List.mem_flatMap, List.mem_map, List.mem_range, Prod.exists,
    List.mem_zipIdx_iff_getElem?, Prod.mk.injEq]
  constructor
  · intro found
    rcases found with ⟨s, i, at_i, rest⟩
    exact ⟨i, s, at_i, rest⟩
  · intro found
    rcases found with ⟨i, s, at_i, rest⟩
    exact ⟨s, i, at_i, rest⟩

/-- The slots lie in the array, and each of its bytes is in one slot. -/
structure Tiles (layout : List Slot) (total : Int) : Prop where
  inside : ∀ s ∈ layout, 0 ≤ s.displ ∧ 0 ≤ s.count ∧ s.displ + s.count ≤ total
  covered : ∀ p, 0 ≤ p → p < total →
    ∃! i : Nat, ∃ s : Slot, layout[i]? = some s ∧ s.displ ≤ p ∧ p < s.displ + s.count

/-- The id of the root that is the `k`-th one becomes `id_array[k]`. -/
def Ordered (rootEvery : Int) (idBytes nranks : Nat) (layout : List Slot) : Prop :=
  ∀ (sent : Nat → Nat → UInt8) (idArray : Int → UInt8) (k i : Nat),
    (roots rootEvery nranks)[k]? = some i → ∀ x < idBytes,
      Stores.run (allgatherv layout sent) idArray (k * idBytes + x) = sent i x

/-- The ids of a communicator, in an array with room for `rootCount` of them: the layout is
computed without an overflow. -/
structure LayoutOk (rootEvery : Int) (idBytes nranks : Nat) : Prop where
  root_count : rootCount rootEvery nranks = ((List.range nranks).countP (isRoot rootEvery) : Nat)
  layout : ∃ layout, recvLayout rootEvery idBytes nranks = some layout ∧
    Tiles layout (rootCount rootEvery nranks * idBytes) ∧
    Ordered rootEvery idBytes nranks layout

/-- What the operations rely on, in the communicator of the test and in the smaller one. -/
structure Consistent (args : TestArgs) (rootEvery : Int) (idBytes nranks : Nat) : Prop where
  color_mono : ∀ rank other, rank ≤ other →
    pickColor args rank nranks ≤ pickColor args other nranks
  color_zero : ∀ rank < nranks,
    (pickColor args rank nranks = 0 ↔ rank < initialCount args nranks)
  split_rank : ∀ rank < nranks, pickColor args rank nranks = 0 →
    splitRank (fun other => pickColor args other nranks) rank = rank
  layout : LayoutOk rootEvery idBytes nranks
  smaller : 1 ≤ initialCount args nranks →
    LayoutOk rootEvery idBytes (initialCount args nranks)

section Layout

variable {rootEvery : Int} {idBytes nranks i : Nat}

theorem peerSize_of_root (root : isRoot rootEvery i) : peerSize rootEvery idBytes i = idBytes :=
  if_pos root

/-- The last place is that of the array's end. -/
theorem place_nranks (positive : 1 ≤ nranks) :
    (place rootEvery idBytes nranks : Int) = rootCount rootEvery nranks * idBytes := by
  rw [place_eq, rootCount_eq_countP rootEvery positive, Nat.cast_mul]

/-- The id of a root ends where the next one starts, or at the end of the array. -/
theorem place_add_le (inside : i < nranks) :
    place rootEvery idBytes i + peerSize rootEvery idBytes i ≤ place rootEvery idBytes nranks :=
  Segments.start_add_le inside

theorem tiles_slots (positive : 1 ≤ nranks) :
    Tiles (slots rootEvery idBytes nranks) (rootCount rootEvery nranks * idBytes) where
  inside := by
    intro s mem
    obtain ⟨i, at_i⟩ := List.mem_iff_getElem?.1 mem
    obtain ⟨inside, rfl⟩ := slots_getElem?.1 at_i
    rw [← place_nranks positive]
    dsimp only [slot]
    exact ⟨Int.natCast_nonneg _, Int.natCast_nonneg _, by exact_mod_cast place_add_le inside⟩
  covered := by
    intro p nonneg below
    obtain ⟨y, rfl⟩ := Int.eq_ofNat_of_zero_le nonneg
    rw [← place_nranks positive] at below
    obtain ⟨i, inside, x, x_inside, at_x⟩ := Segments.exists_place (Int.ofNat_lt.1 below)
    refine ⟨i, ⟨_, slots_getElem?.2 ⟨inside, rfl⟩, ?_⟩, ?_⟩
    · rw [slot, at_x, place]
      dsimp only
      omega
    · intro j found
      obtain ⟨s, at_j, lower, upper⟩ := found
      obtain ⟨j_inside, rfl⟩ := slots_getElem?.1 at_j
      rw [slot, at_x, place] at lower upper
      dsimp only at lower upper
      obtain ⟨z, at_z⟩ := Nat.exists_eq_add_of_le (Int.ofNat_le.1 lower)
      refine (Segments.place_inj x_inside (x := x) (y := z) ?_ at_z).1.symm
      rw [at_z] at upper
      push_cast at upper
      omega

theorem ordered_slots : Ordered rootEvery idBytes nranks (slots rootEvery idBytes nranks) := by
  intro sent idArray k i kth x x_inside
  obtain ⟨inside, root, below⟩ := of_roots_getElem? kth
  have at_root : place rootEvery idBytes i = k * idBytes := by rw [place_eq, below]
  rw [← @peerSize_of_root rootEvery idBytes i root] at x_inside
  apply Stores.run_of_forall
  · refine mem_allgatherv.2 ⟨i, _, slots_getElem?.2 ⟨inside, rfl⟩, x, ?_, ?_, rfl⟩
    · rwa [slot, Int.toNat_natCast]
    · rw [slot, at_root, Nat.cast_mul]
  · intro other mem
    obtain ⟨j, s, at_j, y, y_inside, same, rfl⟩ := mem_allgatherv.1 mem
    obtain ⟨j_inside, rfl⟩ := slots_getElem?.1 at_j
    rw [slot, Int.toNat_natCast] at y_inside
    rw [← Nat.cast_mul, ← at_root] at same
    dsimp only [slot] at same
    obtain ⟨rfl, rfl⟩ := Segments.place_inj y_inside x_inside (by exact_mod_cast same)
    rfl

/-- The layout is right wherever the offset does not overflow. -/
theorem layoutOk_iff (positive : 1 ≤ nranks) :
    LayoutOk rootEvery idBytes nranks ↔ rootCount rootEvery nranks * idBytes < 2 ^ 31 := by
  have total := @place_nranks rootEvery idBytes nranks positive
  constructor
  · intro ok
    obtain ⟨layout, computed, -⟩ := ok.layout
    rw [recvLayout_eq] at computed
    split at computed
    · next fits =>
      rw [← total]
      exact_mod_cast fits
    · cases computed
  · intro fits
    rw [← total] at fits
    refine ⟨rootCount_eq_countP rootEvery positive, slots rootEvery idBytes nranks, ?_,
      tiles_slots positive, ordered_slots⟩
    rw [recvLayout_eq, if_pos (by exact_mod_cast fits)]

/-- A smaller communicator has no more roots. -/
theorem LayoutOk.smaller {count : Nat} (ok : LayoutOk rootEvery idBytes nranks)
    (positive : 1 ≤ count) (le : count ≤ nranks) : LayoutOk rootEvery idBytes count := by
  have all := (layoutOk_iff (positive.trans le)).1 ok
  have ends : place rootEvery idBytes count ≤ place rootEvery idBytes nranks :=
    Segments.start_mono le
  rw [← place_nranks (positive.trans le)] at all
  rw [layoutOk_iff positive, ← place_nranks positive]
  omega

end Layout

/-- **Colors and roots agree**: the colors grow with the rank, so that color 0 has the first ranks
and `MPI_Comm_split` leaves them their ranks; `rootCount` counts the roots; and the slots tile the
array of ids in the order of the roots. The loop adds the size of every id to an `int`, the last
one too, so that all of it holds exactly where the whole array has less than `2 ^ 31` bytes.

`idBytes` is the size of an id, and a communicator has at least one rank (`positive`). The offset
before a rank is the number of roots below it times that size (`place_eq`); the overflow is
undefined, so that there is no layout then (`recvLayout_eq`). The smaller communicator has no more
roots than the test's. -/
theorem consistent_iff (args : TestArgs) (rootEvery : Int) (idBytes nranks : Nat)
    (positive : 1 ≤ nranks) :
    Consistent args rootEvery idBytes nranks ↔
      rootCount rootEvery nranks * idBytes < 2 ^ 31 := by
  constructor
  · intro consistent
    exact (layoutOk_iff positive).1 consistent.layout
  · intro fits
    have ok := (layoutOk_iff positive).2 fits
    exact {
      color_mono := fun _ _ le => pickColor_mono args nranks le
      color_zero := fun _ inside => (lt_initialCount_iff args inside).symm
      split_rank := fun _ _ zero => splitRank_pickColor args zero
      layout := ok
      smaller := fun several => ok.smaller several (initialCount_le args nranks) }

/-- Eight ranks with a root for every three: the ids of ranks 0, 3 and 6 are in order. -/
theorem consistent_iff_eight :
    Consistent ⟨.grow, 0, 1, 1, .factor, .finite 2, false⟩ 3 128 8 ∧
      recvLayout 3 128 8 = some
        [⟨0, 128⟩, ⟨128, 0⟩, ⟨128, 0⟩, ⟨128, 128⟩, ⟨256, 0⟩, ⟨256, 0⟩, ⟨256, 128⟩, ⟨384, 0⟩] :=
  ⟨(consistent_iff _ 3 128 8 (by decide)).2 (by decide), by decide⟩

/-- A root for every rank, with ids of `2 ^ 31` bytes together. -/
theorem consistent_overflow :
    ¬ ∀ (args : TestArgs) (rootEvery : Int) (nranks : Nat), 1 ≤ nranks →
      Consistent args rootEvery 128 nranks := by
  intro consistent
  have ok := consistent ⟨.init, 0, 1, 1, .factor, .finite 2, false⟩ 1 (2 ^ 24) (by decide)
  have fits := (layoutOk_iff (by decide)).1 ok.layout
  rw [rootCount] at fits
  norm_num at fits

end NcclTests.CommOps
