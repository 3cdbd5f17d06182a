import Mathlib
import NcclTests.Lib.BitMask
import NcclTests.Collective.PointToPoint

/-!
# The hypercube all-gather

Before the step with a given mask a rank holds the aligned block of `mask`
contributions that contains its own; it exchanges this block for the
neighbouring one with the rank whose number differs in the masked bit. Ranks run
ahead of each other, so the invariant gives every rank a stage of its own.
-/

namespace NcclTests.Collective

open BitMask

/-- `for (int mask=1; mask<nRanks; mask<<=1)`, at most `fuel` times. -/
def maskLoop (nRanks : Nat) : Nat → Nat → List Nat
  | 0, _ => []
  | fuel + 1, mask => if mask < nRanks then mask :: maskLoop nRanks fuel (mask <<< 1) else []

/-- Masks double, so the loop ends within `nRanks` rounds. -/
def masks (nRanks : Nat) : List Nat := maskLoop nRanks nRanks 1

/-- One round of the loop: the group of `ncclSend` and `ncclRecv`. -/
def hyperCubeExchange (rbuff : Ptr) (count wordSize rank mask : Nat) : StreamOp :=
  let rankSize := count * wordSize
  let s := Nat.ldiff rank (mask - 1)
  let r := s ^^^ mask
  .exchange ⟨rbuff.add (s * rankSize), count * mask * wordSize, rank ^^^ mask⟩
    ⟨rbuff.add (r * rankSize), count * mask * wordSize, rank ^^^ mask⟩

def hyperCubeRunColl (call : RunCollArgs) (wordSize nRanks rank : Nat) : List StreamOp :=
  let sbuff := call.sendPtr
  let rbuff := call.recvPtr
  let rankSize := call.count * wordSize
  (if rbuff.add (rank * rankSize) ≠ sbuff then
    [.memcpy (rbuff.add (rank * rankSize)) sbuff rankSize]
  else []) ++ (masks nRanks).map (hyperCubeExchange rbuff call.count wordSize rank)

/-- `HyperCubeInitData` on one rank, with buffers at offset `unalignBytes`. -/
def hyperCubeInitData {β : Type*} [Zero β] (content : Nat → Nat → β) (args : ThreadArgs)
    (nranks unalignBytes rep : Nat) (inPlace : Bool) (rank : Nat) (m : RankMem β) : RankMem β :=
  let recvbuff : Ptr := ⟨.recvbuff, unalignBytes⟩
  let m := m.memset recvbuff args.expectedBytes
  let data := if inPlace then recvbuff.add (rank * args.sendBytes) else ⟨.sendbuff, unalignBytes⟩
  let m := m.initData content data args.sendBytes 0 (33 * rep + rank)
  m.initBlocks content expectedPtr args.sendBytes nranks (fun _ => 0) fun j => 33 * rep + j

/-! ## The mask loop -/

theorem maskLoop_two_pow {k fuel j : Nat} (enough : k ≤ j + fuel) :
    maskLoop (2 ^ k) fuel (2 ^ j) = (List.range' j (k - j)).map (2 ^ ·) := by
  induction fuel generalizing j with
  | zero =>
    rw [maskLoop, Nat.sub_eq_zero_of_le (by omega)]
    rfl
  | succ fuel ih =>
    rw [maskLoop]
    split
    case isTrue less =>
      have bit : j < k := (Nat.pow_lt_pow_iff_right one_lt_two).1 less
      have rest : k - j = k - (j + 1) + 1 := by omega
      rw [Nat.shiftLeft_eq, pow_one, ← pow_succ, ih (by omega), rest, List.range'_succ,
        List.map_cons]
    case isFalse more =>
      have bit : k ≤ j := by
        by_contra less
        exact more (Nat.pow_lt_pow_right one_lt_two (by omega))
      rw [Nat.sub_eq_zero_of_le bit]
      rfl

/-- The loop runs once for each bit of a rank. -/
theorem masks_two_pow (k : Nat) : masks (2 ^ k) = (List.range' 0 k).map (2 ^ ·) :=
  maskLoop_two_pow (j := 0) (by rw [Nat.zero_add]; exact Nat.lt_two_pow_self.le)

/-! ## One exchange -/

section Exchange

variable {k count wordSize : Nat} {rbuff : Ptr}

/-- The side of an exchange that sends: the rank's own aligned block. -/
def ownBlock (rbuff : Ptr) (count wordSize rank j : Nat) : Transfer :=
  ⟨rbuff.add (rank / 2 ^ j * (2 ^ j * (count * wordSize))), 2 ^ j * (count * wordSize),
    rank ^^^ 2 ^ j⟩

/-- The side of an exchange that receives: the partner's aligned block. -/
def partnerBlock (rbuff : Ptr) (count wordSize rank j : Nat) : Transfer :=
  ⟨rbuff.add ((rank ^^^ 2 ^ j) / 2 ^ j * (2 ^ j * (count * wordSize))),
    2 ^ j * (count * wordSize), rank ^^^ 2 ^ j⟩

/-- Bit masking and exclusive or compute the two blocks. -/
theorem hyperCubeExchange_eq (rbuff : Ptr) (count wordSize rank j : Nat) :
    hyperCubeExchange rbuff count wordSize rank (2 ^ j) =
      .exchange (ownBlock rbuff count wordSize rank j)
        (partnerBlock rbuff count wordSize rank j) := by
  have bytes : count * 2 ^ j * wordSize = 2 ^ j * (count * wordSize) := by ring
  rw [hyperCubeExchange, ownBlock, partnerBlock, ldiff_two_pow_sub_one, mul_two_pow_xor,
    ← xor_two_pow_div, bytes, Nat.mul_assoc, Nat.mul_assoc]

/-- Moving an aligned block to the same place of another rank. -/
theorem mem_blockMoves_aligned {dstRank srcRank q size : Nat} {p : Ptr} {move : Move Loc} :
    move ∈ blockMoves dstRank (p.add (q * size)) srcRank (p.add (q * size)) size ↔
      ∃ x, 0 < size ∧ x / size = q ∧ move = ⟨p.loc dstRank x, p.loc srcRank x⟩ := by
  rw [mem_blockMoves]
  constructor
  · rintro ⟨i, less, rfl⟩
    refine ⟨q * size + i, by omega, ?_, by simp only [Ptr.loc_add]⟩
    rw [Nat.mul_comm, Nat.mul_add_div (by omega), Nat.div_eq_of_lt less, Nat.add_zero]
  · rintro ⟨x, pos, rfl, rfl⟩
    refine ⟨x % size, Nat.mod_lt _ pos, ?_⟩
    rw [Ptr.loc_add, Ptr.loc_add, Nat.div_add_mod']

/-- What moves when two partners exchange their blocks. -/
theorem mem_exchangeMoves {a b j : Nat} (partner : b = a ^^^ 2 ^ j) {move : Move Loc} :
    move ∈ exchangeMoves a b (ownBlock rbuff count wordSize a j)
        (partnerBlock rbuff count wordSize a j) (ownBlock rbuff count wordSize b j)
        (partnerBlock rbuff count wordSize b j) ↔
      ∃ x, 0 < 2 ^ j * (count * wordSize) ∧
        (x / (2 ^ j * (count * wordSize)) = a / 2 ^ j ∧ move = ⟨rbuff.loc b x, rbuff.loc a x⟩ ∨
          x / (2 ^ j * (count * wordSize)) = b / 2 ^ j ∧
            move = ⟨rbuff.loc a x, rbuff.loc b x⟩) := by
  have back : b ^^^ 2 ^ j = a := by rw [partner, xor_two_pow_xor]
  rw [exchangeMoves, List.mem_append]
  simp only [ownBlock, partnerBlock, back, ← partner]
  rw [mem_blockMoves_aligned, mem_blockMoves_aligned]
  constructor
  · rintro (⟨x, pos, block, rfl⟩ | ⟨x, pos, block, rfl⟩)
    · exact ⟨x, pos, Or.inl ⟨block, rfl⟩⟩
    · exact ⟨x, pos, Or.inr ⟨block, rfl⟩⟩
  · rintro ⟨x, pos, ⟨block, rfl⟩ | ⟨block, rfl⟩⟩
    · exact Or.inl ⟨x, pos, block, rfl⟩
    · exact Or.inr ⟨x, pos, block, rfl⟩

/-- Partners are in neighbouring blocks. -/
theorem partner_block_ne {a b j : Nat} (partner : b = a ^^^ 2 ^ j) : b / 2 ^ j ≠ a / 2 ^ j := by
  rw [partner, xor_two_pow_div]
  exact xor_one_ne _

/-- The two directions of an exchange do not race. -/
theorem exchangeMoves_consistent {a b j : Nat} (partner : b = a ^^^ 2 ^ j) :
    Moves.Consistent (exchangeMoves a b (ownBlock rbuff count wordSize a j)
      (partnerBlock rbuff count wordSize a j) (ownBlock rbuff count wordSize b j)
      (partnerBlock rbuff count wordSize b j)) := by
  have apart := partner_block_ne partner
  have ne : b ≠ a := by
    rw [partner]
    exact xor_two_pow_ne a j
  constructor
  · intro first memFirst second memSecond same
    rw [mem_exchangeMoves partner] at memFirst memSecond
    obtain ⟨x, _, ⟨block, rfl⟩ | ⟨block, rfl⟩⟩ := memFirst <;>
      obtain ⟨y, _, ⟨block', rfl⟩ | ⟨block', rfl⟩⟩ := memSecond <;>
      rw [Ptr.loc_inj] at same <;> obtain ⟨rank, rfl⟩ := same
    · rfl
    · exact absurd rank ne
    · exact absurd rank.symm ne
    · rfl
  · intro first memFirst second memSecond same
    rw [mem_exchangeMoves partner] at memFirst memSecond
    obtain ⟨x, _, ⟨block, rfl⟩ | ⟨block, rfl⟩⟩ := memFirst <;>
      obtain ⟨y, _, ⟨block', rfl⟩ | ⟨block', rfl⟩⟩ := memSecond <;>
      rw [Ptr.loc_inj] at same <;> obtain ⟨rank, rfl⟩ := same
    · exact absurd rank ne
    · exact absurd (block'.symm.trans block) apart
    · exact absurd (block.symm.trans block') apart
    · exact absurd rank.symm ne

end Exchange

/-! ## The run -/

/-- The calls of all `2 ^ k` ranks: one receive pointer, and a send pointer that is
the rank's own block of the receive buffer or points into another buffer. -/
structure HyperCubeCalls where
  k : Nat
  count : Nat
  wordSize : Nat
  rbuff : Ptr
  call : Nat → RunCollArgs
  count_eq : ∀ rank, (call rank).count = count
  recvPtr_eq : ∀ rank, (call rank).recvPtr = rbuff
  sendPtr_eq : ∀ rank, (call rank).sendPtr = rbuff.add (rank * (count * wordSize)) ∨
    (call rank).sendPtr.buffer ≠ rbuff.buffer

namespace HyperCubeCalls

variable {β : Type*} (calls : HyperCubeCalls)

def rankSize : Nat := calls.count * calls.wordSize

/-- The contributions of all ranks in rank order. -/
def concat (m₀ : Mem β) (x : Nat) : β :=
  m₀ ((calls.call (x / calls.rankSize)).sendPtr.loc (x / calls.rankSize) (x % calls.rankSize))

/-- The state in which all ranks are about to run the collective. -/
def start (m₀ : Mem β) : StreamState β where
  mem := m₀
  prog rank := hyperCubeRunColl (calls.call rank) calls.wordSize (2 ^ calls.k) rank

/-- The exchanges that a rank has left from bit `j` on. -/
def exchangesFrom (rank j : Nat) : List StreamOp :=
  (List.range' j (calls.k - j)).map fun i => .exchange
    (ownBlock calls.rbuff calls.count calls.wordSize rank i)
    (partnerBlock calls.rbuff calls.count calls.wordSize rank i)

theorem exchangesFrom_of_lt {j : Nat} (rank : Nat) (bit : j < calls.k) :
    calls.exchangesFrom rank j = .exchange (ownBlock calls.rbuff calls.count calls.wordSize rank j)
      (partnerBlock calls.rbuff calls.count calls.wordSize rank j) ::
        calls.exchangesFrom rank (j + 1) := by
  have rest : calls.k - j = calls.k - (j + 1) + 1 := by omega
  rw [exchangesFrom, rest, List.range'_succ, List.map_cons, exchangesFrom]

theorem exchangesFrom_of_le {j : Nat} (rank : Nat) (bit : calls.k ≤ j) :
    calls.exchangesFrom rank j = [] := by
  rw [exchangesFrom, Nat.sub_eq_zero_of_le bit]
  rfl

/-- The operations of a rank at a stage: stage zero precedes the local copy, stage
`j + 1` the exchange across bit `j`. -/
def progAt (rank : Nat) : Nat → List StreamOp
  | 0 => .memcpy (calls.rbuff.add (rank * calls.rankSize)) (calls.call rank).sendPtr
      calls.rankSize :: calls.exchangesFrom rank 0
  | j + 1 => calls.exchangesFrom rank j

/-- The stage at which a rank starts: in place there is nothing to copy. -/
def firstStage (rank : Nat) : Nat :=
  if calls.rbuff.add (rank * calls.rankSize) ≠ (calls.call rank).sendPtr then 0 else 1

theorem start_prog (m₀ : Mem β) (rank : Nat) :
    (calls.start m₀).prog rank = calls.progAt rank (calls.firstStage rank) := by
  have loop : (masks (2 ^ calls.k)).map
      (hyperCubeExchange calls.rbuff calls.count calls.wordSize rank) =
        calls.exchangesFrom rank 0 := by
    rw [masks_two_pow, List.map_map, exchangesFrom, Nat.sub_zero]
    exact List.map_congr_left fun j _ => hyperCubeExchange_eq _ _ _ _ _
  simp only [start, hyperCubeRunColl, calls.count_eq, calls.recvPtr_eq, loop]
  by_cases copied : calls.rbuff.add (rank * calls.rankSize) ≠ (calls.call rank).sendPtr
  · rw [firstStage, if_pos copied]
    exact congrArg (· ++ calls.exchangesFrom rank 0) (if_pos copied)
  · rw [firstStage, if_neg copied]
    exact congrArg (· ++ calls.exchangesFrom rank 0) (if_neg copied)

/-- The invariant of a run in which every rank has reached its `stage`. -/
structure Inv (m₀ m : Mem β) (prog : Nat → List StreamOp) (stage : Nat → Nat) : Prop where
  prog_eq : ∀ rank < 2 ^ calls.k, prog rank = calls.progAt rank (stage rank)
  le : ∀ rank < 2 ^ calls.k, stage rank ≤ calls.k + 1
  apart : ∀ rank < 2 ^ calls.k, stage rank = 0 →
    (calls.call rank).sendPtr.buffer ≠ calls.rbuff.buffer
  /-- Partners leave an exchange together. -/
  paired : ∀ rank < 2 ^ calls.k, ∀ j < calls.k, j + 2 ≤ stage rank →
    j + 2 ≤ stage (rank ^^^ 2 ^ j)
  /-- Before the exchange across bit `j` a rank holds its aligned block. -/
  holds : ∀ rank < 2 ^ calls.k, ∀ j, stage rank = j + 1 → ∀ x < 2 ^ calls.k * calls.rankSize,
    x / (2 ^ j * calls.rankSize) = rank / 2 ^ j →
      m (calls.rbuff.loc rank x) = calls.concat m₀ x
  frame : ∀ l, (∀ rank < 2 ^ calls.k, ∀ x < 2 ^ calls.k * calls.rankSize,
    calls.rbuff.loc rank x ≠ l) → m l = m₀ l

variable {calls} {m₀ m : Mem β} {prog : Nat → List StreamOp} {stage : Nat → Nat}

theorem Inv.start (m₀ : Mem β) :
    calls.Inv m₀ m₀ (calls.start m₀).prog calls.firstStage where
  prog_eq rank _ := calls.start_prog m₀ rank
  le rank _ := by
    rw [firstStage]
    split <;> omega
  apart rank _ zero := by
    rw [firstStage] at zero
    split at zero
    case isTrue other =>
      exact (calls.sendPtr_eq rank).resolve_left fun same => other same.symm
    case isFalse => omega
  paired rank _ j _ reached := by
    rw [firstStage] at reached
    split at reached <;> omega
  holds rank _ j first x inside block := by
    rw [firstStage] at first
    split at first
    case isTrue => omega
    case isFalse same =>
      obtain rfl : j = 0 := by omega
      rw [pow_zero, Nat.one_mul, Nat.div_one] at block
      rw [concat, block, ← not_not.1 same, Ptr.loc_add, ← block, Nat.div_add_mod']
  frame _ _ := rfl

/-- The local copy writes nothing outside the receive buffer of its rank. -/
theorem run_memcpy_of_ne {rank : Nat} (mem : rank < 2 ^ calls.k) {order : List (Move Loc)}
    (perm : order.Perm (blockMoves rank (calls.rbuff.add (rank * calls.rankSize)) rank
      (calls.call rank).sendPtr calls.rankSize)) {l : Loc}
    (outside : ∀ x < 2 ^ calls.k * calls.rankSize, calls.rbuff.loc rank x ≠ l) :
    Moves.run order m l = m l := by
  refine Moves.run_of_forall_ne fun move moved => ?_
  obtain ⟨i, less, rfl⟩ := mem_blockMoves.1 (perm.subset moved)
  rw [Ptr.loc_add]
  refine outside _ ?_
  calc rank * calls.rankSize + i < rank * calls.rankSize + calls.rankSize :=
        Nat.add_lt_add_left less _
    _ = (rank + 1) * calls.rankSize := (Nat.succ_mul _ _).symm
    _ ≤ 2 ^ calls.k * calls.rankSize := Nat.mul_le_mul_right _ mem

/-- It leaves the contribution of the rank at its place. -/
theorem run_memcpy {rank : Nat}
    (apart : (calls.call rank).sendPtr.buffer ≠ calls.rbuff.buffer) {order : List (Move Loc)}
    (perm : order.Perm (blockMoves rank (calls.rbuff.add (rank * calls.rankSize)) rank
      (calls.call rank).sendPtr calls.rankSize)) {i : Nat} (less : i < calls.rankSize) :
    Moves.run order m (calls.rbuff.loc rank (rank * calls.rankSize + i)) =
      m ((calls.call rank).sendPtr.loc rank i) := by
  have ok : Moves.Consistent (blockMoves rank (calls.rbuff.add (rank * calls.rankSize)) rank
      (calls.call rank).sendPtr calls.rankSize) :=
    blockMoves_consistent fun i _ j _ same => apart (congrArg Loc.buffer same).symm
  rw [← Ptr.loc_add]
  exact Moves.run_of_mem ok perm m (mem_blockMoves.2 ⟨i, less, rfl⟩)

/-- The local copy takes a rank from stage zero to stage one. -/
theorem Inv.memcpy (inv : calls.Inv m₀ m prog stage) {rank : Nat} (mem : rank < 2 ^ calls.k)
    (at_ : stage rank = 0) {order : List (Move Loc)}
    (perm : order.Perm (blockMoves rank (calls.rbuff.add (rank * calls.rankSize)) rank
      (calls.call rank).sendPtr calls.rankSize)) :
    calls.Inv m₀ (Moves.run order m) (Function.update prog rank (calls.exchangesFrom rank 0))
      (Function.update stage rank 1) := by
  have apart := inv.apart rank mem at_
  constructor
  · intro r memR
    rcases eq_or_ne r rank with rfl | other
    · rw [Function.update_self, Function.update_self]
      rfl
    · rw [Function.update_of_ne other, Function.update_of_ne other]
      exact inv.prog_eq r memR
  · intro r memR
    rcases eq_or_ne r rank with rfl | other
    · rw [Function.update_self]
      omega
    · rw [Function.update_of_ne other]
      exact inv.le r memR
  · intro r memR zero
    rcases eq_or_ne r rank with rfl | other
    · exact apart
    · rw [Function.update_of_ne other] at zero
      exact inv.apart r memR zero
  · intro r memR j bit reached
    rcases eq_or_ne r rank with rfl | other
    · rw [Function.update_self] at reached
      omega
    · rw [Function.update_of_ne other] at reached
      have met := inv.paired r memR j bit reached
      have notCopied : r ^^^ 2 ^ j ≠ rank := by
        intro same
        rw [same, at_] at met
        omega
      rw [Function.update_of_ne notCopied]
      exact met
  · intro r memR j first x inside block
    rcases eq_or_ne r rank with rfl | other
    · rw [Function.update_self] at first
      obtain rfl : j = 0 := by omega
      rw [pow_zero, Nat.one_mul, Nat.div_one] at block
      have pos : 0 < calls.rankSize := Nat.pos_of_ne_zero fun zero => by simp [zero] at inside
      have copied := run_memcpy (m := m) apart perm (Nat.mod_lt x pos)
      rw [inv.frame _ fun _ _ _ _ same => apart (congrArg Loc.buffer same).symm] at copied
      rw [concat, block, ← copied, ← block, Nat.div_add_mod']
    · rw [Function.update_of_ne other] at first
      rw [run_memcpy_of_ne mem perm fun y _ same => other (Ptr.loc_inj.1 same).1.symm]
      exact inv.holds r memR j first x inside block
  · intro l outside
    rw [run_memcpy_of_ne mem perm (outside rank mem)]
    exact inv.frame l outside

/-- The moves of the exchange across bit `j`. -/
def movesAt (calls : HyperCubeCalls) (a b j : Nat) : List (Move Loc) :=
  exchangeMoves a b (ownBlock calls.rbuff calls.count calls.wordSize a j)
    (partnerBlock calls.rbuff calls.count calls.wordSize a j)
    (ownBlock calls.rbuff calls.count calls.wordSize b j)
    (partnerBlock calls.rbuff calls.count calls.wordSize b j)

/-- An exchange leaves each partner with the block of the other. -/
theorem run_movesAt {a b j : Nat} (partner : b = a ^^^ 2 ^ j) {order : List (Move Loc)}
    (perm : order.Perm (calls.movesAt a b j)) (m : Mem β) {x : Nat}
    (inside : x < 2 ^ calls.k * calls.rankSize) :
    (x / (2 ^ j * calls.rankSize) = b / 2 ^ j →
      Moves.run order m (calls.rbuff.loc a x) = m (calls.rbuff.loc b x)) ∧
    (x / (2 ^ j * calls.rankSize) = a / 2 ^ j →
      Moves.run order m (calls.rbuff.loc b x) = m (calls.rbuff.loc a x)) := by
  have pos : 0 < 2 ^ j * (calls.count * calls.wordSize) := by
    refine Nat.mul_pos (Nat.two_pow_pos j) (Nat.pos_of_ne_zero fun zero => ?_)
    rw [rankSize, zero, Nat.mul_zero] at inside
    exact Nat.not_lt_zero x inside
  have ok : Moves.Consistent (calls.movesAt a b j) := exchangeMoves_consistent partner
  refine ⟨fun block => ?_, fun block => ?_⟩
  · exact Moves.run_of_mem ok perm m ((mem_exchangeMoves partner).2 ⟨x, pos, Or.inr ⟨block, rfl⟩⟩)
  · exact Moves.run_of_mem ok perm m ((mem_exchangeMoves partner).2 ⟨x, pos, Or.inl ⟨block, rfl⟩⟩)

/-- An exchange writes nothing else. -/
theorem run_movesAt_of_ne {a b j : Nat} (partner : b = a ^^^ 2 ^ j) {order : List (Move Loc)}
    (perm : order.Perm (calls.movesAt a b j)) (m : Mem β) {l : Loc}
    (outside : ∀ x, 0 < calls.rankSize →
      (x / (2 ^ j * calls.rankSize) = b / 2 ^ j → calls.rbuff.loc a x ≠ l) ∧
      (x / (2 ^ j * calls.rankSize) = a / 2 ^ j → calls.rbuff.loc b x ≠ l)) :
    Moves.run order m l = m l := by
  refine Moves.run_of_forall_ne fun move moved => ?_
  obtain ⟨x, pos, ⟨block, rfl⟩ | ⟨block, rfl⟩⟩ :=
    (mem_exchangeMoves partner).1 (perm.subset moved)
  · exact (outside x (Nat.pos_of_mul_pos_left pos)).2 block
  · exact (outside x (Nat.pos_of_mul_pos_left pos)).1 block

/-- A byte of the block of a rank lies inside the receive buffer. -/
theorem lt_of_block {r j x : Nat} (mem : r < 2 ^ calls.k) (bit : j < calls.k)
    (pos : 0 < calls.rankSize) (block : x / (2 ^ j * calls.rankSize) = r / 2 ^ j) :
    x < 2 ^ calls.k * calls.rankSize := by
  have size : 2 ^ calls.k = 2 ^ (calls.k - j) * 2 ^ j := by
    rw [← pow_add, Nat.sub_add_cancel bit.le]
  have below : r / 2 ^ j < 2 ^ (calls.k - j) := by
    rw [Nat.div_lt_iff_lt_mul (Nat.two_pow_pos j), ← size]
    exact mem
  rw [size, Nat.mul_assoc, ← Nat.div_lt_iff_lt_mul (Nat.mul_pos (Nat.two_pow_pos j) pos), block]
  exact below

/-- The block of twice the size is made of the blocks of both partners. -/
theorem block_succ {a b j x : Nat} (partner : b = a ^^^ 2 ^ j)
    (block : x / (2 ^ (j + 1) * calls.rankSize) = a / 2 ^ (j + 1)) :
    x / (2 ^ j * calls.rankSize) = a / 2 ^ j ∨ x / (2 ^ j * calls.rankSize) = b / 2 ^ j := by
  have halves : 2 ^ (j + 1) * calls.rankSize = 2 ^ j * calls.rankSize * 2 := by ring
  have left : x / (2 ^ (j + 1) * calls.rankSize) = x / (2 ^ j * calls.rankSize) / 2 := by
    rw [halves, Nat.div_div_eq_div_mul]
  have right : a / 2 ^ (j + 1) = a / 2 ^ j / 2 := by
    rw [pow_succ, Nat.div_div_eq_div_mul]
  rw [left, right, div_two_eq_iff] at block
  rw [partner, xor_two_pow_div]
  exact block

/-- Two partners at the exchange across bit `j`, with the order of its moves. -/
structure Meet (calls : HyperCubeCalls) (stage : Nat → Nat) (order : List (Move Loc))
    (a b j : Nat) : Prop where
  memA : a < 2 ^ calls.k
  memB : b < 2 ^ calls.k
  bit : j < calls.k
  partner : b = a ^^^ 2 ^ j
  atA : stage a = j + 1
  atB : stage b = j + 1
  perm : order.Perm (calls.movesAt a b j)

namespace Meet

variable {order : List (Move Loc)} {a b j : Nat} (meet : calls.Meet stage order a b j)
include meet

theorem symm : calls.Meet stage order b a j where
  memA := meet.memB
  memB := meet.memA
  bit := meet.bit
  partner := by rw [meet.partner, xor_two_pow_xor]
  atA := meet.atB
  atB := meet.atA
  perm := meet.perm.trans List.perm_append_comm

theorem ne : a ≠ b := fun same => xor_two_pow_ne a j (meet.partner.symm.trans same.symm)

/-- A rank is one of the partners, and both move on, or its stage is what it was. -/
theorem stage_cases (r : Nat) :
    let after := Function.update (Function.update stage a (j + 2)) b (j + 2)
    (∃ q, calls.Meet stage order r q j ∧ after r = j + 2 ∧ after q = j + 2) ∨
      (r ≠ a ∧ r ≠ b ∧ after r = stage r) := by
  intro after
  have afterA : after a = j + 2 :=
    (Function.update_of_ne meet.ne _ _).trans (Function.update_self _ _ _)
  have afterB : after b = j + 2 := Function.update_self _ _ _
  rcases eq_or_ne r a with rfl | neA
  · exact .inl ⟨b, meet, afterA, afterB⟩
  · rcases eq_or_ne r b with rfl | neB
    · exact .inl ⟨a, meet.symm, afterB, afterA⟩
    · have same : after r = stage r :=
        (Function.update_of_ne neB _ _).trans (Function.update_of_ne neA _ _)
      exact .inr ⟨neA, neB, same⟩

/-- One partner after the exchange: it holds the block of twice the size. -/
theorem holds (inv : calls.Inv m₀ m prog stage) {x : Nat}
    (inside : x < 2 ^ calls.k * calls.rankSize)
    (block : x / (2 ^ (j + 1) * calls.rankSize) = a / 2 ^ (j + 1)) :
    Moves.run order m (calls.rbuff.loc a x) = calls.concat m₀ x := by
  have partner := meet.partner
  rcases block_succ partner block with own | other
  · have kept : Moves.run order m (calls.rbuff.loc a x) = m (calls.rbuff.loc a x) := by
      refine run_movesAt_of_ne partner meet.perm m fun y _ =>
        ⟨fun block' same => ?_, fun _ same => meet.ne (Ptr.loc_inj.1 same).1.symm⟩
      obtain ⟨_, rfl⟩ := Ptr.loc_inj.1 same
      exact partner_block_ne partner (block'.symm.trans own)
    rw [kept]
    exact inv.holds a meet.memA j meet.atA x inside own
  · rw [(run_movesAt partner meet.perm m inside).1 other]
    exact inv.holds b meet.memB j meet.atB x inside other

end Meet

/-- An exchange takes both partners to the next stage. -/
theorem Inv.exchange (inv : calls.Inv m₀ m prog stage) {order : List (Move Loc)} {a b j : Nat}
    (meet : calls.Meet stage order a b j) :
    calls.Inv m₀ (Moves.run order m)
      (Function.update (Function.update prog a (calls.exchangesFrom a (j + 1))) b
        (calls.exchangesFrom b (j + 1)))
      (Function.update (Function.update stage a (j + 2)) b (j + 2)) := by
  have bit := meet.bit
  have stageUp : ∀ r, stage r ≤ Function.update (Function.update stage a (j + 2)) b (j + 2) r := by
    intro r
    rcases meet.stage_cases r with ⟨q, own, atR, -⟩ | ⟨-, -, same⟩
    · rw [atR, own.atA]
      omega
    · exact same.ge
  constructor
  · intro r memR
    rcases eq_or_ne r b with rfl | neB
    · rw [Function.update_self, Function.update_self]
      rfl
    · rcases eq_or_ne r a with rfl | neA
      · rw [Function.update_of_ne neB, Function.update_self, Function.update_of_ne neB,
          Function.update_self]
        rfl
      · rw [Function.update_of_ne neB, Function.update_of_ne neA, Function.update_of_ne neB,
          Function.update_of_ne neA]
        exact inv.prog_eq r memR
  · intro r memR
    rcases meet.stage_cases r with ⟨-, -, atR, -⟩ | ⟨-, -, same⟩
    · rw [atR]
      omega
    · rw [same]
      exact inv.le r memR
  · intro r memR zero
    exact inv.apart r memR (Nat.le_zero.1 (zero ▸ stageUp r))
  · intro r memR i bit' reached
    rcases meet.stage_cases r with ⟨q, own, atR, atQ⟩ | ⟨-, -, same⟩
    -- a rank that moved on just now did so together with its partner across bit `j`
    · rw [atR] at reached
      rcases Nat.eq_or_lt_of_le (show i ≤ j by omega) with rfl | before
      · rw [← own.partner, atQ]
      · have earlier : i + 2 ≤ stage r := by
          rw [own.atA]
          omega
        exact (inv.paired r memR i bit' earlier).trans (stageUp _)
    · rw [same] at reached
      exact (inv.paired r memR i bit' reached).trans (stageUp _)
  · intro r memR i at_ x inside block
    rcases meet.stage_cases r with ⟨q, own, atR, -⟩ | ⟨neA, neB, same⟩
    · rw [atR] at at_
      obtain rfl : i = j + 1 := by omega
      exact own.holds inv inside block
    · rw [same] at at_
      have kept : Moves.run order m (calls.rbuff.loc r x) = m (calls.rbuff.loc r x) :=
        run_movesAt_of_ne meet.partner meet.perm m fun y _ =>
          ⟨fun _ same => neA (Ptr.loc_inj.1 same).1.symm,
            fun _ same => neB (Ptr.loc_inj.1 same).1.symm⟩
      rw [kept]
      exact inv.holds r memR i at_ x inside block
  · intro l outside
    rw [run_movesAt_of_ne meet.partner meet.perm m fun y pos =>
      ⟨fun block => ?_, fun block => ?_⟩]
    · exact inv.frame l outside
    · exact outside a meet.memA y (lt_of_block meet.memB bit pos block)
    · exact outside b meet.memB y (lt_of_block meet.memA bit pos block)

/-- A rank about to copy is at stage zero. -/
theorem Inv.of_memcpy (inv : calls.Inv m₀ m prog stage) {rank bytes : Nat} {dst src : Ptr}
    {rest : List StreamOp} (mem : rank < 2 ^ calls.k)
    (head : prog rank = .memcpy dst src bytes :: rest) :
    stage rank = 0 ∧ dst = calls.rbuff.add (rank * calls.rankSize) ∧
      src = (calls.call rank).sendPtr ∧ bytes = calls.rankSize ∧
      rest = calls.exchangesFrom rank 0 := by
  rw [inv.prog_eq rank mem] at head
  cases at_ : stage rank with
  | zero =>
    rw [at_, progAt] at head
    obtain ⟨op, rfl⟩ := List.cons.inj head
    obtain ⟨rfl, rfl, rfl⟩ := StreamOp.memcpy.inj op
    exact ⟨rfl, rfl, rfl, rfl, rfl⟩
  | succ j =>
    rw [at_, progAt] at head
    by_cases bit : j < calls.k
    · rw [calls.exchangesFrom_of_lt rank bit] at head
      exact absurd (List.cons.inj head).1 (by simp)
    · rw [calls.exchangesFrom_of_le rank (by omega)] at head
      exact absurd head (by simp)

/-- A rank about to exchange is at the stage of the bit. -/
theorem Inv.of_exchange (inv : calls.Inv m₀ m prog stage) {rank : Nat} {send recv : Transfer}
    {rest : List StreamOp} (mem : rank < 2 ^ calls.k)
    (head : prog rank = .exchange send recv :: rest) :
    ∃ j < calls.k, stage rank = j + 1 ∧
      send = ownBlock calls.rbuff calls.count calls.wordSize rank j ∧
      recv = partnerBlock calls.rbuff calls.count calls.wordSize rank j ∧
      rest = calls.exchangesFrom rank (j + 1) := by
  rw [inv.prog_eq rank mem] at head
  cases at_ : stage rank with
  | zero =>
    rw [at_, progAt] at head
    exact absurd (List.cons.inj head).1 (by simp)
  | succ j =>
    rw [at_, progAt] at head
    by_cases bit : j < calls.k
    · rw [calls.exchangesFrom_of_lt rank bit] at head
      obtain ⟨op, rfl⟩ := List.cons.inj head
      obtain ⟨rfl, rfl⟩ := StreamOp.exchange.inj op
      exact ⟨j, bit, rfl, rfl, rfl, rfl⟩
    · rw [calls.exchangesFrom_of_le rank (by omega)] at head
      exact absurd head (by simp)

/-- Every step keeps the invariant. -/
theorem Inv.step {s t : StreamState β} (inv : calls.Inv m₀ s.mem s.prog stage)
    (step : StreamStep (2 ^ calls.k) s t) : ∃ stage', calls.Inv m₀ t.mem t.prog stage' := by
  cases step with
  | memcpy mem head perm =>
    obtain ⟨at_, rfl, rfl, rfl, rfl⟩ := inv.of_memcpy mem head
    exact ⟨_, inv.memcpy mem at_ perm⟩
  | @exchange a b _ _ _ _ _ _ _ memA memB ne headA headB aToB bToA perm =>
    obtain ⟨j, bit, atA, rfl, rfl, rfl⟩ := inv.of_exchange memA headA
    obtain ⟨i, _, atB, rfl, rfl, rfl⟩ := inv.of_exchange memB headB
    obtain ⟨there, back, _⟩ := aToB
    simp only [ownBlock, partnerBlock] at there back
    have bits : i = j := by
      apply Nat.pow_right_injective le_rfl
      calc 2 ^ i = b ^^^ a := by rw [← back, ← Nat.xor_assoc, Nat.xor_self, Nat.zero_xor]
        _ = a ^^^ b := Nat.xor_comm b a
        _ = 2 ^ j := by rw [← there, ← Nat.xor_assoc, Nat.xor_self, Nat.zero_xor]
    subst bits
    exact ⟨_, inv.exchange ⟨memA, memB, bit, there.symm, atA, atB, perm⟩⟩

/-- The states that a run can reach. -/
def Reachable (calls : HyperCubeCalls) (m₀ : Mem β) (s : StreamState β) : Prop :=
  Relation.ReflTransGen (StreamStep (2 ^ calls.k)) (calls.start m₀) s

theorem Reachable.inv {s : StreamState β} (reach : calls.Reachable m₀ s) :
    ∃ stage, calls.Inv m₀ s.mem s.prog stage := by
  induction reach with
  | refl => exact ⟨_, Inv.start m₀⟩
  | tail _ step ih =>
    obtain ⟨stage, inv⟩ := ih
    exact inv.step step

/-- **No rank waits for ever**: as long as a rank has operations left, some step
can be taken. The rank that is furthest behind finds its partner waiting. -/
theorem Reachable.progress {s : StreamState β} (reach : calls.Reachable m₀ s)
    (unfinished : ¬ s.Finished (2 ^ calls.k)) : ∃ t, StreamStep (2 ^ calls.k) s t := by
  obtain ⟨stage, inv⟩ := reach.inv
  obtain ⟨late, memLate, left⟩ : ∃ rank < 2 ^ calls.k, s.prog rank ≠ [] := by
    simpa only [StreamState.Finished, not_forall, exists_prop] using unfinished
  obtain ⟨rank, memRank, least⟩ :=
    Finset.exists_min_image (Finset.range (2 ^ calls.k)) stage ⟨late, Finset.mem_range.2 memLate⟩
  rw [Finset.mem_range] at memRank
  have behind := least late (Finset.mem_range.2 memLate)
  cases at_ : stage rank with
  | zero =>
    have head := inv.prog_eq rank memRank
    rw [at_, progAt] at head
    exact ⟨_, .memcpy memRank head (List.Perm.refl _)⟩
  | succ j =>
    have bit : j < calls.k := by
      by_contra done
      refine left ?_
      rw [inv.prog_eq late memLate]
      cases atLate : stage late with
      | zero => omega
      | succ i => exact calls.exchangesFrom_of_le late (by omega)
    have memPartner := xor_two_pow_lt memRank bit
    have ahead := least _ (Finset.mem_range.2 memPartner)
    have together : stage (rank ^^^ 2 ^ j) = j + 1 := by
      by_contra other
      have met := inv.paired _ memPartner j bit (by omega)
      rw [xor_two_pow_xor, at_] at met
      omega
    have headA := inv.prog_eq rank memRank
    have headB := inv.prog_eq _ memPartner
    rw [at_, progAt, calls.exchangesFrom_of_lt rank bit] at headA
    rw [together, progAt, calls.exchangesFrom_of_lt _ bit] at headB
    exact ⟨_, .exchange memRank memPartner (xor_two_pow_ne rank j).symm headA headB
      ⟨rfl, xor_two_pow_xor rank j, rfl⟩ ⟨xor_two_pow_xor rank j, rfl, rfl⟩ (List.Perm.refl _)⟩

/-- When all ranks have finished, every receive buffer is the concatenation of
all contributions, and nothing outside the receive buffers has changed. -/
theorem Reachable.finished {s : StreamState β} (reach : calls.Reachable m₀ s)
    (finished : s.Finished (2 ^ calls.k)) :
    (∀ rank < 2 ^ calls.k, ∀ x < 2 ^ calls.k * calls.rankSize,
      s.mem (calls.rbuff.loc rank x) = calls.concat m₀ x) ∧
    ∀ l, (∀ rank < 2 ^ calls.k, ∀ x < 2 ^ calls.k * calls.rankSize,
      calls.rbuff.loc rank x ≠ l) → s.mem l = m₀ l := by
  obtain ⟨stage, inv⟩ := reach.inv
  refine ⟨fun rank mem x inside => ?_, inv.frame⟩
  have empty := inv.prog_eq rank mem
  rw [finished rank mem] at empty
  cases at_ : stage rank with
  | zero =>
    rw [at_, progAt] at empty
    exact absurd empty (by simp)
  | succ j =>
    have bit : j = calls.k := by
      have le := inv.le rank mem
      by_contra other
      rw [at_, progAt, calls.exchangesFrom_of_lt rank (by omega)] at empty
      exact absurd empty (by simp)
    subst bit
    refine inv.holds rank mem _ at_ x inside ?_
    rw [Nat.div_eq_of_lt inside, Nat.div_eq_of_lt mem]

end HyperCubeCalls

/-! ## The calls that `startColl` makes -/

/-- The calls of one iteration, for any count. -/
def hyperCubeCalls (k maxbytes count wordSize unalign iter : Nat) (inPlace : Bool) :
    HyperCubeCalls :=
  let args := (concatCount count (2 ^ k)).toArgs maxbytes wordSize
  { k := k
    count := (startColl args .host wordSize unalign 0 inPlace iter).count
    wordSize := wordSize
    rbuff := (startColl args .host wordSize unalign 0 inPlace iter).recvPtr
    call := fun rank => startColl args .host wordSize unalign rank inPlace iter
    count_eq := fun _ => rfl
    recvPtr_eq := fun rank => by
      cases inPlace <;>
        simp [RunCollArgs.recvPtr, RunCollArgs.recvAddress, startColl, args, concatCount,
          CollByteCount.toArgs]
    sendPtr_eq := fun rank => by
      cases inPlace with
      | false => exact Or.inr (by simp [RunCollArgs.sendPtr, RunCollArgs.recvPtr, startColl])
      | true =>
        left
        have whole : count * wordSize / wordSize * wordSize = count * wordSize :=
          Nat.div_mul_cancel (Nat.dvd_mul_left _ _)
        simp only [RunCollArgs.sendPtr, RunCollArgs.recvPtr, RunCollArgs.sendAddress,
          RunCollArgs.recvAddress, startColl, args, concatCount, CollByteCount.toArgs, Ptr.add,
          if_true, Nat.zero_mul, Nat.add_zero, whole, Nat.mul_comm rank] }

/-! ## What the data check sees -/

section InitData

variable {β : Type*} [Zero β] {content : Nat → Nat → β} {m : Mem β}
  {k maxbytes count wordSize unalign rep : Nat} {inPlace : Bool}

/-- `HyperCubeInitData` on all ranks. -/
def hyperCubeInit (content : Nat → Nat → β)
    (k maxbytes count wordSize unalign rep : Nat) (inPlace : Bool) (m : Mem β) : Mem β :=
  m.initEach (hyperCubeInitData content ((concatCount count (2 ^ k)).toArgs maxbytes wordSize)
    (2 ^ k) (unalign * wordSize) rep inPlace)

/-- The expected buffer is the concatenation of the generated contributions. -/
theorem hyperCubeInit_expected {rank x : Nat} (inside : x < 2 ^ k * (count * wordSize)) :
    hyperCubeInit content k maxbytes count wordSize unalign rep inPlace m
        (expectedPtr.loc rank x) =
      content (33 * rep + x / (count * wordSize)) (x % (count * wordSize)) := by
  rw [hyperCubeInit, Mem.initEach_loc, hyperCubeInitData]
  simp only [concatCount, CollByteCount.toArgs]
  rw [RankMem.initBlocks_inside _ _ _ _ _ inside, Nat.zero_add]

/-- Every rank finds its generated contribution at its send pointer. -/
theorem hyperCubeInit_contribution {rank i : Nat} (inside : i < count * wordSize) :
    hyperCubeInit content k maxbytes count wordSize unalign rep inPlace m
        (((hyperCubeCalls k maxbytes count wordSize unalign 0 inPlace).call rank).sendPtr.loc
          rank i) = content (33 * rep + rank) i := by
  have data : ((hyperCubeCalls k maxbytes count wordSize unalign 0 inPlace).call rank).sendPtr =
      if inPlace then (⟨.recvbuff, unalign * wordSize⟩ : Ptr).add (rank * (count * wordSize))
      else ⟨.sendbuff, unalign * wordSize⟩ := by
    cases inPlace <;>
      simp [hyperCubeCalls, RunCollArgs.sendPtr, RunCollArgs.sendAddress, startColl, concatCount,
        CollByteCount.toArgs, ThreadArgs.shift, Ptr.add, Nat.mul_comm]
  rw [hyperCubeInit, Mem.initEach_loc, hyperCubeInitData, RankMem.initBlocks_outside, data]
  · simp only [concatCount, CollByteCount.toArgs]
    rw [RankMem.initData, RankMem.write_inside _ _ _ inside, Nat.zero_add]
  · intro j _ same
    have buffers := congrArg Ptr.buffer same
    rw [data] at buffers
    cases inPlace <;> simp [expectedPtr, Ptr.add] at buffers

/-- The contributions of all ranks are the expected buffer. -/
theorem hyperCubeInit_concat {rank x : Nat} (inside : x < 2 ^ k * (count * wordSize)) :
    (hyperCubeCalls k maxbytes count wordSize unalign 0 inPlace).concat
        (hyperCubeInit content k maxbytes count wordSize unalign rep inPlace m) x =
      hyperCubeInit content k maxbytes count wordSize unalign rep inPlace m
        (expectedPtr.loc rank x) := by
  have whole : (hyperCubeCalls k maxbytes count wordSize unalign 0 inPlace).rankSize =
      count * wordSize := Nat.div_mul_cancel (Nat.dvd_mul_left _ _)
  have pos : 0 < count * wordSize := Nat.pos_of_ne_zero fun zero => by simp [zero] at inside
  rw [HyperCubeCalls.concat, whole, hyperCubeInit_contribution (Nat.mod_lt _ pos),
    hyperCubeInit_expected inside]

end InitData

/-! ## The collective -/

/-- Both sides of one exchange: partners, lengths and regions match up. -/
structure ExchangeMatched (nRanks : Nat) (rbuff : Ptr) (rankSize rank mask : Nat)
    (send recv sendPeer recvPeer : Transfer) : Prop where
  peer_lt : rank ^^^ mask < nRanks
  peer_ne : rank ^^^ mask ≠ rank
  partners : send.peer = rank ^^^ mask ∧ recv.peer = rank ^^^ mask ∧ sendPeer.peer = rank ∧
    recvPeer.peer = rank
  bytes : send.bytes = mask * rankSize ∧ recvPeer.bytes = send.bytes ∧
    recv.bytes = sendPeer.bytes ∧ recv.bytes = mask * rankSize
  buffer : send.buff.buffer = rbuff.buffer ∧ recv.buff.buffer = rbuff.buffer
  disjoint : send.buff.offset + send.bytes ≤ recv.buff.offset ∨
    recv.buff.offset + recv.bytes ≤ send.buff.offset
  inside : rbuff.offset ≤ send.buff.offset ∧ rbuff.offset ≤ recv.buff.offset ∧
    send.buff.offset + send.bytes ≤ rbuff.offset + nRanks * rankSize ∧
    recv.buff.offset + recv.bytes ≤ rbuff.offset + nRanks * rankSize

/-- Every round of the mask loop is matched by the partner's round. -/
theorem hyperCubeExchange_matched {k rank mask : Nat} (mem : rank < 2 ^ k)
    (round : mask ∈ masks (2 ^ k)) (rbuff : Ptr) (count wordSize : Nat) :
    ∃ send recv sendPeer recvPeer,
      hyperCubeExchange rbuff count wordSize rank mask = .exchange send recv ∧
      hyperCubeExchange rbuff count wordSize (rank ^^^ mask) mask =
        .exchange sendPeer recvPeer ∧
      ExchangeMatched (2 ^ k) rbuff (count * wordSize) rank mask send recv sendPeer recvPeer := by
  rw [masks_two_pow, List.mem_map] at round
  obtain ⟨j, bit, rfl⟩ := round
  rw [List.mem_range'_1, Nat.zero_add] at bit
  refine ⟨_, _, _, _, hyperCubeExchange_eq rbuff count wordSize rank j,
    hyperCubeExchange_eq rbuff count wordSize _ j, ?_⟩
  have size : 2 ^ k = 2 ^ (k - j) * 2 ^ j := by
    rw [← pow_add, Nat.sub_add_cancel bit.2.le]
  have blockEnd : ∀ r < 2 ^ k, r / 2 ^ j * (2 ^ j * (count * wordSize)) +
      2 ^ j * (count * wordSize) ≤ 2 ^ k * (count * wordSize) := by
    intro r memR
    have below : r / 2 ^ j < 2 ^ (k - j) := by
      rw [Nat.div_lt_iff_lt_mul (Nat.two_pow_pos j), ← size]
      exact memR
    rw [← Nat.succ_mul, size, Nat.mul_assoc]
    exact Nat.mul_le_mul_right _ below
  have memPeer := xor_two_pow_lt mem bit.2
  have ends := blockEnd rank mem
  have endsPeer := blockEnd _ memPeer
  have apart := partner_block_ne (rfl : rank ^^^ 2 ^ j = rank ^^^ 2 ^ j)
  constructor
  · exact memPeer
  · exact xor_two_pow_ne rank j
  · exact ⟨rfl, rfl, xor_two_pow_xor rank j, xor_two_pow_xor rank j⟩
  · exact ⟨rfl, rfl, rfl, rfl⟩
  · exact ⟨rfl, rfl⟩
  · simp only [ownBlock, partnerBlock, Ptr.add]
    rcases Nat.lt_or_gt_of_ne apart with less | more
    · right
      have := Nat.mul_le_mul_right (2 ^ j * (count * wordSize)) less
      rw [Nat.succ_mul] at this
      omega
    · left
      have := Nat.mul_le_mul_right (2 ^ j * (count * wordSize)) more
      rw [Nat.succ_mul] at this
      omega
  · simp only [ownBlock, partnerBlock, Ptr.add]
    omega

/-- **`HyperCubeRunColl` is an all-gather**, for any number of ranks that is a
power of two, any count, any initial memory and any order in which the ranks
proceed. Every send is matched by a receive, no run gets stuck or goes on for
ever, and at its end each receive buffer is the concatenation of the
contributions; started from `HyperCubeInitData`, this is the expected buffer.

After the exchange with the mask `2 ^ j` a rank holds the blocks of the `2 ^ (j + 1)` ranks that
differ from it in the low bits only, and its next partner holds the other half. Ranks may be in
different rounds; a rank can proceed when its partner has come to the same mask, and some rank
that is furthest behind always can. -/
theorem hyperCubeRunColl_allGather {β : Type*} [Zero β] (content : Nat → Nat → β)
    (k maxbytes count wordSize unalign iter rep : Nat) (inPlace : Bool) (m₀ : Mem β) :
    let calls := hyperCubeCalls k maxbytes count wordSize unalign iter inPlace
    (∀ rank < 2 ^ k, ∀ mask ∈ masks (2 ^ k), ∃ send recv sendPeer recvPeer,
      hyperCubeExchange calls.rbuff count wordSize rank mask = .exchange send recv ∧
      hyperCubeExchange calls.rbuff count wordSize (rank ^^^ mask) mask =
        .exchange sendPeer recvPeer ∧
      ExchangeMatched (2 ^ k) calls.rbuff (count * wordSize) rank mask send recv sendPeer
        recvPeer) ∧
    (∀ s, calls.Reachable m₀ s →
      (¬ s.Finished (2 ^ k) → ∃ t, StreamStep (2 ^ k) s t) ∧
      (∀ t, StreamStep (2 ^ k) s t → t.remaining (2 ^ k) < s.remaining (2 ^ k)) ∧
      (s.Finished (2 ^ k) →
        (∀ rank < 2 ^ k, ∀ x < 2 ^ k * (count * wordSize),
          s.mem (calls.rbuff.loc rank x) =
            m₀ ((calls.call (x / (count * wordSize))).sendPtr.loc (x / (count * wordSize))
              (x % (count * wordSize)))) ∧
        ∀ l, (∀ rank < 2 ^ k, ∀ x < 2 ^ k * (count * wordSize), calls.rbuff.loc rank x ≠ l) →
          s.mem l = m₀ l)) ∧
    ∀ s, iter = 0 →
      calls.Reachable (hyperCubeInit content k maxbytes count wordSize unalign rep inPlace m₀) s →
      s.Finished (2 ^ k) → ∀ rank < 2 ^ k,
        CheckData ((concatCount count (2 ^ k)).toArgs maxbytes wordSize) (unalign * wordSize)
          rank inPlace s.mem := by
  intro calls
  have whole : calls.rankSize = count * wordSize := Nat.div_mul_cancel (Nat.dvd_mul_left _ _)
  refine ⟨fun rank mem mask round => hyperCubeExchange_matched mem round calls.rbuff count wordSize,
    fun s reach => ⟨reach.progress, fun t step => step.remaining_lt, fun finished => ?_⟩, ?_⟩
  · have done := reach.finished finished
    simp only [whole, HyperCubeCalls.concat] at done
    exact done
  · rintro s rfl reach finished rank mem x inside
    obtain ⟨gathered, frame⟩ := reach.finished finished
    rw [whole] at gathered frame
    have bytes : ((concatCount count (2 ^ k)).toArgs maxbytes wordSize).expectedBytes =
        2 ^ k * (count * wordSize) := by
      simp only [concatCount, CollByteCount.toArgs]
      ring
    rw [bytes] at inside
    have checked : (checkedPtr ((concatCount count (2 ^ k)).toArgs maxbytes wordSize)
        (unalign * wordSize) rank inPlace) = calls.rbuff := by
      cases inPlace <;>
        simp [checkedPtr, calls, hyperCubeCalls, RunCollArgs.recvPtr, RunCollArgs.recvAddress,
          startColl, concatCount, CollByteCount.toArgs, ThreadArgs.shift]
    have expected := frame (expectedPtr.loc rank x) fun _ _ _ _ same =>
      absurd (show Buffer.recvbuff = Buffer.expected from congrArg Loc.buffer same) (by decide)
    rw [checked, gathered rank mem x inside, expected]
    exact hyperCubeInit_concat inside

end NcclTests.Collective
