import Mathlib
import NcclTests.Lib.PowTwoPerm
import NcclTests.Collective.StartColl

/-!
# No call leaves its buffers

Buffers are sized for the largest message at element size one; calls run at
other element sizes, shifted from iteration to iteration and moved by a forced
misalignment. Counted in bytes all collectives round down to the same multiples
of sixteen, which is why the element size does not matter.
-/

namespace NcclTests.Collective

open PowTwoPerm

/-! ## The irregular exchange -/

section Irregular

variable {spread : ℚ} {nranks : Nat}

/-- The exact share of the peer at a distance. -/
def distanceShare (spread : ℚ) (nranks totalBytes distance : Nat) : ℚ :=
  (1 - spread) * (totalBytes / nranks) +
    spread * (distance * totalBytes / (nranks * (nranks - 1) / 2 : Nat))

/-- The bytes for the peer at a distance. -/
def distanceBytes (spread : ℚ) (nranks totalBytes distance : Nat) : Nat :=
  if nranks = 1 then Nat.ldiff totalBytes 15
  else Nat.ldiff ⌊distanceShare spread nranks totalBytes distance⌋₊ 15

theorem peerBytes_eq (spread : ℚ) (i j nranks totalBytes : Nat) :
    alltoAllvGetPeerBytesDistanceWeighted spread i j nranks totalBytes =
      distanceBytes spread nranks totalBytes ((j + nranks - i) % nranks) := rfl

theorem ldiff_fifteen (x : Nat) : Nat.ldiff x 15 = x / 16 * 16 :=
  BitMask.ldiff_two_pow_sub_one x 4

theorem sixteen_dvd_distanceBytes (spread : ℚ) (nranks totalBytes distance : Nat) :
    16 ∣ distanceBytes spread nranks totalBytes distance := by
  rw [distanceBytes]
  split <;> exact ⟨_, (ldiff_fifteen _).trans (Nat.mul_comm _ _)⟩

theorem distanceShare_mono (low : 0 ≤ spread) (high : spread ≤ 1) {small large : Nat}
    (le : small ≤ large) (distance : Nat) :
    distanceShare spread nranks small distance ≤ distanceShare spread nranks large distance := by
  have cast : (small : ℚ) ≤ large := by exact_mod_cast le
  have rest : 0 ≤ 1 - spread := sub_nonneg.2 high
  rw [distanceShare, distanceShare]
  gcongr

theorem distanceBytes_mono (low : 0 ≤ spread) (high : spread ≤ 1) {small large : Nat}
    (le : small ≤ large) (distance : Nat) :
    distanceBytes spread nranks small distance ≤ distanceBytes spread nranks large distance := by
  rw [distanceBytes, distanceBytes]
  split
  · exact BitMask.ldiff_two_pow_sub_one_mono le 4
  · exact BitMask.ldiff_two_pow_sub_one_mono
      (Nat.floor_le_floor (distanceShare_mono low high le distance)) 4

theorem distanceShare_nonneg (low : 0 ≤ spread) (high : spread ≤ 1)
    (nranks totalBytes distance : Nat) : 0 ≤ distanceShare spread nranks totalBytes distance := by
  have rest : 0 ≤ 1 - spread := sub_nonneg.2 high
  rw [distanceShare]
  positivity

/-- The exact shares of all distances make up the whole. -/
theorem sum_distanceShare (many : 2 ≤ nranks) (spread : ℚ) (totalBytes : Nat) :
    ∑ d ∈ Finset.range nranks, distanceShare spread nranks totalBytes d = totalBytes := by
  have gauss : ((∑ d ∈ Finset.range nranks, d : Nat) : ℚ) =
      (nranks * (nranks - 1) / 2 : Nat) := by
    rw [Finset.sum_range_id]
  have distances : 0 < nranks * (nranks - 1) / 2 := by
    have : 2 * 1 ≤ nranks * (nranks - 1) := Nat.mul_le_mul many (by omega)
    omega
  have whole : ((nranks * (nranks - 1) / 2 : Nat) : ℚ) ≠ 0 := by exact_mod_cast distances.ne'
  have ranks : (nranks : ℚ) ≠ 0 := by exact_mod_cast (show nranks ≠ 0 by omega)
  have weighted : ∑ d ∈ Finset.range nranks,
      ((d : ℚ) * totalBytes / (nranks * (nranks - 1) / 2 : Nat)) = totalBytes := by
    rw [← Finset.sum_div, ← Finset.sum_mul, ← Nat.cast_sum, gauss]
    field_simp
  simp only [distanceShare]
  rw [Finset.sum_add_distrib, Finset.sum_const, ← Finset.mul_sum, weighted, Finset.card_range,
    nsmul_eq_mul]
  field_simp
  ring

/-- The bytes of all distances, a rank's total. -/
def rankBytes (spread : ℚ) (nranks totalBytes : Nat) : Nat :=
  ∑ d ∈ Finset.range nranks, distanceBytes spread nranks totalBytes d

theorem rankBytes_le (low : 0 ≤ spread) (high : spread ≤ 1) (some_ : 1 ≤ nranks)
    (totalBytes : Nat) : rankBytes spread nranks totalBytes ≤ totalBytes := by
  rcases Nat.eq_or_lt_of_le some_ with rfl | many
  · rw [rankBytes, Finset.sum_range_one, distanceBytes, if_pos rfl]
    exact BitMask.ldiff_two_pow_sub_one_le totalBytes 4
  · have each : ∀ d ∈ Finset.range nranks, (distanceBytes spread nranks totalBytes d : ℚ) ≤
        distanceShare spread nranks totalBytes d := by
      intro d _
      rw [distanceBytes, if_neg (by omega)]
      have rounded := BitMask.ldiff_two_pow_sub_one_le
        ⌊distanceShare spread nranks totalBytes d⌋₊ 4
      have floor := Nat.floor_le (distanceShare_nonneg low high nranks totalBytes d)
      exact le_trans (by exact_mod_cast rounded) floor
    have sums := Finset.sum_le_sum each
    rw [sum_distanceShare many, ← Nat.cast_sum] at sums
    exact_mod_cast sums

theorem rankBytes_mono (low : 0 ≤ spread) (high : spread ≤ 1) {small large : Nat}
    (le : small ≤ large) : rankBytes spread nranks small ≤ rankBytes spread nranks large :=
  Finset.sum_le_sum fun d _ => distanceBytes_mono low high le d

theorem rotate_sub {n i j : Nat} (hi : i < n) (hj : j < n) :
    (j + n - i) % n = if i ≤ j then j - i else j + n - i := by
  split
  case isTrue le =>
    have split_ : j + n - i = j - i + n := by omega
    rw [split_, Nat.add_mod_right, Nat.mod_eq_of_lt (by omega)]
  case isFalse gt => exact Nat.mod_eq_of_lt (by omega)

/-- Seen from one rank, the peers are at all distances. -/
theorem distance_to_bijOn {n i : Nat} (hi : i < n) :
    Set.BijOn (fun j => (j + n - i) % n) (Below n) (Below n) := by
  refine bijOn_below (fun j _ => Nat.mod_lt _ (by omega)) fun j hj k hk same => ?_
  rw [mem_below] at hj hk
  simp only [rotate_sub hi hj, rotate_sub hi hk] at same
  split at same <;> split at same <;> omega

/-- One rank is at all distances from its peers. -/
theorem distance_from_bijOn {n j : Nat} (hj : j < n) :
    Set.BijOn (fun i => (j + n - i) % n) (Below n) (Below n) := by
  refine bijOn_below (fun i _ => Nat.mod_lt _ (by omega)) fun i hi k hk same => ?_
  rw [mem_below] at hi hk
  simp only [rotate_sub hi hj, rotate_sub hk hj] at same
  split at same <;> split at same <;> omega

variable {eltSize : Nat}

/-- Shares are whole numbers of elements. -/
theorem peerBytes_div_mul (size : eltSize ∈ ({1, 2, 4, 8} : Finset Nat)) (spread : ℚ)
    (i j nranks totalBytes : Nat) :
    alltoAllvGetPeerBytesDistanceWeighted spread i j nranks totalBytes / eltSize * eltSize =
      distanceBytes spread nranks totalBytes ((j + nranks - i) % nranks) := by
  have whole : eltSize ∣ 16 := ⟨16 / eltSize, by rw [Nat.mul_comm, sixteen_div_mul size]⟩
  rw [peerBytes_eq]
  exact Nat.div_mul_cancel (whole.trans (sixteen_dvd_distanceBytes _ _ _ _))

/-- Every rank sends the same total. -/
theorem sum_peerBytes_to (size : eltSize ∈ ({1, 2, 4, 8} : Finset Nat)) {rank : Nat}
    (mem : rank < nranks) (totalBytes : Nat) :
    ∑ r ∈ Finset.range nranks,
      alltoAllvGetPeerBytesDistanceWeighted spread rank r nranks totalBytes / eltSize * eltSize =
        rankBytes spread nranks totalBytes := by
  simp only [peerBytes_div_mul size]
  exact sum_comp_bijOn (distance_to_bijOn mem) (distanceBytes spread nranks totalBytes)

/-- Every rank receives the same total. -/
theorem sum_peerBytes_from (size : eltSize ∈ ({1, 2, 4, 8} : Finset Nat)) {rank : Nat}
    (mem : rank < nranks) (totalBytes : Nat) :
    ∑ r ∈ Finset.range nranks,
      alltoAllvGetPeerBytesDistanceWeighted spread r rank nranks totalBytes / eltSize * eltSize =
        rankBytes spread nranks totalBytes := by
  simp only [peerBytes_div_mul size]
  exact sum_comp_bijOn (distance_from_bijOn mem) (distanceBytes spread nranks totalBytes)

theorem alltoAllvComputeMaxCounts_mul (size : eltSize ∈ ({1, 2, 4, 8} : Finset Nat))
    (some_ : 1 ≤ nranks) (totalBytes : Nat) :
    alltoAllvComputeMaxCounts spread eltSize nranks totalBytes * eltSize =
      rankBytes spread nranks totalBytes := by
  rw [alltoAllvComputeMaxCounts, Finset.sum_mul]
  exact sum_peerBytes_to size some_ totalBytes

/-- **The generated pattern is balanced and fits.** What a rank sends and what it
receives is the same for all ranks, the count computed from the first row in
bytes, and no more than there is.

The spread is between 0 and 1, the elements are of a size that a type has, and shares are exact
rationals. The share of a peer depends on its distance around the ring only, so that rows and
columns are rotations of the first row, and rounding down to elements keeps the sum below
`totalBytes`. -/
theorem alltoAllvPattern_balanced (low : 0 ≤ spread) (high : spread ≤ 1)
    (size : eltSize ∈ ({1, 2, 4, 8} : Finset Nat)) {rank : Nat} (mem : rank < nranks)
    (totalBytes : Nat) :
    let total := alltoAllvComputeMaxCounts spread eltSize nranks totalBytes * eltSize
    ∑ peer ∈ Finset.range nranks,
        alltoAllvGetPeerBytesDistanceWeighted spread rank peer nranks totalBytes = total ∧
      ∑ peer ∈ Finset.range nranks,
        alltoAllvGetPeerBytesDistanceWeighted spread peer rank nranks totalBytes = total ∧
      total ≤ totalBytes := by
  intro total
  have some_ : 1 ≤ nranks := by omega
  have derived : total = rankBytes spread nranks totalBytes :=
    alltoAllvComputeMaxCounts_mul size some_ totalBytes
  rw [derived]
  exact ⟨sum_comp_bijOn (distance_to_bijOn mem) (distanceBytes spread nranks totalBytes),
    sum_comp_bijOn (distance_from_bijOn mem) (distanceBytes spread nranks totalBytes),
    rankBytes_le low high some_ totalBytes⟩

/-- The middle one of three ranks, half uniform and half weighted. -/
theorem alltoAllvPattern_balanced_three :
    ∑ peer ∈ Finset.range 3,
      alltoAllvGetPeerBytesDistanceWeighted (1 / 2) 1 peer 3 1000 =
        alltoAllvComputeMaxCounts (1 / 2) 4 3 1000 * 4 :=
  (alltoAllvPattern_balanced (by norm_num) (by norm_num) (by decide) (by decide) 1000).1

end Irregular

/-! ## Counts in bytes -/

/-- The bytes of one rank, rounded down to a multiple of sixteen. -/
def alignedBytes (bytes nranks : Nat) : Nat := bytes / (nranks * 16) * 16

theorem alignedBytes_mul_le (bytes nranks : Nat) : alignedBytes bytes nranks * nranks ≤ bytes := by
  calc alignedBytes bytes nranks * nranks
      = nranks * 16 * (bytes / (nranks * 16)) := by
        rw [alignedBytes]
        ring
    _ ≤ bytes := Nat.mul_div_le _ _

theorem alignedBytes_mono {small large : Nat} (le : small ≤ large) (nranks : Nat) :
    alignedBytes small nranks ≤ alignedBytes large nranks :=
  Nat.mul_le_mul_right _ (Nat.div_le_div_right le)

/-- How the byte counts of a test follow from the size. -/
structure ByteCounts where
  param : Nat
  send : Nat
  recv : Nat
  sendInplace : Nat
  recvInplace : Nat

/-- The byte counts of a collective: `whole` bytes altogether, `base` bytes for
one rank and `total` bytes for the irregular exchange. -/
def Coll.byteCounts (coll : Coll) (whole base total nranks : Nat) : ByteCounts :=
  match coll with
  | .allReduce | .broadcast | .reduce | .sendRecv => ⟨whole, whole, whole, 0, 0⟩
  | .allGather | .gather | .hyperCube => ⟨base, base, base * nranks, base, 0⟩
  | .reduceScatter | .scatter => ⟨base, base * nranks, base, 0, base⟩
  | .alltoAll => ⟨base, base * nranks, base * nranks, 0, 0⟩
  | .alltoAllv => ⟨base, total, total, 0, 0⟩

section Setup

variable {spread : ℚ} {nranks eltSize : Nat}

/-- In bytes, `setupArgs` depends on the element size only where the whole
buffer is moved. -/
theorem setupArgs_eq (size : eltSize ∈ ({1, 2, 4, 8} : Finset Nat)) (some_ : 1 ≤ nranks)
    (coll : Coll) (maxbytes bytes : Nat) :
    setupArgs coll spread maxbytes bytes eltSize nranks =
      let counts := coll.byteCounts (bytes / eltSize * eltSize) (alignedBytes bytes nranks)
        (rankBytes spread nranks (alignedBytes bytes nranks * nranks)) nranks
      { maxbytes := maxbytes
        nbytes := counts.param
        sendBytes := counts.send
        expectedBytes := counts.recv
        sendInplaceOffset := counts.sendInplace
        recvInplaceOffset := counts.recvInplace } := by
  have base : alignedBase (bytes / eltSize) eltSize nranks * eltSize = alignedBytes bytes nranks :=
    alignedBase_mul size bytes nranks
  have bases : alignedBase (bytes / eltSize) eltSize nranks * nranks * eltSize =
      alignedBytes bytes nranks * nranks := by
    rw [Nat.mul_right_comm, base]
  have bases' : nranks * alignedBase (bytes / eltSize) eltSize nranks * eltSize =
      alignedBytes bytes nranks * nranks := by
    rw [Nat.mul_comm nranks, bases]
  have total : alltoAllvComputeMaxCounts spread eltSize nranks _ * eltSize = _ :=
    alltoAllvComputeMaxCounts_mul size some_ (alignedBytes bytes nranks * nranks)
  cases coll <;>
    simp only [setupArgs, CollByteCount.toArgs, Coll.getCollByteCount, Coll.byteCounts,
      allReduceGetCollByteCount, broadcastGetCollByteCount, reduceGetCollByteCount,
      sendRecvGetCollByteCount, wholeCount,
      allGatherGetCollByteCount, gatherGetCollByteCount, hyperCubeGetCollByteCount, concatCount,
      reduceScatterGetCollByteCount, scatterGetCollByteCount, cutCount, alltoAllGetCollByteCount,
      alltoAllvGetCollByteCount, base, bases, bases', total, Nat.zero_mul]

/-- The arithmetic that all byte counts share. -/
theorem totalnbytes_le (low : 0 ≤ spread) (high : spread ≤ 1)
    (size : eltSize ∈ ({1, 2, 4, 8} : Finset Nat)) (some_ : 1 ≤ nranks) (coll : Coll)
    (maxbytes bytes : Nat) :
    (setupArgs coll spread maxbytes bytes eltSize nranks).totalnbytes ≤ bytes := by
  have whole := Nat.div_mul_le_self bytes eltSize
  have bases := alignedBytes_mul_le bytes nranks
  have base : alignedBytes bytes nranks ≤ alignedBytes bytes nranks * nranks :=
    Nat.le_mul_of_pos_right _ some_
  have total := rankBytes_le low high some_ (alignedBytes bytes nranks * nranks)
  rw [setupArgs_eq size some_, ThreadArgs.totalnbytes]
  cases coll <;> simp only [Coll.byteCounts] <;> omega

/-- The expected buffer is sized at element size one. -/
theorem getBuffSize_snd (coll : Coll) (maxbytes : Nat) :
    (coll.getBuffSize spread maxbytes nranks).2 =
      (setupArgs coll spread maxbytes maxbytes 1 nranks).expectedBytes := by
  simp only [Coll.getBuffSize, setupArgs, CollByteCount.toArgs, Nat.div_one, Nat.mul_one]

theorem expectedBytes_le (low : 0 ≤ spread) (high : spread ≤ 1)
    (size : eltSize ∈ ({1, 2, 4, 8} : Finset Nat)) (some_ : 1 ≤ nranks) (coll : Coll)
    {maxbytes bytes : Nat} (le : bytes ≤ maxbytes) :
    (setupArgs coll spread maxbytes bytes eltSize nranks).expectedBytes ≤
      (coll.getBuffSize spread maxbytes nranks).2 := by
  have whole := Nat.div_mul_le_self bytes eltSize
  have base := alignedBytes_mono le nranks
  have bases : alignedBytes bytes nranks * nranks ≤ alignedBytes maxbytes nranks * nranks :=
    Nat.mul_le_mul_right _ base
  have total : rankBytes spread nranks _ ≤ rankBytes spread nranks _ :=
    rankBytes_mono low high bases
  rw [getBuffSize_snd, setupArgs_eq size some_, setupArgs_eq (by decide) some_]
  cases coll <;> simp only [Coll.byteCounts, Nat.div_one, Nat.mul_one] <;> omega

/-- The count passed to the collective stands for `nbytes` bytes. -/
theorem setupArgs_count (size : eltSize ∈ ({1, 2, 4, 8} : Finset Nat)) (coll : Coll)
    (maxbytes bytes : Nat) :
    (setupArgs coll spread maxbytes bytes eltSize nranks).nbytes / eltSize * eltSize =
      (setupArgs coll spread maxbytes bytes eltSize nranks).nbytes := by
  simp only [setupArgs, CollByteCount.toArgs]
  rw [Nat.mul_div_cancel _ (eltSize_pos size)]

/-- What a call sends, from the bytes that its count stands for. -/
theorem bytesSent_le (size : eltSize ∈ ({1, 2, 4, 8} : Finset Nat)) {rank : Nat}
    (mem : rank < nranks) (coll : Coll) {count bytes : Nat} (stands : count * eltSize = bytes)
    (root : Nat) :
    coll.bytesSent spread count eltSize nranks rank root ≤
      (coll.byteCounts bytes bytes (rankBytes spread nranks (bytes * nranks)) nranks).send := by
  have total : count * nranks * eltSize = bytes * nranks := by
    rw [Nat.mul_right_comm, stands]
  have sums : _ = rankBytes spread nranks _ := sum_peerBytes_to size mem (bytes * nranks)
  cases coll <;> simp only [Coll.bytesSent, Coll.byteCounts, stands, total, sums] <;>
    first
      | exact le_rfl
      | exact (Nat.mul_comm _ _).le
      | (split <;> first | exact Nat.zero_le _ | exact le_rfl | exact (Nat.mul_comm _ _).le)

/-- What a call receives, from the bytes that its count stands for. -/
theorem bytesReceived_le (size : eltSize ∈ ({1, 2, 4, 8} : Finset Nat)) {rank : Nat}
    (mem : rank < nranks) (coll : Coll) {count bytes : Nat} (stands : count * eltSize = bytes)
    (root : Nat) :
    coll.bytesReceived spread count eltSize nranks rank root ≤
      (coll.byteCounts bytes bytes (rankBytes spread nranks (bytes * nranks)) nranks).recv := by
  have total : count * nranks * eltSize = bytes * nranks := by
    rw [Nat.mul_right_comm, stands]
  have sums : _ = rankBytes spread nranks _ := sum_peerBytes_from size mem (bytes * nranks)
  cases coll <;> simp only [Coll.bytesReceived, Coll.byteCounts, stands, total, sums] <;>
    first
      | exact le_rfl
      | exact (Nat.mul_comm _ _).le
      | (split <;> first | exact Nat.zero_le _ | exact le_rfl | exact (Nat.mul_comm _ _).le)

/-- Neither end of a call leaves the larger of the two byte counts, in place or not. -/
theorem inplace_add_bytes_le (size : eltSize ∈ ({1, 2, 4, 8} : Finset Nat)) {rank : Nat}
    (mem : rank < nranks) (coll : Coll) (maxbytes bytes root : Nat) :
    let args := setupArgs coll spread maxbytes bytes eltSize nranks
    args.sendInplaceOffset * rank +
        coll.bytesSent spread (args.nbytes / eltSize) eltSize nranks rank root ≤
      args.totalnbytes ∧
    args.recvInplaceOffset * rank +
        coll.bytesReceived spread (args.nbytes / eltSize) eltSize nranks rank root ≤
      args.totalnbytes := by
  intro args
  have stands : args.nbytes / eltSize * eltSize = args.nbytes :=
    setupArgs_count size coll maxbytes bytes
  have sent : _ ≤ (coll.byteCounts _ _ (rankBytes spread nranks _) _).send :=
    bytesSent_le size mem coll stands root
  have received : _ ≤ (coll.byteCounts _ _ (rankBytes spread nranks _) _).recv :=
    bytesReceived_le size mem coll stands root
  have place : alignedBytes bytes nranks * rank + alignedBytes bytes nranks ≤
      alignedBytes bytes nranks * nranks := by
    rw [← Nat.mul_succ]
    exact Nat.mul_le_mul_left _ mem
  have some_ : 1 ≤ nranks := by omega
  have shape : args = _ := setupArgs_eq size some_ coll maxbytes bytes
  generalize args.nbytes / eltSize = count at sent received ⊢
  rw [shape] at sent received ⊢
  rw [ThreadArgs.totalnbytes]
  constructor
  · cases coll <;> simp only [Coll.byteCounts] at sent ⊢ <;> omega
  · cases coll <;> simp only [Coll.byteCounts] at received ⊢ <;> omega

end Setup

/-! ## The run -/

theorem wordSize_le_eight {wordSize : Nat} (size : wordSize ∈ ({1, 2, 4, 8} : Finset Nat)) :
    wordSize ≤ 8 := by
  fin_cases size <;> decide

/-- Both ends of a call stay inside an allocation that is padded by eight bytes for each
element of misalignment. -/
theorem call_inBounds {spread : ℚ} (low : 0 ≤ spread) (high : spread ≤ 1)
    {wordSize nranks rank maxbytes bytes : Nat}
    (size : wordSize ∈ ({1, 2, 4, 8} : Finset Nat)) (mem : rank < nranks)
    (le : bytes ≤ maxbytes) (coll : Coll) (impl : Impl) (inPlace : Bool)
    (iter unalign root : Nat) :
    let args := setupArgs coll spread maxbytes bytes wordSize nranks
    let call := startColl args impl wordSize unalign rank inPlace iter
    args.expectedBytes ≤ (coll.getBuffSize spread maxbytes nranks).2 ∧
      args.steps ≠ 0 ∧
      call.sendAddress + coll.bytesSent spread call.count wordSize nranks rank root ≤
        maxbytes + 8 * unalign ∧
      call.recvAddress + coll.bytesReceived spread call.count wordSize nranks rank root ≤
        maxbytes + 8 * unalign := by
  intro args call
  have some_ : 1 ≤ nranks := by omega
  have fits : args.totalnbytes ≤ args.maxbytes :=
    (totalnbytes_le low high size some_ coll maxbytes bytes).trans le
  obtain ⟨sent, received⟩ :
      args.sendInplaceOffset * rank +
          coll.bytesSent spread (args.nbytes / wordSize) wordSize nranks rank root ≤
        args.totalnbytes ∧
      args.recvInplaceOffset * rank +
          coll.bytesReceived spread (args.nbytes / wordSize) wordSize nranks rank root ≤
        args.totalnbytes :=
    inplace_add_bytes_le size mem coll maxbytes bytes root
  have shifted := ThreadArgs.shift_add_le fits iter
  have padded : unalign * wordSize ≤ 8 * unalign := by
    rw [Nat.mul_comm]
    exact Nat.mul_le_mul_right _ (wordSize_le_eight size)
  have count : call.count = args.nbytes / wordSize := by
    cases impl <;> rfl
  have sendEnd : (if inPlace then args.sendInplaceOffset * rank else 0) ≤
      args.sendInplaceOffset * rank := by
    split
    · exact le_rfl
    · exact Nat.zero_le _
  have recvEnd : (if inPlace then args.recvInplaceOffset * rank else 0) ≤
      args.recvInplaceOffset * rank := by
    split
    · exact le_rfl
    · exact Nat.zero_le _
  have top : args.maxbytes = maxbytes := rfl
  refine ⟨expectedBytes_le low high size some_ coll le, (ThreadArgs.steps_pos fits).ne', ?_, ?_⟩
  · rw [count, startColl_sendAddress]
    omega
  · rw [count, startColl_recvAddress]
    omega

/-- **Buffer bounds of a whole run.** For every collective, element size, rank, size up to the
maximum and iteration, in place or not and on each of the three paths: the expected data fit the
expected buffer, the iteration number has a modulus, and both ends of the call stay inside what
`AllocateBuffs` allocates. All of it holds exactly as long as the padding, an `int`, does not
overflow, which `-u` alone decides; the shift moves a call by whole multiples of the larger
byte count and so never past `maxbytes`. `spread` is that of the generated pattern of `alltoallv`,
whose shares are exact. -/
theorem startColl_inBounds_iff {spread : ℚ} (low : 0 ≤ spread) (high : spread ≤ 1)
    {wordSize nranks rank maxbytes bytes : Nat}
    (size : wordSize ∈ ({1, 2, 4, 8} : Finset Nat)) (mem : rank < nranks)
    (le : bytes ≤ maxbytes) (coll : Coll) (impl : Impl) (inPlace : Bool)
    (iter unalign root : Nat) :
    let args := setupArgs coll spread maxbytes bytes wordSize nranks
    let call := startColl args impl wordSize unalign rank inPlace iter
    (∃ allocated, allocBytes maxbytes unalign = some allocated ∧
      allocated = maxbytes + 8 * unalign ∧
      args.expectedBytes ≤ (coll.getBuffSize spread maxbytes nranks).2 ∧
      args.steps ≠ 0 ∧
      call.sendAddress + coll.bytesSent spread call.count wordSize nranks rank root ≤
        allocated ∧
      call.recvAddress + coll.bytesReceived spread call.count wordSize nranks rank root ≤
        allocated) ↔ unalign < 2 ^ 28 := by
  intro args call
  constructor
  · intro bounds
    obtain ⟨allocated, padded, -⟩ := bounds
    exact (allocBytes_eq_some_iff.1 padded).1
  · intro small
    exact ⟨_, allocBytes_eq_some_iff.2 ⟨small, rfl⟩, rfl,
      call_inBounds low high size mem le coll impl inPlace iter unalign root⟩

/-- The last of three ranks gathers floats in place, one element off alignment. -/
theorem startColl_inBounds_iff_allGather :
    let args := setupArgs .allGather 1 1000 1000 4 3
    let call := startColl args .host 4 1 2 true 7
    ∃ allocated, allocBytes 1000 1 = some allocated ∧
      call.recvAddress + Coll.bytesReceived .allGather 1 call.count 4 3 2 0 ≤ allocated := by
  obtain ⟨allocated, padded, -, -, -, -, received⟩ :=
    (@startColl_inBounds_iff 1 zero_le_one le_rfl 4 3 2 1000 1000 four_mem_eltSizes (by decide)
      le_rfl .allGather .host true 7 1 0).2 (by norm_num)
  exact ⟨allocated, padded, received⟩

/-- `-u 536870912`: the padding overflows, and where it wraps around it is zero, while the floats
of an all-reduce start two GiB into an allocation of one MiB. -/
theorem startColl_outOfBounds :
    let args := setupArgs .allReduce 0 1048576 1048576 4 1
    let call := startColl args .host 4 536870912 0 false 0
    (¬∃ allocated, allocBytes 1048576 536870912 = some allocated ∧
      call.sendAddress + Coll.bytesSent .allReduce 0 call.count 4 1 0 0 ≤ allocated) ∧
      1048576 + sizeT (int32 (8 * 536870912)) <
        call.sendAddress + Coll.bytesSent .allReduce 0 call.count 4 1 0 0 := by
  refine ⟨?_, ?_⟩
  · intro bounds
    obtain ⟨allocated, padded, -⟩ := bounds
    have small := (allocBytes_eq_some_iff.1 padded).1
    norm_num at small
  · have wrapped : sizeT (int32 (8 * 536870912)) = 0 := by
      norm_num [int32, sizeT, Int.bmod]
    rw [wrapped, startColl_sendAddress]
    norm_num [Coll.bytesSent]
    omega

end NcclTests.Collective
