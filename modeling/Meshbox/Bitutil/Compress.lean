/-
This file models the sparse bitset codec of common/bitutil/compress.go, which
the bloom-bits index uses to store its mostly zero bit vectors. The encoding
of a byte string is the encoding of the bitset that marks its non-zero bytes,
one bit per byte with the most significant bit first, followed by the non-zero
bytes themselves. The recursion stops at one byte, which stands for itself,
and a string of zeros encodes to nothing. Each level shrinks the length from n
to (n + 7) / 8, so the levels are nested, innermost first.

The decoder knows the length it must produce. It decodes the bitset of that
length first, reading the whole input, and then hands out input bytes, one to
each set bit, from where the bitset's encoding ended. It rejects a set bit with
no byte left, a set bit past the target, a zero byte handed out, and at the top
level input that no bit used. Those checks make the codec a bijection: decoding
the encoding gives the data back, and whatever decodes is the encoding of what
it decodes to.
-/

import Mathlib.Data.List.Basic
import Mathlib.Data.Nat.Bitwise

namespace Meshbox.Bitutil

/-! ### The codec -/

def errMissingData : String := "missing bytes on input"

def errUnreferencedData : String := "extra bytes on input"

def errExceededTarget : String := "target data size exceeded"

def errZeroContent : String := "zero byte in input content"

/-- The mask of bit i of a bitset within its byte: 1 << (7 - i % 8). -/
def bitMask (i : Nat) : UInt8 :=
  (1 : UInt8) <<< UInt8.ofNat (7 - i % 8)

/-- Whether bit i of the bitset is set, the most significant bit of each byte
first. A bit past the end is clear. -/
def bitSet (bitset : List UInt8) (i : Nat) : Bool :=
  match bitset[i / 8]? with
  | some byte => byte &&& bitMask i != 0
  | none => false

/-- One turn of the loop of bitsetEncodeBytes, at byte b of index i: a
non-zero byte sets its bit and is kept. -/
def gatherStep (acc : List UInt8 × List UInt8) (entry : UInt8 × Nat) : List UInt8 × List UInt8 :=
  if entry.1 ≠ 0 then (acc.1.modify (entry.2 / 8) (· ||| bitMask entry.2), acc.2 ++ [entry.1])
  else acc

/-- The loop of bitsetEncodeBytes: the bitset of the non-zero bytes, and the
non-zero bytes in order. -/
def gather (data : List UInt8) : List UInt8 × List UInt8 :=
  data.zipIdx.foldl gatherStep (List.replicate ((data.length + 7) / 8) 0, [])

theorem length_gatherLoop (data : List UInt8) (n : Nat) (acc : List UInt8 × List UInt8) :
    ((data.zipIdx n).foldl gatherStep acc).1.length = acc.1.length := by
  induction data generalizing n acc with
  | nil => rfl
  | cons b rest inductionHypothesis =>
    rw [List.zipIdx_cons, List.foldl_cons, inductionHypothesis]
    unfold gatherStep
    split <;> simp

/-- The gathered bitset has one bit for each byte. -/
theorem length_gather_fst (data : List UInt8) : (gather data).1.length = (data.length + 7) / 8 := by
  rw [gather, length_gatherLoop, List.length_replicate]

/-- bitsetEncodeBytes: nothing for an empty string or a zero byte, a non-zero
byte for itself, and otherwise the encoding of the bitset of the non-zero bytes
followed by those bytes, or nothing when there are none. -/
def bitsetEncodeBytes (data : List UInt8) : List UInt8 :=
  match data with
  | [] => []
  | [b] => if b = 0 then [] else [b]
  | first :: second :: rest =>
    let gathered := gather (first :: second :: rest)
    if gathered.2.length = 0 then [] else bitsetEncodeBytes gathered.1 ++ gathered.2
termination_by data.length
decreasing_by
  rw [length_gather_fst]
  simp only [List.length_cons]
  omega

/-- CompressBytes: the encoding when it is shorter than the data, a copy of the
data otherwise. -/
def CompressBytes (data : List UInt8) : List UInt8 :=
  let out := bitsetEncodeBytes data
  if out.length < data.length then out else data

/-- One turn of the loop of bitsetDecodePartialBytes, at bit i: a set bit takes
the input byte at ptr into slot i. It fails with no input left, with a slot
past the target, and on a zero byte. -/
def distributeStep (data nonZeroBitset : List UInt8) (state : List UInt8 × Nat) (i : Nat) :
    Except String (List UInt8 × Nat) :=
  if bitSet nonZeroBitset i then
    -- Make sure we have enough data to push into the correct slot
    match data[state.2]? with
    | none => .error errMissingData
    | some byte =>
      if state.1.length ≤ i then .error errExceededTarget
      -- Make sure the data is valid and push into the slot
      else if byte = 0 then .error errZeroContent
      else .ok (state.1.set i byte, state.2 + 1)
  else .ok state

/-- The loop of bitsetDecodePartialBytes over every bit of the bitset, from
target zero bytes and the input position ptr. -/
def distribute (data nonZeroBitset : List UInt8) (target ptr : Nat) : Except String (List UInt8 × Nat) :=
  (List.range (8 * nonZeroBitset.length)).foldlM (distributeStep data nonZeroBitset)
    (List.replicate target 0, ptr)

/-- bitsetDecodePartialBytes: the target bytes decoded from data, and how much
of data they used. The bitset is decoded from the same input first. -/
def bitsetDecodePartialBytes (data : List UInt8) (target : Nat) : Except String (List UInt8 × Nat) :=
  -- Sanity check 0 targets to avoid infinite recursion
  if target = 0 then .ok ([], 0)
  else
    match data with
    | [] => .ok (List.replicate target 0, 0)
    | first :: _ =>
      if target = 1 then
        if first ≠ 0 then .ok ([first], 1) else .ok ([first], 0)
      else
        match bitsetDecodePartialBytes data ((target + 7) / 8) with
        | .error err => .error err
        | .ok (nonZeroBitset, ptr) => distribute data nonZeroBitset target ptr
termination_by target
decreasing_by omega

/-- bitsetDecodeBytes: the partial decoding, which must use all of data. -/
def bitsetDecodeBytes (data : List UInt8) (target : Nat) : Except String (List UInt8) :=
  match bitsetDecodePartialBytes data target with
  | .error err => .error err
  | .ok (out, size) => if size ≠ data.length then .error errUnreferencedData else .ok out

/-- DecompressBytes: data of the target length is a copy of the original,
shorter data is decoded, and longer data is refused. -/
def DecompressBytes (data : List UInt8) (target : Nat) : Except String (List UInt8) :=
  if data.length > target then .error errExceededTarget
  else if data.length = target then .ok data
  else bitsetDecodeBytes data target

/-! ### Bits of a bitset -/

/-- Whether the byte at index i is there and not zero. -/
def nonZeroAt (data : List UInt8) (i : Nat) : Bool :=
  match data[i]? with
  | some b => b != 0
  | none => false

theorem toNat_bitMask (i : Nat) : (bitMask i).toNat = 2 ^ (7 - i % 8) := by
  have everyShift : ∀ k : Fin 8, ((1 : UInt8) <<< UInt8.ofNat k.val).toNat = 2 ^ k.val := by decide
  exact everyShift ⟨7 - i % 8, by omega⟩

/-- The mask tests the bit 7 - i % 8 of the byte. -/
theorem and_bitMask_ne_zero (byte : UInt8) (i : Nat) :
    (byte &&& bitMask i != 0) = byte.toNat.testBit (7 - i % 8) := by
  have masked : (byte &&& bitMask i).toNat = (byte.toNat.testBit (7 - i % 8)).toNat * 2 ^ (7 - i % 8) := by
    rw [UInt8.toNat_and, toNat_bitMask, Nat.and_two_pow]
  rw [Bool.eq_iff_iff, bne_iff_ne, ne_eq, ← UInt8.toNat_inj, masked, UInt8.toNat_zero]
  cases byte.toNat.testBit (7 - i % 8) <;> simp

theorem bitSet_eq (bitset : List UInt8) (i : Nat) :
    bitSet bitset i = match bitset[i / 8]? with
      | some byte => byte.toNat.testBit (7 - i % 8)
      | none => false := by
  unfold bitSet
  split <;> simp [and_bitMask_ne_zero]

/-- A byte is given by its eight bits. -/
theorem byte_eq_of_testBit {x y : UInt8} (bits : ∀ k < 8, x.toNat.testBit k = y.toNat.testBit k) :
    x = y := by
  apply UInt8.toNat_inj.mp
  apply Nat.eq_of_testBit_eq
  intro k
  by_cases small : k < 8
  · exact bits k small
  · have wide : 2 ^ 8 ≤ 2 ^ k := Nat.pow_le_pow_right (by decide) (by omega)
    rw [Nat.testBit_eq_false_of_lt (Nat.lt_of_lt_of_le x.toNat_lt wide),
      Nat.testBit_eq_false_of_lt (Nat.lt_of_lt_of_le y.toNat_lt wide)]

/-- Bitsets of one length with the same bits set are equal. -/
theorem eq_of_bitSet {xs ys : List UInt8} (sameLength : xs.length = ys.length)
    (sameBits : ∀ i, bitSet xs i = bitSet ys i) : xs = ys := by
  apply List.ext_getElem sameLength
  intro j inXs inYs
  apply byte_eq_of_testBit
  intro k small
  have atBit := sameBits (8 * j + (7 - k))
  have byteIndex : (8 * j + (7 - k)) / 8 = j := by omega
  have bitIndex : 7 - (8 * j + (7 - k)) % 8 = k := by omega
  rwa [bitSet_eq, bitSet_eq, byteIndex, bitIndex, List.getElem?_eq_getElem inXs,
    List.getElem?_eq_getElem inYs] at atBit

/-- Setting bit p of a bitset long enough for it sets that bit and no other. -/
theorem bitSet_modify {bitset : List UInt8} {p : Nat} (within : p / 8 < bitset.length) (i : Nat) :
    bitSet (bitset.modify (p / 8) (· ||| bitMask p)) i = (bitSet bitset i || decide (i = p)) := by
  rw [bitSet_eq, bitSet_eq, List.getElem?_modify]
  by_cases sameByte : p / 8 = i / 8
  · have inBitset : i / 8 < bitset.length := sameByte ▸ within
    rw [List.getElem?_eq_getElem inBitset, Option.map_eq_map, Option.map_some, if_pos sameByte]
    simp only [UInt8.toNat_or, toNat_bitMask, Nat.testBit_or, Nat.testBit_two_pow]
    congr 1
    apply decide_eq_decide.mpr
    omega
  · have otherBit : i ≠ p := fun same => sameByte (same ▸ rfl)
    cases bitset[i / 8]? with
    | none => simp [otherBit]
    | some byte => simp [sameByte, otherBit]

@[simp] theorem bitSet_replicate_zero (length i : Nat) : bitSet (List.replicate length 0) i = false := by
  rw [bitSet_eq, List.getElem?_replicate]
  by_cases inside : i / 8 < length <;> simp [inside]

/-! ### The bitset the encoder gathers -/

/-- The non-zero test at i of a string placed from index n, split at its first
byte. -/
theorem nonZeroAt_cons_shift (b : UInt8) (rest : List UInt8) (n i : Nat) :
    (decide (n ≤ i) && nonZeroAt (b :: rest) (i - n)) =
      ((decide (i = n) && b != 0) || (decide (n + 1 ≤ i) && nonZeroAt rest (i - (n + 1)))) := by
  rcases Nat.lt_trichotomy i n with below | atN | above
  · simp [Nat.not_le_of_lt below, Nat.ne_of_lt below, show ¬ n + 1 ≤ i by omega]
  · subst atN
    simp [nonZeroAt]
  · obtain ⟨j, rfl⟩ : ∃ j, i = n + 1 + j := ⟨i - (n + 1), by omega⟩
    have shifted : n + 1 + j - n = j + 1 := by omega
    simp [shifted, nonZeroAt, show n + 1 + j ≠ n by omega, Nat.le_of_lt above]

/-- The loop from index n: the bitset gets the bits of the non-zero bytes, at
their indices, and the bytes are appended. Induction on the bytes left. -/
theorem gatherLoop_spec (data : List UInt8) (n : Nat) (acc : List UInt8 × List UInt8)
    (fits : n + data.length ≤ 8 * acc.1.length) :
    ((data.zipIdx n).foldl gatherStep acc).2 = acc.2 ++ data.filter (· != 0) ∧
      ∀ i, bitSet ((data.zipIdx n).foldl gatherStep acc).1 i =
        (bitSet acc.1 i || (decide (n ≤ i) && nonZeroAt data (i - n))) := by
  induction data generalizing n acc with
  | nil => simp [nonZeroAt]
  | cons b rest inductionHypothesis =>
    rw [List.zipIdx_cons, List.foldl_cons]
    simp only [List.length_cons] at fits
    by_cases zero : b = 0
    · -- a zero byte leaves the accumulator as it is
      have step : gatherStep acc (b, n) = acc := by simp [gatherStep, zero]
      obtain ⟨bytes, bits⟩ := inductionHypothesis (n + 1) acc (by omega)
      rw [step]
      refine ⟨by simp [bytes, zero], fun i => ?_⟩
      simp [bits i, nonZeroAt_cons_shift, zero]
    · have within : n / 8 < acc.1.length := by omega
      have step : gatherStep acc (b, n) = (acc.1.modify (n / 8) (· ||| bitMask n), acc.2 ++ [b]) := by
        simp [gatherStep, zero]
      obtain ⟨bytes, bits⟩ := inductionHypothesis (n + 1) (acc.1.modify (n / 8) (· ||| bitMask n), acc.2 ++ [b])
        (by simp only [List.length_modify]; omega)
      have nonZero : (b != 0) = true := bne_iff_ne.mpr zero
      rw [step]
      refine ⟨by simp [bytes, zero], fun i => ?_⟩
      simp [bits i, bitSet_modify within, nonZeroAt_cons_shift, nonZero, Bool.or_assoc]

theorem gather_snd (data : List UInt8) : (gather data).2 = data.filter (· != 0) := by
  rw [gather, (gatherLoop_spec data 0 _ (by simp; omega)).1, List.nil_append]

/-- The gathered bitset has bit i set exactly when byte i is not zero. -/
theorem bitSet_gather (data : List UInt8) (i : Nat) : bitSet (gather data).1 i = nonZeroAt data i := by
  rw [gather, (gatherLoop_spec data 0 _ (by simp; omega)).2 i]
  simp

/-! ### Non-zero bytes -/

theorem nonZeroAt_eq_true {data : List UInt8} {i : Nat} :
    nonZeroAt data i = true ↔ ∃ inside : i < data.length, data[i] ≠ 0 := by
  unfold nonZeroAt
  by_cases inside : i < data.length
  · simp [inside]
  · simp [inside]

/-- The non-zero bytes are none exactly when no byte is non-zero. -/
theorem filter_eq_nil_iff (data : List UInt8) :
    data.filter (· != 0) = [] ↔ ∀ i, nonZeroAt data i = false := by
  rw [List.filter_eq_nil_iff]
  constructor
  · intro zeros i
    cases atI : nonZeroAt data i with
    | false => rfl
    | true =>
      obtain ⟨inside, nonZero⟩ := nonZeroAt_eq_true.mp atI
      exact absurd (bne_iff_ne.mpr nonZero) (zeros _ (List.getElem_mem inside))
  · intro zeros b member
    obtain ⟨i, inside, rfl⟩ := List.getElem_of_mem member
    have atI := zeros i
    rw [nonZeroAt, List.getElem?_eq_getElem inside] at atI
    simp only [atI, Bool.false_eq_true, not_false_eq_true]

/-- A set bit lies in a non-zero byte. -/
theorem nonZeroAt_of_bitSet {bitset : List UInt8} {i : Nat} (set : bitSet bitset i = true) :
    nonZeroAt bitset (i / 8) = true := by
  rw [bitSet_eq] at set
  unfold nonZeroAt
  split at set
  · rw [bne_iff_ne]
    rintro rfl
    simp at set
  · cases set

/-! ### The encoder -/

/-- The encoder's recursion unfolded once. The lemmas below rewrite with its
cases rather than with the recursion's own equations. -/
theorem bitsetEncodeBytes_eq (data : List UInt8) :
    bitsetEncodeBytes data =
      match data with
      | [] => []
      | [b] => if b = 0 then [] else [b]
      | first :: second :: rest =>
        if (gather (first :: second :: rest)).2.length = 0 then []
        else bitsetEncodeBytes (gather (first :: second :: rest)).1 ++ (gather (first :: second :: rest)).2 := by
  rw [bitsetEncodeBytes.eq_def]

theorem bitsetEncodeBytes_nil : bitsetEncodeBytes [] = [] := by
  rw [bitsetEncodeBytes_eq]

theorem bitsetEncodeBytes_single (b : UInt8) : bitsetEncodeBytes [b] = if b = 0 then [] else [b] := by
  rw [bitsetEncodeBytes_eq]

theorem bitsetEncodeBytes_cons_cons (first second : UInt8) (rest : List UInt8) :
    bitsetEncodeBytes (first :: second :: rest) =
      if (gather (first :: second :: rest)).2.length = 0 then []
      else bitsetEncodeBytes (gather (first :: second :: rest)).1 ++ (gather (first :: second :: rest)).2 := by
  rw [bitsetEncodeBytes_eq]

theorem bitsetEncodeBytes_eq_nil_iff (data : List UInt8) :
    bitsetEncodeBytes data = [] ↔ ∀ i, nonZeroAt data i = false := by
  match data with
  | [] => simp [bitsetEncodeBytes_nil, nonZeroAt]
  | [b] =>
    constructor
    · intro encoded i
      by_cases zero : b = 0
      · cases i <;> simp [nonZeroAt, zero]
      · simp [bitsetEncodeBytes_single, zero] at encoded
    · intro zeros
      have atZero := zeros 0
      simp only [nonZeroAt, List.getElem?_cons_zero, bne_eq_false_iff_eq] at atZero
      simp [bitsetEncodeBytes_single, atZero]
  | first :: second :: rest =>
    rw [bitsetEncodeBytes_cons_cons, gather_snd, ← filter_eq_nil_iff]
    simp only [List.length_eq_zero_iff]
    split
    · next empty => simp [empty]
    · next nonEmpty => simp [nonEmpty]

/-- A string of two or more bytes, not all zero, is encoded as the encoding of
its bitset followed by its non-zero bytes. -/
theorem bitsetEncodeBytes_long {data : List UInt8} (long : 2 ≤ data.length)
    (nonZero : ∃ i, nonZeroAt data i = true) :
    bitsetEncodeBytes data = bitsetEncodeBytes (gather data).1 ++ data.filter (· != 0) := by
  match data, long with
  | first :: second :: rest, _ =>
    have kept : (first :: second :: rest).filter (· != 0) ≠ [] := by
      rw [Ne, filter_eq_nil_iff]
      obtain ⟨i, atI⟩ := nonZero
      exact fun zeros => absurd (zeros i) (by simp [atI])
    rw [bitsetEncodeBytes_cons_cons, gather_snd, if_neg (by simpa using kept)]

/-- The bitset of a string that is not all zero is not all zero. -/
theorem exists_nonZeroAt_gather {data : List UInt8} (nonZero : ∃ i, nonZeroAt data i = true) :
    ∃ j, nonZeroAt (gather data).1 j = true := by
  obtain ⟨i, atI⟩ := nonZero
  exact ⟨i / 8, nonZeroAt_of_bitSet (by rw [bitSet_gather]; exact atI)⟩

/-! ### The decoder's loop on an encoding -/

/-- The loop's state after the bits below m of a bitset the encoder gathered
from d: the bytes of d below m in place, zeros after, and the input position
moved past the non-zero ones. -/
def filledTo (d : List UInt8) (ptr m : Nat) : List UInt8 × Nat :=
  (d.take m ++ List.replicate (d.length - m) 0, ptr + ((d.take m).filter (· != 0)).length)

/-- The non-zero bytes of d around a non-zero byte at m. -/
theorem filter_eq_around {d : List UInt8} {m : Nat} (inside : m < d.length) (nonZero : d[m] ≠ 0) :
    d.filter (· != 0) = (d.take m).filter (· != 0) ++ d[m] :: (d.drop (m + 1)).filter (· != 0) := by
  conv => lhs; rw [← List.take_append_drop m d, List.drop_eq_getElem_cons inside]
  rw [List.filter_append, List.filter_cons, if_pos (bne_iff_ne.mpr nonZero)]

theorem take_succ_of_lt {d : List UInt8} {m : Nat} (inside : m < d.length) :
    d.take (m + 1) = d.take m ++ [d[m]] := by
  rw [List.take_add_one, List.getElem?_eq_getElem inside]
  rfl

/-- Past the last byte of d, or at a zero byte, the loop's state stays. -/
theorem filledTo_succ_of_zero {d : List UInt8} {ptr m : Nat} (zero : nonZeroAt d m = false) :
    filledTo d ptr (m + 1) = filledTo d ptr m := by
  by_cases inside : m < d.length
  · have isZero : d[m] = 0 := by
      simpa [nonZeroAt, List.getElem?_eq_getElem inside] using zero
    have stretch : List.replicate (d.length - m) (0 : UInt8) = 0 :: List.replicate (d.length - (m + 1)) 0 := by
      rw [← List.replicate_succ]
      congr 1
      omega
    simp [filledTo, take_succ_of_lt inside, isZero, stretch]
  · have past : d.length ≤ m := Nat.le_of_not_lt inside
    simp only [filledTo, List.take_of_length_le past, List.take_of_length_le (Nat.le_succ_of_le past),
      Nat.sub_eq_zero_of_le past, Nat.sub_eq_zero_of_le (Nat.le_succ_of_le past)]

/-- One turn of the loop on the encoding of d: a set bit takes d[m], the next
non-zero byte of the input, into slot m. -/
theorem distributeStep_gather (d pre rest : List UInt8) (m : Nat) :
    distributeStep (pre ++ d.filter (· != 0) ++ rest) (gather d).1 (filledTo d pre.length m) m =
      .ok (filledTo d pre.length (m + 1)) := by
  rw [distributeStep, bitSet_gather]
  cases atM : nonZeroAt d m with
  | false => simp [filledTo_succ_of_zero atM]
  | true =>
    obtain ⟨inside, nonZero⟩ := nonZeroAt_eq_true.mp atM
    have input : (pre ++ d.filter (· != 0) ++ rest)[(filledTo d pre.length m).2]? = some d[m] := by
      rw [filter_eq_around inside nonZero]
      have split : pre ++ ((d.take m).filter (· != 0) ++ d[m] :: (d.drop (m + 1)).filter (· != 0)) ++ rest =
          (pre ++ (d.take m).filter (· != 0)) ++ d[m] :: ((d.drop (m + 1)).filter (· != 0) ++ rest) := by
        simp
      rw [split, List.getElem?_append_right (by simp [filledTo])]
      simp [filledTo]
    have room : ¬ (filledTo d pre.length m).1.length ≤ m := by
      simp only [filledTo, List.length_append, List.length_take, List.length_replicate]
      omega
    have stretch : List.replicate (d.length - m) (0 : UInt8) = 0 :: List.replicate (d.length - (m + 1)) 0 := by
      rw [← List.replicate_succ]
      congr 1
      omega
    have prefixLength : (d.take m).length = m := List.length_take_of_le (Nat.le_of_lt inside)
    have filled : (d.take m ++ (0 :: List.replicate (d.length - (m + 1)) 0)).set m d[m] =
        d.take (m + 1) ++ List.replicate (d.length - (m + 1)) 0 := by
      rw [List.set_append_right _ _ (Nat.le_of_eq prefixLength), prefixLength, Nat.sub_self,
        take_succ_of_lt inside]
      simp only [List.set_cons_zero, List.append_assoc, List.singleton_append]
    have counted : ((d.take (m + 1)).filter (· != 0)).length = ((d.take m).filter (· != 0)).length + 1 := by
      rw [take_succ_of_lt inside, List.filter_append]
      simp [nonZero]
    simp only [input, room, if_false, nonZero, if_true]
    simp only [filledTo, stretch, filled, counted, Nat.add_assoc]

/-- The loop over the bits m to m + k of the bitset of d fills those slots. -/
theorem distributeLoop_gather (d pre rest : List UInt8) (k : Nat) :
    ∀ m, (List.range' m k).foldlM (distributeStep (pre ++ d.filter (· != 0) ++ rest) (gather d).1)
        (filledTo d pre.length m) = .ok (filledTo d pre.length (m + k)) := by
  induction k with
  | zero => intro m; rfl
  | succ k inductionHypothesis =>
    intro m
    rw [List.range'_succ, List.foldlM_cons, distributeStep_gather]
    show (List.range' (m + 1) k).foldlM _ (filledTo d pre.length (m + 1)) = _
    rw [inductionHypothesis (m + 1), Nat.add_assoc, Nat.add_comm 1 k]

/-- On input that holds the non-zero bytes of d after pre, the loop over the
bitset of d gives d back and moves past those bytes. -/
theorem distribute_gather (d pre rest : List UInt8) :
    distribute (pre ++ d.filter (· != 0) ++ rest) (gather d).1 d.length pre.length =
      .ok (d, pre.length + (d.filter (· != 0)).length) := by
  have start : (List.replicate d.length (0 : UInt8), pre.length) = filledTo d pre.length 0 := by
    simp [filledTo]
  have covers : d.length ≤ 8 * (gather d).1.length := by
    rw [length_gather_fst]
    omega
  rw [distribute, start, List.range_eq_range', distributeLoop_gather, Nat.zero_add]
  simp [filledTo, List.take_of_length_le covers, Nat.sub_eq_zero_of_le covers]

/-! ### What a successful run of the decoder's loop says -/

/-- What the loop keeps after the bits below m, from input position ptr: the
output has the target length and is zero from m on, below m its non-zero bytes
are where the bitset's bits are set, and the input it used is its non-zero bytes
in order. -/
def Distributed (data bitset : List UInt8) (target ptr m : Nat) (state : List UInt8 × Nat) : Prop :=
  state.1.length = target ∧ ptr ≤ state.2 ∧ state.2 ≤ data.length ∧
    (∀ i, m ≤ i → nonZeroAt state.1 i = false) ∧
    (∀ i, i < m → bitSet bitset i = nonZeroAt state.1 i) ∧
    (data.drop ptr).take (state.2 - ptr) = state.1.filter (· != 0)

theorem nonZeroAt_set_ne {xs : List UInt8} {m i : Nat} (byte : UInt8) (other : i ≠ m) :
    nonZeroAt (xs.set m byte) i = nonZeroAt xs i := by
  simp [nonZeroAt, Ne.symm other]

theorem nonZeroAt_set_self {xs : List UInt8} {m : Nat} (inside : m < xs.length) (byte : UInt8) :
    nonZeroAt (xs.set m byte) m = (byte != 0) := by
  simp [nonZeroAt, inside]

/-- Writing a non-zero byte at m into a string that is zero from m on adds
that byte to the end of its non-zero bytes. -/
theorem filter_set_of_zero_from {xs : List UInt8} {m : Nat} (inside : m < xs.length)
    (zeros : ∀ i, m ≤ i → nonZeroAt xs i = false) {byte : UInt8} (nonZero : byte ≠ 0) :
    (xs.set m byte).filter (· != 0) = xs.filter (· != 0) ++ [byte] := by
  have tailZeros : ∀ k, (xs.drop k).filter (· != 0) = [] ↔ ∀ i, k ≤ i → nonZeroAt xs i = false := by
    intro k
    rw [filter_eq_nil_iff]
    constructor
    · intro zero i above
      have atI := zero (i - k)
      simpa [nonZeroAt, List.getElem?_drop, Nat.add_sub_cancel' above] using atI
    · intro zero j
      have atJ := zero (k + j) (Nat.le_add_right k j)
      simpa [nonZeroAt, List.getElem?_drop] using atJ
  have restZero : (xs.drop (m + 1)).filter (· != 0) = [] :=
    (tailZeros (m + 1)).mpr fun i above => zeros i (by omega)
  have fromZero : (xs.drop m).filter (· != 0) = [] := (tailZeros m).mpr zeros
  have prefixLength : (xs.take m).length = m := List.length_take_of_le (Nat.le_of_lt inside)
  conv => lhs; rw [← List.take_append_drop m xs, List.drop_eq_getElem_cons inside]
  conv => rhs; rw [← List.take_append_drop m xs, List.filter_append, fromZero]
  rw [List.set_append_right _ _ (Nat.le_of_eq prefixLength), prefixLength, Nat.sub_self,
    List.set_cons_zero, List.filter_append, List.filter_cons, if_pos (bne_iff_ne.mpr nonZero), restZero, List.append_nil]

/-- One turn of the loop keeps what it kept, one bit further. -/
theorem Distributed.step {data bitset : List UInt8} {target ptr m : Nat} {state next : List UInt8 × Nat}
    (kept : Distributed data bitset target ptr m state)
    (turn : distributeStep data bitset state m = .ok next) :
    Distributed data bitset target ptr (m + 1) next := by
  obtain ⟨length, started, bounded, zeros, bits, used⟩ := kept
  unfold distributeStep at turn
  split at turn
  · next set =>
    -- a set bit takes the byte at the input position into slot m
    cases atPtr : data[state.2]? with
    | none => simp [atPtr] at turn
    | some byte =>
      simp only [atPtr] at turn
      split at turn
      · cases turn
      · next room =>
        split at turn
        · cases turn
        · next nonZero =>
          cases turn
          have inside : m < state.1.length := Nat.lt_of_not_le room
          have inData : state.2 < data.length := (List.getElem?_eq_some_iff.mp atPtr).1
          refine ⟨by simp [length], by omega, inData, ?_, ?_, ?_⟩
          · intro i above
            rw [nonZeroAt_set_ne byte (by omega)]
            exact zeros i (by omega)
          · intro i below
            by_cases atM : i = m
            · subst atM
              rw [nonZeroAt_set_self inside, set, bne_iff_ne.mpr nonZero]
            · rw [nonZeroAt_set_ne byte atM]
              exact bits i (by omega)
          · have oneMore : state.2 + 1 - ptr = (state.2 - ptr) + 1 := by omega
            rw [filter_set_of_zero_from inside zeros nonZero, ← used, oneMore, List.take_add_one,
              List.getElem?_drop, Nat.add_sub_cancel' started, atPtr]
            rfl
  · next clear =>
    cases turn
    refine ⟨length, started, bounded, fun i above => zeros i (by omega), ?_, used⟩
    intro i below
    by_cases atM : i = m
    · subst atM
      rw [Bool.not_eq_true] at clear
      rw [clear, zeros i (Nat.le_refl i)]
    · exact bits i (by omega)

/-- A run of the loop over the bits m to m + k that ends keeps what it kept,
k bits further. -/
theorem Distributed.run {data bitset : List UInt8} {target ptr : Nat} (k : Nat) :
    ∀ m state final, Distributed data bitset target ptr m state →
      (List.range' m k).foldlM (distributeStep data bitset) state = .ok final →
      Distributed data bitset target ptr (m + k) final := by
  induction k with
  | zero =>
    intro m state final kept ended
    cases ended
    exact kept
  | succ k inductionHypothesis =>
    intro m state final kept ended
    rw [List.range'_succ, List.foldlM_cons] at ended
    cases turn : distributeStep data bitset state m with
    | error err => simp [turn] at ended; cases ended
    | ok next =>
      rw [turn] at ended
      have further := inductionHypothesis (m + 1) next final (kept.step turn) ended
      rwa [Nat.add_assoc, Nat.add_comm 1 k] at further

/-- A run of the decoder's loop that ends gives the target length, uses input
from ptr on, and puts the input's bytes, all non-zero, exactly where the
bitset's bits are set. -/
theorem distribute_ok {data bitset out : List UInt8} {target ptr size : Nat}
    (ended : distribute data bitset target ptr = .ok (out, size)) (start : ptr ≤ data.length) :
    out.length = target ∧ ptr ≤ size ∧ size ≤ data.length ∧
      (∀ i, bitSet bitset i = nonZeroAt out i) ∧
      (data.drop ptr).take (size - ptr) = out.filter (· != 0) := by
  have initial : Distributed data bitset target ptr 0 (List.replicate target 0, ptr) := by
    refine ⟨List.length_replicate, Nat.le_refl ptr, start, ?_, fun i below => absurd below (Nat.not_lt_zero i), ?_⟩
    · intro i _
      by_cases inside : i < target <;> simp [nonZeroAt, inside]
    · simp
  rw [distribute, List.range_eq_range'] at ended
  obtain ⟨length, started, bounded, zeros, bits, used⟩ := Distributed.run _ 0 _ _ initial ended
  refine ⟨length, started, bounded, fun i => ?_, used⟩
  by_cases covered : i < 0 + 8 * bitset.length
  · exact bits i covered
  · have past : bitset.length ≤ i / 8 := by omega
    rw [zeros i (Nat.le_of_not_lt covered), bitSet_eq, List.getElem?_eq_none past]

/-! ### The decoder's levels -/

/-- The decoder's recursion unfolded once, for the lemmas below. -/
theorem bitsetDecodePartialBytes_eq (data : List UInt8) (target : Nat) :
    bitsetDecodePartialBytes data target =
      if target = 0 then .ok ([], 0)
      else
        match data with
        | [] => .ok (List.replicate target 0, 0)
        | first :: _ =>
          if target = 1 then
            if first ≠ 0 then .ok ([first], 1) else .ok ([first], 0)
          else
            match bitsetDecodePartialBytes data ((target + 7) / 8) with
            | .error err => .error err
            | .ok (nonZeroBitset, ptr) => distribute data nonZeroBitset target ptr := by
  rw [bitsetDecodePartialBytes.eq_def]

theorem bitsetDecodePartialBytes_zero (data : List UInt8) : bitsetDecodePartialBytes data 0 = .ok ([], 0) := by
  rw [bitsetDecodePartialBytes_eq, if_pos rfl]

theorem bitsetDecodePartialBytes_empty {target : Nat} (positive : target ≠ 0) :
    bitsetDecodePartialBytes [] target = .ok (List.replicate target 0, 0) := by
  rw [bitsetDecodePartialBytes_eq, if_neg positive]

theorem bitsetDecodePartialBytes_one (first : UInt8) (tail : List UInt8) :
    bitsetDecodePartialBytes (first :: tail) 1 = .ok ([first], if first ≠ 0 then 1 else 0) := by
  rw [bitsetDecodePartialBytes_eq]
  by_cases zero : first = 0 <;> simp [zero]

/-- Past one byte, the decoder hands out input to the bitset it decoded first. -/
theorem bitsetDecodePartialBytes_of_inner {first : UInt8} {tail nonZeroBitset : List UInt8} {target ptr : Nat}
    (long : 2 ≤ target)
    (inner : bitsetDecodePartialBytes (first :: tail) ((target + 7) / 8) = .ok (nonZeroBitset, ptr)) :
    bitsetDecodePartialBytes (first :: tail) target = distribute (first :: tail) nonZeroBitset target ptr := by
  rw [bitsetDecodePartialBytes_eq, if_neg (by omega)]
  dsimp only
  rw [if_neg (by omega), inner]

theorem bitsetDecodePartialBytes_long_ok {first : UInt8} {tail : List UInt8} {target : Nat}
    {result : List UInt8 × Nat} (long : 2 ≤ target)
    (ok : bitsetDecodePartialBytes (first :: tail) target = .ok result) :
    ∃ nonZeroBitset ptr, bitsetDecodePartialBytes (first :: tail) ((target + 7) / 8) = .ok (nonZeroBitset, ptr) ∧
      distribute (first :: tail) nonZeroBitset target ptr = .ok result := by
  rw [bitsetDecodePartialBytes_eq, if_neg (by omega)] at ok
  dsimp only at ok
  rw [if_neg (by omega)] at ok
  split at ok
  · cases ok
  · next nonZeroBitset ptr inner => exact ⟨nonZeroBitset, ptr, inner, ok⟩

/-! ### Decoding the encoding -/

/-- Decoding the encoding of a string that is not all zero, with anything
after it, gives the string back and uses exactly its encoding. The recursion
follows the encoder's, down to the bitset's bitset. -/
theorem bitsetDecodePartialBytes_encode : ∀ (d : List UInt8), (∃ i, nonZeroAt d i = true) → ∀ rest,
    bitsetDecodePartialBytes (bitsetEncodeBytes d ++ rest) d.length = .ok (d, (bitsetEncodeBytes d).length)
  | [], ⟨i, atI⟩, _ => by simp [nonZeroAt] at atI
  | [b], ⟨i, atI⟩, rest => by
    have nonZero : b ≠ 0 := by
      cases i <;> simp [nonZeroAt] at atI
      exact atI
    simp [bitsetEncodeBytes_single, nonZero, bitsetDecodePartialBytes_one]
  | first :: second :: tail, nonZero, rest => by
    -- the bitset, itself not all zero, is decoded first from the same input
    have bitsetNonZero := exists_nonZeroAt_gather nonZero
    have encoded := bitsetEncodeBytes_long (by simp) nonZero
    obtain ⟨head, headRest, startsWith⟩ := List.exists_cons_of_ne_nil
      (mt (bitsetEncodeBytes_eq_nil_iff _).mp (by simpa using bitsetNonZero))
    have inner := bitsetDecodePartialBytes_encode (gather (first :: second :: tail)).1 bitsetNonZero
      ((first :: second :: tail).filter (· != 0) ++ rest)
    have data : bitsetEncodeBytes (gather (first :: second :: tail)).1 ++
        (first :: second :: tail).filter (· != 0) ++ rest =
        head :: (headRest ++ (first :: second :: tail).filter (· != 0) ++ rest) := by
      rw [startsWith]
      simp
    rw [length_gather_fst, ← List.append_assoc, data] at inner
    rw [encoded, data, bitsetDecodePartialBytes_of_inner (by simp) inner, ← data, distribute_gather,
      List.length_append]
termination_by d => d.length
decreasing_by
  rw [length_gather_fst]
  simp only [List.length_cons]
  omega

/-- The decoder gives back what the encoder was given. -/
theorem bitsetDecodeBytes_bitsetEncodeBytes (d : List UInt8) :
    bitsetDecodeBytes (bitsetEncodeBytes d) d.length = .ok d := by
  by_cases nonZero : ∃ i, nonZeroAt d i = true
  · have decoded := bitsetDecodePartialBytes_encode d nonZero []
    rw [List.append_nil] at decoded
    rw [bitsetDecodeBytes, decoded]
    simp
  · -- all zeros encode to nothing, which decodes to zeros
    have zeros : ∀ i, nonZeroAt d i = false := by simpa using nonZero
    have allZero : d = List.replicate d.length 0 := by
      apply List.ext_getElem (by simp)
      intro i inside _
      have atI := zeros i
      simp only [nonZeroAt, List.getElem?_eq_getElem inside, bne_eq_false_iff_eq] at atI
      simp [atI]
    rw [(bitsetEncodeBytes_eq_nil_iff d).mpr zeros, bitsetDecodeBytes]
    by_cases empty : d.length = 0
    · rw [List.length_eq_zero_iff.mp empty, List.length_nil, bitsetDecodePartialBytes_zero]
      rfl
    · rw [bitsetDecodePartialBytes_empty empty, ← allZero]
      rfl

/-- DecompressBytes gives back what CompressBytes was given, whether it
compressed or copied. -/
theorem DecompressBytes_CompressBytes (d : List UInt8) :
    DecompressBytes (CompressBytes d) d.length = .ok d := by
  dsimp only [CompressBytes]
  split
  · next shorter =>
    rw [DecompressBytes, if_neg (by omega), if_neg (by omega), bitsetDecodeBytes_bitsetEncodeBytes]
  · rw [DecompressBytes, if_neg (by omega), if_pos rfl]

/-! ### Only encodings decode -/

/-- A non-zero byte has a set bit. -/
theorem exists_bitSet_of_nonZeroAt {bitset : List UInt8} {j : Nat} (nonZero : nonZeroAt bitset j = true) :
    ∃ i, bitSet bitset i = true := by
  obtain ⟨inside, byteNonZero⟩ := nonZeroAt_eq_true.mp nonZero
  have positive : bitset[j].toNat ≠ 0 := fun zero => byteNonZero (UInt8.toNat_inj.mp zero)
  obtain ⟨k, setK⟩ := Nat.exists_testBit_of_ne_zero positive
  have small : k < 8 := by
    by_contra large
    have wide : 2 ^ 8 ≤ 2 ^ k := Nat.pow_le_pow_right (by decide) (by omega)
    rw [Nat.testBit_eq_false_of_lt (Nat.lt_of_lt_of_le bitset[j].toNat_lt wide)] at setK
    cases setK
  refine ⟨8 * j + (7 - k), ?_⟩
  have byteIndex : (8 * j + (7 - k)) / 8 = j := by omega
  have bitIndex : 7 - (8 * j + (7 - k)) % 8 = k := by omega
  rw [bitSet_eq, byteIndex, bitIndex, List.getElem?_eq_getElem inside]
  exact setK

/-- Whatever a level of the decoder decodes is the encoding of its output,
followed by input it did not use. Induction along the decoder's levels. -/
theorem bitsetEncodeBytes_of_partialDecode (data : List UInt8) (target : Nat) :
    ∀ out size, bitsetDecodePartialBytes data target = .ok (out, size) →
      out.length = target ∧ size ≤ data.length ∧ bitsetEncodeBytes out = data.take size := by
  induction target using Nat.strong_induction_on with
  | _ target inductionHypothesis =>
    intro out size decoded
    by_cases zeroTarget : target = 0
    · subst zeroTarget
      rw [bitsetDecodePartialBytes_zero] at decoded
      cases decoded
      simp [bitsetEncodeBytes_nil]
    match data, decoded with
    | [], decoded =>
      rw [bitsetDecodePartialBytes_empty zeroTarget] at decoded
      cases decoded
      refine ⟨List.length_replicate, Nat.le_refl 0, (bitsetEncodeBytes_eq_nil_iff _).mpr fun i => ?_⟩
      by_cases inside : i < target <;> simp [nonZeroAt, inside]
    | first :: tail, decoded =>
      by_cases oneTarget : target = 1
      · subst oneTarget
        rw [bitsetDecodePartialBytes_one] at decoded
        cases decoded
        by_cases zero : first = 0 <;> simp [zero, bitsetEncodeBytes_single]
      -- a longer target: the bitset first, then the bytes handed out
      obtain ⟨bitset, ptr, inner, handed⟩ := bitsetDecodePartialBytes_long_ok (by omega) decoded
      obtain ⟨bitsetLength, ptrBound, bitsetEncoded⟩ :=
        inductionHypothesis ((target + 7) / 8) (by omega) bitset ptr inner
      obtain ⟨length, started, bounded, bits, used⟩ := distribute_ok handed ptrBound
      refine ⟨length, bounded, ?_⟩
      by_cases nonZero : ∃ i, nonZeroAt out i = true
      · have sameBitset : (gather out).1 = bitset := by
          apply eq_of_bitSet (by rw [length_gather_fst, length, bitsetLength])
          intro i
          rw [bitSet_gather, bits]
        have whole : ptr + (size - ptr) = size := by omega
        rw [bitsetEncodeBytes_long (by omega) nonZero, sameBitset, bitsetEncoded, ← used, ← List.take_add,
          whole]
      · -- no byte was handed out, so the bitset is zero and no input was used
        have zeros : ∀ i, nonZeroAt out i = false := by simpa using nonZero
        have bitsetZeros : ∀ j, nonZeroAt bitset j = false := by
          intro j
          cases atJ : nonZeroAt bitset j with
          | false => rfl
          | true =>
            obtain ⟨i, setI⟩ := exists_bitSet_of_nonZeroAt atJ
            rw [bits, zeros i] at setI
            cases setI
        have noPtr : ptr = 0 := by
          have taken := bitsetEncoded.symm
          rw [(bitsetEncodeBytes_eq_nil_iff bitset).mpr bitsetZeros, List.take_eq_nil_iff] at taken
          simpa using taken
        have noSize : size = 0 := by
          have taken := used
          rw [(filter_eq_nil_iff out).mpr zeros, noPtr, List.drop_zero, Nat.sub_zero,
            List.take_eq_nil_iff] at taken
          simpa using taken
        rw [noSize, (bitsetEncodeBytes_eq_nil_iff out).mpr zeros, List.take_zero]

/-- What bitsetDecodeBytes accepts is the encoding of what it decodes to. -/
theorem bitsetEncodeBytes_of_bitsetDecodeBytes {c d : List UInt8} {target : Nat}
    (decoded : bitsetDecodeBytes c target = .ok d) : bitsetEncodeBytes d = c := by
  unfold bitsetDecodeBytes at decoded
  split at decoded
  · cases decoded
  · next out size decodedPartially =>
    split at decoded
    · cases decoded
    · next used =>
      cases decoded
      rw [(bitsetEncodeBytes_of_partialDecode c target d size decodedPartially).2.2, Decidable.of_not_not used,
        List.take_length]

/-! ### The codec is a bijection -/

/-- Every byte string comes back from CompressBytes and from
bitsetEncodeBytes, and bitsetDecodeBytes accepts only encodings, each of what
it decodes to. -/
theorem bitsetCodec_bijective :
    (∀ d : List UInt8, DecompressBytes (CompressBytes d) d.length = .ok d ∧
        bitsetDecodeBytes (bitsetEncodeBytes d) d.length = .ok d) ∧
      ∀ (c : List UInt8) (target : Nat) (d : List UInt8),
        bitsetDecodeBytes c target = .ok d → bitsetEncodeBytes d = c := by
  refine ⟨fun d => ⟨DecompressBytes_CompressBytes d, bitsetDecodeBytes_bitsetEncodeBytes d⟩, ?_⟩
  intro c target d decoded
  exact bitsetEncodeBytes_of_bitsetDecodeBytes decoded

/-- Two bytes, the first non-zero: the bitset 0x80 and the byte itself. -/
theorem bitsetCodec_bijective_sample :
    bitsetDecodeBytes [0x80, 5] 2 = .ok [5, 0] ∧ bitsetEncodeBytes [5, 0] = [0x80, 5] := by
  have decoded : bitsetDecodeBytes [0x80, 5] 2 = .ok [5, 0] := by
    rw [bitsetDecodeBytes, bitsetDecodePartialBytes_of_inner (Nat.le_refl 2) (bitsetDecodePartialBytes_one 0x80 [5])]
    rfl
  exact ⟨decoded, bitsetCodec_bijective.2 _ _ _ decoded⟩

end Meshbox.Bitutil
