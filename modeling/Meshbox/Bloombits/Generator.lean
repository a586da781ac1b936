import Mathlib
import Meshbox.Bloombits.Matcher
import Meshbox.Library.BigEndian
import Meshbox.Library.Outcome
import Meshbox.State.StateDB

/-
This file models the side of the bloom-bit index that writes it: the bloom of a
block's logs (bloom9, LogsBloom and CreateBloom of core/types), the Generator
of core/bloombits, which rotates the blooms of a section into one vector per
bloom bit, and the BloomIndexer of eth/bloombits.go, which the chain indexer
resets for a section and hands the section's headers in order.

Three numberings of one bit meet here. bloom9 sets bit k of a big integer, and
a Bloom holds that integer's big-endian bytes, so bit k is bit k % 8 of byte
255 - k / 8, where AddBloom reads it. AddBloom writes block j of the section at
bit 7 - j % 8 of byte j / 8 of bit k's vector, where the matcher reads it
(bitAt). The lemmas below show that each pair agrees, and that the bits
calcBloomIndexes gives a key are those bloom9 sets for it.

Bitset compares the bit it is asked for with the number of blocks of a
section, not with the number of bloom bits, so it refuses every bit from
sections on; the vectors themselves are the generator's either way.
-/

namespace Meshbox.Bloombits

open Meshbox.State

/-- BloomByteLength: the bytes of a header's log bloom. -/
def BloomByteLength : Nat := 256

/-- BloomBitLength: the bits of a header's log bloom. -/
def BloomBitLength : Nat := 8 * BloomByteLength

/-- types.Bloom. -/
abbrev Bloom := Vector UInt8 BloomByteLength

/-- Bloom.Big: the bloom read as a big-endian number. -/
def Bloom.Big (b : Bloom) : Nat := BigEndian.ofBytes b.toList

section Keccak

variable (keccak : List UInt8 → Meshbox.Hash)

/-- bloom9: for each of the first three byte pairs of the key's hash, the bit
the pair names modulo 2048, set in a big integer. The loop's i runs over the
even indices below 6. -/
def bloom9 (b : List UInt8) : Nat :=
  let b := keccak b
  ((List.finRange 6).filter fun i => i.val % 2 = 0).foldl (fun r i =>
    r ||| 1 <<< (((b[i.val + 1]).toNat + (b[i.val]).toNat <<< 8) &&& 2047)) 0

/-- LogsBloom: the bloom9 bits of every log's address and topics. -/
def LogsBloom (logs : List Log) : Nat :=
  logs.foldl (fun bin log =>
    log.Topics.foldl (fun bin b => bin ||| bloom9 keccak b.toList) (bin ||| bloom9 keccak log.Address.toList)) 0

/-- BytesToBloom: the bytes right-aligned in a zero bloom, as SetBytes copies
them, or an abort when there are more than BloomByteLength. -/
def BytesToBloom (b : List UInt8) : Outcome Empty Bloom :=
  if fits : b.length ≤ BloomByteLength then
    .ok ⟨(List.replicate (BloomByteLength - b.length) 0 ++ b).toArray, by
      rw [List.size_toArray, List.length_append, List.length_replicate]
      omega⟩
  else .panic

/-- CreateBloom: the receipts' log blooms ORed, as a Bloom. A receipt is given
by its logs, the field CreateBloom reads. -/
def CreateBloom (receipts : List (List Log)) : Outcome Empty Bloom :=
  BytesToBloom (BigEndian.toBytes (receipts.foldl (fun bin logs => bin ||| LogsBloom keccak logs) 0))

/-- BloomLookup: every bit bloom9 sets for the topic is set in the bloom. -/
def BloomLookup (bin : Bloom) (topic : List UInt8) : Bool :=
  let bloom := bin.Big
  let cmp := bloom9 keccak topic
  bloom &&& cmp == cmp

end Keccak

/-! ### The generator -/

/-- errSectionOutOfBounds. -/
def errSectionOutOfBounds : String := "section out of bounds"

/-- Generator: the rotated blooms, one vector per bloom bit; the number of
blocks of a section; and the next block to add. -/
structure Generator where
  blooms : Vector (List UInt8) BloomBitLength
  sections : Nat
  nextBit : Nat

/-- NewGenerator: a zero vector of sections / 8 bytes for every bloom bit. -/
def NewGenerator (sections : Nat) : Except String Generator :=
  if sections % 8 ≠ 0 then .error "section count not multiple of 8"
  else .ok { blooms := Vector.replicate BloomBitLength (List.replicate (sections / 8) 0), sections, nextBit := 0 }

/-- AddBloom: the bloom of the next block of the section; each bit set in the
bloom is set at the block's place in that bit's vector. -/
def Generator.AddBloom (b : Generator) (index : Nat) (bloom : Bloom) : Except String Generator :=
  if b.nextBit ≥ b.sections then .error errSectionOutOfBounds
  else if b.nextBit ≠ index then .error "bloom filter with unexpected index"
  else
    let byteIndex := b.nextBit / 8
    let bitMask : UInt8 := 1 <<< (7 - b.nextBit % 8).toUInt8
    .ok { b with
      blooms := b.blooms.mapFinIdx fun i column _ =>
        let bloomByteIndex := BloomByteLength - 1 - i / 8
        let bloomBitMask : UInt8 := 1 <<< (i % 8).toUInt8
        have inside : bloomByteIndex < BloomByteLength := by
          unfold bloomByteIndex BloomByteLength
          omega
        if bloom[bloomByteIndex] &&& bloomBitMask ≠ 0 then column.modify byteIndex (· ||| bitMask) else column
      nextBit := b.nextBit + 1 }

/-- Bitset: the vector of bloom bit idx once every block is added. The bound idx
is checked against is the number of blocks of a section; an index past the
bloom bits aborts. -/
def Generator.Bitset (b : Generator) (idx : Nat) : Outcome String (List UInt8) :=
  if b.nextBit ≠ b.sections then .error "bloom not fully generated yet"
  else if idx ≥ b.sections then .error errSectionOutOfBounds
  else match b.blooms[idx]? with
    | some bits => .ok bits
    | none => .panic

/-- BloomIndexer: the section size, the generator, and the section being
indexed (its field section, a Lean keyword). The head hash, which only Commit
writes out, is left out. -/
structure BloomIndexer where
  size : UInt64
  gen : Generator
  sectionIndex : UInt64

/-- Reset of an indexer of sections of size blocks: a fresh generator for the
section. -/
def BloomIndexer.Reset (size sectionIndex : UInt64) : Except String BloomIndexer :=
  (NewGenerator size.toNat).map fun gen => { size, gen, sectionIndex }

/-- Process: the header's bloom added at the header's place in the section. An
error of AddBloom is dropped. -/
def BloomIndexer.Process (b : BloomIndexer) (number : UInt64) (bloom : Bloom) : BloomIndexer :=
  match b.gen.AddBloom (number - b.sectionIndex * b.size).toNat bloom with
  | .ok gen => { b with gen }
  | .error _ => b

/-- One turn of processSection's loop over the blocks of a section: the header
of block k of the section processed. -/
def processHeader (size sectionIndex : UInt64) (bloomOf : UInt64 → Bloom) (b : BloomIndexer) (k : Nat) :
    BloomIndexer :=
  let number := sectionIndex * size + UInt64.ofNat k
  b.Process number (bloomOf number)

/-- ChainIndexer.processSection up to Commit: Reset, then Process for each block
of the section in order, block number carrying bloomOf number. The checks that
the canonical headers exist and link up are left out. -/
def processHeaders (size sectionIndex : UInt64) (bloomOf : UInt64 → Bloom) : Except String BloomIndexer :=
  (BloomIndexer.Reset size sectionIndex).map fun b =>
    (List.range size.toNat).foldl (processHeader size sectionIndex bloomOf) b

/-! ### Bits of bytes -/

theorem bitAt_replicate_zero (n j : Nat) : bitAt (List.replicate n 0) j = false := by
  have zero : (List.replicate n (0 : UInt8)).getD (j / 8) 0 = 0 := by
    rw [List.getD_eq_getElem?_getD, List.getElem?_replicate]
    split <;> rfl
  unfold bitAt
  rw [zero]
  exact Nat.zero_testBit _

theorem toNat_one_shiftLeft {bit : Nat} (small : bit < 8) : (1 <<< bit.toUInt8 : UInt8).toNat = 2 ^ bit := by
  interval_cases bit <;> rfl

/-- The test a mask of one bit makes is a bit of the byte. -/
theorem and_shiftLeft_ne_zero (x : UInt8) {bit : Nat} (small : bit < 8) :
    x &&& (1 <<< bit.toUInt8) ≠ 0 ↔ x.toNat.testBit bit = true := by
  have bits : ∀ i, (x.toNat &&& 2 ^ bit).testBit i = (x.toNat.testBit i && decide (bit = i)) := by
    intro i
    rw [Nat.testBit_and, Nat.testBit_two_pow]
  rw [ne_eq, ← UInt8.toNat_inj, UInt8.toNat_and, toNat_one_shiftLeft small, UInt8.toNat_zero]
  constructor
  · intro nonzero
    by_contra unset
    apply nonzero
    apply Nat.eq_of_testBit_eq
    intro i
    rw [bits, Nat.zero_testBit]
    by_cases same : bit = i
    · subst same
      simpa using unset
    · simp [same]
  · intro set zero
    have := bits bit
    rw [zero, Nat.zero_testBit, set] at this
    simp at this

/-- Setting block n's bit of a vector changes that bit only. -/
theorem bitAt_modify_or (column : List UInt8) {n : Nat} (inside : n / 8 < column.length) (j : Nat) :
    bitAt (column.modify (n / 8) (· ||| 1 <<< (7 - n % 8).toUInt8)) j = (bitAt column j || decide (j = n)) := by
  unfold bitAt
  by_cases sameByte : n / 8 = j / 8
  · -- the byte of block n: its bit 7 - n % 8 is set
    rw [← sameByte, List.getD_eq_getElem _ _ (by rw [List.length_modify]; exact inside), List.getElem_modify,
      if_pos rfl, List.getD_eq_getElem _ _ inside, UInt8.toNat_or, toNat_one_shiftLeft (by omega),
      Nat.testBit_or, Nat.testBit_two_pow]
    congr 1
    rw [decide_eq_decide]
    omega
  · have different : j ≠ n := fun same => sameByte (by rw [same])
    rw [List.getD_eq_getElem?_getD, List.getElem?_modify_ne _ _ sameByte, ← List.getD_eq_getElem?_getD]
    simp [different]

/-- Bit i of a bloom, where AddBloom reads it, is bit i of the big integer. -/
theorem bloom_test_iff (bloom : Bloom) {i : Nat} (inside : i < BloomBitLength)
    (byteInside : BloomByteLength - 1 - i / 8 < BloomByteLength) :
    bloom[BloomByteLength - 1 - i / 8] &&& (1 <<< (i % 8).toUInt8) ≠ 0 ↔ bloom.Big.testBit i = true := by
  rw [and_shiftLeft_ne_zero _ (Nat.mod_lt i (by decide)), Bloom.Big,
    BigEndian.testBit_ofBytes _ (by rw [Vector.length_toList]; exact inside), Vector.length_toList,
    List.getD_eq_getElem _ _ (by rw [Vector.length_toList]; unfold BloomByteLength; omega), Vector.getElem_toList]

/-! ### Blooms of logs -/

/-- A fold whose step sets, at bit i, the bit p says for each element. -/
theorem testBit_foldl {α : Type} {step : Nat → α → Nat} {i : Nat} {p : α → Bool}
    (steps : ∀ acc x, (step acc x).testBit i = (acc.testBit i || p x)) (l : List α) (init : Nat) :
    (l.foldl step init).testBit i = (init.testBit i || l.any p) := by
  induction l generalizing init with
  | nil => simp
  | cons x rest inductionHypothesis =>
    rw [List.foldl_cons, inductionHypothesis, steps, List.any_cons, Bool.or_assoc]

/-- A fold whose step stays below 2^n stays below 2^n. -/
theorem foldl_lt_two_pow {α : Type} {step : Nat → α → Nat} {n : Nat}
    (steps : ∀ acc x, acc < 2 ^ n → step acc x < 2 ^ n) (l : List α) {init : Nat} (bound : init < 2 ^ n) :
    l.foldl step init < 2 ^ n := by
  induction l generalizing init with
  | nil => exact bound
  | cons x rest inductionHypothesis => exact inductionHypothesis (steps init x bound)

/-- bloom9's bit for a byte pair is calcBloomIndexes' index for it. -/
theorem bloom9_index (hi lo : UInt8) : (lo.toNat + hi.toNat <<< 8) &&& 2047 = (hi.toNat <<< 8 &&& 2047) + lo.toNat := by
  rw [show (2047 : Nat) = 2 ^ 11 - 1 from rfl, Nat.and_two_pow_sub_one_eq_mod, Nat.and_two_pow_sub_one_eq_mod,
    Nat.shiftLeft_eq]
  have := lo.toNat_lt
  omega

section Keccak

variable (keccak : List UInt8 → Meshbox.Hash)

/-- The bits bloom9 sets for a key are the three calcBloomIndexes gives it. -/
theorem testBit_bloom9 (key : List UInt8) (bit : Nat) :
    (bloom9 keccak key).testBit bit = decide (bit ∈ (calcBloomIndexes keccak key).toList) := by
  unfold bloom9 calcBloomIndexes
  rw [testBit_foldl (p := fun i : Fin 6 => decide ((((keccak key)[i.val]).toNat <<< 8 &&& 2047) +
      ((keccak key)[i.val + 1]).toNat = bit)) ?_ _ 0, Nat.zero_testBit, Bool.false_or]
  · -- the loop's indices 0, 2 and 4 are twice the indexes' 0, 1 and 2
    have evens : ((List.finRange 6).filter fun i => i.val % 2 = 0) = [0, 2, 4] := by decide
    rw [evens, Vector.toList_ofFn, List.ofFn_succ, List.ofFn_succ, List.ofFn_succ, List.ofFn_zero]
    simp [eq_comm]
  · intro acc i
    rw [Nat.testBit_or, Nat.one_shiftLeft, Nat.testBit_two_pow, bloom9_index]

theorem bloom9_lt (key : List UInt8) : bloom9 keccak key < 2 ^ BloomBitLength := by
  refine Nat.lt_pow_two_of_testBit _ fun i above => ?_
  rw [testBit_bloom9, decide_eq_false_iff_not, calcBloomIndexes, Vector.toList_ofFn, List.mem_ofFn]
  rintro ⟨index, found⟩
  have bounded : ((keccak key)[2 * index.val + 1].toNat + (keccak key)[2 * index.val].toNat <<< 8) &&& 2047 ≤ 2047 :=
    Nat.and_le_right
  rw [bloom9_index, found] at bounded
  unfold BloomBitLength BloomByteLength at above
  omega

/-- The bits calcBloomIndexes gives a key are bloom bits. -/
theorem calcBloomIndexes_lt (key : List UInt8) : ∀ bit ∈ (calcBloomIndexes keccak key).toList, bit < BloomBitLength := by
  intro bit member
  by_contra above
  have set : (bloom9 keccak key).testBit bit = true := by
    rw [testBit_bloom9, decide_eq_true member]
  have below : bloom9 keccak key < 2 ^ bit :=
    lt_of_lt_of_le (bloom9_lt keccak key) (Nat.pow_le_pow_right (by decide) (by omega))
  rw [Nat.testBit_lt_two_pow below] at set
  exact Bool.false_ne_true set

/-- LogsBloom has a bit when bloom9 sets it for some log's address or topic. -/
theorem testBit_LogsBloom (logs : List Log) (bit : Nat) :
    (LogsBloom keccak logs).testBit bit = logs.any fun log =>
      (bloom9 keccak log.Address.toList).testBit bit || log.Topics.any fun b => (bloom9 keccak b.toList).testBit bit := by
  unfold LogsBloom
  rw [testBit_foldl ?_ _ 0, Nat.zero_testBit, Bool.false_or]
  intro bin log
  rw [testBit_foldl (p := fun b : Meshbox.Hash => (bloom9 keccak b.toList).testBit bit) ?_, Nat.testBit_or,
    Bool.or_assoc]
  intro acc b
  rw [Nat.testBit_or]

theorem LogsBloom_lt (logs : List Log) : LogsBloom keccak logs < 2 ^ BloomBitLength := by
  refine foldl_lt_two_pow (fun bin log bound => ?_) logs (Nat.two_pow_pos _)
  exact foldl_lt_two_pow (fun acc b accBound => Nat.or_lt_two_pow accBound (bloom9_lt keccak _)) _
    (Nat.or_lt_two_pow bound (bloom9_lt keccak _))

/-- The receipts' blooms ORed fit in a Bloom: CreateBloom never aborts, and the
bloom it makes is the OR read back. -/
theorem CreateBloom_ok (receipts : List (List Log)) :
    ∃ bloom, CreateBloom keccak receipts = .ok bloom ∧
      bloom.Big = receipts.foldl (fun bin logs => bin ||| LogsBloom keccak logs) 0 := by
  have bound : receipts.foldl (fun bin logs => bin ||| LogsBloom keccak logs) 0 < 256 ^ BloomByteLength := by
    calc _ < 2 ^ BloomBitLength :=
          foldl_lt_two_pow (fun bin logs below => Nat.or_lt_two_pow below (LogsBloom_lt keccak logs)) _
            (Nat.two_pow_pos _)
      _ = 256 ^ BloomByteLength := by
          rw [BloomBitLength, Nat.pow_mul]
  unfold CreateBloom BytesToBloom
  rw [dif_pos (BigEndian.length_toBytes_le bound)]
  refine ⟨_, rfl, ?_⟩
  rw [Bloom.Big, Vector.toList_mk, List.toList_toArray, BigEndian.ofBytes_zeros_append, BigEndian.ofBytes_toBytes]

/-- The bloom CreateBloom makes has every bit calcBloomIndexes gives the address
or a topic of one of the receipts' logs. -/
theorem CreateBloom_has_log_keys {receipts : List (List Log)} {bloom : Bloom}
    (created : CreateBloom keccak receipts = .ok bloom) {logs : List Log} (inReceipts : logs ∈ receipts)
    {log : Log} (inLogs : log ∈ logs) {key : List UInt8}
    (logged : key = log.Address.toList ∨ ∃ topic ∈ log.Topics, key = topic.toList) :
    ∀ bit ∈ (calcBloomIndexes keccak key).toList, bloom.Big.testBit bit := by
  intro bit member
  obtain ⟨made, createdEq, value⟩ := CreateBloom_ok keccak receipts
  rw [created] at createdEq
  cases createdEq
  have keyBit : (bloom9 keccak key).testBit bit = true := by
    rw [testBit_bloom9, decide_eq_true_eq]
    exact member
  rw [value, testBit_foldl (p := fun logs => (LogsBloom keccak logs).testBit bit) (fun bin logs => Nat.testBit_or _ _ _),
    Nat.zero_testBit, Bool.false_or, List.any_eq_true]
  refine ⟨logs, inReceipts, ?_⟩
  rw [testBit_LogsBloom, List.any_eq_true]
  refine ⟨log, inLogs, ?_⟩
  rcases logged with address | ⟨topic, inTopics, topicKey⟩
  · rw [← address, keyBit, Bool.true_or]
  · rw [Bool.or_eq_true, List.any_eq_true]
    exact Or.inr ⟨topic, inTopics, topicKey ▸ keyBit⟩

/-- BloomLookup finds a key exactly when the three bits calcBloomIndexes gives it
are set in the bloom. -/
theorem BloomLookup_iff (bin : Bloom) (topic : List UInt8) :
    BloomLookup keccak bin topic = true ↔ ∀ bit ∈ (calcBloomIndexes keccak topic).toList, bin.Big.testBit bit := by
  unfold BloomLookup
  rw [beq_iff_eq]
  constructor
  · intro covered bit member
    have atBit := congrArg (fun n => Nat.testBit n bit) covered
    simp only [Nat.testBit_and, testBit_bloom9, decide_eq_true member, Bool.and_true] at atBit
    exact atBit
  · intro covered
    apply Nat.eq_of_testBit_eq
    intro bit
    rw [Nat.testBit_and, testBit_bloom9]
    by_cases member : bit ∈ (calcBloomIndexes keccak topic).toList
    · rw [decide_eq_true member, covered bit member]
      rfl
    · rw [decide_eq_false member, Bool.and_false]

end Keccak

/-! ### The generator's invariant -/

/-- Rotated bloomAt gen: gen holds blocks 0 to nextBit - 1 of a section, block j
with bloom bloomAt j. Every bloom bit's vector has a bit for each block of the
section, and at block j it has the bloom's bit once the block is added. -/
structure Rotated (bloomAt : Nat → Bloom) (gen : Generator) : Prop where
  aligned : gen.sections % 8 = 0
  added : gen.nextBit ≤ gen.sections
  sized : ∀ (bit : Nat) (inside : bit < BloomBitLength), gen.blooms[bit].length = gen.sections / 8
  bits : ∀ (bit : Nat) (inside : bit < BloomBitLength) (j : Nat),
    bitAt gen.blooms[bit] j = (decide (j < gen.nextBit) && (bloomAt j).Big.testBit bit)

section Rotation

variable {bloomAt : Nat → Bloom}

/-- A fresh generator holds no block. -/
theorem NewGenerator_rotated {sections : Nat} (aligned : sections % 8 = 0) :
    ∃ gen, NewGenerator sections = .ok gen ∧ gen.sections = sections ∧ gen.nextBit = 0 ∧ Rotated bloomAt gen := by
  refine ⟨_, if_neg (by omega), rfl, rfl, aligned, Nat.zero_le _, fun bit inside => ?_, fun bit inside j => ?_⟩
  · rw [Vector.getElem_replicate, List.length_replicate]
  · rw [Vector.getElem_replicate, bitAt_replicate_zero]
    rfl

/-- AddBloom of the next block keeps Rotated, with one block more. -/
theorem AddBloom_rotated {gen : Generator} (rotated : Rotated bloomAt gen) (room : gen.nextBit < gen.sections) :
    ∃ next, gen.AddBloom gen.nextBit (bloomAt gen.nextBit) = .ok next ∧ next.sections = gen.sections ∧
      next.nextBit = gen.nextBit + 1 ∧ Rotated bloomAt next := by
  have byteInside : ∀ bit (inside : bit < BloomBitLength), gen.nextBit / 8 < gen.blooms[bit].length := by
    intro bit inside
    rw [rotated.sized bit inside]
    have := rotated.aligned
    omega
  unfold Generator.AddBloom
  rw [if_neg (by omega), if_neg (by omega)]
  refine ⟨_, rfl, rfl, rfl, rotated.aligned, by dsimp only; omega, fun bit inside => ?_, fun bit inside j => ?_⟩
  · dsimp only
    rw [Vector.getElem_mapFinIdx]
    split
    · rw [List.length_modify, rotated.sized bit inside]
    · exact rotated.sized bit inside
  · dsimp only
    rw [Vector.getElem_mapFinIdx]
    -- the block's bit is set exactly when the bloom has the bit
    have test := bloom_test_iff (bloomAt gen.nextBit) inside (by unfold BloomByteLength; omega)
    split
    · rename_i set
      rw [bitAt_modify_or _ (byteInside bit inside), rotated.bits bit inside]
      have bloomBit := test.mp set
      by_cases here : j = gen.nextBit
      · subst here
        simp [bloomBit]
      · simp only [here, decide_false, Bool.or_false]
        congr 1
        simp only [decide_eq_decide]
        omega
    · rename_i unset
      rw [rotated.bits bit inside]
      have bloomBit : (bloomAt gen.nextBit).Big.testBit bit = false := by
        simpa using mt test.mpr unset
      by_cases here : j = gen.nextBit
      · subst here
        simp [bloomBit]
      · congr 1
        simp only [decide_eq_decide]
        omega

/-- Once every block is added, Bitset hands out the generator's vectors for the
bits below the number of blocks of a section. -/
theorem Bitset_rotated {gen : Generator} (complete : gen.nextBit = gen.sections) {idx : Nat}
    (below : idx < gen.sections) (inside : idx < BloomBitLength) : gen.Bitset idx = .ok gen.blooms[idx] := by
  unfold Generator.Bitset
  rw [if_neg (by omega), if_neg (by omega), Vector.getElem?_eq_getElem inside]

end Rotation

/-! ### The indexer over a section -/

section Indexing

variable {size sectionIndex : UInt64} {bloomOf : UInt64 → Bloom}

/-- Process of the next block of the section adds the block's bloom. -/
theorem Process_rotated {b : BloomIndexer} (rotated : Rotated (fun j => bloomOf (b.sectionIndex * b.size + UInt64.ofNat j)) b.gen)
    (room : b.gen.nextBit < b.gen.sections) (fits : b.gen.sections < 2 ^ 64) :
    let number := b.sectionIndex * b.size + UInt64.ofNat b.gen.nextBit
    ∃ next, b.gen.AddBloom b.gen.nextBit (bloomOf number) = .ok next ∧
      b.Process number (bloomOf number) = { b with gen := next } ∧ next.sections = b.gen.sections ∧
      next.nextBit = b.gen.nextBit + 1 ∧ Rotated (fun j => bloomOf (b.sectionIndex * b.size + UInt64.ofNat j)) next := by
  intro number
  obtain ⟨next, added, sameSections, moved, nextRotated⟩ := AddBloom_rotated rotated room
  -- the header's place in the section is its offset from the section's start
  have place : (number - b.sectionIndex * b.size).toNat = b.gen.nextBit := by
    rw [show number - b.sectionIndex * b.size = UInt64.ofNat b.gen.nextBit by
      unfold number
      rw [add_sub_cancel_left], UInt64.toNat_ofNat', Nat.mod_eq_of_lt (by omega)]
  refine ⟨next, added, ?_, sameSections, moved, nextRotated⟩
  unfold BloomIndexer.Process
  rw [place, added]

/-- The loop over the first count blocks of the section: the generator holds
them. Induction on count. -/
theorem processHeaders_loop (aligned : size.toNat % 8 = 0) {b : BloomIndexer}
    (reset : BloomIndexer.Reset size sectionIndex = .ok b) (count : Nat) (within : count ≤ size.toNat) :
    let processed := (List.range count).foldl (processHeader size sectionIndex bloomOf) b
    processed.size = size ∧ processed.sectionIndex = sectionIndex ∧ processed.gen.sections = size.toNat ∧
      processed.gen.nextBit = count ∧
      Rotated (fun j => bloomOf (sectionIndex * size + UInt64.ofNat j)) processed.gen := by
  induction count with
  | zero =>
    obtain ⟨gen, fresh, sections, empty, rotated⟩ :=
      @NewGenerator_rotated (fun j => bloomOf (sectionIndex * size + UInt64.ofNat j)) _ aligned
    unfold BloomIndexer.Reset at reset
    rw [fresh] at reset
    cases reset
    exact ⟨rfl, rfl, sections, empty, rotated⟩
  | succ count inductionHypothesis =>
    intro processed
    have unfolded : processed = processHeader size sectionIndex bloomOf
        ((List.range count).foldl (processHeader size sectionIndex bloomOf) b) count := by
      unfold processed
      rw [List.range_succ, List.foldl_append, List.foldl_cons, List.foldl_nil]
    obtain ⟨sameSize, sameSection, sections, added, rotated⟩ := inductionHypothesis (by omega)
    rw [unfolded]
    generalize (List.range count).foldl (processHeader size sectionIndex bloomOf) b = previous at *
    rw [← sameSize, ← sameSection] at rotated
    obtain ⟨next, _, processedEq, nextSections, moved, nextRotated⟩ :=
      Process_rotated rotated (by omega) (by have := size.toNat_lt; omega)
    rw [sameSize, sameSection, added] at processedEq
    rw [sameSize, sameSection] at nextRotated
    rw [processHeader, processedEq]
    exact ⟨rfl, rfl, nextSections.trans sections, moved.trans (by rw [added]), nextRotated⟩

/-- After the headers of a section, the indexer's generator holds every block
of the section: bit k's vector has at block j bit k of block j's bloom. -/
theorem processHeaders_rotated (aligned : size.toNat % 8 = 0) :
    ∃ b, processHeaders size sectionIndex bloomOf = .ok b ∧ b.gen.sections = size.toNat ∧
      b.gen.nextBit = size.toNat ∧ Rotated (fun j => bloomOf (sectionIndex * size + UInt64.ofNat j)) b.gen := by
  obtain ⟨gen, fresh, _, _, _⟩ :=
    @NewGenerator_rotated (fun j => bloomOf (sectionIndex * size + UInt64.ofNat j)) _ aligned
  have reset : BloomIndexer.Reset size sectionIndex = .ok { size, gen, sectionIndex } := by
    unfold BloomIndexer.Reset
    rw [fresh]
    rfl
  obtain ⟨_, _, sections, added, rotated⟩ := @processHeaders_loop size sectionIndex bloomOf aligned _ reset size.toNat le_rfl
  refine ⟨_, ?_, sections, added, rotated⟩
  unfold processHeaders
  rw [reset]
  rfl

end Indexing

end Meshbox.Bloombits
