import Mathlib
import Meshbox.Bloombits.Generator

/-
This file proves what Start emits: in increasing order and each once, exactly
the blocks of the range that the filter matches in the delivered vectors. It
holds for the ranges the log filter gives Start. Filter.Logs asks the backend
how many sections are indexed, and calls indexedLogs only below the indexed
height sections * sectionSize, a uint64 that has not wrapped. So every section
Start walks ends below 2^64, and the walk's block counter never wraps.

The proof follows the pipeline. A section's vector after the chain of
sub-matchers has, at each block, the bit that says whether every group
matches there, or the chain drops a section where no block matches
(Sieved). The walk over a matched section emits the blocks whose bit is set,
skipping a zero byte at once (Walked). Start appends the walks of the sections
in order, and the sections of the range cover it block by block.
-/

namespace Meshbox.Bloombits

/-! ### Bits of byte vectors -/

section Bits

variable {a b : List UInt8}

/-- Under an operation that keeps zero, a byte of the zip of two vectors of one
length is the operation on their bytes, zero past the end. -/
theorem getD_zipWith {f : UInt8 → UInt8 → UInt8} (zero : f 0 0 = 0) (same : a.length = b.length)
    (k : Nat) : (List.zipWith f a b).getD k 0 = f (a.getD k 0) (b.getD k 0) := by
  simp only [List.getD_eq_getElem?_getD, List.getElem?_zipWith]
  by_cases inside : k < a.length
  · rw [List.getElem?_eq_getElem inside, List.getElem?_eq_getElem (same ▸ inside)]
    rfl
  · rw [List.getElem?_eq_none (by omega), List.getElem?_eq_none (by omega)]
    exact zero.symm

theorem bitAt_andBytes (same : a.length = b.length) (j : Nat) :
    bitAt (andBytes a b) j = (bitAt a j && bitAt b j) := by
  unfold bitAt andBytes
  rw [List.drop_eq_nil_of_le (by omega), List.append_nil, getD_zipWith (by decide) same,
    UInt8.toNat_and, Nat.testBit_and]

theorem bitAt_orBytes (same : a.length = b.length) (j : Nat) :
    bitAt (orBytes a b) j = (bitAt a j || bitAt b j) := by
  unfold bitAt orBytes
  rw [List.drop_eq_nil_of_le (by omega), List.append_nil, getD_zipWith (by decide) same,
    UInt8.toNat_or, Nat.testBit_or]

theorem length_andBytes (same : a.length = b.length) : (andBytes a b).length = a.length := by
  simp [andBytes, same]

theorem length_orBytes (same : a.length = b.length) : (orBytes a b).length = a.length := by
  simp [orBytes, same]

/-- A delivered vector of the section's length is copied as it is. -/
theorem copyInto_of_length {n : Nat} (exact : a.length = n) : copyInto n a = a := by
  simp [copyInto, ← exact]

theorem bitAt_replicate_full {n j : Nat} (inside : j < 8 * n) : bitAt (List.replicate n 0xff) j = true := by
  unfold bitAt
  rw [List.getD_eq_getElem _ _ (by rw [List.length_replicate]; omega), List.getElem_replicate]
  have small : 7 - j % 8 < 8 := by omega
  interval_cases (7 - j % 8) <;> rfl

/-- A vector whose bytes are all zero has no bit set. -/
theorem bitAt_of_not_TestBytes (clear : TestBytes a = false) (j : Nat) : bitAt a j = false := by
  have zero : a.getD (j / 8) 0 = 0 := by
    rw [List.getD_eq_getElem?_getD]
    cases found : a[j / 8]? with
    | none => rfl
    | some byte =>
      have member := List.mem_of_getElem? found
      simp only [TestBytes, List.any_eq_false, bne_iff_ne, ne_eq, not_not] at clear
      exact clear byte member
  unfold bitAt
  rw [zero]
  exact Nat.zero_testBit _

end Bits

/-! ### The chain of sub-matchers on one section -/

/-- Whether some clause of a group has all three of its bloom bits set at block
j of a section. -/
def groupBit (deliver : Deliveries) (sectionIndex : UInt64) (group : List bloomIndexes) (j : Nat) : Bool :=
  group.any fun bits => bits.toList.all fun bit => bitAt (deliver bit sectionIndex) j

/-- The vectors delivered for section i and the bits of groups have a bit for
each block of a section, as Generator.Bitset hands them out. -/
def Delivered (sectionSize : UInt64) (deliver : Deliveries) (i : UInt64) (groups : List (List bloomIndexes)) :
    Prop :=
  ∀ group ∈ groups, ∀ bits ∈ group, ∀ bit ∈ bits.toList, (deliver bit i).length = (sectionSize / 8).toNat

/-- The chain of sub-matchers run on the full vector of section i, as run
feeds each section to it. -/
def sieve (m : Matcher) (deliver : Deliveries) (i : UInt64) : Option partialMatches :=
  m.filters.foldl (fun subres bloom => subres.bind (subMatch m.sectionSize deliver bloom))
    (some { sectionIndex := i, bitset := List.replicate (m.sectionSize / 8).toNat 0xff })

/-- The sections of the range, as run numbers them. -/
def sectionsOf (m : Matcher) (begin end' : UInt64) : List Nat :=
  List.range' (begin / m.sectionSize).toNat ((end' / m.sectionSize).toNat + 1 - (begin / m.sectionSize).toNat)

theorem run_eq (m : Matcher) (deliver : Deliveries) (begin end' : UInt64) :
    run m deliver begin end' = ((sectionsOf m begin end').map UInt64.ofNat).filterMap (sieve m deliver) :=
  rfl

/-- Sieved n deliver i groups res: what the chain has made of section i once it
has passed groups. A section kept has at block j the bit that says whether
every group matches there; a section dropped has no block where every group
matches. -/
def Sieved (n : Nat) (deliver : Deliveries) (i : UInt64) (groups : List (List bloomIndexes)) :
    Option partialMatches → Prop
  | some res => res.sectionIndex = i ∧ res.bitset.length = n ∧
      ∀ j < 8 * n, bitAt res.bitset j = groups.all fun group => groupBit deliver i group j
  | none => ∀ j < 8 * n, (groups.all fun group => groupBit deliver i group j) = false

section Chain

variable {sectionSize : UInt64} {deliver : Deliveries}

/-- A clause's vector has at each block the AND of its three bits. -/
theorem clauseVector_spec {sectionIndex : UInt64} {bits : bloomIndexes}
    (delivered : ∀ bit ∈ bits.toList, (deliver bit sectionIndex).length = (sectionSize / 8).toNat) :
    (clauseVector sectionSize deliver sectionIndex bits).length = (sectionSize / 8).toNat ∧
      ∀ j, bitAt (clauseVector sectionSize deliver sectionIndex bits) j =
        bits.toList.all fun bit => bitAt (deliver bit sectionIndex) j := by
  have first := delivered bits[0] (by simp [vector_toList])
  have second := delivered bits[1] (by simp [vector_toList])
  have third := delivered bits[2] (by simp [vector_toList])
  have firstTwo : (andBytes (deliver bits[0] sectionIndex) (deliver bits[1] sectionIndex)).length =
      (sectionSize / 8).toNat := by
    rw [length_andBytes (by rw [first, second]), first]
  unfold clauseVector
  rw [copyInto_of_length first]
  refine ⟨?_, fun j => ?_⟩
  · rw [length_andBytes (by rw [firstTwo, third]), firstTwo]
  · rw [bitAt_andBytes (by rw [firstTwo, third]), bitAt_andBytes (by rw [first, second]),
      vector_toList]
    simp only [List.all_cons, List.all_nil, Bool.and_true, Bool.and_assoc]

/-- Ored n bits acc: the OR the clauses have built so far, none before the
first clause, has at each block the bit bits says. -/
def Ored (n : Nat) (bits : Nat → Bool) : Option (List UInt8) → Prop
  | none => ∀ j, bits j = false
  | some orVector => orVector.length = n ∧ ∀ j, bitAt orVector j = bits j

/-- A fold that ORs each clause's bits into those of the clauses before it keeps
Ored. Induction on the clauses left. -/
theorem Ored.foldl {n : Nat} {step : Option (List UInt8) → bloomIndexes → Option (List UInt8)}
    {clauseBits : bloomIndexes → Nat → Bool} (clauses : List bloomIndexes)
    (ors : ∀ clause ∈ clauses, ∀ bits acc, Ored n bits acc →
      Ored n (fun j => bits j || clauseBits clause j) (step acc clause)) :
    ∀ bits acc, Ored n bits acc →
      Ored n (fun j => bits j || clauses.any fun clause => clauseBits clause j) (clauses.foldl step acc) := by
  induction clauses with
  | nil => intro bits acc ored; simpa using ored
  | cons clause rest inductionHypothesis =>
    intro bits acc ored
    have folded := inductionHypothesis (fun other member => ors other (List.mem_cons_of_mem clause member)) _ _
      (ors clause List.mem_cons_self bits acc ored)
    simp only [List.any_cons, ← Bool.or_assoc]
    exact folded

/-- With no clause the OR is none, and subMatch takes a zero vector for it. -/
theorem Ored.getD {n : Nat} {bits : Nat → Bool} {orVector : Option (List UInt8)} (ored : Ored n bits orVector) :
    (orVector.getD (List.replicate n 0)).length = n ∧
      ∀ j, bitAt (orVector.getD (List.replicate n 0)) j = bits j := by
  cases orVector with
  | none => exact ⟨List.length_replicate, fun j => by rw [Option.getD_none, bitAt_replicate_zero, ored j]⟩
  | some orVector => exact ored

/-- subMatch on a vector of the section's length: the group's bit ANDed with the
vector's at each block, forwarded when some bit is left. -/
theorem subMatch_spec {group : List bloomIndexes} {subres : partialMatches}
    (delivered : ∀ bits ∈ group, ∀ bit ∈ bits.toList,
      (deliver bit subres.sectionIndex).length = (sectionSize / 8).toNat)
    (sized : subres.bitset.length = (sectionSize / 8).toNat) :
    ∃ anded : List UInt8, anded.length = (sectionSize / 8).toNat ∧
      (∀ j, bitAt anded j = (groupBit deliver subres.sectionIndex group j && bitAt subres.bitset j)) ∧
      subMatch sectionSize deliver group subres =
        if TestBytes anded then some { sectionIndex := subres.sectionIndex, bitset := anded } else none := by
  unfold subMatch
  dsimp only
  generalize folded : List.foldl _ none group = orVector
  -- the loop over the clauses ORs their vectors, starting from none
  have ored : Ored (sectionSize / 8).toNat (groupBit deliver subres.sectionIndex group) orVector := by
    rw [← folded]
    show Ored _ (fun j => false || group.any fun clause =>
      clause.toList.all fun bit => bitAt (deliver bit subres.sectionIndex) j) _
    refine Ored.foldl group ?_ (fun _ => false) none (fun _ => rfl)
    intro clause member bits acc ored
    obtain ⟨sized, clauseBits⟩ := clauseVector_spec (delivered clause member)
    cases acc with
    | none => exact ⟨sized, fun j => by simp only [clauseBits, ored j, Bool.false_or]⟩
    | some orVector =>
      obtain ⟨orSized, orBits⟩ := ored
      refine ⟨(length_orBytes (by rw [orSized, sized])).trans orSized, fun j => ?_⟩
      exact (bitAt_orBytes (by rw [orSized, sized]) j).trans (by rw [orBits, clauseBits])
  obtain ⟨orSized, orBits⟩ := ored.getD
  refine ⟨_, ?_, fun j => ?_, rfl⟩
  · rw [length_andBytes (by rw [orSized, sized]), orSized]
  · rw [bitAt_andBytes (by rw [orSized, sized]), orBits]

/-- One sub-matcher keeps Sieved: its group joins those passed. -/
theorem Sieved.bind {i : UInt64} {groups : List (List bloomIndexes)} {res : Option partialMatches}
    (sieved : Sieved (sectionSize / 8).toNat deliver i groups res) {group : List bloomIndexes}
    (delivered : ∀ bits ∈ group, ∀ bit ∈ bits.toList, (deliver bit i).length = (sectionSize / 8).toNat) :
    Sieved (sectionSize / 8).toNat deliver i (groups ++ [group]) (res.bind (subMatch sectionSize deliver group)) := by
  cases res with
  | none =>
    intro j inside
    simp only [List.all_append, sieved j inside, Bool.false_and]
  | some subres =>
    obtain ⟨index, sized, bits⟩ := sieved
    obtain ⟨anded, andedSized, andedBits, matched⟩ := subMatch_spec (by rw [index]; exact delivered) sized
    have joined : ∀ j < 8 * (sectionSize / 8).toNat, bitAt anded j =
        (groups ++ [group]).all fun group => groupBit deliver i group j := by
      intro j inside
      rw [andedBits, bits j inside, index, List.all_append, Bool.and_comm]
      simp
    rw [Option.bind_some, matched, index]
    split
    · exact ⟨rfl, andedSized, joined⟩
    · rename_i clear
      intro j inside
      rw [← joined j inside]
      exact bitAt_of_not_TestBytes (Bool.eq_false_iff.mpr clear) j

/-- The chain keeps Sieved over the groups it passes. Induction on the groups
left. -/
theorem Sieved.foldl {i : UInt64} {rest : List (List bloomIndexes)} (delivered : Delivered sectionSize deliver i rest) :
    ∀ groups res, Sieved (sectionSize / 8).toNat deliver i groups res →
      Sieved (sectionSize / 8).toNat deliver i (groups ++ rest)
        (rest.foldl (fun subres bloom => subres.bind (subMatch sectionSize deliver bloom)) res) := by
  induction rest with
  | nil => intro groups res sieved; simpa using sieved
  | cons group rest inductionHypothesis =>
    intro groups res sieved
    have next := inductionHypothesis (fun other member => delivered other (List.mem_cons_of_mem group member)) _ _
      (sieved.bind (delivered group List.mem_cons_self))
    rwa [List.append_assoc, List.singleton_append] at next

/-- The section's vector after the whole chain, or the chain's drop of it. -/
theorem sieve_spec (m : Matcher) {i : UInt64} (delivered : Delivered m.sectionSize deliver i m.filters) :
    Sieved (m.sectionSize / 8).toNat deliver i m.filters (sieve m deliver i) := by
  have full : Sieved (m.sectionSize / 8).toNat deliver i []
      (some { sectionIndex := i, bitset := List.replicate (m.sectionSize / 8).toNat 0xff }) :=
    ⟨rfl, List.length_replicate, fun j inside => by rw [bitAt_replicate_full inside, List.all_nil]⟩
  exact Sieved.foldl delivered [] _ full

end Chain

/-! ### The walk over a matched section -/

/-- The blocks from a up to, not including, c. -/
def blocksFrom (a c : Nat) : List UInt64 :=
  (List.range' a (c - a)).map UInt64.ofNat

theorem blocksFrom_append {a c d : Nat} (le : a ≤ c) (le' : c ≤ d) :
    blocksFrom a d = blocksFrom a c ++ blocksFrom c d := by
  have split := List.range'_append_1 (s := a) (m := c - a) (n := d - c)
  rw [show a + (c - a) = c by omega, show c - a + (d - c) = d - a by omega] at split
  unfold blocksFrom
  rw [← split, List.map_append]

theorem blocksFrom_succ {a c : Nat} (le : a ≤ c) : blocksFrom a (c + 1) = blocksFrom a c ++ [UInt64.ofNat c] := by
  rw [blocksFrom_append le (Nat.le_succ c)]
  simp [blocksFrom]

theorem blocksFrom_empty {a c : Nat} (le : c ≤ a) : blocksFrom a c = [] := by
  simp [blocksFrom, Nat.sub_eq_zero_of_le le]

theorem mem_blocksFrom {a c : Nat} {b : UInt64} (member : b ∈ blocksFrom a c) :
    ∃ n, a ≤ n ∧ n < c ∧ b = UInt64.ofNat n := by
  obtain ⟨n, inRange, rfl⟩ := List.mem_map.mp member
  rw [List.mem_range'_1] at inRange
  exact ⟨n, inRange.1, by omega, rfl⟩

/-- Blocks whose bit is clear add nothing to what is emitted. -/
theorem filter_blocksFrom_of_clear {a c d : Nat} (le : a ≤ c) (le' : c ≤ d) {p : UInt64 → Bool}
    (clear : ∀ n, c ≤ n → n < d → p (UInt64.ofNat n) = false) :
    (blocksFrom a d).filter p = (blocksFrom a c).filter p := by
  have cleared : (blocksFrom c d).filter p = [] := by
    refine List.filter_eq_nil_iff.mpr fun b member => ?_
    obtain ⟨n, above, below, rfl⟩ := mem_blocksFrom member
    rw [clear n above below]
    exact Bool.false_ne_true
  rw [blocksFrom_append le le', List.filter_append, cleared, List.append_nil]

/-- The frame of one walk: a section of size blocks from sectionStart, aligned
to bytes and ending below 2^64, its vector of one bit per block, and the
blocks from first to last, whose last is lastBlock, inside it. -/
structure WalkFrame (bitset : List UInt8) (sectionStart lastBlock : UInt64) (size first last : Nat) : Prop where
  sized : bitset.length = size / 8
  aligned : size % 8 = 0
  startAligned : sectionStart.toNat % 8 = 0
  fits : sectionStart.toNat + size < 2 ^ 64
  startLe : sectionStart.toNat ≤ first
  lastLt : last < sectionStart.toNat + size
  lastEq : lastBlock.toNat = last

/-- Walked: where the walk stands. Its counter is past the first block and
within the section, and it has emitted the blocks before the counter, up to
the last, whose bit is set. -/
structure Walked (bitset : List UInt8) (sectionStart : UInt64) (size first last : Nat)
    (state : UInt64 × List UInt64) : Prop where
  fromFirst : first ≤ state.1.toNat
  within : state.1.toNat ≤ sectionStart.toNat + size
  emitted : state.2 = (blocksFrom first (min state.1.toNat (last + 1))).filter
    fun b => bitAt bitset (b.toNat - sectionStart.toNat)

section Walk

variable {bitset : List UInt8} {sectionStart lastBlock : UInt64} {size first last : Nat}

/-- The shift the walk tests a block's byte with, as a bit number. -/
theorem shift_of_block (k : UInt64) : (7 - k % 8).toUInt8 = (7 - k.toNat % 8).toUInt8 := by
  have small : k % 8 ≤ 7 := UInt64.le_iff_toNat_le.mpr (by
    rw [UInt64.toNat_mod]
    have := Nat.mod_lt k.toNat (by decide : 8 > 0)
    simp only [UInt64.reduceToNat]
    omega)
  apply UInt8.toNat_inj.mp
  rw [UInt64.toNat_toUInt8, UInt64.toNat_sub_of_le _ _ small, UInt64.toNat_mod]
  simp

theorem mod_of_block (k : UInt64) : k % 8 = 0 ↔ k.toNat % 8 = 0 := by
  rw [← UInt64.toNat_inj, UInt64.toNat_mod]
  rfl

theorem toNat_add_of_lt (k : UInt64) (step : Nat) (fits : k.toNat + step < 2 ^ 64) :
    (k + UInt64.ofNat step).toNat = k.toNat + step := by
  rw [UInt64.toNat_add, UInt64.toNat_ofNat']
  omega

/-- In a section aligned to bytes, the walk's byte and bit for a block are the
vector's bit for the block. -/
theorem bitAt_block {start k : Nat} (aligned : start % 8 = 0) (after : start ≤ k) :
    bitAt bitset (k - start) = (bitset.getD ((k - start) / 8) 0).toNat.testBit (7 - k % 8) := by
  unfold bitAt
  rw [show (k - start) % 8 = k % 8 by omega]

/-- The walk moving its counter past blocks whose bits are clear. -/
theorem Walked.advance {k next : UInt64} {emitted : List UInt64}
    (walked : Walked bitset sectionStart size first last (k, emitted)) (inside : k.toNat ≤ last)
    (moved : k.toNat < next.toNat) (within : next.toNat ≤ sectionStart.toNat + size)
    (clear : ∀ n, k.toNat ≤ n → n < next.toNat → bitAt bitset (n - sectionStart.toNat) = false) :
    Walked bitset sectionStart size first last (next, emitted) := by
  obtain ⟨fromFirst, -, emittedEq⟩ := walked
  refine ⟨by dsimp only at fromFirst ⊢; omega, within, ?_⟩
  dsimp only at emittedEq ⊢
  rw [emittedEq, min_eq_left (by omega : k.toNat ≤ last + 1)]
  refine (filter_blocksFrom_of_clear (c := k.toNat) fromFirst (by omega) fun n above below => ?_).symm
  rw [UInt64.toNat_ofNat', Nat.mod_eq_of_lt (by have := next.toNat_lt; omega)]
  exact clear n above (by omega)

/-- The walk emitting a block whose bit is set. -/
theorem Walked.emit {k next : UInt64} {emitted : List UInt64}
    (walked : Walked bitset sectionStart size first last (k, emitted)) (inside : k.toNat ≤ last)
    (moved : next.toNat = k.toNat + 1) (within : next.toNat ≤ sectionStart.toNat + size)
    (set : bitAt bitset (k.toNat - sectionStart.toNat) = true) :
    Walked bitset sectionStart size first last (next, emitted ++ [k]) := by
  obtain ⟨fromFirst, -, emittedEq⟩ := walked
  refine ⟨by dsimp only at fromFirst ⊢; omega, within, ?_⟩
  dsimp only at emittedEq ⊢
  rw [emittedEq, min_eq_left (by omega : k.toNat ≤ last + 1), min_eq_left (by omega : next.toNat ≤ last + 1),
    moved, blocksFrom_succ fromFirst, List.filter_append, UInt64.ofNat_toNat]
  simp [set]

/-- One turn of the walk: past the last block it returns the blocks emitted,
which are then all those of the range whose bit is set; before, it moves on
within the section, by one block or past a zero byte. -/
theorem extractStep_walk (frame : WalkFrame bitset sectionStart lastBlock size first last)
    {state : UInt64 × List UInt64} (walked : Walked bitset sectionStart size first last state) :
    (∃ result, extractStep bitset sectionStart lastBlock state = .ok (.inl result) ∧
        result = (blocksFrom first (last + 1)).filter fun b => bitAt bitset (b.toNat - sectionStart.toNat)) ∨
      ∃ next, extractStep bitset sectionStart lastBlock state = .ok (.inr next) ∧
        Walked bitset sectionStart size first last next ∧
        sectionStart.toNat + size + 1 - next.1.toNat < sectionStart.toNat + size + 1 - state.1.toNat := by
  obtain ⟨k, emitted⟩ := state
  have fromFirst := walked.fromFirst
  have start := frame.startLe
  have lastLt := frame.lastLt
  dsimp only at fromFirst ⊢
  by_cases inside : k ≤ lastBlock
  · right
    have kLe : k.toNat ≤ last := frame.lastEq ▸ UInt64.le_iff_toNat_le.mp inside
    have after : sectionStart ≤ k := UInt64.le_iff_toNat_le.mpr (by omega)
    -- the byte of block k is inside the vector
    have index : ((k - sectionStart) / 8).toNat = (k.toNat - sectionStart.toNat) / 8 := by
      rw [UInt64.toNat_div, UInt64.toNat_sub_of_le _ _ after]
      rfl
    have byteInside : (k.toNat - sectionStart.toNat) / 8 < bitset.length := by
      rw [frame.sized]
      have := frame.aligned
      omega
    have found : bitset[((k - sectionStart) / 8).toNat]? =
        some (bitset.getD ((k.toNat - sectionStart.toNat) / 8) 0) := by
      rw [index, List.getD_eq_getElem _ _ byteInside, List.getElem?_eq_getElem byteInside]
    have bitOf : bitAt bitset (k.toNat - sectionStart.toNat) = _ :=
      bitAt_block frame.startAligned (by omega : sectionStart.toNat ≤ k.toNat)
    have oneMore : (k + 1).toNat = k.toNat + 1 := toNat_add_of_lt k 1 (by have := frame.fits; omega)
    unfold extractStep
    simp only [if_pos inside, found]
    split_ifs with zero aligned set
    · -- a zero byte at a byte boundary: its eight blocks are skipped
      have boundary := (mod_of_block k).mp aligned
      have eight : (k + 7 + 1).toNat = k.toNat + 8 := by
        rw [UInt64.add_assoc]
        exact toNat_add_of_lt k 8 (by have := frame.fits; have := frame.aligned; have := frame.startAligned; omega)
      refine ⟨_, rfl, walked.advance kLe (by rw [eight]; omega)
        (by rw [eight]; have := frame.aligned; have := frame.startAligned; omega) fun n above below => ?_, by
          dsimp only; rw [eight]; omega⟩
      rw [eight] at below
      rw [bitAt_block frame.startAligned (by omega), show (n - sectionStart.toNat) / 8 =
        (k.toNat - sectionStart.toNat) / 8 by have := frame.startAligned; omega, zero]
      exact Nat.zero_testBit _
    · -- a zero byte within a byte: the block is skipped
      refine ⟨_, rfl, walked.advance kLe (by rw [oneMore]; omega) (by rw [oneMore]; omega)
        fun n above below => ?_, by dsimp only; rw [oneMore]; omega⟩
      rw [oneMore] at below
      rw [show n = k.toNat by omega, bitOf, zero]
      exact Nat.zero_testBit _
    · -- the block's bit is set: it is emitted
      rw [shift_of_block, and_shiftLeft_ne_zero _ (by omega)] at set
      exact ⟨_, rfl, walked.emit kLe oneMore (by rw [oneMore]; omega) (by rw [bitOf, set]),
        by dsimp only; rw [oneMore]; omega⟩
    · -- the block's bit is clear
      rw [shift_of_block, and_shiftLeft_ne_zero _ (by omega)] at set
      refine ⟨_, rfl, walked.advance kLe (by rw [oneMore]; omega) (by rw [oneMore]; omega)
        fun n above below => ?_, by dsimp only; rw [oneMore]; omega⟩
      rw [oneMore] at below
      rw [show n = k.toNat by omega, bitOf]
      simpa using set
  · -- past the last block the walk returns what it emitted
    left
    have kGt : last < k.toNat := frame.lastEq ▸ UInt64.lt_iff_toNat_lt.mp (UInt64.not_le.mp inside)
    unfold extractStep
    simp only [if_neg inside]
    refine ⟨_, rfl, ?_⟩
    have emittedEq := walked.emitted
    dsimp only at emittedEq
    rw [emittedEq, min_eq_right (by omega)]

end Walk

/-- The sizes of a matcher's sections: a positive multiple of 8. -/
structure SectionSize (sectionSize : UInt64) : Prop where
  pos : 0 < sectionSize.toNat
  aligned : sectionSize.toNat % 8 = 0

theorem SectionSize.bytes {sectionSize : UInt64} (_ : SectionSize sectionSize) :
    (sectionSize / 8).toNat = sectionSize.toNat / 8 :=
  UInt64.toNat_div _ _

/-- The larger of two words, as Start picks the first block, is the larger number. -/
theorem toNat_ite_gt (a b : UInt64) : (if a > b then a else b).toNat = max a.toNat b.toNat := by
  split
  · next later => rw [gt_iff_lt, UInt64.lt_iff_toNat_lt] at later; omega
  · next earlier => rw [gt_iff_lt, UInt64.lt_iff_toNat_lt] at earlier; omega

/-- The smaller of two words, as Start picks the last block, is the smaller number. -/
theorem toNat_ite_lt (a b : UInt64) : (if a < b then a else b).toNat = min a.toNat b.toNat := by
  split
  · next earlier => rw [UInt64.lt_iff_toNat_lt] at earlier; omega
  · next later => rw [UInt64.lt_iff_toNat_lt] at later; omega

/-- The walk over a matched section whose end is below 2^64, from a begin within
it or before it: Start emits the blocks of the section within the range whose
bit is set in the section's vector, in increasing order. -/
theorem extract_spec {sectionSize : UInt64} (sizes : SectionSize sectionSize) (res : partialMatches)
    (sized : res.bitset.length = (sectionSize / 8).toNat)
    (fits : (res.sectionIndex.toNat + 1) * sectionSize.toNat < 2 ^ 64) (begin end' : UInt64)
    (beginWithin : begin.toNat < (res.sectionIndex.toNat + 1) * sectionSize.toNat) :
    extract sectionSize begin end' res = some (.ok ((blocksFrom
      (max begin.toNat (res.sectionIndex.toNat * sectionSize.toNat))
      (min end'.toNat (res.sectionIndex.toNat * sectionSize.toNat + sectionSize.toNat - 1) + 1)).filter
        fun b => bitAt res.bitset (b.toNat - res.sectionIndex.toNat * sectionSize.toNat))) := by
  have spread : (res.sectionIndex.toNat + 1) * sectionSize.toNat =
      res.sectionIndex.toNat * sectionSize.toNat + sectionSize.toNat := Nat.succ_mul _ _
  rw [spread] at fits beginWithin
  -- the section's first block, and the last one, in 64 bits without a wrap
  have startEq : (res.sectionIndex * sectionSize).toNat = res.sectionIndex.toNat * sectionSize.toNat := by
    rw [UInt64.toNat_mul, Nat.mod_eq_of_lt (by omega)]
  have endEq : (res.sectionIndex * sectionSize + sectionSize - 1).toNat =
      res.sectionIndex.toNat * sectionSize.toNat + sectionSize.toNat - 1 := by
    have sum : (res.sectionIndex * sectionSize + sectionSize).toNat =
        res.sectionIndex.toNat * sectionSize.toNat + sectionSize.toNat := by
      rw [UInt64.toNat_add, startEq, Nat.mod_eq_of_lt fits]
    rw [UInt64.toNat_sub_of_le _ _ (UInt64.le_iff_toNat_le.mpr (by rw [sum]; have := sizes.pos; simp; omega)), sum]
    rfl
  have firstEq : (if begin > res.sectionIndex * sectionSize then begin else res.sectionIndex * sectionSize).toNat =
      max begin.toNat (res.sectionIndex.toNat * sectionSize.toNat) := by
    rw [toNat_ite_gt, startEq]
  have lastEq : (if end' < res.sectionIndex * sectionSize + sectionSize - 1 then end'
      else res.sectionIndex * sectionSize + sectionSize - 1).toNat =
        min end'.toNat (res.sectionIndex.toNat * sectionSize.toNat + sectionSize.toNat - 1) := by
    rw [toNat_ite_lt, endEq]
  have frame : WalkFrame res.bitset (res.sectionIndex * sectionSize)
      (if end' < res.sectionIndex * sectionSize + sectionSize - 1 then end'
        else res.sectionIndex * sectionSize + sectionSize - 1) sectionSize.toNat
      (max begin.toNat (res.sectionIndex.toNat * sectionSize.toNat))
      (min end'.toNat (res.sectionIndex.toNat * sectionSize.toNat + sectionSize.toNat - 1)) := by
    refine ⟨sized.trans sizes.bytes, sizes.aligned, ?_, by rw [startEq]; exact fits,
      by rw [startEq]; exact le_max_right _ _, by rw [startEq]; have := sizes.pos; omega, lastEq⟩
    rw [startEq, Nat.mul_mod, sizes.aligned, Nat.mul_zero]
  have start : Walked res.bitset (res.sectionIndex * sectionSize) sectionSize.toNat
      (max begin.toNat (res.sectionIndex.toNat * sectionSize.toNat))
      (min end'.toNat (res.sectionIndex.toNat * sectionSize.toNat + sectionSize.toNat - 1))
      (if begin > res.sectionIndex * sectionSize then begin else res.sectionIndex * sectionSize, []) := by
    refine ⟨by dsimp only; rw [firstEq], by dsimp only; rw [firstEq, startEq]; omega, ?_⟩
    dsimp only
    rw [firstEq, blocksFrom_empty (by omega), List.filter_nil]
  obtain ⟨result, ran, emitted⟩ := Loop.run_of_measure _
    (fun state : UInt64 × List UInt64 => (res.sectionIndex * sectionSize).toNat + sectionSize.toNat + 1 - state.1.toNat) _
    (fun state walked => extractStep_walk frame walked) (sectionSize.toNat + 2) _ start
    (by dsimp only; rw [startEq, firstEq]; omega)
  unfold extract
  dsimp only
  rw [ran, emitted, startEq]

/-! ### Start over the sections of the range -/

/-- The sections from a's to e's cover the blocks from a to e, each giving
those of its blocks within the range. Induction on the number of sections,
the range starting at the next section after each. -/
theorem sections_cover {S : Nat} (pos : 0 < S) (e : Nat) (count : Nat) :
    ∀ a, e / S + 1 - a / S = count →
      (List.range' (a / S) count).flatMap (fun i => blocksFrom (max a (i * S)) (min e (i * S + S - 1) + 1)) =
        blocksFrom a (e + 1) := by
  induction count with
  | zero =>
    intro a none
    have before : e < a := by
      by_contra after
      have := Nat.div_le_div_right (c := S) (not_lt.mp after)
      omega
    rw [List.range'_zero, List.flatMap_nil, blocksFrom_empty (by omega)]
  | succ count inductionHypothesis =>
    intro a counted
    rw [List.range'_succ, List.flatMap_cons]
    have low := Nat.div_mul_le_self a S
    have high := Nat.lt_div_mul_add (a := a) pos
    have lastLow := Nat.div_mul_le_self e S
    have lastHigh := Nat.lt_div_mul_add (a := e) pos
    rw [max_eq_left low]
    cases count with
    | zero =>
      -- the range ends in a's section
      have same : e / S = a / S := by omega
      rw [same] at lastLow lastHigh
      rw [List.range'_zero, List.flatMap_nil, List.append_nil, min_eq_left (by omega)]
    | succ count =>
      -- a's section is whole up to its end, and the rest starts at the next one
      have next : (a / S + 1) * S / S = a / S + 1 := Nat.mul_div_cancel _ pos
      have spread : (a / S + 1) * S = a / S * S + S := Nat.succ_mul _ _
      have later : (a / S + 1) * S ≤ e / S * S := Nat.mul_le_mul_right _ (by omega)
      have rest := inductionHypothesis ((a / S + 1) * S) (by rw [next]; omega)
      rw [next] at rest
      rw [List.flatMap_congr (g := fun i => blocksFrom (max ((a / S + 1) * S) (i * S))
        (min e (i * S + S - 1) + 1)) fun i member => ?_, rest, min_eq_right (by omega),
        show a / S * S + S - 1 + 1 = (a / S + 1) * S by omega, ← blocksFrom_append (by omega) (by omega)]
      have above : (a / S + 1) * S ≤ i * S := Nat.mul_le_mul_right _ (List.mem_range'_1.mp member).1
      rw [max_eq_right (by omega), max_eq_right above]

/-- The blocks of section i within the range from begin to end' that match. -/
def sectionMatches (m : Matcher) (deliver : Deliveries) (begin end' : UInt64) (i : Nat) : List UInt64 :=
  (blocksFrom (max begin.toNat (i * m.sectionSize.toNat))
    (min end'.toNat (i * m.sectionSize.toNat + m.sectionSize.toNat - 1) + 1)).filter (blockMatches m deliver)

section Sections

variable {m : Matcher} {deliver : Deliveries}

/-- A block of section i matches when every group matches at its place in the
section. -/
theorem blockMatches_of_section {i : Nat} {b : UInt64}
    (low : i * m.sectionSize.toNat ≤ b.toNat) (high : b.toNat < i * m.sectionSize.toNat + m.sectionSize.toNat) :
    blockMatches m deliver b =
      m.filters.all fun group => groupBit deliver (UInt64.ofNat i) group (b.toNat - i * m.sectionSize.toNat) := by
  have quotient : b.toNat / m.sectionSize.toNat = i :=
    Nat.div_eq_of_lt_le low (by rw [Nat.succ_mul]; exact high)
  have index : b / m.sectionSize = UInt64.ofNat i := by
    rw [← UInt64.toNat_inj, UInt64.toNat_div, quotient, UInt64.toNat_ofNat', Nat.mod_eq_of_lt]
    have := b.toNat_lt
    have := Nat.div_le_self b.toNat m.sectionSize.toNat
    omega
  have offset : (b % m.sectionSize).toNat = b.toNat - i * m.sectionSize.toNat := by
    rw [UInt64.toNat_mod, Nat.mod_eq_sub_mul_div, quotient, Nat.mul_comm]
  unfold blockMatches
  rw [index, offset]
  rfl

/-- What Start does with section i: the chain drops it and none of its blocks in
the range match, or the chain keeps it and the walk emits those that do. -/
theorem section_spec (sizes : SectionSize m.sectionSize) {begin end' : UInt64} {i : Nat}
    (delivered : Delivered m.sectionSize deliver (UInt64.ofNat i) m.filters)
    (fits : (i + 1) * m.sectionSize.toNat < 2 ^ 64)
    (beginWithin : begin.toNat < (i + 1) * m.sectionSize.toNat) :
    (sieve m deliver (UInt64.ofNat i) = none ∧ sectionMatches m deliver begin end' i = []) ∨
      ∃ res, sieve m deliver (UInt64.ofNat i) = some res ∧
        extract m.sectionSize begin end' res = some (.ok (sectionMatches m deliver begin end' i)) := by
  have spread : (i + 1) * m.sectionSize.toNat = i * m.sectionSize.toNat + m.sectionSize.toNat := Nat.succ_mul _ _
  have indexEq : (UInt64.ofNat i).toNat = i := by
    rw [UInt64.toNat_ofNat', Nat.mod_eq_of_lt]
    have := Nat.le_mul_of_pos_right i sizes.pos
    omega
  have bytes : 8 * (m.sectionSize / 8).toNat = m.sectionSize.toNat := by
    rw [sizes.bytes]
    have := sizes.aligned
    omega
  -- the blocks of the section within the range
  have inSection : ∀ b ∈ blocksFrom (max begin.toNat (i * m.sectionSize.toNat))
      (min end'.toNat (i * m.sectionSize.toNat + m.sectionSize.toNat - 1) + 1),
        i * m.sectionSize.toNat ≤ b.toNat ∧ b.toNat < i * m.sectionSize.toNat + m.sectionSize.toNat := by
    intro b member
    obtain ⟨n, above, below, rfl⟩ := mem_blocksFrom member
    rw [UInt64.toNat_ofNat', Nat.mod_eq_of_lt (by omega)]
    omega
  have sieved := sieve_spec m delivered
  cases kept : sieve m deliver (UInt64.ofNat i) with
  | none =>
    left
    rw [kept] at sieved
    refine ⟨rfl, List.filter_eq_nil_iff.mpr fun b member => ?_⟩
    obtain ⟨low, high⟩ := inSection b member
    rw [blockMatches_of_section low high, sieved _ (by rw [bytes]; omega)]
    exact Bool.false_ne_true
  | some res =>
    right
    rw [kept] at sieved
    obtain ⟨index, sized, bits⟩ := sieved
    rw [← index] at indexEq
    refine ⟨res, rfl, ?_⟩
    rw [extract_spec sizes res sized (by rw [indexEq]; exact fits) begin end' (by rw [indexEq]; exact beginWithin),
      indexEq]
    unfold sectionMatches
    congr 2
    refine List.filter_congr fun b member => ?_
    obtain ⟨low, high⟩ := inSection b member
    rw [blockMatches_of_section low high, bits _ (by rw [bytes]; omega)]

/-- Start's loop over the sections that pass the chain appends what the walk of
each emits. Induction on the sections. -/
theorem foldl_sections {begin end' : UInt64}
    {step : Option (Outcome Empty (List UInt64)) → partialMatches → Option (Outcome Empty (List UInt64))}
    (steps : ∀ emitted res, step (some (.ok emitted)) res =
      (extract m.sectionSize begin end' res).map fun more => more.bind fun more => .ok (emitted ++ more))
    (sections : List Nat)
    (each : ∀ i ∈ sections, (sieve m deliver (UInt64.ofNat i) = none ∧ sectionMatches m deliver begin end' i = []) ∨
      ∃ res, sieve m deliver (UInt64.ofNat i) = some res ∧
        extract m.sectionSize begin end' res = some (.ok (sectionMatches m deliver begin end' i)))
    (emitted : List UInt64) :
    ((sections.map UInt64.ofNat).filterMap (sieve m deliver)).foldl step (some (.ok emitted)) =
      some (.ok (emitted ++ sections.flatMap (sectionMatches m deliver begin end'))) := by
  induction sections generalizing emitted with
  | nil => simp
  | cons i rest inductionHypothesis =>
    have restEach := fun j member => each j (List.mem_cons_of_mem i member)
    rw [List.map_cons, List.filterMap_cons, List.flatMap_cons]
    rcases each i List.mem_cons_self with ⟨dropped, none⟩ | ⟨res, kept, walked⟩
    · rw [dropped, none, List.nil_append]
      exact inductionHypothesis restEach emitted
    · rw [kept, List.foldl_cons, steps, walked]
      show List.foldl step (some (.ok (emitted ++ sectionMatches m deliver begin end' i))) _ = _
      rw [inductionHypothesis restEach, List.append_assoc]

/-- Start over a range whose sections all end below 2^64: the blocks of the
range that match, in order. The sections of the range pass the chain or are
dropped one by one, and together they cover the range block by block. -/
theorem Start_spec (sizes : SectionSize m.sectionSize) {sections : Nat}
    (delivered : ∀ i < sections, Delivered m.sectionSize deliver (UInt64.ofNat i) m.filters)
    {begin end' : UInt64} (fits : sections * m.sectionSize.toNat < 2 ^ 64)
    (within : end'.toNat < sections * m.sectionSize.toNat) :
    Start m deliver begin end' =
      some (.ok ((blocksFrom begin.toNat (end'.toNat + 1)).filter (blockMatches m deliver))) := by
  have pos := sizes.pos
  have sectionsEq : sectionsOf m begin end' = List.range' (begin.toNat / m.sectionSize.toNat)
      (end'.toNat / m.sectionSize.toNat + 1 - begin.toNat / m.sectionSize.toNat) := by
    unfold sectionsOf
    rw [UInt64.toNat_div, UInt64.toNat_div]
  have last : end'.toNat / m.sectionSize.toNat < sections :=
    Nat.div_lt_of_lt_mul (by rw [Nat.mul_comm]; exact within)
  -- every section of the range ends below 2^64 and after begin
  have each : ∀ i ∈ sectionsOf m begin end',
      (sieve m deliver (UInt64.ofNat i) = none ∧ sectionMatches m deliver begin end' i = []) ∨
        ∃ res, sieve m deliver (UInt64.ofNat i) = some res ∧
          extract m.sectionSize begin end' res = some (.ok (sectionMatches m deliver begin end' i)) := by
    intro i member
    rw [sectionsEq, List.mem_range'_1] at member
    have above := Nat.mul_le_mul_right m.sectionSize.toNat (show begin.toNat / m.sectionSize.toNat ≤ i by omega)
    have below := Nat.mul_le_mul_right m.sectionSize.toNat (show i + 1 ≤ sections by omega)
    have rounded := Nat.lt_div_mul_add (a := begin.toNat) pos
    apply section_spec sizes (delivered i (by omega))
    · omega
    · rw [Nat.succ_mul]
      omega
  rw [Start, run_eq, foldl_sections _ _ each [], List.nil_append,
    ← sections_cover pos end'.toNat _ begin.toNat rfl, List.filter_flatMap, sectionsEq]
  · rfl
  · intro emitted res
    rfl

end Sections

/-! ### The blocks whose blooms match -/

/-- What the filter asks of a block's bloom: every group that is not a wildcard
(an empty group, or one with a nil clause) has a key whose three bloom bits are
set. -/
def BloomMatches (keccak : List UInt8 → Meshbox.Hash) (filters : List (List (Option (List UInt8))))
    (bloom : Bloom) : Prop :=
  ∀ group ∈ filters, group ≠ [] → none ∉ group →
    ∃ key, some key ∈ group ∧ ∀ bit ∈ (calcBloomIndexes keccak key).toList, bloom.Big.testBit bit

/-- The logs of the receipts have, for every group that is not a wildcard, a key
of the group as the address or a topic of some log. -/
def LogsMatch (filters : List (List (Option (List UInt8)))) (receipts : List (List Meshbox.State.Log)) : Prop :=
  ∀ group ∈ filters, group ≠ [] → none ∉ group →
    ∃ key, some key ∈ group ∧ ∃ logs ∈ receipts, ∃ log ∈ logs,
      key = log.Address.toList ∨ ∃ topic ∈ log.Topics, key = topic.toList

section Blooms

variable (keccak : List UInt8 → Meshbox.Hash)

/-- A bloom CreateBloom makes of logs that match the filter matches it. -/
theorem BloomMatches_of_LogsMatch {filters : List (List (Option (List UInt8)))}
    {receipts : List (List Meshbox.State.Log)} {bloom : Bloom} (created : CreateBloom keccak receipts = .ok bloom)
    (logged : LogsMatch filters receipts) : BloomMatches keccak filters bloom := by
  intro group member nonEmpty noNil
  obtain ⟨key, inGroup, logs, inReceipts, log, inLogs, found⟩ := logged group member nonEmpty noNil
  exact ⟨key, inGroup, CreateBloom_has_log_keys keccak created inReceipts inLogs found⟩

/-- NewMatcher's mapM over the clauses of a group: none at a nil clause, else
the clauses' bloom bits. -/
theorem mapM_clauses {β : Type} (g : List UInt8 → β) (group : List (Option (List UInt8))) :
    group.mapM (fun clause => clause.map g) =
      if none ∈ group then none else some (group.filterMap fun clause => clause.map g) := by
  induction group with
  | nil => rfl
  | cons clause rest inductionHypothesis =>
    cases clause with
    | none => simp [List.mapM_cons]
    | some key =>
      rw [List.mapM_cons, inductionHypothesis]
      by_cases nil : none ∈ rest <;> simp [nil]

/-- The groups NewMatcher keeps: a group that is not a wildcard, as the bloom
bits of its keys. -/
theorem mem_NewMatcher_filters {sectionSize : UInt64} {filters : List (List (Option (List UInt8)))}
    {group : List bloomIndexes} :
    group ∈ (NewMatcher keccak sectionSize filters).filters ↔
      ∃ clauses ∈ filters, clauses ≠ [] ∧ none ∉ clauses ∧
        group = clauses.filterMap fun clause => clause.map (calcBloomIndexes keccak) := by
  unfold NewMatcher
  rw [List.mem_filterMap]
  constructor
  · rintro ⟨clauses, member, kept⟩
    by_cases empty : clauses.isEmpty
    · rw [if_pos empty] at kept
      cases kept
    · rw [if_neg empty, mapM_clauses] at kept
      by_cases nil : none ∈ clauses
      · rw [if_pos nil] at kept
        cases kept
      · rw [if_neg nil, Option.some_inj] at kept
        exact ⟨clauses, member, by simpa using empty, nil, kept.symm⟩
  · rintro ⟨clauses, member, nonEmpty, noNil, rfl⟩
    refine ⟨clauses, member, ?_⟩
    rw [if_neg (by simpa using nonEmpty), mapM_clauses, if_neg noNil]

/-- The bits NewMatcher asks for are bloom bits. -/
theorem NewMatcher_bits_lt {sectionSize : UInt64} {filters : List (List (Option (List UInt8)))} :
    ∀ group ∈ (NewMatcher keccak sectionSize filters).filters, ∀ bits ∈ group, ∀ bit ∈ bits.toList,
      bit < BloomBitLength := by
  intro group member bits inGroup bit inBits
  obtain ⟨clauses, _, _, _, rfl⟩ := (mem_NewMatcher_filters keccak).mp member
  obtain ⟨clause, _, made⟩ := List.mem_filterMap.mp inGroup
  cases clause with
  | none => cases made
  | some key =>
    cases made
    exact calcBloomIndexes_lt keccak key bit inBits

/-- A block matches NewMatcher's filter in vectors that hold its bloom's bits
exactly when its bloom matches the filter. -/
theorem blockMatches_NewMatcher {sectionSize : UInt64} {filters : List (List (Option (List UInt8)))}
    {deliver : Deliveries} {b : UInt64} {bloom : Bloom}
    (columns : ∀ bit < BloomBitLength,
      bitAt (deliver bit (b / sectionSize)) (b % sectionSize).toNat = bloom.Big.testBit bit) :
    blockMatches (NewMatcher keccak sectionSize filters) deliver b = true ↔ BloomMatches keccak filters bloom := by
  -- a kept group matches when some key of it has its three bits in the bloom
  have group : ∀ clauses : List (Option (List UInt8)),
      ((clauses.filterMap fun clause => clause.map (calcBloomIndexes keccak)).any fun bits =>
        bits.toList.all fun bit => bitAt (deliver bit (b / sectionSize)) (b % sectionSize).toNat) = true ↔
      ∃ key, some key ∈ clauses ∧ ∀ bit ∈ (calcBloomIndexes keccak key).toList, bloom.Big.testBit bit := by
    intro clauses
    simp only [List.any_eq_true, List.mem_filterMap, List.all_eq_true]
    constructor
    · rintro ⟨bits, ⟨clause, inClauses, made⟩, set⟩
      cases clause with
      | none => cases made
      | some key =>
        cases made
        exact ⟨key, inClauses, fun bit inBits =>
          (columns bit (calcBloomIndexes_lt keccak key bit inBits)) ▸ set bit inBits⟩
    · rintro ⟨key, inClauses, set⟩
      exact ⟨_, ⟨some key, inClauses, rfl⟩, fun bit inBits =>
        (columns bit (calcBloomIndexes_lt keccak key bit inBits)).symm ▸ set bit inBits⟩
  unfold blockMatches BloomMatches
  rw [List.all_eq_true]
  constructor
  · intro matched clauses member nonEmpty noNil
    exact (group clauses).mp
      (matched _ ((mem_NewMatcher_filters keccak).mpr ⟨clauses, member, nonEmpty, noNil, rfl⟩))
  · intro matched kept member
    obtain ⟨clauses, inFilters, nonEmpty, noNil, rfl⟩ := (mem_NewMatcher_filters keccak).mp member
    exact (group clauses).mpr (matched clauses inFilters nonEmpty noNil)

end Blooms

theorem blocksFrom_pairwise {a c : Nat} (bound : c ≤ 2 ^ 64) : (blocksFrom a c).Pairwise (· < ·) := by
  unfold blocksFrom
  rw [List.pairwise_map]
  refine (List.pairwise_lt_range' (s := a)).imp_of_mem fun {x y} inX inY less => ?_
  rw [List.mem_range'_1] at inX inY
  rw [UInt64.lt_iff_toNat_lt, UInt64.toNat_ofNat', UInt64.toNat_ofNat', Nat.mod_eq_of_lt (by omega),
    Nat.mod_eq_of_lt (by omega)]
  exact less

theorem mem_blocksFrom_iff {a c : Nat} {b : UInt64} (bound : c ≤ 2 ^ 64) : b ∈ blocksFrom a c ↔ a ≤ b.toNat ∧ b.toNat < c := by
  constructor
  · intro member
    obtain ⟨n, above, below, rfl⟩ := mem_blocksFrom member
    rw [UInt64.toNat_ofNat', Nat.mod_eq_of_lt (by omega)]
    exact ⟨above, below⟩
  · rintro ⟨above, below⟩
    exact List.mem_map.mpr ⟨b.toNat, List.mem_range'_1.mpr ⟨above, by omega⟩, UInt64.ofNat_toNat⟩

/-- A block is the start of its section plus its offset in it. -/
theorem ofNat_section_add_offset (sectionSize b : UInt64) :
    UInt64.ofNat (b.toNat / sectionSize.toNat) * sectionSize + UInt64.ofNat (b % sectionSize).toNat = b := by
  apply UInt64.toNat_inj.mp
  have split := Nat.div_add_mod' b.toNat sectionSize.toNat
  have := b.toNat_lt
  have := Nat.div_le_self b.toNat sectionSize.toNat
  have := Nat.div_mul_le_self b.toNat sectionSize.toNat
  rw [UInt64.toNat_add, UInt64.toNat_mul, UInt64.toNat_ofNat', UInt64.toNat_ofNat', UInt64.toNat_mod,
    Nat.mod_eq_of_lt (a := b.toNat / sectionSize.toNat) (by omega),
    Nat.mod_eq_of_lt (a := b.toNat % sectionSize.toNat) (by omega),
    Nat.mod_eq_of_lt (a := b.toNat / sectionSize.toNat * sectionSize.toNat) (by omega)]
  omega

/-- Start on the log filter's range, over the vectors the bloom indexer made for
the sections below the indexed height: in increasing order and each once, the
blocks of the range whose bloom matches the filter, among them every block
whose logs match it. -/
theorem Start_emits_exactly_matching_blocks (keccak : List UInt8 → Meshbox.Hash) {sectionSize : UInt64}
    (sizes : SectionSize sectionSize) (filters : List (List (Option (List UInt8)))) (bloomOf : UInt64 → Bloom)
    (deliver : Deliveries) {sections : Nat} (fits : sections * sectionSize.toNat < 2 ^ 64)
    (rotated : ∀ i < sections, ∃ indexer, processHeaders sectionSize (UInt64.ofNat i) bloomOf = .ok indexer ∧
      ∀ (bit : Nat) (inside : bit < BloomBitLength), deliver bit (UInt64.ofNat i) = indexer.gen.blooms[bit])
    (begin end' : UInt64) (within : end'.toNat < sections * sectionSize.toNat) :
    ∃ emitted, Start (NewMatcher keccak sectionSize filters) deliver begin end' = some (.ok emitted) ∧
      emitted.Pairwise (· < ·) ∧
      (∀ b, b ∈ emitted ↔ begin ≤ b ∧ b ≤ end' ∧ BloomMatches keccak filters (bloomOf b)) ∧
      ∀ b receipts, begin ≤ b → b ≤ end' → CreateBloom keccak receipts = .ok (bloomOf b) →
        LogsMatch filters receipts → b ∈ emitted := by
  -- the indexer's generator of each section holds the blooms of its blocks
  have indexed : ∀ i < sections, ∃ indexer : BloomIndexer,
      (∀ (bit : Nat) (inside : bit < BloomBitLength), deliver bit (UInt64.ofNat i) = indexer.gen.blooms[bit]) ∧
      indexer.gen.sections = sectionSize.toNat ∧ indexer.gen.nextBit = sectionSize.toNat ∧
      Rotated (fun j => bloomOf (UInt64.ofNat i * sectionSize + UInt64.ofNat j)) indexer.gen := by
    intro i below
    obtain ⟨indexer, processed, delivers⟩ := rotated i below
    obtain ⟨other, otherProcessed, sectionsEq, added, holds⟩ :=
      @processHeaders_rotated sectionSize (UInt64.ofNat i) bloomOf sizes.aligned
    rw [processed] at otherProcessed
    cases otherProcessed
    exact ⟨indexer, delivers, sectionsEq, added, holds⟩
  have delivered : ∀ i < sections, Delivered (NewMatcher keccak sectionSize filters).sectionSize deliver
      (UInt64.ofNat i) (NewMatcher keccak sectionSize filters).filters := by
    intro i below group member bits inGroup bit inBits
    obtain ⟨indexer, delivers, sectionsEq, _, holds⟩ := indexed i below
    have inside := NewMatcher_bits_lt keccak group member bits inGroup bit inBits
    show _ = (sectionSize / 8).toNat
    rw [delivers bit inside, holds.sized bit inside, sectionsEq, sizes.bytes]
  -- at a block of the range, the vectors have the bits of the block's bloom
  have columns : ∀ b : UInt64, b ≤ end' → ∀ bit < BloomBitLength,
      bitAt (deliver bit (b / sectionSize)) (b % sectionSize).toNat = (bloomOf b).Big.testBit bit := by
    intro b below bit inside
    have pos := sizes.pos
    rw [UInt64.le_iff_toNat_le] at below
    have inRange : b.toNat / sectionSize.toNat < sections := Nat.div_lt_of_lt_mul (by rw [Nat.mul_comm]; omega)
    obtain ⟨indexer, delivers, _, added, holds⟩ := indexed _ inRange
    have offset : (b % sectionSize).toNat < indexer.gen.nextBit := by
      rw [added, UInt64.toNat_mod]
      exact Nat.mod_lt _ pos
    rw [show b / sectionSize = UInt64.ofNat (b.toNat / sectionSize.toNat) by
        rw [← UInt64.toNat_div, UInt64.ofNat_toNat],
      delivers bit inside, holds.bits bit inside, decide_eq_true offset, Bool.true_and,
      ofNat_section_add_offset]
  have started : Start (NewMatcher keccak sectionSize filters) deliver begin end' = _ :=
    Start_spec sizes delivered fits within
  have bound : end'.toNat + 1 ≤ 2 ^ 64 := end'.toNat_lt
  have membership : ∀ b, b ∈ (blocksFrom begin.toNat (end'.toNat + 1)).filter
      (blockMatches (NewMatcher keccak sectionSize filters) deliver) ↔
        begin ≤ b ∧ b ≤ end' ∧ BloomMatches keccak filters (bloomOf b) := by
    intro b
    have range : (begin.toNat ≤ b.toNat ∧ b.toNat < end'.toNat + 1) ↔ (begin ≤ b ∧ b ≤ end') := by
      rw [UInt64.le_iff_toNat_le, UInt64.le_iff_toNat_le, Nat.lt_succ_iff]
    rw [List.mem_filter, mem_blocksFrom_iff bound, range, ← and_assoc]
    exact and_congr_right fun inRange => blockMatches_NewMatcher keccak (columns b inRange.2)
  refine ⟨_, started, (blocksFrom_pairwise bound).filter _, membership,
    fun b receipts above below created logged => ?_⟩
  exact (membership b).mpr ⟨above, below, BloomMatches_of_LogsMatch keccak created logged⟩

/-- The vectors of the bloom indexer's generators, section by section, as the
retrievers hand them to the matcher. -/
def indexedVectors (sectionSize : UInt64) (bloomOf : UInt64 → Bloom) : Deliveries := fun bit i =>
  match processHeaders sectionSize i bloomOf with
  | .ok indexer => indexer.gen.blooms.toList.getD bit []
  | .error _ => []

theorem indexedVectors_rotated {sectionSize : UInt64} (aligned : sectionSize.toNat % 8 = 0)
    (bloomOf : UInt64 → Bloom) (i : UInt64) :
    ∃ indexer, processHeaders sectionSize i bloomOf = .ok indexer ∧
      ∀ (bit : Nat) (inside : bit < BloomBitLength), indexedVectors sectionSize bloomOf bit i = indexer.gen.blooms[bit] := by
  obtain ⟨indexer, processed, _⟩ := @processHeaders_rotated sectionSize i bloomOf aligned
  refine ⟨indexer, processed, fun bit inside => ?_⟩
  unfold indexedVectors
  rw [processed]
  exact List.getD_eq_getElem _ _ (by rw [Vector.length_toList]; exact inside) |>.trans (Vector.getElem_toList _)

/-- Keccak-256 on the one key the sample filter asks for, the address
0x1111…11, and zero elsewhere. -/
def sampleKeccak (b : List UInt8) : Meshbox.Hash :=
  if b = List.replicate 20 0x11 then
    #v[0xe2, 0xc0, 0x74, 0x04, 0xb8, 0xc1, 0xdf, 0x4c, 0x46, 0x22, 0x64, 0x25, 0xca, 0xc6, 0x8c, 0x28,
      0xd2, 0x7a, 0x76, 0x6b, 0xbd, 0xdc, 0xe6, 0x23, 0x09, 0xf3, 0x67, 0x24, 0x83, 0x9b, 0x22, 0xc0]
  else Vector.replicate 32 0

/-- Block 3 carries the address's bloom bits 704, 1028 and 193; the other
blocks carry none. -/
def sampleBlooms (b : UInt64) : Bloom :=
  if b = 3 then
    Vector.ofFn fun k => if k.val = 167 then 0x01 else if k.val = 127 then 0x10 else if k.val = 231 then 0x02 else 0
  else Vector.replicate BloomByteLength 0

theorem Start_emits_exactly_matching_blocks_sample :
    SectionSize 8 ∧ 2 * (8 : UInt64).toNat < 2 ^ 64 ∧ (15 : UInt64).toNat < 2 * (8 : UInt64).toNat ∧
      ∃ emitted, Start (NewMatcher sampleKeccak 8 [[some (List.replicate 20 0x11)]]) (indexedVectors 8 sampleBlooms)
          0 15 = some (.ok emitted) ∧
        emitted.Pairwise (· < ·) ∧
        (∀ b, b ∈ emitted ↔ 0 ≤ b ∧ b ≤ 15 ∧
          BloomMatches sampleKeccak [[some (List.replicate 20 0x11)]] (sampleBlooms b)) ∧
        ∀ b receipts, 0 ≤ b → b ≤ 15 → CreateBloom sampleKeccak receipts = .ok (sampleBlooms b) →
          LogsMatch [[some (List.replicate 20 0x11)]] receipts → b ∈ emitted :=
  ⟨⟨by decide, by decide⟩, by decide, by decide,
    @Start_emits_exactly_matching_blocks sampleKeccak 8 ⟨by decide, by decide⟩ [[some (List.replicate 20 0x11)]]
      sampleBlooms (indexedVectors 8 sampleBlooms) 2 (by decide)
      (fun i _ => indexedVectors_rotated (by decide) sampleBlooms (UInt64.ofNat i)) 0 15 (by decide)⟩

end Meshbox.Bloombits
