import Meshbox.Common.Types
import Meshbox.Library.Loop

/-
This file models the bloom-bit matcher of core/bloombits. Blocks are grouped
in sections of sectionSize blocks; for each of the 2048 bloom bits the
retrievers deliver, per section, a vector with one bit per block of the
section. A filter is a list of groups of clauses; NewMatcher turns each clause
into its three bloom bits and drops the groups that match anything. Start
feeds the sections of the range into a chain of sub-matchers, one per group,
each of which ANDs the three vectors of a clause, ORs over the clauses and ANDs
the result into what the previous ones let through; it then walks the blocks of
each section that survives and emits those whose bit is set.

The schedulers, the distributor and the retrievers only fetch the vectors, and
the goroutines only pass sections along in order; the model computes a
section's vector from the delivered vectors directly, and a run of Start as the
list of blocks it sends, or an abort.

In the walk over a section, the block after the last one is computed in
uint64 arithmetic: for the top section of the range of block numbers, where
sectionStart + sectionSize wraps, the walk ends before its first block and the
section's matches are never emitted. The log filter only asks for blocks below
the indexed height, where no section wraps; Matches proves Start exact there.
-/

namespace Meshbox.Bloombits

/-- bloomIndexes: the three bloom bits of a key. -/
abbrev bloomIndexes := Vector Nat 3

section Keccak

variable (keccak : List UInt8 → Meshbox.Hash)

/-- calcBloomIndexes: each of the first three byte pairs of the key's hash,
taken as a big-endian number modulo 2048. -/
def calcBloomIndexes (b : List UInt8) : bloomIndexes :=
  let b := keccak b
  Vector.ofFn fun i : Fin 3 => ((b[2 * i.val]).toNat <<< 8 &&& 2047) + (b[2 * i.val + 1]).toNat

/-- Matcher: the section size and the groups of clauses' bloom bits. -/
structure Matcher where
  sectionSize : UInt64
  filters : List (List bloomIndexes)

/-- NewMatcher: an empty group, or a group with a nil clause, matches every
block and is dropped. A clause is none where the Go slice is nil. -/
def NewMatcher (sectionSize : UInt64) (filters : List (List (Option (List UInt8)))) : Matcher :=
  { sectionSize
    filters := filters.filterMap fun filter =>
      if filter.isEmpty then none else filter.mapM fun clause => clause.map (calcBloomIndexes keccak) }

end Keccak

/-! ### Byte vectors -/

/-- bitutil.ANDBytes with the destination its first operand: the first
min(len a, len b) bytes become a AND b, the rest of a stays. -/
def andBytes (a b : List UInt8) : List UInt8 := List.zipWith (· &&& ·) a b ++ a.drop b.length

/-- bitutil.ORBytes with the destination its first operand. -/
def orBytes (a b : List UInt8) : List UInt8 := List.zipWith (· ||| ·) a b ++ a.drop b.length

/-- copy(make([]byte, n), data). -/
def copyInto (n : Nat) (data : List UInt8) : List UInt8 := data.take n ++ List.replicate (n - data.length) 0

/-- bitutil.TestBytes: some bit is set. -/
def TestBytes (p : List UInt8) : Bool := p.any (· != 0)

/-! ### The pipeline -/

/-- partialMatches: a section (its field section, a Lean keyword) and the
vector of its blocks that may match. -/
structure partialMatches where
  sectionIndex : UInt64
  bitset : List UInt8
  deriving DecidableEq, Repr

/-- What the retrievers deliver: for a bloom bit and a section, the vector of
that bit over the section's blocks. -/
abbrev Deliveries := Nat → UInt64 → List UInt8

/-- The vector of one clause in subMatch: the AND of its three bits' vectors,
the first copied into a fresh vector of the section's length. -/
def clauseVector (sectionSize : UInt64) (deliver : Deliveries) (sectionIndex : UInt64) (bits : bloomIndexes) :
    List UInt8 :=
  andBytes (andBytes (copyInto (sectionSize / 8).toNat (deliver bits[0] sectionIndex))
    (deliver bits[1] sectionIndex)) (deliver bits[2] sectionIndex)

/-- The three bits of a clause, in order. -/
theorem vector_toList (bits : bloomIndexes) : bits.toList = [bits[0], bits[1], bits[2]] := by
  obtain ⟨⟨list⟩, sized⟩ := bits
  match list, sized with
  | [_, _, _], _ => rfl

/-- subMatch on one section from the previous link: the OR of the clauses'
vectors, ANDed with the incoming vector, forwarded if some bit is left. -/
def subMatch (sectionSize : UInt64) (deliver : Deliveries) (bloom : List bloomIndexes) (subres : partialMatches) :
    Option partialMatches :=
  let orVector := bloom.foldl (fun orVector bits =>
    let andVector := clauseVector sectionSize deliver subres.sectionIndex bits
    match orVector with
    | none => some andVector
    | some orVector => some (orBytes orVector andVector)) none
  let orVector := orVector.getD (List.replicate (sectionSize / 8).toNat 0)
  let orVector := andBytes orVector subres.bitset
  if TestBytes orVector then some { sectionIndex := subres.sectionIndex, bitset := orVector } else none

/-- run: the sections from begin's to end's, each with a full vector, through
the chain of sub-matchers. -/
def run (m : Matcher) (deliver : Deliveries) (begin end' : UInt64) : List partialMatches :=
  let sections := (List.range' (begin / m.sectionSize).toNat
    ((end' / m.sectionSize).toNat + 1 - (begin / m.sectionSize).toNat)).map UInt64.ofNat
  sections.filterMap fun i =>
    m.filters.foldl (fun subres bloom => subres.bind (subMatch m.sectionSize deliver bloom))
      (some { sectionIndex := i, bitset := List.replicate (m.sectionSize / 8).toNat 0xff })

/-- One turn of Start's walk over the blocks of a matched section, from block i
with the blocks emitted so far: a zero byte at a byte boundary skips its eight
blocks; an index past the vector aborts. -/
def extractStep (bitset : List UInt8) (sectionStart last : UInt64) (state : UInt64 × List UInt64) :
    Outcome Empty (List UInt64 ⊕ (UInt64 × List UInt64)) :=
  let (i, emitted) := state
  if i ≤ last then
    match bitset[((i - sectionStart) / 8).toNat]? with
    | none => .panic
    | some next =>
      if next = 0 then .ok (.inr ((if i % 8 = 0 then i + 7 else i) + 1, emitted))
      else if next &&& (1 <<< (7 - i % 8).toUInt8) ≠ 0 then .ok (.inr (i + 1, emitted ++ [i]))
      else .ok (.inr (i + 1, emitted))
  else .ok (.inl emitted)

/-- The blocks Start emits for one matched section. The walk visits at most
sectionSize blocks before it leaves the section or indexes past the vector, so
sectionSize + 2 turns are enough. -/
def extract (sectionSize begin end' : UInt64) (res : partialMatches) : Option (Outcome Empty (List UInt64)) :=
  let sectionStart := res.sectionIndex * sectionSize
  let first := if begin > sectionStart then begin else sectionStart
  let last := sectionStart + sectionSize - 1
  let last := if end' < last then end' else last
  Loop.run (extractStep res.bitset sectionStart last) (sectionSize.toNat + 2) (first, [])

/-- Start: the blocks sent on the results channel, section after section, or
an abort. -/
def Start (m : Matcher) (deliver : Deliveries) (begin end' : UInt64) : Option (Outcome Empty (List UInt64)) :=
  (run m deliver begin end').foldl (fun sent res =>
    match sent with
    | some (.ok emitted) => (extract m.sectionSize begin end' res).map fun more => more.bind fun more => .ok (emitted ++ more)
    | other => other) (some (.ok []))

/-! ### What a block should match -/

/-- The bit of block j of a section in a section's vector: bit 7 - j % 8 of
byte j / 8, as Generator.AddBloom sets it. -/
def bitAt (bitset : List UInt8) (j : Nat) : Bool := (bitset.getD (j / 8) 0).toNat.testBit (7 - j % 8)

/-- A block matches when, for every group, all three bits of some clause are
set for it in the delivered vectors of its section. -/
def blockMatches (m : Matcher) (deliver : Deliveries) (b : UInt64) : Bool :=
  m.filters.all fun group => group.any fun bits =>
    bits.toList.all fun bit => bitAt (deliver bit (b / m.sectionSize)) (b % m.sectionSize).toNat

/-! ### The top section of the block numbers -/

/-- Sections of 24 blocks and no filter: every block of the range from
2^64 - 16 to 2^64 - 1 matches, and Start emits none of them. The range is the
top section, which starts at 2^64 - 16; its last block, sectionStart + 23,
wraps to 7, and the walk ends before it begins. -/
theorem Start_top_section_emits_nothing (keccak : List UInt8 → Meshbox.Hash) (deliver : Deliveries) :
    (∀ b : UInt64, 0xfffffffffffffff0 ≤ b → blockMatches (NewMatcher keccak 24 []) deliver b = true) ∧
      Start (NewMatcher keccak 24 []) deliver 0xfffffffffffffff0 0xffffffffffffffff = some (.ok []) := by
  refine ⟨fun b _ => rfl, ?_⟩
  -- without filters the chain of sub-matchers is empty and reads no delivery
  have noFilters : NewMatcher keccak 24 [] = { sectionSize := 24, filters := [] } := rfl
  have anyDelivery : run { sectionSize := 24, filters := [] } deliver 0xfffffffffffffff0 0xffffffffffffffff =
      run { sectionSize := 24, filters := [] } (fun _ _ => []) 0xfffffffffffffff0 0xffffffffffffffff := rfl
  rw [noFilters, Start, anyDelivery, ← Start]
  decide

end Meshbox.Bloombits
