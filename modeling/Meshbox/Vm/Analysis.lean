/-
This file models the JUMPDEST analysis of core/vm: the bit vector of
analysis.go, which codeBitmap fills with one bit per byte of a contract's code,
set where the byte is data of a PUSH, and the lookups of contract.go, by which
validJumpdest asks whether a destination holds a JUMPDEST that is an opcode.
The analysis of a contract is kept in the contract once made, and shared
between the contracts of one call under the hash of their code.

codeBitmap marks the data of a PUSHn eight bits at a time, with set8 writing
across two bytes of the bitmap when the position is not a multiple of eight,
and then bit by bit; the bitmap has four bytes more than the code needs so that
the data of a PUSH32 at the end of the code, which runs past it, still lands in
the bitmap. A slice index out of range, which would panic, is none here. The
results below are that no index is ever out of range and that the bitmap marks
exactly the bytes that are not instruction starts in the linear decoding of the
code; validJumpdest then answers from any of the analyses the contract may
read, and so does the check the interpreter is modelled with.
-/

import Meshbox.Vm.Interpreter
import Meshbox.State.StateDB
import Meshbox.Library.GoMap

namespace Meshbox.Vm

open Meshbox.State

/-! ### The bit vector -/

/-- bitvec: bit 7 - pos % 8 of byte pos / 8 is set when the byte at pos is
data of a PUSH. -/
abbrev bitvec := List UInt8

/-- bitvec.set: marks pos as data. -/
def bitvec.set (bits : bitvec) (pos : Nat) : Option bitvec :=
  if pos / 8 < bits.length then some (bits.modify (pos / 8) (· ||| (0x80 >>> (pos % 8).toUInt8)))
  else none

/-- bitvec.set8: marks the eight positions from pos as data, the ones in the
byte of pos and the rest at the top of the next byte. -/
def bitvec.set8 (bits : bitvec) (pos : Nat) : Option bitvec :=
  if pos / 8 + 1 < bits.length then
    some ((bits.modify (pos / 8) (· ||| (0xFF >>> (pos % 8).toUInt8))).modify (pos / 8 + 1)
      (· ||| ~~~(0xFF >>> (pos % 8).toUInt8)))
  else none

/-- bitvec.codeSegment: whether pos is not marked as data. -/
def bitvec.codeSegment (bits : bitvec) (pos : Nat) : Option Bool :=
  bits[pos / 8]?.map fun byte => byte &&& (0x80 >>> (pos % 8).toUInt8) == 0

/-- The first inner loop of codeBitmap: set8 from pc while eight or more bits
are left to mark. -/
def bitvec.setEights (bits : bitvec) (pc : Nat) : Nat → Option (bitvec × Nat × Nat)
  | numbits + 8 => do
    let bits ← bits.set8 pc
    bits.setEights (pc + 8) numbits
  | numbits => some (bits, pc, numbits)

/-- The second inner loop of codeBitmap: set for each bit left. -/
def bitvec.setOnes (bits : bitvec) (pc : Nat) : Nat → Option (bitvec × Nat)
  | 0 => some (bits, pc)
  | numbits + 1 => do
    let bits ← bits.set pc
    bits.setOnes (pc + 1) numbits

/-- The two inner loops of codeBitmap, which mark the numbits bytes of data of
a PUSH from pc and return the pc after them. -/
def bitvec.setPushData (bits : bitvec) (pc numbits : Nat) : Option (bitvec × Nat) := do
  let (bits, pc, numbits) ← bits.setEights pc numbits
  bits.setOnes pc numbits

/-- The loop of codeBitmap from pc. Each turn moves pc past one instruction, so
the loop takes at most len(code) turns, and fuel counts the turns left: with
fuel len(code) it runs out only where pc ≥ len(code), where the loop stops. -/
def codeBitmapFrom (code : List UInt8) : Nat → bitvec → Nat → Option bitvec
  | 0, bits, _ => some bits
  | fuel + 1, bits, pc =>
    match code[pc]? with
    | none => some bits
    | some op =>
      if isPush op then do
        let (bits, pc) ← bits.setPushData (pc + 1) (op - 0x60 + 1).toNat
        codeBitmapFrom code fuel bits pc
      else codeBitmapFrom code fuel bits (pc + 1)

/-- codeBitmap: the bitmap of len(code)/8 + 1 + 4 bytes with the data of every
PUSH marked. -/
def codeBitmap (code : List UInt8) : Option bitvec :=
  codeBitmapFrom code code.length (List.replicate (code.length / 8 + 1 + 4) 0) 0

/-! ### Contracts and their analyses -/

/-- destinations: the analyses of the contracts of one call, by code hash. -/
abbrev destinations := List (Hash × bitvec)

/-- The fields of Contract that its JUMPDEST analysis reads and writes: the
code and its hash, the destinations it shares with the contract that called
it, and its own analysis once made. -/
structure CodeAnalysis where
  Code : List UInt8
  CodeHash : Hash
  jumpdests : destinations
  analysis : Option bitvec

/-- Contract.isCode: whether udest is an opcode, from the contract's own
analysis, else from the one shared under its code hash, else from a new one,
which a contract with a code hash shares and every contract keeps. -/
def CodeAnalysis.isCode (c : CodeAnalysis) (udest : Nat) : Option (Bool × CodeAnalysis) :=
  match c.analysis with
  | some analysis => (analysis.codeSegment udest).map (·, c)
  | none =>
    if c.CodeHash ≠ zeroHash then
      match GoMap.get c.jumpdests c.CodeHash with
      | some analysis => (analysis.codeSegment udest).map (·, { c with analysis := some analysis })
      | none => do
        let analysis ← codeBitmap c.Code
        (analysis.codeSegment udest).map
          (·, { c with jumpdests := GoMap.set c.jumpdests c.CodeHash analysis, analysis := some analysis })
    else do
      let analysis ← codeBitmap c.Code
      (analysis.codeSegment udest).map (·, { c with analysis := some analysis })

/-- Contract.validJumpdest: dest, a stack word, is a JUMPDEST of the code that
is an opcode. -/
def CodeAnalysis.validJumpdest (c : CodeAnalysis) (dest : Nat) : Option (Bool × CodeAnalysis) :=
  if 2 ^ 64 ≤ dest ∨ c.Code.length ≤ dest then some (false, c)
  else if c.Code.getD dest 0 ≠ 0x5b then some (false, c)
  else c.isCode dest

/-! ### The linear decoding -/

/-- The number of data bytes that follow an opcode: n for PUSHn. -/
def pushWidth (op : UInt8) : Nat :=
  if isPush op then op.toNat - 0x5f else 0

/-- The starts of the instructions in the linear decoding of code from 0, where
a PUSHn is followed by n bytes of data, which may run past the end of the
code. -/
inductive InstrStart (code : List UInt8) : Nat → Prop
  | zero : InstrStart code 0
  | next {pc : Nat} {op : UInt8} : InstrStart code pc → code[pc]? = some op →
      InstrStart code (pc + 1 + pushWidth op)

/-- No instruction starts inside the data of another: the next start after an
instruction is the one its width gives. The induction is on the larger start,
as the start before it may lie on either side of the smaller one. -/
theorem InstrStart.next_le {code : List UInt8} {p q : Nat} {op : UInt8} (startP : InstrStart code p)
    (opcode : code[p]? = some op) (startQ : InstrStart code q) (before : p < q) :
    p + 1 + pushWidth op ≤ q := by
  induction q using Nat.strong_induction_on generalizing p op with
  | _ q inductionHypothesis =>
  cases startQ with
  | zero => omega
  | @next t previousOp startT opcodeT =>
    rcases Nat.lt_trichotomy p t with earlier | same | later
    · have nextP := inductionHypothesis t (by omega) startP opcode startT earlier
      omega
    · subst same
      rw [opcode, Option.some.injEq] at opcodeT
      rw [opcodeT]
    · -- then q, the start after t, would not exceed p
      have nextT := inductionHypothesis p before startT opcodeT startP later
      omega

theorem InstrStart.not_of_lt_next {code : List UInt8} {p q : Nat} {op : UInt8} (startP : InstrStart code p)
    (opcode : code[p]? = some op) (after : p < q) (inside : q < p + 1 + pushWidth op) :
    ¬InstrStart code q := fun startQ =>
  absurd (startP.next_le opcode startQ after) (by omega)

/-! ### Bits -/

/-- Whether pos is marked in the bitmap. -/
def bitvec.bitAt (bits : bitvec) (pos : Nat) : Bool :=
  bits.getD (pos / 8) 0 &&& (0x80 >>> (pos % 8).toUInt8) != 0

theorem codeSegment_eq_not_bitAt {bits : bitvec} {pos : Nat} (inRange : pos / 8 < bits.length) :
    bits.codeSegment pos = some !bits.bitAt pos := by
  simp [bitvec.codeSegment, bitvec.bitAt, List.getD_eq_getElem?_getD, List.getElem?_eq_getElem inRange, bne]

theorem or_and_ne_zero (b mask bit : UInt8) :
    ((b ||| mask) &&& bit != 0) = (b &&& bit != 0 || mask &&& bit != 0) := by
  have distrib : (b ||| mask) &&& bit = (b &&& bit) ||| (mask &&& bit) :=
    UInt8.toBitVec_inj.mp BitVec.and_or_distrib_right
  rw [distrib, Bool.eq_iff_iff]
  simp only [Bool.or_eq_true, bne_iff_ne, ne_eq, UInt8.or_eq_zero_iff, not_and_or]

/-- The three masks, read at one bit: set's is that bit alone, set8's first
byte the bits from its position down, its second byte the ones above. -/
theorem mask_bits : ∀ i j : Fin 8,
    ((0x80 : UInt8) >>> (i : Nat).toUInt8 &&& (0x80 : UInt8) >>> (j : Nat).toUInt8 != 0) = decide (i = j) ∧
      ((0xFF : UInt8) >>> (i : Nat).toUInt8 &&& (0x80 : UInt8) >>> (j : Nat).toUInt8 != 0) = decide (i ≤ j) ∧
      (~~~((0xFF : UInt8) >>> (i : Nat).toUInt8) &&& (0x80 : UInt8) >>> (j : Nat).toUInt8 != 0) = decide (j < i) := by
  decide

theorem length_modify_or (bits : bitvec) (index : Nat) (mask : UInt8) :
    (bits.modify index (· ||| mask)).length = bits.length :=
  List.length_modify _ _ _

/-- Or-ing a mask into one byte marks what the mask marks in that byte. -/
theorem bitAt_modify_or (bits : bitvec) {index : Nat} (mask : UInt8) (inRange : index < bits.length)
    (pos : Nat) :
    bitvec.bitAt (bits.modify index (· ||| mask)) pos =
      (bits.bitAt pos || pos / 8 = index && mask &&& (0x80 >>> (pos % 8).toUInt8) != 0) := by
  simp only [bitvec.bitAt, List.getD_eq_getElem?_getD, List.getElem?_modify]
  by_cases here : pos / 8 = index
  · subst here
    simp [List.getElem?_eq_getElem inRange, or_and_ne_zero]
  · have notHere : index ≠ pos / 8 := fun same => here same.symm
    cases bits[pos / 8]? <;> simp [here, notHere]

/-- What set marks: pos. -/
theorem set_spec {bits : bitvec} {pos : Nat} (inRange : pos < 8 * bits.length) :
    ∃ marked, bits.set pos = some marked ∧ marked.length = bits.length ∧
      ∀ q, marked.bitAt q = (bits.bitAt q || q == pos) := by
  have byteInRange : pos / 8 < bits.length := by omega
  refine ⟨_, if_pos byteInRange, length_modify_or _ _ _, fun q => ?_⟩
  rw [bitAt_modify_or bits _ byteInRange]
  have bit := (mask_bits ⟨pos % 8, Nat.mod_lt _ (by decide)⟩ ⟨q % 8, Nat.mod_lt _ (by decide)⟩).1
  simp only [Fin.mk.injEq] at bit
  rw [bit]
  congr 1
  rw [Bool.eq_iff_iff]
  simp only [Bool.and_eq_true, decide_eq_true_eq, beq_iff_eq]
  omega

/-- What set8 marks: the eight positions from pos. -/
theorem set8_spec {bits : bitvec} {pos : Nat} (inRange : pos + 8 < 8 * bits.length) :
    ∃ marked, bits.set8 pos = some marked ∧ marked.length = bits.length ∧
      ∀ q, marked.bitAt q = (bits.bitAt q || decide (pos ≤ q ∧ q < pos + 8)) := by
  have bytesInRange : pos / 8 + 1 < bits.length := by omega
  refine ⟨_, if_pos bytesInRange, by simp only [length_modify_or], fun q => ?_⟩
  rw [bitAt_modify_or _ _ (by rw [length_modify_or]; exact bytesInRange),
    bitAt_modify_or _ _ (by omega)]
  obtain ⟨-, first, second⟩ := mask_bits ⟨pos % 8, Nat.mod_lt _ (by decide)⟩ ⟨q % 8, Nat.mod_lt _ (by decide)⟩
  simp only [Fin.mk_le_mk, Fin.mk_lt_mk] at first second
  rw [first, second, Bool.or_assoc]
  congr 1
  -- the two bytes together cover the positions pos to pos + 7
  rw [Bool.eq_iff_iff]
  simp only [Bool.or_eq_true, Bool.and_eq_true, decide_eq_true_eq]
  omega

/-! ### The inner loops -/

/-- Marking a range and then the range right after it marks both together:
each inner loop marks its positions one piece after another. -/
theorem or_adjacent_ranges (marked : Bool) {start middle stop q : Nat} (first : start ≤ middle)
    (second : middle ≤ stop) :
    (marked || decide (start ≤ q ∧ q < middle) || decide (middle ≤ q ∧ q < stop)) =
      (marked || decide (start ≤ q ∧ q < stop)) := by
  rw [Bool.or_assoc]
  congr 1
  rw [Bool.eq_iff_iff]
  simp only [Bool.or_eq_true, decide_eq_true_eq]
  omega

/-- The first inner loop marks the positions from pc that its eights cover and
leaves the remainder. -/
theorem setEights_spec (bits : bitvec) (pc numbits : Nat) (fits : pc + numbits < 8 * bits.length) :
    ∃ marked, bits.setEights pc numbits = some (marked, pc + 8 * (numbits / 8), numbits % 8) ∧
      marked.length = bits.length ∧
      ∀ q, marked.bitAt q = (bits.bitAt q || decide (pc ≤ q ∧ q < pc + 8 * (numbits / 8))) := by
  induction bits, pc, numbits using bitvec.setEights.induct with
  | case1 bits pc numbits inductionHypothesis =>
    obtain ⟨eight, setEight, eightLength, eightBits⟩ := @set8_spec bits pc (by omega)
    obtain ⟨marked, rest, markedLength, markedBits⟩ :=
      inductionHypothesis eight (by rw [eightLength]; omega)
    refine ⟨marked, ?_, markedLength.trans eightLength, fun q => ?_⟩
    · rw [bitvec.setEights, setEight, Option.bind_eq_bind, Option.bind_some, rest]
      congr 3 <;> omega
    · have ends : pc + 8 + 8 * (numbits / 8) = pc + 8 * ((numbits + 8) / 8) := by omega
      rw [markedBits, eightBits, or_adjacent_ranges _ (by omega) (by omega), ends]
  | case2 bits pc numbits small =>
    have fewer : numbits < 8 := by
      by_contra many
      exact small (numbits - 8) (by omega)
    refine ⟨bits, ?_, rfl, fun q => ?_⟩
    · rw [bitvec.setEights.eq_2 _ _ _ small]
      simp [Nat.div_eq_of_lt fewer, Nat.mod_eq_of_lt fewer]
    · simp [Nat.div_eq_of_lt fewer]

/-- The second inner loop marks the positions from pc to pc + numbits. -/
theorem setOnes_spec (numbits : Nat) :
    ∀ {bits : bitvec} {pc : Nat}, pc + numbits ≤ 8 * bits.length →
      ∃ marked, bits.setOnes pc numbits = some (marked, pc + numbits) ∧ marked.length = bits.length ∧
        ∀ q, marked.bitAt q = (bits.bitAt q || decide (pc ≤ q ∧ q < pc + numbits)) := by
  induction numbits with
  | zero =>
    intro bits pc _
    exact ⟨bits, rfl, rfl, fun q => by simp⟩
  | succ numbits inductionHypothesis =>
    intro bits pc fits
    obtain ⟨one, setOne, oneLength, oneBits⟩ := @set_spec bits pc (by omega)
    obtain ⟨marked, rest, markedLength, markedBits⟩ :=
      @inductionHypothesis one (pc + 1) (by omega)
    refine ⟨marked, ?_, markedLength.trans oneLength, fun q => ?_⟩
    · rw [bitvec.setOnes, setOne, Option.bind_eq_bind, Option.bind_some, rest]
      congr 2
      omega
    · rw [markedBits, oneBits, Bool.or_assoc]
      congr 1
      rw [Bool.eq_iff_iff]
      simp only [Bool.or_eq_true, decide_eq_true_eq, beq_iff_eq]
      omega

/-- The inner loops together mark the numbits positions from pc. -/
theorem setPushData_spec {bits : bitvec} {pc numbits : Nat} (fits : pc + numbits < 8 * bits.length) :
    ∃ marked, bits.setPushData pc numbits = some (marked, pc + numbits) ∧ marked.length = bits.length ∧
      ∀ q, marked.bitAt q = (bits.bitAt q || decide (pc ≤ q ∧ q < pc + numbits)) := by
  obtain ⟨eights, setEight, eightsLength, eightsBits⟩ := setEights_spec bits pc numbits fits
  obtain ⟨marked, setOne, markedLength, markedBits⟩ :=
    @setOnes_spec (numbits % 8) eights (pc + 8 * (numbits / 8)) (by omega)
  have ends : pc + 8 * (numbits / 8) + numbits % 8 = pc + numbits := by omega
  refine ⟨marked, ?_, markedLength.trans eightsLength, fun q => ?_⟩
  · rw [bitvec.setPushData, setEight, Option.bind_eq_bind, Option.bind_some]
    simpa only [ends] using setOne
  · rw [markedBits, eightsBits, or_adjacent_ranges _ (by omega) (by omega), ends]

/-! ### The outer loop -/

/-- The data width codeBitmap computes for a PUSH is its pushWidth. -/
theorem toNat_bounds_of_isPush {op : UInt8} (push : isPush op = true) : 0x60 ≤ op.toNat ∧ op.toNat ≤ 0x7f := by
  simpa [isPush, UInt8.le_iff_toNat_le] using push

theorem numbits_eq_pushWidth {op : UInt8} (push : isPush op = true) : (op - 0x60 + 1).toNat = pushWidth op := by
  have bounds := toNat_bounds_of_isPush push
  have atLeast : (0x60 : UInt8) ≤ op := UInt8.le_iff_toNat_le.mpr (by simpa using bounds.1)
  rw [pushWidth, if_pos push, UInt8.toNat_add, UInt8.toNat_sub_of_le _ _ atLeast]
  simp only [UInt8.reduceToNat, Nat.reducePow]
  omega

theorem pushWidth_le (op : UInt8) : pushWidth op ≤ 32 := by
  unfold pushWidth
  split
  · rename_i push
    have bounds := toNat_bounds_of_isPush push
    omega
  · omega

/-- What codeBitmap's loop keeps: the bitmap keeps its length, pc is an
instruction start, and the bits mark exactly the positions below pc that are
not. -/
structure BitmapInv (code : List UInt8) (bits : bitvec) (pc : Nat) : Prop where
  length : bits.length = code.length / 8 + 1 + 4
  start : InstrStart code pc
  marks : ∀ q, bits.bitAt q = true ↔ q < pc ∧ ¬InstrStart code q

/-- One turn of the loop at the opcode op keeps the invariant at the next
instruction start. -/
theorem BitmapInv.turn {code : List UInt8} {bits : bitvec} {pc : Nat} {op : UInt8}
    (inv : BitmapInv code bits pc) (opcode : code[pc]? = some op) :
    ∃ marked, (if isPush op then bits.setPushData (pc + 1) (op - 0x60 + 1).toNat
        else some (bits, pc + 1)) = some (marked, pc + 1 + pushWidth op) ∧
      BitmapInv code marked (pc + 1 + pushWidth op) := by
  have inCode : pc < code.length := (List.getElem?_eq_some_iff.mp opcode).1
  have start' : InstrStart code (pc + 1 + pushWidth op) := .next inv.start opcode
  -- the positions between the two starts are data, the start itself is not
  have between : ∀ q, pc ≤ q → q < pc + 1 + pushWidth op → (¬InstrStart code q ↔ pc + 1 ≤ q) := by
    intro q atLeast below
    constructor
    · intro notStart
      by_contra atPc
      exact notStart (by rw [show q = pc by omega]; exact inv.start)
    · intro after
      exact inv.start.not_of_lt_next opcode (by omega) below
  split
  · rename_i push
    have fits : pc + 1 + pushWidth op < 8 * bits.length := by
      have := pushWidth_le op
      rw [inv.length]
      omega
    obtain ⟨marked, setData, markedLength, markedBits⟩ := setPushData_spec fits
    refine ⟨marked, by rw [numbits_eq_pushWidth push, setData], ⟨markedLength.trans inv.length, start', ?_⟩⟩
    intro q
    rw [markedBits, Bool.or_eq_true, inv.marks, decide_eq_true_iff]
    by_cases below : q < pc
    · have notData : ¬(pc + 1 ≤ q ∧ q < pc + 1 + pushWidth op) := by omega
      simp only [below, true_and, notData, or_false]
      constructor
      · intro notStart
        exact ⟨by omega, notStart⟩
      · exact fun ⟨_, notStart⟩ => notStart
    · have notBefore : ¬(q < pc ∧ ¬InstrStart code q) := fun ⟨before, _⟩ => below before
      simp only [notBefore, false_or]
      by_cases inside : q < pc + 1 + pushWidth op
      · have iff := between q (by omega) inside
        constructor
        · intro ⟨after, _⟩
          exact ⟨inside, iff.mpr after⟩
        · intro ⟨_, notStart⟩
          exact ⟨iff.mp notStart, inside⟩
      · simp only [inside, false_and, and_false]
  · rename_i notPush
    have noData : pushWidth op = 0 := by simp [pushWidth, notPush]
    refine ⟨bits, by rw [noData], ⟨inv.length, start', fun q => ?_⟩⟩
    rw [inv.marks, noData]
    constructor
    · intro ⟨before, notStart⟩
      exact ⟨by omega, notStart⟩
    · intro ⟨before, notStart⟩
      have notPc : q ≠ pc := fun same => notStart (same ▸ inv.start)
      exact ⟨by omega, notStart⟩

/-- The loop of codeBitmap, from any state of the invariant with fuel enough,
ends with the invariant at a start at or past the end of the code. -/
theorem codeBitmapFrom_spec (code : List UInt8) (fuel : Nat) :
    ∀ {bits : bitvec} {pc : Nat}, BitmapInv code bits pc → code.length ≤ pc + fuel →
      ∃ marked pcEnd, codeBitmapFrom code fuel bits pc = some marked ∧ code.length ≤ pcEnd ∧
        BitmapInv code marked pcEnd := by
  induction fuel with
  | zero =>
    intro bits pc inv enough
    exact ⟨bits, pc, rfl, by omega, inv⟩
  | succ fuel inductionHypothesis =>
    intro bits pc inv enough
    cases opcode : code[pc]? with
    | none =>
      have past : code.length ≤ pc := List.getElem?_eq_none_iff.mp opcode
      exact ⟨bits, pc, by simp [codeBitmapFrom, opcode], past, inv⟩
    | some op =>
      obtain ⟨marked, turn, inv'⟩ := inv.turn opcode
      obtain ⟨final, pcEnd, rest, past, invEnd⟩ := inductionHypothesis inv' (by omega)
      refine ⟨final, pcEnd, ?_, past, invEnd⟩
      simp only [codeBitmapFrom, opcode]
      by_cases push : isPush op = true
      · rw [if_pos push] at turn ⊢
        simp only [Option.bind_eq_bind, turn, Option.bind_some, rest]
      · rw [if_neg push] at turn ⊢
        obtain ⟨sameBits, samePc⟩ := Prod.mk.inj (Option.some.inj turn)
        rw [← sameBits, ← samePc] at rest
        exact rest

theorem bitAt_replicate_zero (size pos : Nat) : bitvec.bitAt (List.replicate size 0) pos = false := by
  simp only [bitvec.bitAt, List.getD_eq_getElem?_getD, List.getElem?_replicate]
  split <;> simp

/-- codeBitmap never indexes out of its bitmap, and marks exactly the
positions of the code that are not instruction starts. -/
theorem codeBitmap_spec (code : List UInt8) :
    ∃ bits, codeBitmap code = some bits ∧ bits.length = code.length / 8 + 1 + 4 ∧
      ∀ q < code.length, bits.bitAt q = true ↔ ¬InstrStart code q := by
  have initial : BitmapInv code (List.replicate (code.length / 8 + 1 + 4) 0) 0 :=
    ⟨List.length_replicate, .zero, fun q => by simp [bitAt_replicate_zero]⟩
  obtain ⟨bits, pcEnd, run, past, inv⟩ := codeBitmapFrom_spec code code.length initial (by omega)
  refine ⟨bits, run, inv.length, fun q inCode => ?_⟩
  rw [inv.marks]
  exact ⟨fun ⟨_, notStart⟩ => notStart, fun notStart => ⟨by omega, notStart⟩⟩

/-- Read at a position of the code, the analysis of the code says whether it
is an instruction start. -/
theorem codeSegment_of_codeBitmap {code : List UInt8} {bits : bitvec} (analysed : codeBitmap code = some bits)
    {pos : Nat} (inCode : pos < code.length) :
    ∃ segment, bits.codeSegment pos = some segment ∧ (segment = true ↔ InstrStart code pos) := by
  obtain ⟨bits', analysed', length, marks⟩ := codeBitmap_spec code
  rw [analysed, Option.some.injEq] at analysed'
  subst analysed'
  refine ⟨_, codeSegment_eq_not_bitAt (by rw [length]; omega), ?_⟩
  rw [Bool.not_eq_true', ← Bool.not_eq_true, marks pos inCode, not_not]

/-! ### Contracts -/

/-- The analyses a contract may read are analyses of its code: its own once
made, and the one shared under its code hash. -/
structure CodeAnalysis.Cached (c : CodeAnalysis) : Prop where
  own : ∀ bits, c.analysis = some bits → codeBitmap c.Code = some bits
  shared : c.CodeHash ≠ zeroHash → ∀ bits, GoMap.get c.jumpdests c.CodeHash = some bits →
    codeBitmap c.Code = some bits

/-- isCode answers from the analysis of the code, whichever one it reads, and
the contract afterwards still reads only analyses of its code. -/
theorem CodeAnalysis.isCode_spec {c : CodeAnalysis} (cached : c.Cached) {udest : Nat}
    (inCode : udest < c.Code.length) :
    ∃ segment c', c.isCode udest = some (segment, c') ∧ (segment = true ↔ InstrStart c.Code udest) ∧
      c'.Cached ∧ c'.Code = c.Code ∧ c'.CodeHash = c.CodeHash := by
  obtain ⟨fresh, analysed, -, -⟩ := codeBitmap_spec c.Code
  cases own : c.analysis with
  | some bits =>
    -- the contract's own analysis
    obtain ⟨segment, read, iff⟩ := codeSegment_of_codeBitmap (cached.own bits own) inCode
    exact ⟨segment, c, by simp [CodeAnalysis.isCode, own, read], iff, cached, rfl, rfl⟩
  | none =>
    by_cases hashed : c.CodeHash = zeroHash
    · -- no code hash: a new analysis the contract keeps to itself
      obtain ⟨segment, read, iff⟩ := codeSegment_of_codeBitmap analysed inCode
      refine ⟨segment, { c with analysis := some fresh },
        by simp [CodeAnalysis.isCode, own, hashed, analysed, read], iff, ⟨?_, fun notZero => absurd hashed notZero⟩,
        rfl, rfl⟩
      intro bits same
      cases same
      exact analysed
    cases shared : GoMap.get c.jumpdests c.CodeHash with
    | some bits =>
      -- the analysis shared under the code hash
      have sharedBits := cached.shared hashed bits shared
      obtain ⟨segment, read, iff⟩ := codeSegment_of_codeBitmap sharedBits inCode
      refine ⟨segment, { c with analysis := some bits },
        by simp [CodeAnalysis.isCode, own, hashed, shared, read], iff, ⟨?_, cached.shared⟩, rfl, rfl⟩
      intro bits' same
      cases same
      exact sharedBits
    | none =>
      -- a new analysis, shared under the code hash
      obtain ⟨segment, read, iff⟩ := codeSegment_of_codeBitmap analysed inCode
      refine ⟨segment, { c with jumpdests := GoMap.set c.jumpdests c.CodeHash fresh, analysis := some fresh },
        by simp [CodeAnalysis.isCode, own, hashed, shared, analysed, read], iff, ⟨?_, ?_⟩, rfl, rfl⟩
      · intro bits same
        cases same
        exact analysed
      · intro _ bits stored
        rw [GoMap.get_set_self, Option.some.injEq] at stored
        exact stored ▸ analysed

/-- validJumpdest accepts exactly the JUMPDESTs of the code that are
instruction starts, whichever analysis it reads, and the contract afterwards
still reads only analyses of its code. A Go slice is shorter than 2^64, which
is what lets the overflow check and the bound check agree. -/
theorem CodeAnalysis.validJumpdest_spec {c : CodeAnalysis} (cached : c.Cached) (short : c.Code.length < 2 ^ 64)
    (dest : Nat) :
    ∃ valid c', c.validJumpdest dest = some (valid, c') ∧
      (valid = true ↔ dest < c.Code.length ∧ c.Code[dest]? = some 0x5b ∧ InstrStart c.Code dest) ∧
      c'.Cached ∧ c'.Code = c.Code ∧ c'.CodeHash = c.CodeHash := by
  unfold CodeAnalysis.validJumpdest
  by_cases outside : 2 ^ 64 ≤ dest ∨ c.Code.length ≤ dest
  · refine ⟨false, c, if_pos outside, ?_, cached, rfl, rfl⟩
    have notInCode : ¬dest < c.Code.length := by omega
    simp [notInCode]
  have inCode : dest < c.Code.length := by omega
  have byte : c.Code.getD dest 0 = c.Code[dest] := by
    rw [List.getD_eq_getElem?_getD, List.getElem?_eq_getElem inCode, Option.getD_some]
  rw [if_neg outside, List.getElem?_eq_getElem inCode]
  by_cases jumpdest : c.Code.getD dest 0 = 0x5b
  · rw [if_neg (not_not.mpr jumpdest)]
    have jumpdestAt : c.Code[dest] = 0x5b := byte ▸ jumpdest
    obtain ⟨segment, c', isCode, iff, rest⟩ := c.isCode_spec cached inCode
    exact ⟨segment, c', isCode, by simp [iff, inCode, jumpdestAt], rest⟩
  · have notJumpdest : c.Code[dest] ≠ 0x5b := byte ▸ jumpdest
    exact ⟨false, c, if_pos jumpdest, by simp [notJumpdest], cached, rfl, rfl⟩

/-! ### The shared analyses

The contracts of one call share one map of analyses, each contract adding the
analysis of its code under its code hash. The map holds only analyses of the
codes of those contracts, and as long as no two of the codes have one hash,
every contract reads from it the analysis of its own code.
-/

/-- Every analysis in the map is the analysis of one of codes with the hash it
is kept under. -/
def destinations.Sound (hash : List UInt8 → Hash) (codes : List (List UInt8)) (jumpdests : destinations) :
    Prop :=
  ∀ entry ∈ jumpdests, ∃ code ∈ codes, hash code = entry.1 ∧ codeBitmap code = some entry.2

/-- isCode keeps the code and its hash, and leaves the shared map as it was or
adds the analysis of the code under the code hash. -/
theorem CodeAnalysis.isCode_cases {c c' : CodeAnalysis} {udest : Nat} {segment : Bool}
    (isCode : c.isCode udest = some (segment, c')) :
    c'.Code = c.Code ∧ c'.CodeHash = c.CodeHash ∧
      (c'.jumpdests = c.jumpdests ∨
        ∃ analysis, c.CodeHash ≠ zeroHash ∧ codeBitmap c.Code = some analysis ∧
          c'.jumpdests = GoMap.set c.jumpdests c.CodeHash analysis) := by
  unfold CodeAnalysis.isCode at isCode
  split at isCode
  · obtain ⟨_, -, same⟩ := Option.map_eq_some_iff.mp isCode
    cases same
    exact ⟨rfl, rfl, Or.inl rfl⟩
  · split at isCode
    · rename_i hashed
      split at isCode
      · obtain ⟨_, -, same⟩ := Option.map_eq_some_iff.mp isCode
        cases same
        exact ⟨rfl, rfl, Or.inl rfl⟩
      · obtain ⟨analysis, analysed, read⟩ := Option.bind_eq_some_iff.mp isCode
        obtain ⟨_, -, same⟩ := Option.map_eq_some_iff.mp read
        cases same
        exact ⟨rfl, rfl, Or.inr ⟨analysis, hashed, analysed, rfl⟩⟩
    · obtain ⟨analysis, -, read⟩ := Option.bind_eq_some_iff.mp isCode
      obtain ⟨_, -, same⟩ := Option.map_eq_some_iff.mp read
      cases same
      exact ⟨rfl, rfl, Or.inl rfl⟩

/-- validJumpdest answers without a lookup, leaving the contract as it was, or
answers what isCode does. -/
theorem CodeAnalysis.validJumpdest_cases {c c' : CodeAnalysis} {dest : Nat} {valid : Bool}
    (jump : c.validJumpdest dest = some (valid, c')) : c' = c ∨ c.isCode dest = some (valid, c') := by
  unfold CodeAnalysis.validJumpdest at jump
  split at jump
  · cases jump
    exact Or.inl rfl
  split at jump
  · cases jump
    exact Or.inl rfl
  · exact Or.inr jump

section Shared

variable {hash : List UInt8 → Hash} {codes : List (List UInt8)}

/-- isCode keeps the shared map sound when the contract's code hash is the
hash of its code. -/
theorem CodeAnalysis.isCode_sound {c c' : CodeAnalysis} {udest : Nat} {segment : Bool}
    (sound : destinations.Sound hash codes c.jumpdests) (running : c.Code ∈ codes)
    (hashed : c.CodeHash ≠ zeroHash → c.CodeHash = hash c.Code) (isCode : c.isCode udest = some (segment, c')) :
    destinations.Sound hash codes c'.jumpdests := by
  obtain ⟨-, -, same | ⟨analysis, notZero, analysed, added⟩⟩ := c.isCode_cases isCode
  · rw [same]
    exact sound
  · rw [added]
    intro entry member
    rcases GoMap.mem_set member with new | old
    · subst new
      exact ⟨c.Code, running, (hashed notZero).symm, analysed⟩
    · exact sound entry old

/-- A contract reads from a sound map the analysis of its code, when no two
codes of the call have one hash. -/
theorem CodeAnalysis.cached_of_sound {c : CodeAnalysis} (sound : destinations.Sound hash codes c.jumpdests)
    (running : c.Code ∈ codes) (distinct : ∀ a ∈ codes, ∀ b ∈ codes, hash a = hash b → a = b)
    (hashed : c.CodeHash ≠ zeroHash → c.CodeHash = hash c.Code)
    (own : ∀ bits, c.analysis = some bits → codeBitmap c.Code = some bits) : c.Cached := by
  refine ⟨own, fun notZero bits stored => ?_⟩
  obtain ⟨code, member, sameHash, analysed⟩ := sound _ (GoMap.mem_of_get stored)
  have sameCode : code = c.Code := distinct code member c.Code running (sameHash.trans (hashed notZero))
  exact sameCode ▸ analysed

/-- validJumpdest keeps the shared map sound. -/
theorem CodeAnalysis.validJumpdest_sound {c c' : CodeAnalysis} {dest : Nat} {valid : Bool}
    (sound : destinations.Sound hash codes c.jumpdests) (running : c.Code ∈ codes)
    (hashed : c.CodeHash ≠ zeroHash → c.CodeHash = hash c.Code)
    (jump : c.validJumpdest dest = some (valid, c')) : destinations.Sound hash codes c'.jumpdests := by
  rcases c.validJumpdest_cases jump with same | isCode
  · exact same ▸ sound
  · exact c.isCode_sound sound running hashed isCode

/-- validJumpdest keeps the code and its hash. -/
theorem CodeAnalysis.validJumpdest_code {c c' : CodeAnalysis} {dest : Nat} {valid : Bool}
    (jump : c.validJumpdest dest = some (valid, c')) : c'.Code = c.Code ∧ c'.CodeHash = c.CodeHash := by
  rcases c.validJumpdest_cases jump with same | isCode
  · exact same ▸ ⟨rfl, rfl⟩
  · obtain ⟨sameCode, sameHash, -⟩ := c.isCode_cases isCode
    exact ⟨sameCode, sameHash⟩

end Shared

/-- The validJumpdest calls of one contract on dests, one after the other: the
answers, and the contract after them. -/
def CodeAnalysis.validJumpdests (c : CodeAnalysis) : List Nat → Option (List Bool × CodeAnalysis)
  | [] => some ([], c)
  | dest :: dests => do
    let (valid, c) ← c.validJumpdest dest
    let (answers, c) ← c.validJumpdests dests
    pure (valid :: answers, c)

/-- Over any sequence of jumps of one contract, every answer is the linear
decoding's, and the contract goes on reading only analyses of its code. The
induction is on the jumps, carrying that the contract's analyses are those of
its code. -/
theorem CodeAnalysis.validJumpdests_spec (dests : List Nat) :
    ∀ {c : CodeAnalysis}, c.Cached → c.Code.length < 2 ^ 64 →
      ∃ answers c', c.validJumpdests dests = some (answers, c') ∧
        List.Forall₂ (fun dest valid => valid = true ↔
          dest < c.Code.length ∧ c.Code[dest]? = some 0x5b ∧ InstrStart c.Code dest) dests answers ∧
        c'.Cached ∧ c'.Code = c.Code ∧ c'.CodeHash = c.CodeHash := by
  induction dests with
  | nil =>
    intro c cached _
    exact ⟨[], c, rfl, List.Forall₂.nil, cached, rfl, rfl⟩
  | cons dest dests inductionHypothesis =>
    intro c cached short
    obtain ⟨valid, next, jump, iff, nextCached, sameCode, sameHash⟩ := c.validJumpdest_spec cached short dest
    obtain ⟨answers, final, rest, answered, finalCached, finalCode, finalHash⟩ :=
      inductionHypothesis nextCached (sameCode ▸ short)
    refine ⟨valid :: answers, final, ?_, List.Forall₂.cons iff (sameCode ▸ answered), finalCached,
      finalCode.trans sameCode, finalHash.trans sameHash⟩
    simp [CodeAnalysis.validJumpdests, jump, rest]

/-- The jumps of one contract leave the shared map sound. -/
theorem CodeAnalysis.validJumpdests_sound {hash : List UInt8 → Hash} {codes : List (List UInt8)}
    (dests : List Nat) :
    ∀ {c c' : CodeAnalysis} {answers : List Bool}, destinations.Sound hash codes c.jumpdests →
      c.Code ∈ codes → (c.CodeHash ≠ zeroHash → c.CodeHash = hash c.Code) →
      c.validJumpdests dests = some (answers, c') → destinations.Sound hash codes c'.jumpdests := by
  induction dests with
  | nil =>
    intro c c' answers sound _ _ run
    cases run
    exact sound
  | cons dest dests inductionHypothesis =>
    intro c c' answers sound running hashed run
    simp only [CodeAnalysis.validJumpdests, Option.bind_eq_bind] at run
    obtain ⟨⟨valid, next⟩, jump, rest⟩ := Option.bind_eq_some_iff.mp run
    obtain ⟨⟨answers', final⟩, restRun, done⟩ := Option.bind_eq_some_iff.mp rest
    cases done
    obtain ⟨sameCode, sameHash⟩ := c.validJumpdest_code jump
    exact inductionHypothesis (c.validJumpdest_sound sound running hashed jump) (sameCode ▸ running)
      (sameCode ▸ sameHash ▸ hashed) restRun

/-- The contracts of one call that share a map of analyses: a contract made by
NewContract, with no analysis of its own, whose code hash is the hash of its
code, jumps to dests; when no two codes of the call have one hash and the map
holds only their analyses, every answer is the linear decoding's, and the map
afterwards still holds only their analyses for the contracts after it. -/
theorem shared_jumpdests_answer_linear_decoding {hash : List UInt8 → Hash} {codes : List (List UInt8)}
    {c : CodeAnalysis} (sound : destinations.Sound hash codes c.jumpdests) (running : c.Code ∈ codes)
    (distinct : ∀ a ∈ codes, ∀ b ∈ codes, hash a = hash b → a = b)
    (hashed : c.CodeHash ≠ zeroHash → c.CodeHash = hash c.Code) (fresh : c.analysis = none)
    (short : c.Code.length < 2 ^ 64) (dests : List Nat) :
    ∃ answers c', c.validJumpdests dests = some (answers, c') ∧
      List.Forall₂ (fun dest valid => valid = true ↔
        dest < c.Code.length ∧ c.Code[dest]? = some 0x5b ∧ InstrStart c.Code dest) dests answers ∧
      destinations.Sound hash codes c'.jumpdests := by
  have cached : c.Cached :=
    c.cached_of_sound sound running distinct hashed (fun bits stored => absurd (fresh ▸ stored) (by simp))
  obtain ⟨answers, c', run, answered, -⟩ := c.validJumpdests_spec dests cached short
  exact ⟨answers, c', run, answered, c.validJumpdests_sound dests sound running hashed run⟩

/-- PUSH1 0x5b; JUMPDEST, run by a contract with a code hash and an empty map:
the data byte at 1 is refused and the JUMPDEST at 2 accepted. -/
theorem shared_jumpdests_push_then_jumpdest :
    ∃ answers c', (⟨[0x60, 0x5b, 0x5b], Vector.replicate 32 1, [], none⟩ : CodeAnalysis).validJumpdests [1, 2] =
        some (answers, c') ∧
      List.Forall₂ (fun dest valid => valid = true ↔
        dest < 3 ∧ [(0x60 : UInt8), 0x5b, 0x5b][dest]? = some 0x5b ∧ InstrStart [0x60, 0x5b, 0x5b] dest)
        [1, 2] answers ∧
      destinations.Sound (fun _ => Vector.replicate 32 1) [[0x60, 0x5b, 0x5b]] c'.jumpdests :=
  shared_jumpdests_answer_linear_decoding (fun _ member => absurd member List.not_mem_nil)
    List.mem_cons_self (by simp) (fun _ => rfl) rfl (by norm_num) [1, 2]

/-! ### The interpreter's check

The interpreter reads jump destinations through Contract.validJumpdest of
Interpreter.lean, which decodes the code byte by byte with codeSegments. It
agrees with the bitmap: both say at each position whether it starts an
instruction.
-/

/-- codeSegments from position k, with skip bytes of data still to pass before
the next start, says at each later position of the code whether it starts an
instruction. The induction is on the rest of the code; the next start moves
on by the width of each opcode it passes. -/
theorem codeSegments_drop_iff (code rest : List UInt8) :
    ∀ k skip, code.drop k = rest → InstrStart code (k + skip) →
      (∀ q, k ≤ q → q < k + skip → ¬InstrStart code q) →
      ∀ j, k + j < code.length → ((codeSegments rest skip).getD j false = true ↔ InstrStart code (k + j)) := by
  induction rest with
  | nil =>
    intro k skip suffix _ _ j inCode
    have gone := congrArg List.length suffix
    simp only [List.length_drop, List.length_nil] at gone
    omega
  | cons op rest inductionHypothesis =>
    intro k skip suffix start noneBefore j inCode
    have opcode : code[k]? = some op := by
      rw [← Nat.add_zero k, ← List.getElem?_drop, suffix]
      rfl
    have suffix' : code.drop (k + 1) = rest := by
      rw [← List.drop_drop, suffix]
      rfl
    cases skip with
    | zero =>
      -- k starts an instruction, and the next one is its width on
      have width : (if isPush op then op.toNat - 0x5f else 0) = pushWidth op := rfl
      cases j with
      | zero => simpa [codeSegments] using start
      | succ j =>
        rw [codeSegments, List.getD_cons_succ, width,
          inductionHypothesis (k + 1) (pushWidth op) suffix' (.next start opcode)
            (fun q after inside => start.not_of_lt_next opcode (by omega) inside) j (by omega)]
        rw [show k + 1 + j = k + (j + 1) by omega]
    | succ skip =>
      -- k is data, and so is every position up to the next start
      cases j with
      | zero =>
        simpa [codeSegments] using noneBefore k (Nat.le_refl k) (by omega)
      | succ j =>
        rw [codeSegments, List.getD_cons_succ,
          inductionHypothesis (k + 1) skip suffix' (by rw [show k + 1 + skip = k + (skip + 1) by omega]; exact start)
            (fun q after inside => noneBefore q (by omega) (by omega)) j (by omega)]
        rw [show k + 1 + j = k + (j + 1) by omega]

/-- The interpreter's validJumpdest accepts exactly the JUMPDESTs of the code
that start an instruction. -/
theorem Contract.validJumpdest_iff (contract : Contract) (dest : Nat) :
    contract.validJumpdest dest = true ↔
      dest < contract.Code.length ∧ contract.Code[dest]? = some 0x5b ∧ InstrStart contract.Code dest := by
  by_cases inCode : dest < contract.Code.length
  · have segments := codeSegments_drop_iff contract.Code contract.Code 0 0 rfl (by simpa using InstrStart.zero)
      (fun q _ inside => absurd inside (by omega)) dest (by omega)
    rw [Nat.zero_add, List.getD_eq_getElem?_getD] at segments
    simp [Contract.validJumpdest, inCode, List.getD_eq_getElem?_getD, segments]
  · simp [Contract.validJumpdest, inCode]

/-- The interpreter's check is the one the code makes: on any contract whose
analyses are analyses of its code, validJumpdest of contract.go returns what
the interpreter's validJumpdest does. -/
theorem validJumpdest_refines_interpreter {c : CodeAnalysis} (cached : c.Cached) (short : c.Code.length < 2 ^ 64)
    (contract : Contract) (sameCode : contract.Code = c.Code) (dest : Nat) :
    (c.validJumpdest dest).map Prod.fst = some (contract.validJumpdest dest) := by
  obtain ⟨valid, c', jump, iff, -⟩ := c.validJumpdest_spec cached short dest
  rw [jump, Option.map_some, Option.some.injEq]
  rw [Bool.eq_iff_iff, iff, Contract.validJumpdest_iff, sameCode]

/-- The JUMPDEST analysis marks exactly the data of PUSHes: at every position
of the code, the bitmap codeBitmap makes, without an index out of range, says
whether the position starts an instruction in the linear decoding of the code;
and validJumpdest accepts exactly the JUMPDESTs of the code that start an
instruction, whether it reads the contract's own analysis, the one shared under
its code hash, or a new one, as long as those it may read are analyses of its
code, which it keeps so. -/
theorem jumpdest_analysis_marks_push_data :
    (∀ (code : List UInt8) (pos : Nat), pos < code.length →
      ∃ bits, codeBitmap code = some bits ∧
        ∃ segment, bits.codeSegment pos = some segment ∧ (segment = true ↔ InstrStart code pos)) ∧
    (∀ (c : CodeAnalysis) (dest : Nat), c.Cached → c.Code.length < 2 ^ 64 →
      ∃ valid c', c.validJumpdest dest = some (valid, c') ∧
        (valid = true ↔ dest < c.Code.length ∧ c.Code[dest]? = some 0x5b ∧ InstrStart c.Code dest) ∧
        c'.Cached) := by
  constructor
  · intro code pos inCode
    obtain ⟨bits, analysed, -, -⟩ := codeBitmap_spec code
    exact ⟨bits, analysed, codeSegment_of_codeBitmap analysed inCode⟩
  · intro c dest cached short
    obtain ⟨valid, c', jump, iff, cached', -⟩ := c.validJumpdest_spec cached short dest
    exact ⟨valid, c', jump, iff, cached'⟩

/-- PUSH1 0x5b; JUMPDEST: the bitmap says whether the data byte at 1 starts an
instruction, and a contract with a code hash and an empty map answers a jump
to it by the same decoding. -/
theorem jumpdest_analysis_marks_push_data_sample :
    (∃ bits, codeBitmap [0x60, 0x5b, 0x5b] = some bits ∧
      ∃ segment, bits.codeSegment 1 = some segment ∧ (segment = true ↔ InstrStart [0x60, 0x5b, 0x5b] 1)) ∧
    ∃ valid c', (⟨[0x60, 0x5b, 0x5b], Vector.replicate 32 1, [], none⟩ : CodeAnalysis).validJumpdest 1 =
        some (valid, c') ∧
      (valid = true ↔ 1 < 3 ∧ [(0x60 : UInt8), 0x5b, 0x5b][1]? = some 0x5b ∧ InstrStart [0x60, 0x5b, 0x5b] 1) ∧
      c'.Cached :=
  ⟨jumpdest_analysis_marks_push_data.1 _ 1 (by decide),
    jumpdest_analysis_marks_push_data.2 ⟨[0x60, 0x5b, 0x5b], Vector.replicate 32 1, [], none⟩ 1
      ⟨fun _ stored => (by cases stored), fun _ _ stored => (by cases stored)⟩ (by decide)⟩

end Meshbox.Vm
