/-
This file proves that the memory fee of core/vm telescopes. Before an operation
runs, the interpreter charges memoryGasCost for the memory it needs, rounded up
to 32-byte words, and then resizes the frame's memory to that size (gasCall and
step in Interpreter.lean). memoryGasCost charges only growth, as the difference
between the total fee of the new word count, 3 w + w^2 / 512, and the total
charged last, which the memory keeps as lastGasCost. A frame's memory therefore
always holds whole words and has paid the total fee of its word count, and the
fees of a run of charges add up to the total fee of the largest word count
requested.

The source computes the fee in uint64. memoryGasCost64 transcribes it with
UInt64 operations. For sizes up to 0x1FFFFFFFE0 the word count is at most
2^32 - 1, so its square, the linear term and their sum stay below 2^64, and
the total charged last is never above the new total; on every memory a run
reaches, the uint64 computation gives the fee and the total of the Nat model.
-/

import Meshbox.Vm.Interpreter

namespace Meshbox.Vm

/-! ### The total fee of a word count -/

/-- The total fee of a memory of words 32-byte words, newTotalFee of
memoryGasCost: MemoryGas a word and the quadratic term words^2 / QuadCoeffDiv. -/
def memoryFee (words : Nat) : Nat :=
  words * MemoryGas + words * words / QuadCoeffDiv

theorem memoryFee_mono {smaller larger : Nat} (le : smaller ≤ larger) :
    memoryFee smaller ≤ memoryFee larger := by
  unfold memoryFee
  exact Nat.add_le_add (Nat.mul_le_mul_right _ le) (Nat.div_le_div_right (Nat.mul_le_mul le le))

/-- Sizes memoryGasCost accepts round to at most 2^32 - 1 words. -/
theorem toWordSize_le {size : Nat} (bounded : size ≤ 0x1FFFFFFFE0) : toWordSize size ≤ 0xFFFFFFFF := by
  unfold toWordSize
  omega

/-- The values memoryGasCost computes for size from mem: the square of the word
count, the linear term and the new total are below 2^64, and when the memory
grows the total charged last is at most the new total. -/
def NoWrap (mem : Memory) (size : Nat) : Prop :=
  toWordSize size * toWordSize size < 2 ^ 64 ∧ toWordSize size * MemoryGas < 2 ^ 64 ∧
    memoryFee (toWordSize size) < 2 ^ 64 ∧
    (mem.store.length < toWordSize size * 32 → mem.lastGasCost ≤ memoryFee (toWordSize size))

theorem square_lt {words : Nat} (bounded : words ≤ 0xFFFFFFFF) : words * words < 2 ^ 64 :=
  calc words * words ≤ 0xFFFFFFFF * 0xFFFFFFFF := Nat.mul_le_mul bounded bounded
    _ < 2 ^ 64 := by decide

theorem memoryFee_lt {words : Nat} (bounded : words ≤ 0xFFFFFFFF) : memoryFee words < 2 ^ 64 := by
  have square : words * words ≤ 0xFFFFFFFF * 0xFFFFFFFF := Nat.mul_le_mul bounded bounded
  unfold memoryFee MemoryGas QuadCoeffDiv
  omega

/-! ### The frame's memory -/

/-- A frame's memory as the metered interpreter leaves it: whole words, no more
than memoryGasCost accepts, and the total fee of its word count paid. -/
structure Paid (mem : Memory) : Prop where
  whole : mem.store.length % 32 = 0
  bounded : mem.store.length ≤ 0x1FFFFFFFE0
  fee : mem.lastGasCost = memoryFee (mem.store.length / 32)

/-- The memory a frame starts with. -/
theorem Paid.empty : Paid ⟨[], 0⟩ := ⟨rfl, by decide, rfl⟩

@[simp] theorem Memory.Resize_length (mem : Memory) (size : Nat) :
    (mem.Resize size).store.length = max mem.store.length size := by
  unfold Memory.Resize
  split <;> simp <;> omega

@[simp] theorem Memory.Resize_lastGasCost (mem : Memory) (size : Nat) :
    (mem.Resize size).lastGasCost = mem.lastGasCost := by
  unfold Memory.Resize
  split <;> rfl

/-- memoryGasCost on a paid memory: the fee up to the larger of the two word
counts, with that fee as the new total. -/
theorem memoryGasCost_of_paid {mem : Memory} {size : Nat} (paid : Paid mem)
    (bounded : size ≤ 0x1FFFFFFFE0) :
    memoryGasCost mem size =
      some (memoryFee (max (toWordSize size) (mem.store.length / 32)) - mem.lastGasCost,
        { mem with lastGasCost := memoryFee (max (toWordSize size) (mem.store.length / 32)) }) := by
  have whole := paid.whole
  unfold memoryGasCost
  by_cases empty : size = 0
  · have zero : toWordSize size = 0 := by unfold toWordSize; omega
    rw [if_pos empty, zero, Nat.zero_max, ← paid.fee, Nat.sub_self]
  · rw [if_neg empty, if_neg (by omega)]
    by_cases grows : mem.store.length < toWordSize size * 32
    · have larger : max (toWordSize size) (mem.store.length / 32) = toWordSize size := by omega
      rw [if_pos grows, larger]
      rfl
    · have smaller : max (toWordSize size) (mem.store.length / 32) = mem.store.length / 32 := by omega
      rw [if_neg grows, smaller, ← paid.fee, Nat.sub_self]

theorem NoWrap.of_paid {mem : Memory} {size : Nat} (paid : Paid mem) (bounded : size ≤ 0x1FFFFFFFE0) :
    NoWrap mem size := by
  have words := toWordSize_le bounded
  refine ⟨square_lt words, by unfold MemoryGas; omega, memoryFee_lt words, fun grows => ?_⟩
  rw [paid.fee]
  exact memoryFee_mono (by omega)

/-! ### Runs of charges -/

/-- One charge as the interpreter makes it: memoryGasCost for size, then the
memory resized to size rounded up to words. -/
def charge (mem : Memory) (size : Nat) : Option (Nat × Memory) :=
  (memoryGasCost mem size).map fun (fee, mem) => (fee, mem.Resize (toWordSize size * 32))

/-- A run of charges within one frame: the fees in total and the memory after. -/
def chargeAll : Memory → List Nat → Option (Nat × Memory)
  | mem, [] => some (0, mem)
  | mem, size :: sizes => do
    let (fee, mem) ← charge mem size
    let (fees, mem) ← chargeAll mem sizes
    pure (fee + fees, mem)

/-- The largest word count of a list of sizes, at least words. -/
def largestWords (words : Nat) (sizes : List Nat) : Nat :=
  sizes.foldl (fun words size => max words (toWordSize size)) words

theorem le_largestWords (words : Nat) (sizes : List Nat) : words ≤ largestWords words sizes := by
  induction sizes generalizing words with
  | nil => exact Nat.le_refl words
  | cons size sizes inductionHypothesis =>
    exact Nat.le_trans (Nat.le_max_left _ _) (inductionHypothesis _)

/-- The step lemma: a charge keeps the memory paid, grows it to the larger word
count, and costs the difference of the two totals. -/
theorem charge_of_paid {mem : Memory} {size : Nat} (paid : Paid mem) (bounded : size ≤ 0x1FFFFFFFE0) :
    ∃ mem', charge mem size =
        some (memoryFee (max (mem.store.length / 32) (toWordSize size)) -
          memoryFee (mem.store.length / 32), mem') ∧
      Paid mem' ∧ mem'.store.length / 32 = max (mem.store.length / 32) (toWordSize size) := by
  have whole := paid.whole
  have within := paid.bounded
  have words := toWordSize_le bounded
  refine ⟨{ mem with lastGasCost := memoryFee (max (toWordSize size) (mem.store.length / 32)) }.Resize
    (toWordSize size * 32), ?_, ⟨?_, ?_, ?_⟩, ?_⟩
  · rw [charge, memoryGasCost_of_paid paid bounded, paid.fee, Nat.max_comm]
    rfl
  all_goals simp only [Memory.Resize_length, Memory.Resize_lastGasCost]
  · omega
  · omega
  · congr 1
    omega
  · omega

/-- The run lemma: from a paid memory, a run of charges of sizes memoryGasCost
accepts costs the total fee of the largest word count less the one paid, and
leaves a paid memory of that word count. -/
theorem chargeAll_of_paid {mem : Memory} (paid : Paid mem) (sizes : List Nat)
    (bounded : ∀ size ∈ sizes, size ≤ 0x1FFFFFFFE0) :
    ∃ mem', chargeAll mem sizes =
        some (memoryFee (largestWords (mem.store.length / 32) sizes) -
          memoryFee (mem.store.length / 32), mem') ∧
      Paid mem' ∧ mem'.store.length / 32 = largestWords (mem.store.length / 32) sizes := by
  induction sizes generalizing mem with
  | nil => exact ⟨mem, by simp [chargeAll, largestWords], paid, rfl⟩
  | cons size sizes inductionHypothesis =>
    obtain ⟨next, charged, paidNext, grown⟩ := charge_of_paid paid (bounded size List.mem_cons_self)
    obtain ⟨last, rest, paidLast, largest⟩ :=
      inductionHypothesis paidNext fun size member => bounded size (List.mem_cons_of_mem _ member)
    have first : memoryFee (mem.store.length / 32) ≤ memoryFee (next.store.length / 32) :=
      memoryFee_mono (by omega)
    have second : memoryFee (next.store.length / 32) ≤
        memoryFee (largestWords (next.store.length / 32) sizes) :=
      memoryFee_mono (le_largestWords _ _)
    have unfolded : largestWords (mem.store.length / 32) (size :: sizes) =
        largestWords (next.store.length / 32) sizes := by
      rw [grown]
      rfl
    refine ⟨last, ?_, paidLast, by rw [unfolded, largest]⟩
    rw [← grown] at charged
    rw [chargeAll, charged]
    simp only [Option.bind_eq_bind, Option.bind_some, rest, unfolded, Option.pure_def]
    congr 2
    omega

/-! ### The uint64 computation -/

/-- toWordSize as the source computes it in uint64: a size within 31 of the
top gives MaxUint64 / 32 + 1 words. -/
def toWordSize64 (size : UInt64) : UInt64 :=
  if size > 0xFFFFFFFFFFFFFFFF - 31 then 0xFFFFFFFFFFFFFFFF / 32 + 1 else (size + 31) / 32

/-- memoryGasCost as the source computes it, in uint64, from the memory's
length and lastGasCost: the fee and the new lastGasCost, none for
ErrGasUintOverflow. -/
def memoryGasCost64 (len lastGasCost newMemSize : UInt64) : Option (UInt64 × UInt64) :=
  if newMemSize = 0 then some (0, lastGasCost)
  else if newMemSize > 0x1FFFFFFFE0 then none
  else
    let newMemSizeWords := toWordSize64 newMemSize
    let newMemSize := newMemSizeWords * 32
    if newMemSize > len then
      let square := newMemSizeWords * newMemSizeWords
      let linCoef := newMemSizeWords * UInt64.ofNat MemoryGas
      let quadCoef := square / UInt64.ofNat QuadCoeffDiv
      let newTotalFee := linCoef + quadCoef
      some (newTotalFee - lastGasCost, newTotalFee)
    else some (0, lastGasCost)

theorem ofNat_lt_ofNat_iff {small large : Nat} (smallFits : small < 2 ^ 64) (largeFits : large < 2 ^ 64) :
    UInt64.ofNat small < UInt64.ofNat large ↔ small < large := by
  rw [UInt64.lt_iff_toNat_lt, UInt64.toNat_ofNat', UInt64.toNat_ofNat', Nat.mod_eq_of_lt smallFits,
    Nat.mod_eq_of_lt largeFits]

theorem toWordSize64_ofNat {size : Nat} (bounded : size ≤ 0x1FFFFFFFE0) :
    toWordSize64 (UInt64.ofNat size) = UInt64.ofNat (toWordSize size) := by
  have notTop : ¬ UInt64.ofNat size > 0xFFFFFFFFFFFFFFFF - 31 := by
    rw [show (0xFFFFFFFFFFFFFFFF - 31 : UInt64) = UInt64.ofNat 0xFFFFFFFFFFFFFFE0 from rfl, gt_iff_lt,
      ofNat_lt_ofNat_iff (by decide) (by omega)]
    omega
  rw [toWordSize64, if_neg notTop, toWordSize, UInt64.ofNat_div (by omega) (by decide), UInt64.ofNat_add]
  rfl

/-- The new total in uint64 is the Nat total: for at most 2^32 - 1 words no
product or sum wraps, and the division sees the true square. -/
theorem memoryFee64 {words : Nat} (bounded : words ≤ 0xFFFFFFFF) :
    UInt64.ofNat words * UInt64.ofNat MemoryGas +
        UInt64.ofNat words * UInt64.ofNat words / UInt64.ofNat QuadCoeffDiv =
      UInt64.ofNat (memoryFee words) := by
  rw [memoryFee, UInt64.ofNat_add, UInt64.ofNat_mul, UInt64.ofNat_div (square_lt bounded) (by decide),
    UInt64.ofNat_mul]

theorem exceeds64_iff {size : Nat} (fits : size < 2 ^ 64) :
    UInt64.ofNat size > 0x1FFFFFFFE0 ↔ 0x1FFFFFFFE0 < size :=
  ofNat_lt_ofNat_iff (by decide) fits

theorem grows64_iff {len words : Nat} (lengthFits : len < 2 ^ 64) (bounded : words ≤ 0xFFFFFFFF) :
    UInt64.ofNat words * 32 > UInt64.ofNat len ↔ len < words * 32 := by
  rw [show (32 : UInt64) = UInt64.ofNat 32 from rfl, ← UInt64.ofNat_mul, gt_iff_lt]
  exact ofNat_lt_ofNat_iff lengthFits (by omega)

theorem ofNat_ne_zero {size : Nat} (fits : size < 2 ^ 64) (nonzero : size ≠ 0) : UInt64.ofNat size ≠ 0 := by
  rw [Ne, ← UInt64.toNat_inj, UInt64.toNat_ofNat', Nat.mod_eq_of_lt fits]
  exact nonzero

/-- On a paid memory the source's uint64 computation gives the fee and the new
total of the model, for every size that fits in 64 bits. -/
theorem memoryGasCost64_eq {mem : Memory} {size : Nat} (paid : Paid mem) (fits : size < 2 ^ 64) :
    memoryGasCost64 (UInt64.ofNat mem.store.length) (UInt64.ofNat mem.lastGasCost) (UInt64.ofNat size) =
      (memoryGasCost mem size).map fun (fee, mem) => (UInt64.ofNat fee, UInt64.ofNat mem.lastGasCost) := by
  have lengthFits : mem.store.length < 2 ^ 64 := by have := paid.bounded; omega
  unfold memoryGasCost64 memoryGasCost
  dsimp only
  by_cases empty : size = 0
  · subst empty
    rfl
  rw [if_neg (ofNat_ne_zero fits empty), if_neg empty]
  by_cases tooLarge : 0x1FFFFFFFE0 < size
  · rw [if_pos ((exceeds64_iff fits).mpr tooLarge), if_pos tooLarge]
    rfl
  rw [if_neg (mt (exceeds64_iff fits).mp tooLarge), if_neg tooLarge]
  have bounded : size ≤ 0x1FFFFFFFE0 := Nat.le_of_not_lt tooLarge
  have words := toWordSize_le bounded
  rw [toWordSize64_ofNat bounded]
  by_cases grows : mem.store.length < toWordSize size * 32
  · have feeCovers := (NoWrap.of_paid paid bounded).2.2.2 grows
    rw [if_pos ((grows64_iff lengthFits words).mpr grows), if_pos grows, memoryFee64 words,
      ← UInt64.ofNat_sub feeCovers]
    rfl
  · rw [if_neg (mt (grows64_iff lengthFits words).mp grows), if_neg grows]
    rfl

/-! ### Memory fees over a frame -/

/-- Memory fees within one frame. From the empty memory a frame starts with, a
run of charges of sizes up to 0x1FFFFFFFE0 costs in total the fee of the
largest word count requested. At every charge of such a run the word count's
square, the linear term and the new total stay below 2^64, the total
subtracted is at most the new one, and the source's uint64 computation gives
the model's fee. A larger size is rejected, in uint64 as in the model. -/
theorem memoryGasCost_telescopes (sizes : List Nat) (bounded : ∀ size ∈ sizes, size ≤ 0x1FFFFFFFE0) :
    (∃ mem, chargeAll ⟨[], 0⟩ sizes = some (memoryFee (largestWords 0 sizes), mem)) ∧
    (∀ before size after, sizes = before ++ size :: after → ∀ fees mem,
      chargeAll ⟨[], 0⟩ before = some (fees, mem) →
      NoWrap mem size ∧
        memoryGasCost64 (UInt64.ofNat mem.store.length) (UInt64.ofNat mem.lastGasCost) (UInt64.ofNat size) =
          (memoryGasCost mem size).map fun (fee, mem) => (UInt64.ofNat fee, UInt64.ofNat mem.lastGasCost)) ∧
    (∀ mem size, 0x1FFFFFFFE0 < size → size < 2 ^ 64 →
      memoryGasCost mem size = none ∧
        memoryGasCost64 (UInt64.ofNat mem.store.length) (UInt64.ofNat mem.lastGasCost) (UInt64.ofNat size) =
          none) := by
  refine ⟨?_, ?_, ?_⟩
  · obtain ⟨mem, run, -, -⟩ := chargeAll_of_paid Paid.empty sizes bounded
    exact ⟨mem, run⟩
  · intro before size after split fees mem run
    have boundedBefore : ∀ size ∈ before, size ≤ 0x1FFFFFFFE0 :=
      fun size member => bounded size (by rw [split]; exact List.mem_append_left _ member)
    have boundedSize : size ≤ 0x1FFFFFFFE0 := bounded size (by rw [split]; simp)
    obtain ⟨reached, reachedRun, paid, -⟩ := chargeAll_of_paid Paid.empty before boundedBefore
    rw [run, Option.some.injEq, Prod.mk.injEq] at reachedRun
    rw [← reachedRun.2] at paid
    exact ⟨NoWrap.of_paid paid boundedSize, memoryGasCost64_eq paid (by omega)⟩
  · intro mem size tooLarge fits
    have rejected : memoryGasCost mem size = none := by
      unfold memoryGasCost
      rw [if_neg (by omega), if_pos tooLarge]
    refine ⟨rejected, ?_⟩
    unfold memoryGasCost64
    rw [if_neg (ofNat_ne_zero fits (by omega)), if_pos ((exceeds64_iff fits).mpr tooLarge)]

/-- Requests of 64, 32 and 100 bytes: two words, then none more, then four;
the fees add up to the total fee of four words, 12. -/
theorem memoryGasCost_telescopes_three_requests :
    ∃ mem, chargeAll ⟨[], 0⟩ [64, 32, 100] = some (12, mem) :=
  (memoryGasCost_telescopes [64, 32, 100] (by decide)).1

end Meshbox.Vm
