/-
This file models how the Tribe consensus engine of consensus/tribe ranks the
producers of a block under chief 1.0.0 (SIP100). Each block has an in-turn
signer, signers[number mod |signers|]; signers[0] is the standby, a chief
leader; the other leaders, in the order leaderSort gives them behind the
standby, may step in after them. inTurnForCalcDifficultyChief100 gives each of
them a difficulty, GetPeriodChief100 the delay after the parent block before
they may seal, and validateSigner decides who may seal at all.

The order of precedence (rank) says what the two functions are for: the
difficulty is six minus the rank and the delay grows with the rank, so the block
sealed earliest is the one fork choice prefers. The rank stays below six only
while the sorted leader list has at most four entries, which holds when the
standby is one of the leaders, as the chief contract arranges at the start of
every round. A leader removed during a round leaves a standby outside the list,
and then a fifth leader gets difficulty zero, which verifyHeader rejects.
-/

import Meshbox.Params.Config
import Mathlib.Data.List.Sort

namespace Meshbox.Tribe

open Meshbox.Params

/-- diff: the highest difficulty under SIP100. -/
def diff : Int := 6

/-- diffNoTurn: the lowest difficulty. -/
def diffNoTurn : Int := 1

/-- CHIEF_NUMBER: the block from which the chief contract decides the signers. -/
def CHIEF_NUMBER : Nat := 3

/-- blockPeriod: the default block period. -/
def blockPeriod : Nat := 15

/-- The engine's configuration: a positive block period. -/
structure TribeConfig where
  Period : Nat
  period_pos : 0 < Period

/-- New: the engine's configuration, with a period that is not positive raised
to blockPeriod. -/
def New (period : Nat) : TribeConfig :=
  if positive : 0 < period then ⟨period, positive⟩ else ⟨blockPeriod, by decide⟩

/-- The header fields the signer checks read. -/
structure Header where
  Number : Nat
  Time : Nat
  Coinbase : Address
deriving DecidableEq, Repr

section Ranking

variable {α : Type} [DecidableEq α]

/-- fetchOnSigners: the index of the first signer with the address. -/
def fetchOnSigners (address : α) (signers : List α) : Option Nat :=
  signers.idxOf? address

/-- leaderSort: the leaders after first, then those before it, first left out; the
list unchanged when first is not a leader. -/
def leaderSort (first : α) (list : List α) : List α :=
  match list.idxOf? first with
  | some i => list.drop (i + 1) ++ list.take i
  | none => list

/-- inTurnForCalcDifficultyChief100: the difficulty of a block of the given
number sealed by signer. The in-turn signer gets diff and the standby diff - 1;
a leader outside the signer list loses one more step for each leader sorted
before it, and one more again when the block is not the standby's turn. -/
def inTurnForCalcDifficultyChief100 (signers leaders : List α) (number : Nat) (signer : α) :
    Int :=
  match fetchOnSigners signer signers with
  | some idx =>
    if 0 < signers.length ∧ number % signers.length = idx then diff
    else if idx = 0 then diff - 1
    else diffNoTurn
  | none =>
    match signers with
    | [] => diffNoTurn
    | first :: _ =>
      match (leaderSort first leaders).idxOf? signer with
      | some i =>
        if number % signers.length = 0 then diff - (i + 1 : Nat) else diff - (i + 2 : Nat)
      | none => diffNoTurn

/-- GetPeriodChief100: the delay after the parent block before miner may seal
the block of the given number: Period - 1 in turn, Period + 3 for the standby,
four seconds more for each leader sorted before, and four more again when the
block is not the standby's turn; a week for anybody else. -/
def GetPeriodChief100 (config : TribeConfig) (signers leaders : List α) (number : Nat)
    (miner : α) : Nat :=
  let Main := config.Period - 1
  let Subs := config.Period + 3
  let Other := config.Period + 7
  let Else := 86400 * 7
  match signers with
  | [] => Else
  | first :: _ =>
    if signers[number % signers.length]? = some miner then Main
    else if miner = first then Subs
    else
      match (leaderSort first leaders).idxOf? miner with
      | some i =>
        if number % signers.length = 0 then Subs + i * (Subs - Main) else Other + i * (Subs - Main)
      | none => Else

/-! ### The order of precedence -/

/-- The signers SIP100 lets seal a block: the in-turn signer, the standby and the
leaders outside the signer list. -/
def MaySeal (signers leaders : List α) (number : Nat) (signer : α) : Prop :=
  match fetchOnSigners signer signers with
  | some idx => number % signers.length = idx ∨ idx = 0
  | none => signer ∈ leaders

/-- rank: the place of a signer in the order of precedence of a block: the
in-turn signer first, then the standby, then the leaders outside the signer list
in sorted order, one place further back when the block is not the standby's
turn. -/
def rank (signers leaders : List α) (number : Nat) (signer : α) : Nat :=
  match fetchOnSigners signer signers with
  | some idx => if number % signers.length = idx then 0 else 1
  | none =>
    match signers with
    | [] => 0
    | first :: _ =>
      match (leaderSort first leaders).idxOf? signer with
      | some i => if number % signers.length = 0 then i + 1 else i + 2
      | none => 0

theorem getElem?_of_idxOf? {list : List α} {a : α} {i : Nat} (found : list.idxOf? a = some i) :
    list[i]? = some a := by
  obtain ⟨bound, atIndex, _⟩ := List.idxOf?_eq_some_iff.mp found
  rw [List.getElem?_eq_getElem bound, atIndex]

theorem lt_length_of_idxOf? {list : List α} {a : α} {i : Nat} (found : list.idxOf? a = some i) :
    i < list.length :=
  (List.idxOf?_eq_some_iff.mp found).1

/-- Two addresses found at the same index are the same address. -/
theorem eq_of_idxOf?_eq {list : List α} {a b : α} {i : Nat} (foundA : list.idxOf? a = some i)
    (foundB : list.idxOf? b = some i) : a = b :=
  Option.some.inj ((getElem?_of_idxOf? foundA).symm.trans (getElem?_of_idxOf? foundB))

theorem idxOf?_of_mem {list : List α} {a : α} (member : a ∈ list) : ∃ i, list.idxOf? a = some i :=
  Option.isSome_iff_exists.mp (List.isSome_idxOf?.mpr member)

/-- leaderSort rotates the list past first and leaves first out: it is the list
with first erased, in another order. -/
theorem leaderSort_perm (first : α) (list : List α) :
    (leaderSort first list).Perm (list.erase first) := by
  unfold leaderSort
  rw [List.erase_eq_eraseIdx]
  cases list.idxOf? first with
  | none => exact List.Perm.refl list
  | some i =>
    show (list.drop (i + 1) ++ list.take i).Perm (list.eraseIdx i)
    rw [List.eraseIdx_eq_take_drop_succ]
    exact List.perm_append_comm

theorem mem_leaderSort {first signer : α} {list : List α} (other : signer ≠ first)
    (member : signer ∈ list) : signer ∈ leaderSort first list :=
  (leaderSort_perm first list).mem_iff.mpr ((List.mem_erase_of_ne other).mpr member)

theorem length_leaderSort_le (first : α) (list : List α) :
    (leaderSort first list).length ≤ list.length := by
  rw [(leaderSort_perm first list).length_eq]
  exact List.length_erase_le

theorem length_leaderSort_of_mem {first : α} {list : List α} (member : first ∈ list) :
    (leaderSort first list).length + 1 = list.length := by
  rw [(leaderSort_perm first list).length_eq, List.length_erase_of_mem member]
  have positive := List.length_pos_of_mem member
  omega

section Precedence

variable {signers leaders : List α} {number : Nat}

/-- The in-turn signer sits at the block's slot of the signer list. -/
theorem slot_of_inTurn {signer : α} {idx : Nat} (fetched : fetchOnSigners signer signers = some idx)
    (inTurn : number % signers.length = idx) : signers[number % signers.length]? = some signer := by
  rw [inTurn]
  exact getElem?_of_idxOf? fetched

/-- A leader outside the signer list has a place in the sorted leader list. -/
theorem sorted_of_leader {first : α} {rest : List α} {signer : α}
    (fetched : fetchOnSigners signer (first :: rest) = none) (leader : signer ∈ leaders) :
    ∃ i, (leaderSort first leaders).idxOf? signer = some i := by
  have absent : signer ∉ first :: rest := List.idxOf?_eq_none_iff.mp fetched
  have other : signer ≠ first := fun same => absent (same ▸ List.mem_cons_self)
  exact idxOf?_of_mem (mem_leaderSort other leader)

/-- The difficulty is diff less the rank. -/
theorem difficulty_eq_rank {signer : α} (nonempty : signers ≠ [])
    (maySeal : MaySeal signers leaders number signer) :
    inTurnForCalcDifficultyChief100 signers leaders number signer =
      diff - rank signers leaders number signer := by
  unfold MaySeal at maySeal
  unfold inTurnForCalcDifficultyChief100 rank
  cases fetched : fetchOnSigners signer signers with
  | some idx =>
    rw [fetched] at maySeal
    by_cases inTurn : number % signers.length = idx
    · simp [List.length_pos_iff.mpr nonempty, inTurn]
    · have standby : idx = 0 := maySeal.resolve_left inTurn
      subst standby
      simp [inTurn]
  | none =>
    rw [fetched] at maySeal
    obtain ⟨first, rest, rfl⟩ := List.exists_cons_of_ne_nil nonempty
    obtain ⟨i, found⟩ := sorted_of_leader fetched maySeal
    simp only [found]
    split <;> rfl

/-- The delay is Period - 1 plus four seconds a place, except for a standby that
also holds the block's slot, which gets the in-turn delay. -/
theorem GetPeriodChief100_of_maySeal (config : TribeConfig) {signer : α} (nonempty : signers ≠ [])
    (maySeal : MaySeal signers leaders number signer) :
    (signers[number % signers.length]? = some signer ∧
        GetPeriodChief100 config signers leaders number signer = config.Period - 1) ∨
      GetPeriodChief100 config signers leaders number signer =
        config.Period - 1 + 4 * rank signers leaders number signer := by
  have positive := config.period_pos
  obtain ⟨first, rest, rfl⟩ := List.exists_cons_of_ne_nil nonempty
  by_cases slot : (first :: rest)[number % (first :: rest).length]? = some signer
  · left
    exact ⟨slot, by simp only [GetPeriodChief100, slot, if_true]⟩
  right
  unfold MaySeal at maySeal
  unfold GetPeriodChief100 rank
  simp only [slot, if_false]
  cases fetched : fetchOnSigners signer (first :: rest) with
  | some idx =>
    rw [fetched] at maySeal
    have notInTurn : number % (first :: rest).length ≠ idx := fun inTurn =>
      slot (slot_of_inTurn fetched inTurn)
    have standby : idx = 0 := maySeal.resolve_left notInTurn
    have isFirst : signer = first := by
      have atZero := getElem?_of_idxOf? (standby ▸ fetched)
      simpa using atZero.symm
    simp only [isFirst, if_true, notInTurn, if_false]
    omega
  | none =>
    rw [fetched] at maySeal
    have absent : signer ∉ first :: rest := List.idxOf?_eq_none_iff.mp fetched
    have other : signer ≠ first := fun same => absent (same ▸ List.mem_cons_self)
    obtain ⟨i, found⟩ := sorted_of_leader fetched maySeal
    have step : config.Period + 3 - (config.Period - 1) = 4 := by omega
    simp only [other, if_false, found, step]
    split <;> omega

/-- Different signers that may seal stand at different places. -/
theorem rank_ne {a b : α} (nonempty : signers ≠ []) (maySealA : MaySeal signers leaders number a)
    (maySealB : MaySeal signers leaders number b) (distinct : a ≠ b) :
    rank signers leaders number a ≠ rank signers leaders number b := by
  unfold MaySeal at maySealA maySealB
  unfold rank
  cases fetchedA : fetchOnSigners a signers with
  | some idxA =>
    rw [fetchedA] at maySealA
    dsimp only at maySealA
    cases fetchedB : fetchOnSigners b signers with
    | some idxB =>
      rw [fetchedB] at maySealB
      dsimp only at maySealB
      have differ : idxA ≠ idxB := fun same => distinct (eq_of_idxOf?_eq fetchedA (same ▸ fetchedB))
      simp only
      split <;> split <;> omega
    | none =>
      rw [fetchedB] at maySealB
      cases signers with
      | nil => exact absurd rfl nonempty
      | cons first rest =>
        obtain ⟨i, found⟩ := sorted_of_leader fetchedB maySealB
        simp only [found]
        split <;> split <;> omega
  | none =>
    rw [fetchedA] at maySealA
    cases signers with
    | nil => exact absurd rfl nonempty
    | cons first rest =>
      obtain ⟨i, foundA⟩ := sorted_of_leader fetchedA maySealA
      cases fetchedB : fetchOnSigners b (first :: rest) with
      | some idxB =>
        rw [fetchedB] at maySealB
        dsimp only at maySealB
        simp only [foundA]
        split <;> split <;> omega
      | none =>
        rw [fetchedB] at maySealB
        obtain ⟨j, foundB⟩ := sorted_of_leader fetchedB maySealB
        have differ : i ≠ j := fun same => distinct (eq_of_idxOf?_eq foundA (same ▸ foundB))
        simp only [foundA, foundB]
        split <;> omega

/-- The signer holding the block's slot may stand at most one place back: it is
in turn, or it is also the standby. -/
theorem rank_le_one_of_slot {signer : α} (slot : signers[number % signers.length]? = some signer) :
    rank signers leaders number signer ≤ 1 := by
  obtain ⟨idx, fetched⟩ := idxOf?_of_mem (List.mem_of_getElem? slot)
  unfold rank
  rw [show fetchOnSigners signer signers = some idx from fetched]
  dsimp only
  split <;> omega

/-- The signer first in precedence holds the block's slot. -/
theorem slot_of_rank_eq_zero {signer : α} (nonempty : signers ≠ [])
    (maySeal : MaySeal signers leaders number signer) (first : rank signers leaders number signer = 0) :
    signers[number % signers.length]? = some signer := by
  unfold MaySeal at maySeal
  unfold rank at first
  cases fetched : fetchOnSigners signer signers with
  | some idx =>
    rw [fetched] at first
    by_cases inTurn : number % signers.length = idx
    · exact slot_of_inTurn fetched inTurn
    · simp [inTurn] at first
  | none =>
    rw [fetched] at first maySeal
    obtain ⟨head, rest, rfl⟩ := List.exists_cons_of_ne_nil nonempty
    obtain ⟨i, found⟩ := sorted_of_leader fetched maySeal
    simp only [found] at first
    split at first <;> omega

/-- Of two signers that may seal, the one ahead in precedence waits less. -/
theorem GetPeriodChief100_lt_of_rank_lt (config : TribeConfig) {a b : α} (nonempty : signers ≠ [])
    (maySealA : MaySeal signers leaders number a) (maySealB : MaySeal signers leaders number b)
    (distinct : a ≠ b) (ahead : rank signers leaders number a < rank signers leaders number b) :
    GetPeriodChief100 config signers leaders number a <
      GetPeriodChief100 config signers leaders number b := by
  have periodA : GetPeriodChief100 config signers leaders number a ≤
      config.Period - 1 + 4 * rank signers leaders number a := by
    rcases GetPeriodChief100_of_maySeal config nonempty maySealA with ⟨_, inSlot⟩ | placed
    · omega
    · omega
  have periodB : GetPeriodChief100 config signers leaders number b =
      config.Period - 1 + 4 * rank signers leaders number b := by
    rcases GetPeriodChief100_of_maySeal config nonempty maySealB with ⟨slotB, _⟩ | placed
    · -- b holds the slot, so it is the standby and a, ahead of it, would hold the slot too
      have standby : rank signers leaders number b ≤ 1 := rank_le_one_of_slot slotB
      have slotA := slot_of_rank_eq_zero nonempty maySealA (by omega)
      exact absurd (Option.some.inj (slotA.symm.trans slotB)) distinct
    · exact placed
  omega

/-- A signer that may seal stands at most one place behind the sorted leaders. -/
theorem rank_le_length {signer : α} (nonempty : signers ≠ [])
    (maySeal : MaySeal signers leaders number signer) :
    rank signers leaders number signer ≤ (leaderSort (signers.head nonempty) leaders).length + 1 := by
  unfold MaySeal at maySeal
  unfold rank
  cases fetched : fetchOnSigners signer signers with
  | some idx =>
    simp only
    split <;> omega
  | none =>
    rw [fetched] at maySeal
    obtain ⟨head, rest, rfl⟩ := List.exists_cons_of_ne_nil nonempty
    obtain ⟨i, found⟩ := sorted_of_leader fetched maySeal
    have bound := lt_length_of_idxOf? found
    simp only [found, List.head_cons]
    split <;> omega

/-- With the standby among the leaders, or at most four leaders, there are at
most four sorted leaders. -/
theorem length_leaderSort_le_four {first : α} (fewLeaders : leaders.length ≤ 5)
    (standbyLeads : first ∈ leaders ∨ leaders.length ≤ 4) :
    (leaderSort first leaders).length ≤ 4 := by
  rcases standbyLeads with member | fewer
  · have length := length_leaderSort_of_mem member
    omega
  · exact Nat.le_trans (length_leaderSort_le first leaders) fewer

/-- A standby outside a list of five distinct leaders leaves the fifth leader,
on a block that is not the standby's turn, at difficulty zero, though it may
seal. -/
theorem difficulty_fifth_leader (nonempty : signers ≠ []) (distinctLeaders : leaders.Nodup)
    (fiveLeaders : leaders.length = 5) (standbyOutside : signers.head nonempty ∉ leaders)
    (fifthOutside : leaders[4] ∉ signers) (notStandbyTurn : number % signers.length ≠ 0) :
    MaySeal signers leaders number leaders[4] ∧
      inTurnForCalcDifficultyChief100 signers leaders number leaders[4] = 0 := by
  have fetched : fetchOnSigners leaders[4] signers = none := List.idxOf?_eq_none_iff.mpr fifthOutside
  have fifth : leaders.idxOf? leaders[4] = some 4 := by
    rw [List.idxOf?_eq_some_iff]
    refine ⟨by omega, rfl, fun j before same => ?_⟩
    have indices := (distinctLeaders.getElem_inj_iff (i := j) (j := 4)).mp same
    omega
  obtain ⟨head, rest, rfl⟩ := List.exists_cons_of_ne_nil nonempty
  have unsorted : leaderSort head leaders = leaders := by
    rw [List.head_cons] at standbyOutside
    simp [leaderSort, List.idxOf?_eq_none_iff.mpr standbyOutside]
  refine ⟨?_, ?_⟩
  · unfold MaySeal
    rw [fetched]
    exact List.getElem_mem _
  · unfold inTurnForCalcDifficultyChief100
    simp only [fetched, unsorted, fifth, notStandbyTurn, if_false]
    rfl

end Precedence

end Ranking

/-! ### Signer checks -/

/-- GetChiefInfo: the chief contract in force at a positive block number: the
list sorted by start, latest first, and the first chief started by then. -/
def GetChiefInfo (config : ChainConfig) (blockNumber : Nat) : Option ChiefInfo :=
  if 0 < blockNumber then
    (config.chiefAddressList.insertionSort (fun a b => b.StartNumber ≤ a.StartNumber)).find?
      (fun c => decide (c.StartNumber ≤ blockNumber))
  else none

/-- GetPeriod: the delay of GetPeriodChief100 under chief 1.0.0; before it,
Period - 1 in turn, Period + 3 for the next signer in turn and Period + 7 for the
rest. miner is the header's signer, as ecrecover returns it. -/
def GetPeriod (chain : ChainConfig) (config : TribeConfig) (signers leaders : List Address)
    (number : Nat) (miner : Address) : Nat :=
  match GetChiefInfo chain number with
  | some ci =>
    if ci.Version = "1.0.0" then GetPeriodChief100 config signers leaders number miner
    else periodBefore
  | none => periodBefore
where
  periodBefore : Nat :=
    let Main := config.Period - 1
    let Subs := config.Period + 3
    let Other := config.Period + 7
    if number ≤ 3 then Subs
    else
      match signers with
      | [] => Other
      | _ :: _ =>
        if signers[number % signers.length]? = some miner then Main
        else if signers[(number + 1) % signers.length]? = some miner then Subs
        else Other

/-- validateSigner: whether signer may seal header on top of parentHeader. From
SIP002 the header must wait out the signer's period; from SIP100 the coinbase
must be set and only the in-turn signer, the standby and the leaders outside the
signer list may seal. -/
def validateSigner (chain : ChainConfig) (config : TribeConfig) (signers leaders : List Address)
    (parentHeader header : Header) (signer : Address) : Bool :=
  if header.Number ≤ CHIEF_NUMBER then true
  else if IsSIP002Block chain header.Number ∧
      parentHeader.Time + GetPeriod chain config signers leaders header.Number signer > header.Time
  then false
  else if IsSIP100Block chain header.Number ∧ header.Coinbase = zeroAddress then false
  else if IsSIP100Block chain header.Number then
    match fetchOnSigners signer signers with
    | some idx => header.Number % signers.length = idx ∨ idx = 0
    | none => signer ∈ leaders
  else (fetchOnSigners signer signers).isSome

/-- The difficulty check verifyHeader makes under chief 1.0.0: errInvalidDifficulty
above 6 or below diffNoTurn. -/
def verifyHeaderDifficulty (difficulty : Int) : Bool :=
  ¬ (difficulty > 6 ∨ difficulty < diffNoTurn)

/-- Past the first blocks, a signer validateSigner accepts under SIP100 is one
that may seal. -/
theorem maySeal_of_validateSigner {chain : ChainConfig} {config : TribeConfig}
    {signers leaders : List Address} {parentHeader header : Header} {signer : Address}
    (late : CHIEF_NUMBER < header.Number) (sip100 : IsSIP100Block chain header.Number = true)
    (accepted : validateSigner chain config signers leaders parentHeader header signer = true) :
    MaySeal signers leaders header.Number signer := by
  unfold validateSigner at accepted
  unfold MaySeal
  rw [if_neg (Nat.not_le.mpr late)] at accepted
  split_ifs at accepted
  cases fetched : fetchOnSigners signer signers <;> simp_all

/-- With the standby among the leaders, or at most four leaders, the signers
validateSigner accepts for a block get different difficulties within the range
verifyHeader allows, and the higher difficulty goes to the signer with the
shorter delay. -/
theorem validateSigner_difficulty_ranks (chain : ChainConfig) (config : TribeConfig)
    {signers leaders : List Address} (parentA parentB headerA headerB : Header) {a b : Address}
    (nonempty : signers ≠ []) (fewLeaders : leaders.length ≤ 5)
    (standbyLeads : signers.head nonempty ∈ leaders ∨ leaders.length ≤ 4)
    (sameNumber : headerB.Number = headerA.Number) (late : CHIEF_NUMBER < headerA.Number)
    (sip100 : IsSIP100Block chain headerA.Number = true)
    (acceptedA : validateSigner chain config signers leaders parentA headerA a = true)
    (acceptedB : validateSigner chain config signers leaders parentB headerB b = true)
    (distinct : a ≠ b) :
    inTurnForCalcDifficultyChief100 signers leaders headerA.Number a ≠
        inTurnForCalcDifficultyChief100 signers leaders headerA.Number b ∧
      verifyHeaderDifficulty (inTurnForCalcDifficultyChief100 signers leaders headerA.Number a) ∧
      verifyHeaderDifficulty (inTurnForCalcDifficultyChief100 signers leaders headerA.Number b) ∧
      (inTurnForCalcDifficultyChief100 signers leaders headerA.Number b <
          inTurnForCalcDifficultyChief100 signers leaders headerA.Number a ↔
        GetPeriodChief100 config signers leaders headerA.Number a <
          GetPeriodChief100 config signers leaders headerA.Number b) := by
  have maySealA := maySeal_of_validateSigner late sip100 acceptedA
  have maySealB : MaySeal signers leaders headerA.Number b :=
    sameNumber ▸ maySeal_of_validateSigner (sameNumber ▸ late) (sameNumber ▸ sip100) acceptedB
  have sorted := length_leaderSort_le_four fewLeaders standbyLeads
  have rankA := rank_le_length nonempty maySealA
  have rankB := rank_le_length nonempty maySealB
  have differ := rank_ne nonempty maySealA maySealB distinct
  have earlier (x y : Address) (maySealX : MaySeal signers leaders headerA.Number x)
      (maySealY : MaySeal signers leaders headerA.Number y) (other : x ≠ y) :=
    GetPeriodChief100_lt_of_rank_lt config nonempty maySealX maySealY other
  rw [difficulty_eq_rank nonempty maySealA, difficulty_eq_rank nonempty maySealB]
  refine ⟨by omega, by simp [verifyHeaderDifficulty, diff, diffNoTurn]; omega,
    by simp [verifyHeaderDifficulty, diff, diffNoTurn]; omega, ?_⟩
  constructor
  · intro higher
    exact earlier a b maySealA maySealB distinct (by omega)
  · intro sooner
    by_contra notHigher
    have behind : rank signers leaders headerA.Number b < rank signers leaders headerA.Number a := by
      omega
    have later := earlier b a maySealB maySealA (Ne.symm distinct) behind
    omega

/-- On the main network, the in-turn signer and a leader sorted behind the
standby, competing for one block. -/
theorem validateSigner_difficulty_ranks_mainnet :
    inTurnForCalcDifficultyChief100 [(Vector.replicate 20 1 : Address), Vector.replicate 20 2]
        [Vector.replicate 20 1, Vector.replicate 20 3, Vector.replicate 20 4] 2823367
        (Vector.replicate 20 2) ≠
      inTurnForCalcDifficultyChief100 [(Vector.replicate 20 1 : Address), Vector.replicate 20 2]
        [Vector.replicate 20 1, Vector.replicate 20 3, Vector.replicate 20 4] 2823367
        (Vector.replicate 20 3) ∧
    verifyHeaderDifficulty (inTurnForCalcDifficultyChief100
        [(Vector.replicate 20 1 : Address), Vector.replicate 20 2]
        [Vector.replicate 20 1, Vector.replicate 20 3, Vector.replicate 20 4] 2823367
        (Vector.replicate 20 2)) ∧
    verifyHeaderDifficulty (inTurnForCalcDifficultyChief100
        [(Vector.replicate 20 1 : Address), Vector.replicate 20 2]
        [Vector.replicate 20 1, Vector.replicate 20 3, Vector.replicate 20 4] 2823367
        (Vector.replicate 20 3)) ∧
    (inTurnForCalcDifficultyChief100 [(Vector.replicate 20 1 : Address), Vector.replicate 20 2]
        [Vector.replicate 20 1, Vector.replicate 20 3, Vector.replicate 20 4] 2823367
        (Vector.replicate 20 3) <
      inTurnForCalcDifficultyChief100 [(Vector.replicate 20 1 : Address), Vector.replicate 20 2]
        [Vector.replicate 20 1, Vector.replicate 20 3, Vector.replicate 20 4] 2823367
        (Vector.replicate 20 2) ↔
      GetPeriodChief100 (New blockPeriod) [(Vector.replicate 20 1 : Address), Vector.replicate 20 2]
        [Vector.replicate 20 1, Vector.replicate 20 3, Vector.replicate 20 4] 2823367
        (Vector.replicate 20 2) <
      GetPeriodChief100 (New blockPeriod) [(Vector.replicate 20 1 : Address), Vector.replicate 20 2]
        [Vector.replicate 20 1, Vector.replicate 20 3, Vector.replicate 20 4] 2823367
        (Vector.replicate 20 3)) :=
  validateSigner_difficulty_ranks MainnetChainConfig (New blockPeriod)
    ⟨2823366, 0, Vector.replicate 20 2⟩ ⟨2823366, 0, Vector.replicate 20 3⟩
    ⟨2823367, 1000, Vector.replicate 20 2⟩ ⟨2823367, 1000, Vector.replicate 20 3⟩
    (by decide) (by decide) (Or.inl (by decide)) rfl (by decide) (by decide) (by decide) (by decide)
    (by decide)

theorem chief100_leader_difficulty_rejected :
    validateSigner MainnetChainConfig (New blockPeriod)
        [Vector.replicate 20 1, Vector.replicate 20 2]
        [Vector.replicate 20 3, Vector.replicate 20 4, Vector.replicate 20 5, Vector.replicate 20 6,
          Vector.replicate 20 7]
        ⟨2823366, 0, Vector.replicate 20 2⟩ ⟨2823367, 1000, Vector.replicate 20 2⟩
        (Vector.replicate 20 7) = true ∧
      verifyHeaderDifficulty
        (inTurnForCalcDifficultyChief100 [(Vector.replicate 20 1 : Address), Vector.replicate 20 2]
          [Vector.replicate 20 3, Vector.replicate 20 4, Vector.replicate 20 5, Vector.replicate 20 6,
            Vector.replicate 20 7] 2823367 (Vector.replicate 20 7)) = false := by
  have zero : inTurnForCalcDifficultyChief100 [(Vector.replicate 20 1 : Address), Vector.replicate 20 2]
      [Vector.replicate 20 3, Vector.replicate 20 4, Vector.replicate 20 5, Vector.replicate 20 6,
        Vector.replicate 20 7] 2823367 (Vector.replicate 20 7) = 0 :=
    (difficulty_fifth_leader (by decide) (by decide) rfl (by decide) (by decide) (by decide)).2
  refine ⟨by decide, ?_⟩
  rw [zero]
  decide

end Meshbox.Tribe
