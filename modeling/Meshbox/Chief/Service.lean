/-
This file models how the chief service of contracts/chief picks the signer of
the next round under chief 1.0.0. takeMiner starts at the candidate the VRF
value indexes modulo the length of the candidate list and walks on, one place
at a time, past candidates that are already in next round's volunteer list or
are current signers; after a full turn it gives up with the zero address. The
proposer calls it through chief100FetchNextRoundSigner and the validator through
verifyMiner, each on the block the hash names.

What the service reads of the chain and the contracts is given as a view: the
number of the block a hash names, the volunteer and signer lists of the chief
contract and the normal list of the proof-of-capacity contract at that block. A
contract call that fails leaves its list empty, as the source's zero values do.

The walk starts its recursion at _vrfn = vrfn and stops once _vrfn - vrfn
reaches the list's length, so the recursion is well founded on the distance
left, which starts at the length and falls by one each call. The selection is
the first candidate that is not excluded, in the order the walk visits them.
The zero address would also come back were that candidate the zero address
itself; the proof-of-capacity contract keeps the zero address off its normal
list, and on such a list the zero address means that no candidate was free.
-/

import Meshbox.Tribe.Difficulty
import Meshbox.Library.BigEndian
import Meshbox.Library.Outcome

namespace Meshbox.Chief

open Meshbox.Params Meshbox.Tribe

/-- What the chief service reads at a block: the number of the block a hash
names, the chief contract's volunteer list and signer list, and the
proof-of-capacity contract's normal list. -/
structure ChiefView where
  GetBlockByHash : Hash → Option Nat
  volunteers : Nat → Hash → List Address
  signerList : Nat → Hash → List Address
  normalList : Hash → List Address

/-- getNextRoundSignerExcludeList: the volunteers already chosen for the next
round, then the current signers. -/
def getNextRoundSignerExcludeList (chain : ChiefView) (blockNumber : Nat) (blockHash : Hash) :
    List Address :=
  chain.volunteers blockNumber blockHash ++ chain.signerList blockNumber blockHash

/-- minerList: the normal list of the proof-of-capacity contract. -/
def minerList (chain : ChiefView) (hash : Hash) : List Address :=
  [] ++ chain.normalList hash

/-- The recursive fn of takeMiner at _vrfn = current: the zero address after a
full turn, otherwise the candidate at current mod |nl|, or the next probe when
that candidate is excluded. -/
def takeMinerProbe (nl excludes : List Address) (vrfn current : Nat) : Outcome String Address :=
  if nl.length ≤ current - vrfn then .ok zeroAddress
  else
    match nl[current % nl.length]? with
    | none => .panic
    | some v => if v ∈ excludes then takeMinerProbe nl excludes vrfn (current + 1) else .ok v
termination_by nl.length + vrfn - current

/-- takeMiner: the zero address for an empty list; otherwise the probe from the
VRF value, excluding the block's next-round volunteers and signers. A hash that
names no block aborts. -/
def takeMiner (chain : ChiefView) (nl : List Address) (hash : Hash) (vrfnBytes : List UInt8) :
    Outcome String Address :=
  if 0 < nl.length then
    match chain.GetBlockByHash hash with
    | none => .panic
    | some number =>
      let vrfn := BigEndian.ofBytes vrfnBytes
      takeMinerProbe nl (getNextRoundSignerExcludeList chain number hash) vrfn vrfn
  else .ok zeroAddress

/-- chief100FetchNextRoundSigner: the next round's signer from SIP100 on, the
zero address before. -/
def chief100FetchNextRoundSigner (config : ChainConfig) (chain : ChiefView) (blockNumber : Nat)
    (hash : Hash) (vrfn : Nat) : Outcome String Address :=
  if IsSIP100Block config blockNumber then
    takeMiner chain (minerList chain hash) hash (BigEndian.toBytes vrfn)
  else .ok zeroAddress

/-- verifyMiner: under chief 1.0.0, whether vol is the signer takeMiner picks;
under other chiefs every signer passes. A hash that names no block, or a block
with no chief, aborts on the nil value. -/
def verifyMiner (config : ChainConfig) (chain : ChiefView) (vol : Address) (hash : Hash)
    (vrfn : List UInt8) : Outcome String Bool :=
  match chain.GetBlockByHash hash with
  | none => .panic
  | some number =>
    match GetChiefInfo config number with
    | none => .panic
    | some ci =>
      if ci.Version = "1.0.0" then do
        let m ← takeMiner chain (minerList chain hash) hash vrfn
        pure (decide (vol = m))
      else .ok true

/-! ### The selection the walk makes -/

/-- The candidate the walk reaches k places after the VRF value. -/
def candidateAt (nl : List Address) (vrfn k : Nat) : Option Address :=
  nl[(vrfn + k) % nl.length]?

/-- miner is the first candidate, in the walk's order, that is not excluded. -/
def FirstFree (nl excludes : List Address) (vrfn : Nat) (miner : Address) : Prop :=
  ∃ k < nl.length, candidateAt nl vrfn k = some miner ∧ miner ∉ excludes ∧
    ∀ j < k, ∀ other, candidateAt nl vrfn j = some other → other ∈ excludes

/-- Every candidate of the walk is excluded. -/
def AllExcluded (nl excludes : List Address) (vrfn : Nat) : Prop :=
  ∀ k < nl.length, ∀ other, candidateAt nl vrfn k = some other → other ∈ excludes

theorem candidateAt_isSome {nl : List Address} (nonempty : 0 < nl.length) (vrfn k : Nat) :
    ∃ candidate, candidateAt nl vrfn k = some candidate := by
  have inside : (vrfn + k) % nl.length < nl.length := Nat.mod_lt _ nonempty
  exact ⟨nl[(vrfn + k) % nl.length], List.getElem?_eq_getElem inside⟩

/-- One walk either finds a free candidate or finds them all excluded. -/
theorem firstFree_or_allExcluded (nl excludes : List Address) (vrfn : Nat) :
    (∃ miner, FirstFree nl excludes vrfn miner) ∨ AllExcluded nl excludes vrfn := by
  classical
  by_cases free : ∃ k < nl.length, ∃ other, candidateAt nl vrfn k = some other ∧ other ∉ excludes
  · left
    let least := Nat.find free
    obtain ⟨bound, other, reached, notExcluded⟩ := Nat.find_spec free
    refine ⟨other, least, bound, reached, notExcluded, ?_⟩
    intro j below candidate reachedBelow
    by_contra notMember
    exact Nat.find_min free below ⟨Nat.lt_trans below bound, candidate, reachedBelow, notMember⟩
  · right
    intro k bound other reached
    by_contra notMember
    exact free ⟨k, bound, other, reached, notMember⟩

/-! ### The walk, one probe at a time -/

section Walk

variable {nl excludes : List Address} {vrfn : Nat}

/-- One probe, unfolded once for the lemmas below. -/
theorem takeMinerProbe_eq (current : Nat) :
    takeMinerProbe nl excludes vrfn current =
      if nl.length ≤ current - vrfn then .ok zeroAddress
      else
        match nl[current % nl.length]? with
        | none => .panic
        | some v => if v ∈ excludes then takeMinerProbe nl excludes vrfn (current + 1) else .ok v := by
  rw [takeMinerProbe]

theorem takeMinerProbe_stop {current : Nat} (turned : nl.length ≤ current - vrfn) :
    takeMinerProbe nl excludes vrfn current = .ok zeroAddress := by
  rw [takeMinerProbe_eq, if_pos turned]

theorem takeMinerProbe_free {offset : Nat} {candidate : Address} (within : offset < nl.length)
    (reached : candidateAt nl vrfn offset = some candidate) (notExcluded : candidate ∉ excludes) :
    takeMinerProbe nl excludes vrfn (vrfn + offset) = .ok candidate := by
  have probed : nl[(vrfn + offset) % nl.length]? = some candidate := reached
  rw [takeMinerProbe_eq, if_neg (by omega), probed]
  simp only [notExcluded, if_false]

theorem takeMinerProbe_excluded {offset : Nat} {candidate : Address} (within : offset < nl.length)
    (reached : candidateAt nl vrfn offset = some candidate) (excluded : candidate ∈ excludes) :
    takeMinerProbe nl excludes vrfn (vrfn + offset) =
      takeMinerProbe nl excludes vrfn (vrfn + (offset + 1)) := by
  have probed : nl[(vrfn + offset) % nl.length]? = some candidate := reached
  rw [takeMinerProbe_eq, if_neg (by omega), probed]
  simp only [excluded, if_true, Nat.add_assoc]

/-- From offset on, the walk passes the excluded candidates before k and stops
at k's. Induction on the distance from offset to k. -/
theorem takeMinerProbe_of_firstFree {k : Nat} {miner : Address} (within : k < nl.length)
    (reached : candidateAt nl vrfn k = some miner) (notExcluded : miner ∉ excludes)
    (before : ∀ j < k, ∀ other, candidateAt nl vrfn j = some other → other ∈ excludes)
    (offset : Nat) (upTo : offset ≤ k) : takeMinerProbe nl excludes vrfn (vrfn + offset) = .ok miner := by
  obtain ⟨distance, toK⟩ : ∃ distance, offset + distance = k := ⟨k - offset, by omega⟩
  induction distance generalizing offset with
  | zero =>
    rw [Nat.add_zero] at toK
    subst toK
    exact takeMinerProbe_free within reached notExcluded
  | succ distance inductionHypothesis =>
    have below : offset < k := by omega
    obtain ⟨candidate, reachedHere⟩ := candidateAt_isSome (Nat.zero_lt_of_lt within) vrfn offset
    rw [takeMinerProbe_excluded (Nat.lt_trans below within) reachedHere
      (before offset below candidate reachedHere)]
    exact inductionHypothesis (offset + 1) below (by omega)

/-- When every candidate is excluded, the walk from offset on runs to the end of
its turn. Induction on the distance from offset to the end. -/
theorem takeMinerProbe_of_allExcluded (all : AllExcluded nl excludes vrfn) (offset : Nat)
    (upTo : offset ≤ nl.length) : takeMinerProbe nl excludes vrfn (vrfn + offset) = .ok zeroAddress := by
  obtain ⟨distance, toEnd⟩ : ∃ distance, offset + distance = nl.length := ⟨nl.length - offset, by omega⟩
  induction distance generalizing offset with
  | zero => exact takeMinerProbe_stop (by omega)
  | succ distance inductionHypothesis =>
    have below : offset < nl.length := by omega
    obtain ⟨candidate, reachedHere⟩ := candidateAt_isSome (Nat.zero_lt_of_lt below) vrfn offset
    rw [takeMinerProbe_excluded below reachedHere (all offset below candidate reachedHere)]
    exact inductionHypothesis (offset + 1) below (by omega)

end Walk

/-! ### takeMiner -/

section Selection

variable {chain : ChiefView} {nl : List Address} {hash : Hash} {vrfnBytes : List UInt8} {number : Nat}

theorem takeMiner_eq_probe (found : chain.GetBlockByHash hash = some number) (nonempty : 0 < nl.length) :
    takeMiner chain nl hash vrfnBytes =
      takeMinerProbe nl (getNextRoundSignerExcludeList chain number hash) (BigEndian.ofBytes vrfnBytes)
        (BigEndian.ofBytes vrfnBytes + 0) := by
  rw [takeMiner, if_pos nonempty, found]
  rfl

theorem takeMiner_of_firstFree (found : chain.GetBlockByHash hash = some number) {miner : Address}
    (free : FirstFree nl (getNextRoundSignerExcludeList chain number hash) (BigEndian.ofBytes vrfnBytes) miner) :
    takeMiner chain nl hash vrfnBytes = .ok miner := by
  obtain ⟨k, within, reached, notExcluded, before⟩ := free
  rw [takeMiner_eq_probe found (Nat.zero_lt_of_lt within)]
  exact takeMinerProbe_of_firstFree within reached notExcluded before 0 (Nat.zero_le k)

theorem takeMiner_of_allExcluded (found : chain.GetBlockByHash hash = some number)
    (all : AllExcluded nl (getNextRoundSignerExcludeList chain number hash) (BigEndian.ofBytes vrfnBytes)) :
    takeMiner chain nl hash vrfnBytes = .ok zeroAddress := by
  cases nl with
  | nil => rfl
  | cons first rest =>
    rw [takeMiner_eq_probe found (List.length_pos_of_ne_nil (List.cons_ne_nil first rest))]
    exact takeMinerProbe_of_allExcluded all 0 (Nat.zero_le _)

/-- On a block the hash names, takeMiner returns the first candidate of the
walk from the VRF value that is not excluded, and the zero address when every
candidate is excluded, the empty list included. -/
theorem takeMiner_selects_first_free (found : chain.GetBlockByHash hash = some number) (miner : Address) :
    takeMiner chain nl hash vrfnBytes = .ok miner ↔
      FirstFree nl (getNextRoundSignerExcludeList chain number hash) (BigEndian.ofBytes vrfnBytes) miner ∨
        (AllExcluded nl (getNextRoundSignerExcludeList chain number hash) (BigEndian.ofBytes vrfnBytes) ∧
          miner = zeroAddress) := by
  constructor
  · intro picks
    rcases firstFree_or_allExcluded nl (getNextRoundSignerExcludeList chain number hash)
        (BigEndian.ofBytes vrfnBytes) with ⟨other, free⟩ | all
    · rw [takeMiner_of_firstFree found free, Outcome.ok.injEq] at picks
      exact .inl (picks ▸ free)
    · rw [takeMiner_of_allExcluded found all, Outcome.ok.injEq] at picks
      exact .inr ⟨all, picks.symm⟩
  · rintro (free | ⟨all, rfl⟩)
    · exact takeMiner_of_firstFree found free
    · exact takeMiner_of_allExcluded found all

/-- Every candidate the walk reaches is on the list. -/
theorem candidateAt_mem {vrfn k : Nat} {candidate : Address}
    (reached : candidateAt nl vrfn k = some candidate) : candidate ∈ nl :=
  List.mem_of_getElem? reached

/-- On a block the hash names, for a candidate list without the zero address,
as the proof-of-capacity contract keeps it: takeMiner returns the first
candidate of the walk from the VRF value that is not excluded; it returns the
zero address exactly when the list is empty or every candidate is excluded; and
the walk stops once it has gone the length of the list. -/
theorem takeMiner_returns_first_free (found : chain.GetBlockByHash hash = some number)
    (noZero : zeroAddress ∉ nl) :
    (∀ miner, takeMiner chain nl hash vrfnBytes = .ok miner ↔
      FirstFree nl (getNextRoundSignerExcludeList chain number hash) (BigEndian.ofBytes vrfnBytes) miner ∨
        (AllExcluded nl (getNextRoundSignerExcludeList chain number hash) (BigEndian.ofBytes vrfnBytes) ∧
          miner = zeroAddress)) ∧
    (takeMiner chain nl hash vrfnBytes = .ok zeroAddress ↔
      nl = [] ∨ AllExcluded nl (getNextRoundSignerExcludeList chain number hash) (BigEndian.ofBytes vrfnBytes)) ∧
    ∀ offset, nl.length ≤ offset →
      takeMinerProbe nl (getNextRoundSignerExcludeList chain number hash) (BigEndian.ofBytes vrfnBytes)
        (BigEndian.ofBytes vrfnBytes + offset) = .ok zeroAddress := by
  refine ⟨takeMiner_selects_first_free found, ⟨?_, ?_⟩, ?_⟩
  · -- the zero address is no candidate, so it is never the first free one
    intro zero
    rcases (takeMiner_selects_first_free found zeroAddress).mp zero with
      ⟨k, -, reached, -, -⟩ | ⟨all, -⟩
    · exact absurd (candidateAt_mem reached) noZero
    · exact .inr all
  · rintro (rfl | all)
    · rfl
    · exact takeMiner_of_allExcluded found all
  · intro offset turned
    exact takeMinerProbe_stop (by omega)

/-- Three candidates, the second a volunteer already chosen, and a VRF value of
one: the walk passes the second and stops at the third. -/
theorem takeMiner_returns_first_free_sample :
    let chain : ChiefView := ⟨fun _ => some 5, fun _ _ => [Vector.replicate 20 2], fun _ _ => [],
      fun _ => [Vector.replicate 20 1, Vector.replicate 20 2, Vector.replicate 20 3]⟩
    chain.GetBlockByHash (Vector.replicate 32 0) = some 5 ∧
      zeroAddress ∉ minerList chain (Vector.replicate 32 0) ∧
      takeMiner chain (minerList chain (Vector.replicate 32 0)) (Vector.replicate 32 0) [1] =
        .ok (Vector.replicate 20 3) ∧
      ((∀ miner, takeMiner chain (minerList chain (Vector.replicate 32 0)) (Vector.replicate 32 0) [1] =
          .ok miner ↔
        FirstFree (minerList chain (Vector.replicate 32 0))
            (getNextRoundSignerExcludeList chain 5 (Vector.replicate 32 0)) (BigEndian.ofBytes [1]) miner ∨
          (AllExcluded (minerList chain (Vector.replicate 32 0))
              (getNextRoundSignerExcludeList chain 5 (Vector.replicate 32 0)) (BigEndian.ofBytes [1]) ∧
            miner = zeroAddress)) ∧
      (takeMiner chain (minerList chain (Vector.replicate 32 0)) (Vector.replicate 32 0) [1] = .ok zeroAddress ↔
        minerList chain (Vector.replicate 32 0) = [] ∨
          AllExcluded (minerList chain (Vector.replicate 32 0))
            (getNextRoundSignerExcludeList chain 5 (Vector.replicate 32 0)) (BigEndian.ofBytes [1])) ∧
      ∀ offset, (minerList chain (Vector.replicate 32 0)).length ≤ offset →
        takeMinerProbe (minerList chain (Vector.replicate 32 0))
          (getNextRoundSignerExcludeList chain 5 (Vector.replicate 32 0)) (BigEndian.ofBytes [1])
          (BigEndian.ofBytes [1] + offset) = .ok zeroAddress) := by
  intro chain
  have noZero : zeroAddress ∉ minerList chain (Vector.replicate 32 0) := by decide
  have first : FirstFree (minerList chain (Vector.replicate 32 0))
      (getNextRoundSignerExcludeList chain 5 (Vector.replicate 32 0)) (BigEndian.ofBytes [1])
      (Vector.replicate 20 3) := by
    refine ⟨1, by decide, rfl, by decide, ?_⟩
    intro j below other reached
    obtain rfl : j = 0 := by omega
    have second : candidateAt (minerList chain (Vector.replicate 32 0)) (BigEndian.ofBytes [1]) 0 =
        some (Vector.replicate 20 2) := rfl
    rw [second, Option.some.injEq] at reached
    subst reached
    decide
  refine ⟨rfl, noZero, ?_, takeMiner_returns_first_free rfl noZero⟩
  exact ((takeMiner_returns_first_free rfl noZero).1 _).mpr (.inl first)

/-- On a block the hash names, takeMiner never aborts. -/
theorem takeMiner_returns (found : chain.GetBlockByHash hash = some number) :
    ∃ miner, takeMiner chain nl hash vrfnBytes = .ok miner := by
  rcases firstFree_or_allExcluded nl (getNextRoundSignerExcludeList chain number hash)
      (BigEndian.ofBytes vrfnBytes) with ⟨miner, free⟩ | all
  · exact ⟨miner, takeMiner_of_firstFree found free⟩
  · exact ⟨zeroAddress, takeMiner_of_allExcluded found all⟩

end Selection

end Meshbox.Chief
