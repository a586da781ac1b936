import Meshbox.Core.TxSortedMap

/-!
# Strict lists

A strict txList holds the pending transactions of an account, which run in
nonce order. When Filter drops the transactions the account can no longer pay
for, or Remove drops one, the transactions above the lowest nonce dropped can
no longer run and are dropped too. What a strict list keeps is then a prefix
of its transactions in nonce order, so nonces that followed each other still
do; and every transaction dropped is returned once. Nonces with a gap between
them keep it: neither operation closes a gap that was there before.
-/

namespace Meshbox.Core

open KeySorted

/-- Nonces that follow each other, each one above the one before. -/
def Consecutive (txs : List Transaction) : Prop := txs.IsChain fun a b => b.Nonce = a.Nonce + 1

instance : DecidablePred Consecutive := fun txs => inferInstanceAs (Decidable (txs.IsChain _))

namespace txList

/-- What a list keeps when it drops transactions and returns them: its map
keeps the invariant, the transactions kept are a prefix of the sorted ones, and
those returned with those kept are all it held, each once. -/
structure KeepsFront (l : txList) (returned : List Transaction) (l' : txList) : Prop where
  valid : l'.txs.Valid
  front : byNonce l'.txs.items <+: byNonce l.txs.items
  once : (returned ++ l'.txs.items.map (·.2)).Perm (l.txs.items.map (·.2))

/-- Nonces that followed each other still do once a list keeps a front. -/
theorem KeepsFront.consecutive {l l' : txList} {returned : List Transaction} (keeps : KeepsFront l returned l')
    (consecutive : Consecutive (byNonce l.txs.items)) : Consecutive (byNonce l'.txs.items) :=
  List.IsChain.prefix consecutive keeps.front

/-- Keeping the transactions below a nonce of every one dropped keeps a front
of the sorted transactions. -/
theorem front_of_filter {items : List (Nat × Transaction)} (keyed : Keyed items) (keep : Transaction → Bool)
    (closed : ∀ a ∈ items.map (·.2), ∀ b ∈ items.map (·.2), a.Nonce < b.Nonce → keep b = true → keep a = true) :
    byNonce (items.filter fun entry => keep entry.2) <+: byNonce items := by
  rw [keyed.byNonce_filter_tx]
  exact filter_prefix keyed.pairwise_byNonce fun a first b second =>
    closed a ((sortBy_perm _).mem_iff.mp first) b ((sortBy_perm _).mem_iff.mp second)

/-- Filter's lowest nonce is at most its start and the nonce of every
transaction removed. -/
theorem lowest_le (txs : List Transaction) (start : Nat) :
    txs.foldl (fun lowest tx => min lowest tx.Nonce) start ≤ start ∧
      ∀ tx ∈ txs, txs.foldl (fun lowest tx => min lowest tx.Nonce) start ≤ tx.Nonce := by
  induction txs generalizing start with
  | nil => simp
  | cons first rest inductionHypothesis =>
    obtain ⟨belowStart, belowRest⟩ := inductionHypothesis (min start first.Nonce)
    rw [List.foldl_cons]
    refine ⟨le_trans belowStart (min_le_left _ _), fun tx mem => ?_⟩
    rcases List.mem_cons.mp mem with rfl | later
    · exact le_trans belowStart (min_le_right _ _)
    · exact belowRest tx later

/-- Filter on a strict list keeps a front of its transactions: those below the
lowest nonce it removed. -/
theorem Filter_keeps_front {l : txList} (strict : l.strict = true) (valid : l.txs.Valid) (costLimit : Int)
    (gasLimit : Nat) :
    KeepsFront l ((l.Filter costLimit gasLimit).1 ++ (l.Filter costLimit gasLimit).2.1)
      (l.Filter costLimit gasLimit).2.2 := by
  by_cases capped : l.costcap ≤ costLimit ∧ l.gascap ≤ gasLimit
  · have unfolded : l.Filter costLimit gasLimit = ([], [], l) := by simp only [Filter, capped, and_self, if_true]
    rw [unfolded]
    exact ⟨valid, List.prefix_refl _, List.Perm.refl _⟩
  simp only [Filter, capped, if_false, strict, true_and]
  obtain ⟨removedEq, itemsEq, validAfter⟩ :=
    txSortedMap.Filter_spec valid fun tx => decide (tx.Cost > costLimit ∨ tx.Gas > gasLimit)
  generalize l.txs.Filter (fun tx => decide (tx.Cost > costLimit ∨ tx.Gas > gasLimit)) = first
    at removedEq itemsEq validAfter ⊢
  split
  · -- the strict list drops everything above the lowest nonce removed
    have lowestLe := (lowest_le first.1 (2 ^ 64 - 1)).2
    generalize first.1.foldl (fun lowest tx => min lowest tx.Nonce) (2 ^ 64 - 1) = lowest at lowestLe ⊢
    obtain ⟨invalidsEq, itemsEq', validAfter'⟩ := txSortedMap.Filter_spec validAfter fun tx => decide (tx.Nonce > lowest)
    generalize first.2.Filter (fun tx => decide (tx.Nonce > lowest)) = second at invalidsEq itemsEq' validAfter' ⊢
    have combined : second.2.items = l.txs.items.filter fun entry =>
        (fun tx => !decide (tx.Nonce > lowest) && !decide (tx.Cost > costLimit ∨ tx.Gas > gasLimit)) entry.2 := by
      rw [itemsEq', itemsEq, List.filter_filter]
    refine ⟨validAfter', ?_, ?_⟩
    · show byNonce second.2.items <+: byNonce l.txs.items
      rw [combined]
      refine front_of_filter valid.keyed
        (fun tx => !decide (tx.Nonce > lowest) && !decide (tx.Cost > costLimit ∨ tx.Gas > gasLimit))
        fun a aMem b _ lower kept => ?_
      -- a transaction below a kept one was not removed, as lowest is below every one removed
      simp only [Bool.and_eq_true, Bool.not_eq_true', decide_eq_false_iff_not] at kept ⊢
      refine ⟨by omega, fun tooDear => ?_⟩
      have removed : a ∈ first.1 := by
        rw [removedEq]
        exact List.mem_filter.mpr ⟨aMem, decide_eq_true tooDear⟩
      have := lowestLe a removed
      omega
    · show (first.1 ++ second.1 ++ second.2.items.map (·.2)).Perm (l.txs.items.map (·.2))
      rw [invalidsEq, itemsEq', map_filter_tx first.2.items (fun tx => !decide (tx.Nonce > lowest)), itemsEq,
        map_filter_tx l.txs.items (fun tx => !decide (tx.Cost > costLimit ∨ tx.Gas > gasLimit)), removedEq,
        List.append_assoc]
      exact ((List.filter_append_perm _ _).append_left _).trans (List.filter_append_perm _ _)
  · -- nothing removed: the list keeps everything
    rename_i nothing
    have noneRemoved : first.1 = [] := List.eq_nil_of_length_eq_zero (by omega)
    have kept : first.2.items = l.txs.items := by
      rw [itemsEq]
      refine List.filter_eq_self.mpr fun entry mem => ?_
      have notRemoved : entry.2 ∉ first.1 := by simp [noneRemoved]
      rw [removedEq, List.mem_filter] at notRemoved
      have affordable : ¬ (entry.2.Cost > costLimit ∨ entry.2.Gas > gasLimit) :=
        fun tooDear => notRemoved ⟨List.mem_map_of_mem mem, decide_eq_true tooDear⟩
      simpa using affordable
    refine ⟨validAfter, ?_, ?_⟩
    · show byNonce first.2.items <+: byNonce l.txs.items
      rw [kept]
    · show (first.1 ++ [] ++ first.2.items.map Prod.snd).Perm (l.txs.items.map Prod.snd)
      rw [noneRemoved, kept, List.nil_append, List.nil_append]

/-- Remove on a strict list keeps a front of its transactions: those below the
nonce removed. The transaction it removes is the one stored under the nonce. -/
theorem Remove_keeps_front {l : txList} (strict : l.strict = true) (valid : l.txs.Valid) (tx : Transaction) :
    KeepsFront l ((GoMap.get l.txs.items tx.Nonce).toList ++ (l.Remove tx).2.1) (l.Remove tx).2.2 := by
  obtain ⟨foundEq, itemsEq, validAfter⟩ := txSortedMap.Remove_spec valid tx.Nonce
  simp only [Remove, strict, if_true]
  generalize l.txs.Remove tx.Nonce = first at foundEq itemsEq validAfter ⊢
  cases found : GoMap.get l.txs.items tx.Nonce with
  | none =>
    -- nothing to remove: the list keeps everything
    have kept : first.2.items = l.txs.items := by
      rw [itemsEq]
      refine List.filter_eq_self.mpr fun entry mem => ?_
      have absent := GoMap.get_eq_none_iff.mp found
      have stored : entry.1 ∈ l.txs.items.map (·.1) := List.mem_map_of_mem mem
      have different : entry.1 ≠ tx.Nonce := fun same => absent (same ▸ stored)
      simpa using different
    rw [found, Option.isSome_none] at foundEq
    simp only [foundEq, Bool.not_false, if_true]
    refine ⟨validAfter, ?_, ?_⟩
    · show byNonce first.2.items <+: byNonce l.txs.items
      rw [kept]
    · show ([] ++ [] ++ first.2.items.map Prod.snd).Perm (l.txs.items.map Prod.snd)
      rw [kept, List.nil_append, List.nil_append]
  | some stored =>
    rw [found, Option.isSome_some] at foundEq
    simp only [foundEq, Bool.not_true, Bool.false_eq_true, if_false]
    obtain ⟨invalidsEq, itemsEq', validAfter'⟩ :=
      txSortedMap.Filter_spec validAfter fun other => decide (other.Nonce > tx.Nonce)
    generalize first.2.Filter (fun other => decide (other.Nonce > tx.Nonce)) = second
      at invalidsEq itemsEq' validAfter' ⊢
    have combined : second.2.items = l.txs.items.filter fun entry =>
        (fun other => !decide (other.Nonce > tx.Nonce) && decide (other.Nonce ≠ tx.Nonce)) entry.2 := by
      rw [itemsEq', itemsEq, GoMap.delete, List.filter_filter]
      exact List.filter_congr fun entry mem => by simp only [valid.keyed.nonce entry mem]
    refine ⟨validAfter', ?_, ?_⟩
    · show byNonce second.2.items <+: byNonce l.txs.items
      rw [combined]
      refine front_of_filter valid.keyed
        (fun other => !decide (other.Nonce > tx.Nonce) && decide (other.Nonce ≠ tx.Nonce))
        fun a _ b _ lower kept => ?_
      simp only [Bool.and_eq_true, Bool.not_eq_true', decide_eq_false_iff_not, decide_eq_true_eq] at kept ⊢
      omega
    · show ([stored] ++ second.1 ++ second.2.items.map (·.2)).Perm (l.txs.items.map (·.2))
      -- the transaction removed, the invalidated ones and the ones kept are all of the list
      have whole := (GoMap.perm_cons_delete valid.keyed.distinct (GoMap.mem_of_get found)).map (·.2)
      rw [invalidsEq, itemsEq', map_filter_tx first.2.items (fun other => !decide (other.Nonce > tx.Nonce)), itemsEq,
        List.append_assoc, List.singleton_append]
      exact ((List.filter_append_perm _ _).cons stored).trans whole.symm

/-- Add keeps the map valid: it stores the transaction with Put, or nothing. -/
theorem Add_valid {l : txList} (valid : l.txs.Valid) {tx : Transaction} {priceBump : Nat} :
    (l.Add tx priceBump).2.2.txs.Valid := by
  unfold Add
  dsimp only
  -- whatever decides the rejection, the list is kept or the map gets a Put
  split_ifs
  · exact valid
  · exact txSortedMap.Put_valid valid tx

end txList

/-! ### The nonce-indexed map and the strict lists -/

/-- The nonce-indexed map keeps its representation over every sequence of
operations, and each operation does what it says against the transactions in
nonce order; Filter and Remove keep a front of a strict list, so nonces that
followed each other still do, and return every transaction dropped once. -/
theorem txSortedMap_keeps_nonce_order :
    (∀ ops : List txSortedMap.Op, (txSortedMap.run newTxSortedMap ops).Valid) ∧
    (∀ ops : List txSortedMap.Op,
      (∀ threshold,
        ((txSortedMap.run newTxSortedMap ops).Forward threshold).1 =
            (byNonce (txSortedMap.run newTxSortedMap ops).items).filter (·.Nonce < threshold) ∧
          ((txSortedMap.run newTxSortedMap ops).Forward threshold).2.items =
            (txSortedMap.run newTxSortedMap ops).items.filter fun entry => threshold ≤ entry.1) ∧
      (∀ threshold,
        ((txSortedMap.run newTxSortedMap ops).Cap threshold).1 =
            ((byNonce (txSortedMap.run newTxSortedMap ops).items).drop threshold).reverse ∧
          byNonce ((txSortedMap.run newTxSortedMap ops).Cap threshold).2.items =
            (byNonce (txSortedMap.run newTxSortedMap ops).items).take threshold) ∧
      (∀ start,
        byNonce (txSortedMap.run newTxSortedMap ops).items =
            ((txSortedMap.run newTxSortedMap ops).Ready start).1 ++
              byNonce ((txSortedMap.run newTxSortedMap ops).Ready start).2.items ∧
          ∀ lowest ∈ (byNonce (txSortedMap.run newTxSortedMap ops).items).head?,
            (start < lowest.Nonce → ((txSortedMap.run newTxSortedMap ops).Ready start).1 = []) ∧
            (lowest.Nonce ≤ start →
              ((txSortedMap.run newTxSortedMap ops).Ready start).1.map (·.Nonce) =
                  List.range' lowest.Nonce ((txSortedMap.run newTxSortedMap ops).Ready start).1.length ∧
                ∀ next ∈ (byNonce ((txSortedMap.run newTxSortedMap ops).Ready start).2.items).head?,
                  next.Nonce ≠ lowest.Nonce + ((txSortedMap.run newTxSortedMap ops).Ready start).1.length)) ∧
      (txSortedMap.run newTxSortedMap ops).Flatten.1 = byNonce (txSortedMap.run newTxSortedMap ops).items ∧
      (txSortedMap.run newTxSortedMap ops).Flatten.1.Pairwise (fun a b => a.Nonce < b.Nonce)) ∧
    (∀ l : txList, l.strict = true → l.txs.Valid →
      (∀ costLimit gasLimit,
        byNonce (l.Filter costLimit gasLimit).2.2.txs.items <+: byNonce l.txs.items ∧
        (Consecutive (byNonce l.txs.items) → Consecutive (byNonce (l.Filter costLimit gasLimit).2.2.txs.items)) ∧
        ((l.Filter costLimit gasLimit).1 ++ (l.Filter costLimit gasLimit).2.1 ++
          (l.Filter costLimit gasLimit).2.2.txs.items.map (·.2)).Perm (l.txs.items.map (·.2))) ∧
      (∀ tx,
        byNonce (l.Remove tx).2.2.txs.items <+: byNonce l.txs.items ∧
        (Consecutive (byNonce l.txs.items) → Consecutive (byNonce (l.Remove tx).2.2.txs.items)) ∧
        ((GoMap.get l.txs.items tx.Nonce).toList ++ (l.Remove tx).2.1 ++
          (l.Remove tx).2.2.txs.items.map (·.2)).Perm (l.txs.items.map (·.2)))) := by
  refine ⟨fun ops => txSortedMap.run_valid txSortedMap.newTxSortedMap_valid ops, fun ops => ?_, fun l strict valid => ?_⟩
  · have valid := txSortedMap.run_valid txSortedMap.newTxSortedMap_valid ops
    refine ⟨fun threshold => ?_, fun threshold => ?_, fun start => ?_, ?_⟩
    · obtain ⟨removed, items, _⟩ := txSortedMap.Forward_spec valid threshold
      exact ⟨removed, items⟩
    · obtain ⟨drops, kept, _⟩ := txSortedMap.Cap_spec valid threshold
      exact ⟨drops, kept⟩
    · obtain ⟨split, run, _⟩ := txSortedMap.Ready_spec valid start
      exact ⟨split, run⟩
    · obtain ⟨flat, increasing, _⟩ := txSortedMap.Flatten_spec valid
      exact ⟨flat, increasing⟩
  · refine ⟨fun costLimit gasLimit => ?_, fun tx => ?_⟩
    · have keeps := txList.Filter_keeps_front strict valid costLimit gasLimit
      exact ⟨keeps.front, keeps.consecutive, keeps.once⟩
    · have keeps := txList.Remove_keeps_front strict valid tx
      exact ⟨keeps.front, keeps.consecutive, keeps.once⟩

/-- A pending transaction of the given nonce. -/
def pendingTx (nonce : Nat) : Transaction :=
  { Hash := Vector.replicate 32 (UInt8.ofNat (nonce + 1)), From := Vector.replicate 20 1, Nonce := nonce,
    GasPrice := 1, Gas := 21000, Value := 0, To := none, Data := [], Size := 100, Protected := true }

/-- A transaction of nonce 1 that also sends 100, so that it costs 21100. -/
def dearTx : Transaction := { pendingTx 1 with Value := 100 }

/-- A strict list of the nonces 0 to 3 as Add builds it, nonce 1 the dear one. -/
def fourPending : txList :=
  (((((newTxList true).Add (pendingTx 0) 10).2.2.Add dearTx 10).2.2.Add (pendingTx 2) 10).2.2.Add
    (pendingTx 3) 10).2.2

/-- On that list, Filter at a cost limit of 21000 drops nonce 1 as too dear and
invalidates 2 and 3, and Remove of nonce 2 invalidates 3: each keeps a front of
the list and returns the rest once. -/
theorem txSortedMap_keeps_nonce_order_four_pending :
    fourPending.strict = true ∧ fourPending.txs.Valid ∧
      (fourPending.Filter 21000 21000).1 = [dearTx] ∧
      (fourPending.Filter 21000 21000).2.1 = [pendingTx 2, pendingTx 3] ∧
      (fourPending.Filter 21000 21000).2.2.txs.items = [(0, pendingTx 0)] ∧
      (fourPending.Remove (pendingTx 2)).2.1 = [pendingTx 3] ∧
      (fourPending.Remove (pendingTx 2)).2.2.txs.items = [(0, pendingTx 0), (1, dearTx)] ∧
      (byNonce (fourPending.Filter 21000 21000).2.2.txs.items <+: byNonce fourPending.txs.items ∧
        (Consecutive (byNonce fourPending.txs.items) →
          Consecutive (byNonce (fourPending.Filter 21000 21000).2.2.txs.items)) ∧
        ((fourPending.Filter 21000 21000).1 ++ (fourPending.Filter 21000 21000).2.1 ++
          (fourPending.Filter 21000 21000).2.2.txs.items.map (·.2)).Perm (fourPending.txs.items.map (·.2))) ∧
      (byNonce (fourPending.Remove (pendingTx 2)).2.2.txs.items <+: byNonce fourPending.txs.items ∧
        (Consecutive (byNonce fourPending.txs.items) →
          Consecutive (byNonce (fourPending.Remove (pendingTx 2)).2.2.txs.items)) ∧
        ((GoMap.get fourPending.txs.items 2).toList ++ (fourPending.Remove (pendingTx 2)).2.1 ++
          (fourPending.Remove (pendingTx 2)).2.2.txs.items.map (·.2)).Perm (fourPending.txs.items.map (·.2))) := by
  have valid : fourPending.txs.Valid :=
    txList.Add_valid (txList.Add_valid (txList.Add_valid (txList.Add_valid txSortedMap.newTxSortedMap_valid)))
  have parts := txSortedMap_keeps_nonce_order.2.2 fourPending rfl valid
  exact ⟨rfl, valid, by decide, by decide, by decide, by decide,
    by decide, parts.1 21000 21000, parts.2 (pendingTx 2)⟩

/-- A strict list holding nonces 0, 2 and 5, as Add builds it. -/
def gappedList : txList :=
  ((((newTxList true).Add (pendingTx 0) 10).2.2.Add (pendingTx 2) 10).2.2.Add (pendingTx 5) 10).2.2

/-- Remove on a strict list whose nonces have a gap leaves the gap: removing
nonce 5 from 0, 2, 5 invalidates nothing and keeps 0 and 2. -/
theorem strict_remove_keeps_gap :
    (gappedList.Remove (pendingTx 5)).1 = true ∧ (gappedList.Remove (pendingTx 5)).2.1 = [] ∧
      byNonce (gappedList.Remove (pendingTx 5)).2.2.txs.items = [pendingTx 0, pendingTx 2] ∧
      ¬ Consecutive (byNonce (gappedList.Remove (pendingTx 5)).2.2.txs.items) := by
  have items : (gappedList.Remove (pendingTx 5)).2.2.txs.items = [(0, pendingTx 0), (2, pendingTx 2)] := by
    decide
  have sorted : byNonce [(0, pendingTx 0), (2, pendingTx 2)] = [pendingTx 0, pendingTx 2] :=
    sortBy_eq (by decide) (List.Perm.refl _) (by decide)
  rw [items, sorted]
  exact ⟨by decide, by decide, rfl, by decide⟩

end Meshbox.Core
