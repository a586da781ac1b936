/-
This file models the price and nonce ordering of core/types/transaction.go, by
which the miner fills a block. TransactionsByPriceAndNonce keeps the rest of
each account's transactions in a map, and the next transaction of each account
in a heap (container/heap, Library/Heap) ordered by TxByPrice.Less. Less was
changed to put a call to a chief contract's update function before everything
else: it answers true whenever its left side is one, whatever the right side.

The Go map is given as the list of its entries in the order range visits them,
and Sender as the sender the signer recovers. Peek and Shift refine a greedy
merge of the accounts' lists (Library/Merge) by priceRank, which puts the chief
update above every price. With at most one chief update, Less agrees with
priceRank on every two distinct heap positions, and that is all container/heap
ever asks of it.
-/

import Mathlib
import Meshbox.Params.Config
import Meshbox.Library.Heap
import Meshbox.Library.Merge

namespace Meshbox.Types

open Meshbox.Params

/-- Transaction: the fields of a transaction that the ordering reads. A contract
creation has no recipient. -/
structure Transaction where
  To : Option Address
  Data : List UInt8
  Price : Nat
deriving DecidableEq, Repr

/-- Signer: what Sender reads of a signer, the recovery of a transaction's
sender from its signature. -/
structure Signer where
  recover : Transaction → Address

/-- Sender: the sender the signer recovers. The callers here drop its error,
and read the zero address a failed recovery returns. -/
def Sender (signer : Signer) (tx : Transaction) : Address := signer.recover tx

/-- The test TxByPrice.Less makes of each side: a call to a chief contract's
update function. -/
def isChiefUpdateTx (config : ChainConfig) (tx : Transaction) : Bool :=
  match tx.To with
  | some recipient => IsChiefAddress config recipient && IsChiefUpdate tx.Data
  | none => false

/-- TxByPrice.Less: a chief update first, then the higher price. -/
def TxByPrice.Less (config : ChainConfig) (x y : Transaction) : Bool :=
  if isChiefUpdateTx config x then true
  else if isChiefUpdateTx config y then false
  else decide (x.Price > y.Price)

/-- A Go map from accounts to transaction lists. -/
abbrev TxMap := Address → Option (List Transaction)

/-- The assignment m[key] = value. -/
def TxMap.set (m : TxMap) (key : Address) (value : List Transaction) : TxMap :=
  fun a => if a = key then some value else m a

/-- TransactionsByPriceAndNonce: the rest of each account's transactions, and
the heap of the accounts' next transactions. -/
structure TransactionsByPriceAndNonce where
  txs : TxMap
  heads : List Transaction
  signer : Signer

/-- One pass of the loop of NewTransactionsByPriceAndNonce: the first
transaction of an account's list joins the heads, and the rest goes into the
map under its sender. accTxs[0] aborts on an empty list. -/
def collectHead (signer : Signer) (collected : List Transaction × TxMap) (accTxs : List Transaction) :
    Option (List Transaction × TxMap) :=
  match accTxs with
  | [] => none
  | first :: rest => some (collected.1 ++ [first], collected.2.set (Sender signer first) rest)

/-- NewTransactionsByPriceAndNonce: the heads collected over the map's entries,
then ordered by heap.Init. -/
def NewTransactionsByPriceAndNonce (config : ChainConfig) (signer : Signer)
    (txs : List (Address × List Transaction)) : Option TransactionsByPriceAndNonce := do
  let collected ← txs.foldlM (fun collected entry => collectHead signer collected entry.2)
    ([], fun a => txs.lookup a)
  pure ⟨collected.2, Heap.init (TxByPrice.Less config) collected.1, signer⟩

/-- Peek: the next transaction by price, nil when no account has any left. -/
def Peek (t : TransactionsByPriceAndNonce) : Option Transaction :=
  match t.heads with
  | [] => none
  | head :: _ => some head

/-- Shift: the best head replaced by the next transaction of its account and
fixed in the heap, or popped when the account has none left. heads[0] aborts
on an empty heap. -/
def Shift (config : ChainConfig) (t : TransactionsByPriceAndNonce) : Option TransactionsByPriceAndNonce :=
  match t.heads with
  | [] => none
  | head :: _ =>
    let acc := Sender t.signer head
    match t.txs acc with
    | some (next :: rest) =>
      some { t with heads := Heap.fix (TxByPrice.Less config) (t.heads.set 0 next) 0,
                    txs := t.txs.set acc rest }
    | _ => some { t with heads := (Heap.pop (TxByPrice.Less config) t.heads).1 }

/-- Pop: the best head removed, so that the rest of its account is never
reached. heap.Pop aborts on an empty heap. -/
def Pop (config : ChainConfig) (t : TransactionsByPriceAndNonce) : Option TransactionsByPriceAndNonce :=
  match t.heads with
  | [] => none
  | _ :: _ => some { t with heads := (Heap.pop (TxByPrice.Less config) t.heads).1 }

/-- The set drained as a caller that takes every transaction drives it: Peek
until it returns nil, Shift after each transaction. Fuel bounds the loop. -/
def peekShiftLoop (config : ChainConfig) : Nat → TransactionsByPriceAndNonce → Option (List Transaction)
  | 0, _ => none
  | fuel + 1, t =>
    match Peek t with
    | none => some []
    | some tx => do
      let next ← Shift config t
      let rest ← peekShiftLoop config fuel next
      pure (tx :: rest)

/-! ### The rank Less orders by -/

/-- The rank TxByPrice.Less orders by: a chief update above every price. -/
def priceRank (config : ChainConfig) (tx : Transaction) : WithTop Nat :=
  if isChiefUpdateTx config tx then ⊤ else tx.Price

theorem priceRank_eq_top {config : ChainConfig} {tx : Transaction} :
    priceRank config tx = ⊤ ↔ isChiefUpdateTx config tx = true := by
  unfold priceRank
  split <;> simp_all

/-- Of a list in which at most one entry passes p, no two distinct positions
hold entries that pass it. -/
theorem eq_of_countP_le_one {α : Type} {p : α → Bool} {l : List α} (atMostOne : l.countP p ≤ 1)
    {i j : Nat} {x y : α} (atI : l[i]? = some x) (atJ : l[j]? = some y) (passX : p x = true)
    (passY : p y = true) : i = j := by
  induction l generalizing i j with
  | nil => simp at atI
  | cons a l inductionHypothesis =>
    rw [List.countP_cons] at atMostOne
    have passesLater : ∀ {k z}, l[k]? = some z → p z = true → 0 < l.countP p := fun atK passZ =>
      List.countP_pos_iff.mpr ⟨_, List.mem_of_getElem? atK, passZ⟩
    cases i with
    | zero =>
      cases j with
      | zero => rfl
      | succ j =>
        simp only [List.getElem?_cons_zero, Option.some_inj] at atI
        subst atI
        have := passesLater (by simpa using atJ) passY
        rw [if_pos passX] at atMostOne
        omega
    | succ i =>
      cases j with
      | zero =>
        simp only [List.getElem?_cons_zero, Option.some_inj] at atJ
        subst atJ
        have := passesLater (by simpa using atI) passX
        rw [if_pos passY] at atMostOne
        omega
      | succ j =>
        have later := inductionHypothesis (by omega) (by simpa using atI) (by simpa using atJ)
        rw [later]

theorem eq_of_mem_of_countP_le_one {α : Type} {p : α → Bool} {l : List α} (atMostOne : l.countP p ≤ 1)
    {x y : α} (memberX : x ∈ l) (memberY : y ∈ l) (passX : p x = true) (passY : p y = true) : x = y := by
  obtain ⟨i, atI⟩ := List.mem_iff_getElem?.mp memberX
  obtain ⟨j, atJ⟩ := List.mem_iff_getElem?.mp memberY
  have same := eq_of_countP_le_one atMostOne atI atJ passX passY
  subst same
  exact Option.some_inj.mp (atI.symm.trans atJ)

/-- With at most one chief update in the heap, Less is the comparison by
priceRank wherever container/heap asks it. -/
theorem ranksBy_of_countP_le_one {config : ChainConfig} {heads : List Transaction}
    (oneChief : heads.countP (isChiefUpdateTx config) ≤ 1) :
    Heap.RanksBy (TxByPrice.Less config) (priceRank config) heads := by
  intro i j x y different atI atJ
  unfold TxByPrice.Less priceRank
  cases chiefX : isChiefUpdateTx config x <;> cases chiefY : isChiefUpdateTx config y
  · simp
  · simp
  · simp
  · exact absurd (eq_of_countP_le_one oneChief atI atJ chiefX chiefY) different

/-! ### Shift, one branch at a time -/

section Shift

variable {config : ChainConfig} {t : TransactionsByPriceAndNonce} {tx next : Transaction}
  {others more : List Transaction}

theorem Shift_of_next (heapIs : t.heads = tx :: others)
    (restAt : t.txs (Sender t.signer tx) = some (next :: more)) :
    Shift config t = some { t with heads := Heap.fix (TxByPrice.Less config) ((tx :: others).set 0 next) 0,
                                   txs := t.txs.set (Sender t.signer tx) more } := by
  unfold Shift
  simp only [heapIs, restAt]

theorem Shift_of_last (heapIs : t.heads = tx :: others) (restAt : t.txs (Sender t.signer tx) = some []) :
    Shift config t = some { t with heads := (Heap.pop (TxByPrice.Less config) (tx :: others)).1 } := by
  unfold Shift
  simp only [heapIs, restAt]

end Shift

/-! ### The set holds the accounts' remaining lists -/

/-- t holds the accounts' remaining lists queues: its heads are the lists'
heads, in heap order; the map holds the rest of each list under its account;
the signer recovers each list's account; and at most one chief update is
left. -/
structure Represents (config : ChainConfig) (t : TransactionsByPriceAndNonce)
    (queues : List (Address × List Transaction)) : Prop where
  heads_perm : t.heads.Perm (Merge.heads queues)
  txs_rest : ∀ queue ∈ queues, t.txs queue.1 = some queue.2.tail
  signed : ∀ queue ∈ queues, ∀ tx ∈ queue.2, Sender t.signer tx = queue.1
  distinct : (queues.map Prod.fst).Nodup
  ordered : Heap.OrderedFrom (priceRank config) t.heads 0 t.heads.length
  oneChief : (Merge.entries queues).countP (isChiefUpdateTx config) ≤ 1

section Represents

variable {config : ChainConfig} {queues : List (Address × List Transaction)}

/-- A list of the heads of the queues has at most one chief update when the
queues have. -/
theorem ranksBy_of_perm_heads {heads : List Transaction} (perm : heads.Perm (Merge.heads queues))
    (oneChief : (Merge.entries queues).countP (isChiefUpdateTx config) ≤ 1) :
    Heap.RanksBy (TxByPrice.Less config) (priceRank config) heads := by
  apply ranksBy_of_countP_le_one
  rw [perm.countP_eq]
  exact ((Merge.heads_sublist_entries queues).countP_le).trans oneChief

theorem Represents.ranksBy {t : TransactionsByPriceAndNonce} (rep : Represents config t queues) :
    Heap.RanksBy (TxByPrice.Less config) (priceRank config) t.heads :=
  ranksBy_of_perm_heads rep.heads_perm rep.oneChief

theorem countP_entries_set_le {i : Nat} {k : Address} {tx : Transaction} {rest : List Transaction}
    (atI : queues[i]? = some (k, tx :: rest)) (p : Transaction → Bool) :
    (Merge.entries (queues.set i (k, rest))).countP p ≤ (Merge.entries queues).countP p :=
  calc (Merge.entries (queues.set i (k, rest))).countP p
      ≤ (tx :: Merge.entries (queues.set i (k, rest))).countP p := (List.sublist_cons_self _ _).countP_le
    _ = (Merge.entries queues).countP p := ((Merge.entries_set_perm atI).countP_eq p).symm

/-- Once the best head tx of queue i is taken, a set that holds the rest of
that queue under its account, and the other accounts as before, holds the
queues that are left. -/
theorem Represents.take {t t' : TransactionsByPriceAndNonce} (rep : Represents config t queues) {i : Nat}
    {k : Address} {tx : Transaction} {rest : List Transaction} (atI : queues[i]? = some (k, tx :: rest))
    (sameSigner : t'.signer = t.signer) (restAt : t'.txs k = some rest.tail)
    (elsewhere : ∀ a, a ≠ k → t'.txs a = t.txs a)
    (headsPerm : t'.heads.Perm (Merge.heads (queues.set i (k, rest))))
    (ordered : Heap.OrderedFrom (priceRank config) t'.heads 0 t'.heads.length) :
    Represents config t' (queues.set i (k, rest)) := by
  have memberI : (k, tx :: rest) ∈ queues := List.mem_of_getElem? atI
  have inside : i < queues.length := (List.getElem?_eq_some_iff.mp atI).1
  have distinct' : ((queues.set i (k, rest)).map Prod.fst).Nodup := by
    rw [Merge.keys_set atI]
    exact rep.distinct
  refine ⟨headsPerm, ?_, ?_, distinct', ordered, (countP_entries_set_le atI _).trans rep.oneChief⟩
  · intro queue member
    by_cases sameKey : queue.1 = k
    · -- the keys stay distinct, so the queue of k is the one that was taken from
      have isI : queue = (k, rest) :=
        List.inj_on_of_nodup_map distinct' member (List.mem_set inside _) sameKey
      rw [isI, restAt]
    · rw [elsewhere _ sameKey]
      rcases List.mem_or_eq_of_mem_set member with old | new
      · exact rep.txs_rest queue old
      · exact absurd (by rw [new]) sameKey
  · intro queue member x inQueue
    rw [sameSigner]
    rcases List.mem_or_eq_of_mem_set member with old | new
    · exact rep.signed queue old x inQueue
    · subst new
      exact rep.signed _ memberI x (List.mem_cons_of_mem _ inQueue)

/-- One Shift is one step of the greedy merge: Peek's transaction is a head of
greatest rank, and Shift leaves a set that holds what remains. -/
theorem Represents.shift {t : TransactionsByPriceAndNonce} (rep : Represents config t queues) {tx : Transaction}
    (peek : Peek t = some tx) :
    ∃ t' queues', Shift config t = some t' ∧ Merge.Step (priceRank config) queues tx queues' ∧
      Represents config t' queues' := by
  obtain ⟨others, heapIs⟩ : ∃ others, t.heads = tx :: others := by
    unfold Peek at peek
    split at peek
    · cases peek
    · rename_i head others headsIs
      cases peek
      exact ⟨others, headsIs⟩
  have inHeads : tx ∈ Merge.heads queues := rep.heads_perm.subset (by rw [heapIs]; exact List.mem_cons_self)
  obtain ⟨k, rest, member⟩ := Merge.mem_heads.mp inHeads
  obtain ⟨i, atI⟩ := List.mem_iff_getElem?.mp member
  have sender : Sender t.signer tx = k := rep.signed _ member tx List.mem_cons_self
  have restAt : t.txs k = some rest := rep.txs_rest _ member
  -- the root of the heap has the greatest rank among the heads
  have greatest : ∀ y ∈ Merge.heads queues, priceRank config y ≤ priceRank config tx := by
    intro y inQueues
    obtain ⟨j, atJ⟩ := List.mem_iff_getElem?.mp (rep.heads_perm.symm.subset inQueues)
    exact rep.ordered.root_max (Nat.le_refl _) (by rw [heapIs]; rfl) j y
      (List.getElem?_eq_some_iff.mp atJ).1 atJ
  obtain ⟨rest', headsBefore, headsAfter⟩ := Merge.heads_set_perm atI
  have othersPerm : others.Perm rest' := List.Perm.cons_inv (heapIs ▸ rep.heads_perm |>.trans headsBefore)
  have elsewhereSet : ∀ a, a ≠ k → ∀ value, t.txs.set k value a = t.txs a := fun a other _ => by
    simp [TxMap.set, other]
  cases rest with
  | nil =>
    -- the account has nothing left: its head is popped
    refine ⟨_, _, Shift_of_last heapIs (by rw [sender, restAt]), Merge.Step.take atI greatest, ?_⟩
    refine rep.take atI rfl restAt (fun _ _ => rfl) ?_ ?_
    · exact (Heap.pop_perm _ tx others).trans (othersPerm.trans (by simpa using (headsAfter []).symm))
    · exact Heap.pop_ordered (heapIs ▸ rep.ranksBy) (heapIs ▸ rep.ordered)
  | cons next more =>
    -- the account's next transaction takes the root's place, and the heap is fixed
    refine ⟨_, _, Shift_of_next heapIs (by rw [sender, restAt]), Merge.Step.take atI greatest, ?_⟩
    have nextPerm : ((tx :: others).set 0 next).Perm (Merge.heads (queues.set i (k, next :: more))) := by
      simpa using (othersPerm.cons next).trans (headsAfter (next :: more)).symm
    refine rep.take atI rfl (by simp [sender, TxMap.set]) (fun a other => by simp [sender, TxMap.set, other])
      ((Heap.fix_zero_perm _ _).trans nextPerm) ?_
    exact Heap.fix_set_zero_ordered next
      (ranksBy_of_perm_heads nextPerm ((countP_entries_set_le atI _).trans rep.oneChief))
      (heapIs ▸ rep.ordered)

/-- Peek returns nil once every list is empty. -/
theorem Represents.done {t : TransactionsByPriceAndNonce} (rep : Represents config t queues)
    (peek : Peek t = none) : ∀ queue ∈ queues, queue.2 = [] := by
  have noHeads : t.heads = [] := by
    unfold Peek at peek
    split at peek
    · assumption
    · cases peek
  rw [← Merge.heads_eq_nil, ← List.perm_nil]
  exact noHeads ▸ rep.heads_perm.symm

/-- Peek and Shift, given fuel beyond the number of transactions left, drain
the set as a greedy merge of the lists it holds. Induction on the fuel; each
Shift takes one transaction. -/
theorem Represents.drain {t : TransactionsByPriceAndNonce} (rep : Represents config t queues) (fuel : Nat)
    (enough : (Merge.entries queues).length < fuel) :
    ∃ out, peekShiftLoop config fuel t = some out ∧ Merge.Greedy (priceRank config) queues out := by
  induction fuel generalizing t queues with
  | zero => omega
  | succ fuel inductionHypothesis =>
    cases peek : Peek t with
    | none => exact ⟨[], by simp [peekShiftLoop, peek], Merge.Greedy.done (rep.done peek)⟩
    | some tx =>
      obtain ⟨t', queues', shifted, step, rep'⟩ := rep.shift peek
      have shorter : (Merge.entries queues').length < fuel := by
        have taken := step.entries_perm.length_eq
        rw [List.length_cons] at taken
        omega
      obtain ⟨out, loop, merge⟩ := inductionHypothesis rep' shorter
      exact ⟨tx :: out, by simp [peekShiftLoop, peek, shifted, loop], Merge.Greedy.step step merge⟩

/-- A merge by priceRank of lists with at most one chief update starts with it
when it heads its list. -/
theorem Greedy.head_of_chief {out : List Transaction} (merge : Merge.Greedy (priceRank config) queues out)
    (oneChief : (Merge.entries queues).countP (isChiefUpdateTx config) ≤ 1) {tx : Transaction}
    (heading : tx ∈ Merge.heads queues) (chief : isChiefUpdateTx config tx = true) : out.head? = some tx := by
  have inEntries : ∀ {x}, x ∈ Merge.heads queues → x ∈ Merge.entries queues :=
    fun member => (Merge.heads_sublist_entries queues).subset member
  cases out with
  | nil =>
    have := merge.perm.symm.subset (inEntries heading)
    simp at this
  | cons first out =>
    obtain ⟨firstHeading, greatest⟩ := merge.first_greatest
    -- nothing ranks above a chief update, so the first is one too
    have firstChief : isChiefUpdateTx config first = true := by
      have atTop := greatest tx heading
      rw [priceRank_eq_top.mpr chief, top_le_iff, priceRank_eq_top] at atTop
      exact atTop
    rw [List.head?_cons,
      eq_of_mem_of_countP_le_one oneChief (inEntries firstHeading) (inEntries heading) firstChief chief]

/-! ### Building the set -/

/-- The loop of NewTransactionsByPriceAndNonce over lists that are not empty,
each signed by its account: it appends the lists' heads, puts each list's rest
under its account, and leaves the other accounts of the map alone. Induction
on the entries. -/
theorem foldlM_collectHead (signer : Signer) (entries : List (Address × List Transaction))
    (nonEmpty : ∀ entry ∈ entries, entry.2 ≠ [])
    (signed : ∀ entry ∈ entries, ∀ tx ∈ entry.2, Sender signer tx = entry.1)
    (distinct : (entries.map Prod.fst).Nodup) (collected : List Transaction) (m : TxMap) :
    ∃ m', entries.foldlM (fun collected entry => collectHead signer collected entry.2) (collected, m) =
        some (collected ++ Merge.heads entries, m') ∧
      (∀ entry ∈ entries, m' entry.1 = some entry.2.tail) ∧ (∀ a, a ∉ entries.map Prod.fst → m' a = m a) := by
  induction entries generalizing collected m with
  | nil => exact ⟨m, by simp [Merge.heads], by simp, fun _ _ => rfl⟩
  | cons entry rest inductionHypothesis =>
    obtain ⟨k, l⟩ := entry
    obtain ⟨first, more, rfl⟩ : ∃ first more, l = first :: more :=
      List.exists_cons_of_ne_nil (nonEmpty _ List.mem_cons_self)
    have sender : Sender signer first = k := signed _ List.mem_cons_self first List.mem_cons_self
    have fresh : k ∉ rest.map Prod.fst := (List.nodup_cons.mp distinct).1
    obtain ⟨m', folded, restAt, frame⟩ := inductionHypothesis
      (fun entry member => nonEmpty entry (List.mem_cons_of_mem _ member))
      (fun entry member => signed entry (List.mem_cons_of_mem _ member))
      (List.nodup_cons.mp distinct).2 (collected ++ [first]) (m.set k more)
    have stepped : collectHead signer (collected, m) (first :: more) = some (collected ++ [first], m.set k more) := by
      simp [collectHead, sender]
    refine ⟨m', ?_, ?_, ?_⟩
    · rw [List.foldlM_cons, stepped]
      exact folded.trans (by simp [Merge.heads_cons])
    · intro entry member
      rcases List.mem_cons.mp member with this | later
      · subst this
        rw [frame k fresh]
        simp [TxMap.set]
      · exact restAt entry later
    · intro a outside
      have other : a ≠ k := fun same => outside (by simp [same])
      rw [frame a (fun inRest => outside (List.mem_cons_of_mem _ inRest))]
      simp [TxMap.set, other]

/-- NewTransactionsByPriceAndNonce on a map of lists that are not empty, each
signed by its account and with at most one chief update among them, builds a
set that holds the lists. -/
theorem NewTransactionsByPriceAndNonce_represents (config : ChainConfig) (signer : Signer)
    (txs : List (Address × List Transaction)) (distinct : (txs.map Prod.fst).Nodup)
    (nonEmpty : ∀ entry ∈ txs, entry.2 ≠ [])
    (signed : ∀ entry ∈ txs, ∀ tx ∈ entry.2, Sender signer tx = entry.1)
    (oneChief : (Merge.entries txs).countP (isChiefUpdateTx config) ≤ 1) :
    ∃ t, NewTransactionsByPriceAndNonce config signer txs = some t ∧ Represents config t txs := by
  obtain ⟨m, folded, restAt, _⟩ :=
    foldlM_collectHead signer txs nonEmpty signed distinct [] (fun a => txs.lookup a)
  have headsPerm : (Heap.init (TxByPrice.Less config) (Merge.heads txs)).Perm (Merge.heads txs) :=
    Heap.init_perm _ _
  have built : NewTransactionsByPriceAndNonce config signer txs =
      some ⟨m, Heap.init (TxByPrice.Less config) (Merge.heads txs), signer⟩ := by
    unfold NewTransactionsByPriceAndNonce
    rw [folded]
    simp
  refine ⟨_, built, headsPerm, restAt, signed, distinct, ?_, oneChief⟩
  exact Heap.init_ordered (ranksBy_of_perm_heads (List.Perm.refl _) oneChief)

end Represents

/-! ### The order the miner takes transactions in -/

theorem NewTransactionsByPriceAndNonce_drains_greedily (config : ChainConfig) (signer : Signer)
    (txs : List (Address × List Transaction)) (distinct : (txs.map Prod.fst).Nodup)
    (nonEmpty : ∀ entry ∈ txs, entry.2 ≠ [])
    (signed : ∀ entry ∈ txs, ∀ tx ∈ entry.2, Sender signer tx = entry.1)
    (oneChief : (Merge.entries txs).countP (isChiefUpdateTx config) ≤ 1)
    (chiefHeads : ∀ entry ∈ txs, ∀ tx ∈ entry.2, isChiefUpdateTx config tx = true → entry.2.head? = some tx) :
    ∃ t out, NewTransactionsByPriceAndNonce config signer txs = some t ∧
      peekShiftLoop config ((Merge.entries txs).length + 1) t = some out ∧
      out.Perm (Merge.entries txs) ∧
      (∀ entry ∈ txs, out.filter (fun tx => Sender signer tx = entry.1) = entry.2) ∧
      (∀ tx ∈ Merge.entries txs, isChiefUpdateTx config tx = true → out.head? = some tx) ∧
      Merge.Greedy (priceRank config) txs out := by
  obtain ⟨t, built, rep⟩ := NewTransactionsByPriceAndNonce_represents config signer txs distinct nonEmpty
    signed oneChief
  obtain ⟨out, loop, merge⟩ := rep.drain ((Merge.entries txs).length + 1) (Nat.lt_succ_self _)
  refine ⟨t, out, built, loop, merge.perm, merge.filter_key (Sender signer) distinct signed, ?_, merge⟩
  intro tx member chief
  -- the chief update heads its account's list, so it is among the first heads
  obtain ⟨l, listed, inList⟩ := List.mem_flatten.mp member
  obtain ⟨entry, inTxs, rfl⟩ := List.mem_map.mp listed
  have heading : tx ∈ Merge.heads txs := by
    have first := chiefHeads entry inTxs tx inList chief
    obtain ⟨k, l⟩ := entry
    cases l with
    | nil => cases first
    | cons head rest =>
      cases first
      exact Merge.mem_heads.mpr ⟨k, rest, inTxs⟩
  exact Greedy.head_of_chief merge oneChief heading chief

/-- Two accounts, the first of which sends a chief update first. -/
theorem NewTransactionsByPriceAndNonce_drains_greedily_sample :
    let chiefTx : Transaction := ⟨some MainnetChief100Address, [28, 27, 135, 114], 0⟩
    let alice : Address := Vector.replicate 20 1
    let bob : Address := Vector.replicate 20 2
    let signer : Signer := ⟨fun tx => if tx.Price = 7 ∨ tx.Price = 9 then bob else alice⟩
    let txs := [(alice, [chiefTx, ⟨none, [], 5⟩]), (bob, [⟨none, [], 7⟩, ⟨none, [], 9⟩])]
    (txs.map Prod.fst).Nodup ∧ (∀ entry ∈ txs, entry.2 ≠ []) ∧
      (∀ entry ∈ txs, ∀ tx ∈ entry.2, Sender signer tx = entry.1) ∧
      (Merge.entries txs).countP (isChiefUpdateTx MainnetChainConfig) ≤ 1 ∧
      (∀ entry ∈ txs, ∀ tx ∈ entry.2, isChiefUpdateTx MainnetChainConfig tx = true →
        entry.2.head? = some tx) ∧
      ∃ t out, NewTransactionsByPriceAndNonce MainnetChainConfig signer txs = some t ∧
        peekShiftLoop MainnetChainConfig ((Merge.entries txs).length + 1) t = some out ∧
        out.Perm (Merge.entries txs) ∧
        (∀ entry ∈ txs, out.filter (fun tx => Sender signer tx = entry.1) = entry.2) ∧
        (∀ tx ∈ Merge.entries txs, isChiefUpdateTx MainnetChainConfig tx = true → out.head? = some tx) ∧
        Merge.Greedy (priceRank MainnetChainConfig) txs out := by
  intro chiefTx alice bob signer txs
  have distinct : (txs.map Prod.fst).Nodup := by decide
  have nonEmpty : ∀ entry ∈ txs, entry.2 ≠ [] := by decide
  have signed : ∀ entry ∈ txs, ∀ tx ∈ entry.2, Sender signer tx = entry.1 := by decide
  have oneChief : (Merge.entries txs).countP (isChiefUpdateTx MainnetChainConfig) ≤ 1 := by decide
  have chiefHeads : ∀ entry ∈ txs, ∀ tx ∈ entry.2, isChiefUpdateTx MainnetChainConfig tx = true →
      entry.2.head? = some tx := by decide
  exact ⟨distinct, nonEmpty, signed, oneChief, chiefHeads,
    NewTransactionsByPriceAndNonce_drains_greedily MainnetChainConfig signer txs distinct nonEmpty signed
      oneChief chiefHeads⟩

end Meshbox.Types
