import Meshbox.Common.Types
import Meshbox.Library.Heap
import Meshbox.Library.GoMap

/-!
# The transaction lists of core/tx_list.go

txSortedMap keeps an account's transactions by nonce, with a heap of their
nonces (container/heap, Library/Heap) to visit them in nonce order. txList adds
the strict mode of the pending lists and the cost and gas caps that Filter
uses. txPricedList keeps every pooled transaction in a heap by gas price and
counts the entries that went stale since its last reheap.

Go maps are lists of their entries in the order a range visits them
(Library/GoMap). txPricedList's pointer to the pool's map of all transactions
is passed to the operations that read it, and the sender the signer recovers
is a field of the transaction.
-/

namespace Meshbox.Core

/-- Transaction: the fields of a transaction that the pool reads. Hash stands
for tx.Hash(), From for the sender its signature recovers, Size for the size
of its encoding, and Protected for whether its signature names a chain. -/
structure Transaction where
  Hash : Hash
  From : Address
  Nonce : Nat
  GasPrice : Nat
  Gas : Nat
  Value : Int
  To : Option Address
  Data : List UInt8
  Size : Nat
  Protected : Bool
  deriving DecidableEq, Repr

/-- Cost: the value plus the gas at its price. -/
def Transaction.Cost (tx : Transaction) : Int := tx.Value + tx.GasPrice * tx.Gas

/-- The order of nonceHeap. -/
def nonceLess (a b : Nat) : Bool := decide (a < b)

/-! ### txSortedMap -/

/-- txSortedMap: the map from nonces to transactions, the heap of their nonces
and the transactions in nonce order once Flatten has sorted them. -/
structure txSortedMap where
  items : List (Nat × Transaction)
  index : List Nat
  cache : Option (List Transaction)
  deriving DecidableEq, Repr

def newTxSortedMap : txSortedMap := { items := [], index := [], cache := none }

namespace txSortedMap

def Get (m : txSortedMap) (nonce : Nat) : Option Transaction := GoMap.get m.items nonce

/-- Put: stores the transaction under its nonce, overwriting any other. -/
def Put (m : txSortedMap) (tx : Transaction) : txSortedMap :=
  let nonce := tx.Nonce
  let index := if (GoMap.get m.items nonce).isNone then Heap.push nonceLess m.index nonce else m.index
  { items := GoMap.set m.items nonce tx, index, cache := none }

/-- Forward's loop: pops the nonces below threshold off the heap, on fuel (the
heap's length). A nonce without a transaction would add a nil transaction in
the source; here it adds none. -/
def forwardLoop (threshold : Nat) : Nat → txSortedMap → List Transaction → txSortedMap × List Transaction
  | 0, m, removed => (m, removed)
  | fuel + 1, m, removed =>
    match m.index with
    | [] => (m, removed)
    | least :: _ =>
      if least < threshold then
        let (index, popped) := Heap.pop nonceLess m.index
        let nonce := popped.getD least
        forwardLoop threshold fuel { m with items := GoMap.delete m.items nonce, index }
          (removed ++ (GoMap.get m.items nonce).toList)
      else (m, removed)

/-- Forward: removes the transactions with a nonce below threshold. -/
def Forward (m : txSortedMap) (threshold : Nat) : List Transaction × txSortedMap :=
  let (m', removed) := forwardLoop threshold m.index.length m []
  (removed, { m' with cache := m.cache.map (·.drop removed.length) })

/-- Filter: removes the transactions filter selects; the heap is rebuilt when
any were. -/
def Filter (m : txSortedMap) (filter : Transaction → Bool) : List Transaction × txSortedMap :=
  let removed := (m.items.filter fun entry => filter entry.2).map (·.2)
  let items := m.items.filter fun entry => !filter entry.2
  if removed.length > 0 then
    (removed, { items, index := Heap.init nonceLess (items.map (·.1)), cache := none })
  else (removed, { m with items })

/-- Cap: keeps the threshold lowest nonces and removes the others, the highest
first. -/
def Cap (m : txSortedMap) (threshold : Nat) : List Transaction × txSortedMap :=
  if m.items.length ≤ threshold then ([], m)
  else
    let sorted := m.index.mergeSort fun a b => decide (a ≤ b)
    let dropped := ((sorted.take m.items.length).drop threshold).reverse
    let drops := dropped.filterMap (GoMap.get m.items)
    (drops,
      { items := dropped.foldl GoMap.delete m.items,
        index := Heap.init nonceLess (sorted.take threshold),
        cache := m.cache.map fun cache => cache.take (cache.length - drops.length) })

/-- Remove: deletes the transaction with the given nonce, and its nonce from
the heap; false when there is none. -/
def Remove (m : txSortedMap) (nonce : Nat) : Bool × txSortedMap :=
  if (GoMap.get m.items nonce).isNone then (false, m)
  else
    let index :=
      match m.index.findIdx? (· = nonce) with
      | some i => (Heap.remove nonceLess m.index i).1
      | none => m.index
    (true, { items := GoMap.delete m.items nonce, index, cache := none })

/-- Ready's loop: takes the transactions of consecutive nonces from next on,
on fuel (the heap's length). -/
def readyLoop : Nat → Nat → txSortedMap → List Transaction → txSortedMap × List Transaction
  | 0, _, m, ready => (m, ready)
  | fuel + 1, next, m, ready =>
    match m.index with
    | [] => (m, ready)
    | least :: _ =>
      if least = next then
        readyLoop fuel (next + 1)
          { m with items := GoMap.delete m.items next, index := (Heap.pop nonceLess m.index).1 }
          (ready ++ (GoMap.get m.items next).toList)
      else (m, ready)

/-- Ready: the run of consecutive nonces from the lowest one, when that is not
above start; they are removed. -/
def Ready (m : txSortedMap) (start : Nat) : List Transaction × txSortedMap :=
  match m.index with
  | [] => ([], m)
  | least :: _ =>
    if least > start then ([], m)
    else
      let (m, ready) := readyLoop m.index.length least m []
      (ready, { m with cache := none })

def Len (m : txSortedMap) : Nat := m.items.length

/-- Flatten: the transactions in nonce order, sorted once and cached. -/
def Flatten (m : txSortedMap) : List Transaction × txSortedMap :=
  let cache := m.cache.getD ((m.items.map (·.2)).mergeSort fun a b => decide (a.Nonce ≤ b.Nonce))
  (cache, { m with cache := some cache })

end txSortedMap

/-! ### txList -/

/-- txList: an account's transactions, strict when their nonces must be
consecutive (pending) and loose when they may have gaps (queued), with the
highest cost and gas of any transaction added since the caps were lowered. -/
structure txList where
  strict : Bool
  txs : txSortedMap
  costcap : Int
  gascap : Nat
  deriving DecidableEq, Repr

def newTxList (strict : Bool) : txList :=
  { strict, txs := newTxSortedMap, costcap := 0, gascap := 0 }

namespace txList

def Overlaps (l : txList) (tx : Transaction) : Bool := (l.txs.Get tx.Nonce).isSome

/-- Add: inserts the transaction unless one of its nonce is there at a price
that it does not beat by priceBump percent; returns whether it was inserted and
the transaction it replaced. -/
def Add (l : txList) (tx : Transaction) (priceBump : Nat) : Bool × Option Transaction × txList :=
  let old := l.txs.Get tx.Nonce
  let rejected :=
    match old with
    | some old =>
      let threshold := old.GasPrice * (100 + priceBump) / 100
      decide (old.GasPrice ≥ tx.GasPrice ∨ threshold > tx.GasPrice)
    | none => false
  if rejected then (false, none, l)
  else
    (true, old,
      { l with txs := l.txs.Put tx, costcap := max l.costcap tx.Cost, gascap := max l.gascap tx.Gas })

def Forward (l : txList) (threshold : Nat) : List Transaction × txList :=
  let (removed, txs) := l.txs.Forward threshold
  (removed, { l with txs })

/-- Filter: removes the transactions that cost more than costLimit or need
more gas than gasLimit, and in a strict list every transaction above the lowest
nonce removed (the invalids); the caps come down to the limits. -/
def Filter (l : txList) (costLimit : Int) (gasLimit : Nat) :
    List Transaction × List Transaction × txList :=
  if l.costcap ≤ costLimit ∧ l.gascap ≤ gasLimit then ([], [], l)
  else
    let l := { l with costcap := costLimit, gascap := gasLimit }
    let (removed, txs) := l.txs.Filter fun tx => decide (tx.Cost > costLimit ∨ tx.Gas > gasLimit)
    if l.strict ∧ removed.length > 0 then
      let lowest := removed.foldl (fun lowest tx => min lowest tx.Nonce) (2 ^ 64 - 1)
      let (invalids, txs) := txs.Filter fun tx => decide (tx.Nonce > lowest)
      (removed, invalids, { l with txs })
    else (removed, [], { l with txs })

def Cap (l : txList) (threshold : Nat) : List Transaction × txList :=
  let (drops, txs) := l.txs.Cap threshold
  (drops, { l with txs })

/-- Remove: deletes the transaction; in a strict list, the transactions above
its nonce are removed too and returned as invalidated. -/
def Remove (l : txList) (tx : Transaction) : Bool × List Transaction × txList :=
  let nonce := tx.Nonce
  let (removed, txs) := l.txs.Remove nonce
  if !removed then (false, [], { l with txs })
  else if l.strict then
    let (invalids, txs) := txs.Filter fun tx => decide (tx.Nonce > nonce)
    (true, invalids, { l with txs })
  else (true, [], { l with txs })

def Ready (l : txList) (start : Nat) : List Transaction × txList :=
  let (ready, txs) := l.txs.Ready start
  (ready, { l with txs })

def Len (l : txList) : Nat := l.txs.Len

def Empty (l : txList) : Bool := l.Len = 0

def Flatten (l : txList) : List Transaction × txList :=
  let (flat, txs) := l.txs.Flatten
  (flat, { l with txs })

end txList

/-! ### txPricedList -/

/-- The order of priceHeap: the cheaper transaction first. -/
def priceLess (a b : Transaction) : Bool := decide (a.GasPrice < b.GasPrice)

/-- accountSet.containsTx: whether the sender is one of the accounts. -/
def containsTx (accounts : List Address) (tx : Transaction) : Bool := accounts.contains tx.From

/-- txPricedList: the heap of transactions by price and the number of its
entries no longer in the pool. -/
structure txPricedList where
  items : List Transaction
  stales : Int
  deriving DecidableEq, Repr

def newTxPricedList : txPricedList := { items := [], stales := 0 }

namespace txPricedList

def Put (l : txPricedList) (tx : Transaction) : txPricedList :=
  { l with items := Heap.push priceLess l.items tx }

/-- Removed: one more stale entry; past a quarter of the heap, the heap is
rebuilt from the pool's transactions. -/
def Removed (l : txPricedList) (all : List (Hash × Transaction)) : txPricedList :=
  let stales := l.stales + 1
  if stales ≤ (l.items.length / 4 : Nat) then { l with stales }
  else { items := Heap.init priceLess (all.map (·.2)), stales := 0 }

/-- Cap's loop: pops the cheapest transactions, skipping stale ones, until one
at the threshold or above; a local one is saved, any other dropped. -/
def capLoop (threshold : Nat) (locals : List Address) (all : List (Hash × Transaction)) :
    Nat → txPricedList → List Transaction → List Transaction →
      txPricedList × List Transaction × List Transaction
  | 0, l, drop, save => (l, drop, save)
  | fuel + 1, l, drop, save =>
    match Heap.pop priceLess l.items with
    | (_, none) => (l, drop, save)
    | (items, some tx) =>
      let l := { l with items }
      if (GoMap.get all tx.Hash).isNone then
        capLoop threshold locals all fuel { l with stales := l.stales - 1 } drop save
      else if tx.GasPrice ≥ threshold then (l, drop, save ++ [tx])
      else if containsTx locals tx then capLoop threshold locals all fuel l drop (save ++ [tx])
      else capLoop threshold locals all fuel l (drop ++ [tx]) save

/-- Cap: the remote transactions priced below threshold, taken off the heap. -/
def Cap (l : txPricedList) (threshold : Nat) (locals : List Address)
    (all : List (Hash × Transaction)) : List Transaction × txPricedList :=
  let (l, drop, save) := capLoop threshold locals all l.items.length l [] []
  (drop, { l with items := save.foldl (Heap.push priceLess) l.items })

/-- Underpriced's loop: drops the stale entries at the top of the heap. -/
def dropStale (all : List (Hash × Transaction)) : Nat → txPricedList → txPricedList
  | 0, l => l
  | fuel + 1, l =>
    match l.items with
    | [] => l
    | head :: _ =>
      if (GoMap.get all head.Hash).isNone then
        dropStale all fuel { items := (Heap.pop priceLess l.items).1, stales := l.stales - 1 }
      else l

/-- Underpriced: whether a remote transaction is no dearer than the cheapest
pooled one. -/
def Underpriced (l : txPricedList) (tx : Transaction) (locals : List Address)
    (all : List (Hash × Transaction)) : Bool × txPricedList :=
  if containsTx locals tx then (false, l)
  else
    let l := dropStale all l.items.length l
    match l.items with
    | [] => (false, l)
    | cheapest :: _ => (decide (cheapest.GasPrice ≥ tx.GasPrice), l)

/-- Discard's loop: pops the cheapest transactions, skipping stale ones, until
count remote ones are dropped; local ones are saved. -/
def discardLoop (locals : List Address) (all : List (Hash × Transaction)) :
    Nat → Nat → txPricedList → List Transaction → List Transaction →
      txPricedList × List Transaction × List Transaction
  | 0, _, l, drop, save => (l, drop, save)
  | fuel + 1, count, l, drop, save =>
    if count = 0 then (l, drop, save)
    else
      match Heap.pop priceLess l.items with
      | (_, none) => (l, drop, save)
      | (items, some tx) =>
        let l := { l with items }
        if (GoMap.get all tx.Hash).isNone then
          discardLoop locals all fuel count { l with stales := l.stales - 1 } drop save
        else if containsTx locals tx then discardLoop locals all fuel count l drop (save ++ [tx])
        else discardLoop locals all fuel (count - 1) l (drop ++ [tx]) save

/-- Discard: count of the cheapest remote transactions, taken off the heap. -/
def Discard (l : txPricedList) (count : Nat) (locals : List Address)
    (all : List (Hash × Transaction)) : List Transaction × txPricedList :=
  let (l, drop, save) := discardLoop locals all l.items.length count l [] []
  (drop, { l with items := save.foldl (Heap.push priceLess) l.items })

end txPricedList

end Meshbox.Core
