import Meshbox.Core.TxList
import Meshbox.Core.StateTransition
import Meshbox.Params.Config

/-!
# The transaction pool of core/tx_pool.go

The pool keeps every transaction it holds in all, and each one in its sender's
pending list (executable: consecutive nonces from the pending nonce down) or
queue list (future). priced holds them by gas price for eviction, counting the
entries that went stale; pendingState is the managed state of nonces handed out
so far. add validates and queues a transaction (or replaces a pending one);
promoteExecutables moves the runs that became executable to pending, drops
what is too old, too costly or over the caps, and then evens out the pending
lists of the accounts over their allowance and trims the queue; removeTx takes
one transaction out; reset moves the pool to a new head, and
demoteUnexecutables sends back to the queue what is no longer executable there.

The head state is given by the nonces and balances it holds. reset takes the
transactions a reorg dropped (what TxDifference of the two branches gives) as
an input in place of walking the chain. time.Now() is an input of the
operations that record a heartbeat. The journal, the event feed and the
metrics are not modelled.
-/

namespace Meshbox.Core

open Meshbox.Params

/-- TxPoolConfig: the limits the pool enforces. -/
structure TxPoolConfig where
  NoLocals : Bool
  PriceLimit : Nat
  PriceBump : Nat
  AccountSlots : Nat
  GlobalSlots : Nat
  AccountQueue : Nat
  GlobalQueue : Nat
  deriving DecidableEq, Repr

def DefaultTxPoolConfig : TxPoolConfig :=
  { NoLocals := false, PriceLimit := 1, PriceBump := 10, AccountSlots := 16, GlobalSlots := 4096,
    AccountQueue := 64, GlobalQueue := 1024 }

/-- sanitize: a price limit or bump below one becomes the default's. -/
def TxPoolConfig.sanitize (config : TxPoolConfig) : TxPoolConfig :=
  let config := if config.PriceLimit < 1 then { config with PriceLimit := DefaultTxPoolConfig.PriceLimit } else config
  if config.PriceBump < 1 then { config with PriceBump := DefaultTxPoolConfig.PriceBump } else config

/-- The state at the head that the pool reads: the nonce and balance of each
account, zero for an account it does not hold. -/
structure HeadState where
  nonces : List (Address × Nat)
  balances : List (Address × Nat)
  deriving DecidableEq, Repr

def HeadState.GetNonce (state : HeadState) (addr : Address) : Nat := (GoMap.get state.nonces addr).getD 0

def HeadState.GetBalance (state : HeadState) (addr : Address) : Nat :=
  (GoMap.get state.balances addr).getD 0

/-- The errors add returns. -/
inductive TxPoolError where
  | incompatibleHomesteadSigner
  | chiefUpdateTx
  | knownTransaction
  | ErrOversizedData
  | ErrNegativeValue
  | ErrGasLimit
  | ErrUnderpriced
  | ErrNonceTooLow
  | ErrInsufficientFunds
  | ErrIntrinsicGas
  | ErrReplaceUnderpriced
  deriving DecidableEq, Repr

/-- TxPool: the pool's bookkeeping. pendingState holds the nonces the managed
state was told since the last reset; beats the last heartbeat of each account. -/
structure TxPool where
  config : TxPoolConfig
  chainconfig : ChainConfig
  gasPrice : Nat
  currentState : HeadState
  pendingState : List (Address × Nat)
  currentMaxGas : Nat
  locals : List Address
  pending : List (Address × txList)
  queue : List (Address × txList)
  beats : List (Address × Nat)
  all : List (Hash × Transaction)
  priced : txPricedList
  homestead : Bool
  deriving DecidableEq, Repr

namespace TxPool

/-! ### The managed nonces -/

/-- pendingState.GetNonce: the nonce last set, or the head's. -/
def pendingNonce (pool : TxPool) (addr : Address) : Nat :=
  (GoMap.get pool.pendingState addr).getD (pool.currentState.GetNonce addr)

def setPendingNonce (pool : TxPool) (addr : Address) (nonce : Nat) : TxPool :=
  { pool with pendingState := GoMap.set pool.pendingState addr nonce }

/-- delete(pool.all, hash) with the priced list told of it. -/
def dropTx (pool : TxPool) (hash : Hash) : TxPool :=
  let all := GoMap.delete pool.all hash
  { pool with all, priced := pool.priced.Removed all }

/-- locals.add: marks the account local. -/
def addLocal (pool : TxPool) (addr : Address) : TxPool :=
  if pool.locals.contains addr then pool else { pool with locals := pool.locals ++ [addr] }

/-! ### Adding transactions -/

def isChiefUpdateTx (pool : TxPool) (tx : Transaction) : Bool :=
  match tx.To with
  | some recipient => IsChiefAddress pool.chainconfig recipient && IsChiefUpdate tx.Data
  | none => false

/-- validateTx: the size, value, gas, price, nonce, funds and intrinsic gas
checks. -/
def validateTx (pool : TxPool) (tx : Transaction) (isLocal : Bool) : Option TxPoolError :=
  if tx.Size > 32 * 1024 then some .ErrOversizedData
  else if tx.Value < 0 then some .ErrNegativeValue
  else if pool.currentMaxGas < tx.Gas then some .ErrGasLimit
  else
    let sender := tx.From
    let isLocal := isLocal || pool.locals.contains sender
    if !isLocal && pool.gasPrice > tx.GasPrice then some .ErrUnderpriced
    else if pool.currentState.GetNonce sender > tx.Nonce then some .ErrNonceTooLow
    else if (pool.currentState.GetBalance sender : Int) < tx.Cost then some .ErrInsufficientFunds
    else if tx.Gas < IntrinsicGas tx.Data tx.To.isNone pool.homestead then some .ErrIntrinsicGas
    else none

/-- enqueueTx: inserts the transaction into its sender's queue list, replacing
one of the same nonce it beats; returns whether it replaced one. It puts the
transaction into all and into the priced heap in every case. -/
def enqueueTx (pool : TxPool) (hash : Hash) (tx : Transaction) : Except TxPoolError Bool × TxPool :=
  let sender := tx.From
  let list := (GoMap.get pool.queue sender).getD (newTxList false)
  let pool := { pool with queue := GoMap.set pool.queue sender list }
  match list.Add tx pool.config.PriceBump with
  | (false, _, _) => (.error .ErrReplaceUnderpriced, pool)
  | (true, old, list) =>
    let pool := { pool with queue := GoMap.set pool.queue sender list }
    let pool := match old with
      | some old => pool.dropTx old.Hash
      | none => pool
    (.ok old.isSome,
      { pool with all := GoMap.set pool.all hash tx, priced := pool.priced.Put tx })

/-- promoteTx: inserts the transaction into its sender's pending list and
hands out the next nonce. -/
def promoteTx (now : Nat) (pool : TxPool) (addr : Address) (hash : Hash) (tx : Transaction) : TxPool :=
  let list := (GoMap.get pool.pending addr).getD (newTxList true)
  let pool := { pool with pending := GoMap.set pool.pending addr list }
  match list.Add tx pool.config.PriceBump with
  | (false, _, _) => pool.dropTx hash
  | (true, old, list) =>
    let pool := { pool with pending := GoMap.set pool.pending addr list }
    let pool := match old with
      | some old => pool.dropTx old.Hash
      | none => pool
    let pool :=
      if (GoMap.get pool.all hash).isNone then
        { pool with all := GoMap.set pool.all hash tx, priced := pool.priced.Put tx }
      else pool
    let pool := { pool with beats := GoMap.set pool.beats addr now }
    pool.setPendingNonce addr (tx.Nonce + 1)

/-! ### Removing a transaction -/

/-- The queue part of removeTx. -/
def removeQueued (pool : TxPool) (addr : Address) (tx : Transaction) : TxPool :=
  match GoMap.get pool.queue addr with
  | some future =>
    let (_, _, future) := future.Remove tx
    if future.Empty then { pool with queue := GoMap.delete pool.queue addr }
    else { pool with queue := GoMap.set pool.queue addr future }
  | none => pool

/-- removeTx: takes a transaction out of all, and out of its sender's pending
list or queue list. A pending list that keeps transactions sends those the
removal invalidated back to the queue; one left empty is deleted. -/
def removeTx (pool : TxPool) (hash : Hash) : TxPool :=
  match GoMap.get pool.all hash with
  | none => pool
  | some tx =>
    let addr := tx.From
    let pool := pool.dropTx hash
    match GoMap.get pool.pending addr with
    | some pending =>
      match pending.Remove tx with
      | (true, invalids, pending) =>
        let pool :=
          if pending.Empty then
            { pool with pending := GoMap.delete pool.pending addr, beats := GoMap.delete pool.beats addr }
          else
            invalids.foldl (fun pool tx => (pool.enqueueTx tx.Hash tx).2)
              { pool with pending := GoMap.set pool.pending addr pending }
        if pool.pendingNonce addr > tx.Nonce then pool.setPendingNonce addr tx.Nonce else pool
      | (false, _, _) => pool.removeQueued addr tx
    | none => pool.removeQueued addr tx

/-! ### Promotion -/

/-- The work promoteExecutables does on one account's queue list. -/
def promoteAccount (now : Nat) (pool : TxPool) (addr : Address) : TxPool :=
  match GoMap.get pool.queue addr with
  | none => pool
  | some list =>
    -- too old
    let (olds, list) := list.Forward (pool.currentState.GetNonce addr)
    let pool := olds.foldl (fun pool tx => pool.dropTx tx.Hash) pool
    -- too costly
    let (drops, _, list) := list.Filter (pool.currentState.GetBalance addr) pool.currentMaxGas
    let pool := drops.foldl (fun pool tx => pool.dropTx tx.Hash) pool
    -- executable
    let (ready, list) := list.Ready (pool.pendingNonce addr)
    let pool := ready.foldl (fun pool tx => promoteTx now pool addr tx.Hash tx) pool
    -- over the account's queue allowance
    let (caps, list) :=
      if pool.locals.contains addr then ([], list) else list.Cap pool.config.AccountQueue
    let pool := caps.foldl (fun pool tx => pool.dropTx tx.Hash) pool
    if list.Empty then { pool with queue := GoMap.delete pool.queue addr }
    else { pool with queue := GoMap.set pool.queue addr list }

/-- The number of transactions in a set of lists. -/
def countTxs (lists : List (Address × txList)) : Nat := (lists.map fun entry => entry.2.Len).sum

/-- Drops the highest-nonce pending transaction of addr, as the fairness loops
do with list.Cap(list.Len() - 1), and lowers the managed nonce to it. -/
def capOne (pool : TxPool) (addr : Address) : TxPool :=
  match GoMap.get pool.pending addr with
  | none => pool
  | some list =>
    let (drops, list) := list.Cap (list.Len - 1)
    let pool := { pool with pending := GoMap.set pool.pending addr list }
    drops.foldl
      (fun pool tx =>
        let pool := pool.dropTx tx.Hash
        if pool.pendingNonce addr > tx.Nonce then pool.setPendingNonce addr tx.Nonce else pool)
      pool

/-- One round of the fairness loops: one transaction off each of the given
offenders, and pending counted down once for each of them. -/
def capRound (offenders : List Address) (pool : TxPool) (pending : Nat) : TxPool × Nat :=
  offenders.foldl (fun (pool, pending) addr => (pool.capOne addr, pending - 1)) (pool, pending)

/-- The first fairness loop: while pending is over the limit and the
second-to-last offender has more than threshold, a round over the earlier
offenders; on fuel. -/
def equalizeLoop (threshold : Nat) (offenders : List Address) (watched : Address) :
    Nat → TxPool → Nat → TxPool × Nat
  | 0, pool, pending => (pool, pending)
  | fuel + 1, pool, pending =>
    match GoMap.get pool.pending watched with
    | some list =>
      if pending > pool.config.GlobalSlots ∧ list.Len > threshold then
        let (pool, pending) := capRound offenders pool pending
        equalizeLoop threshold offenders watched fuel pool pending
      else (pool, pending)
    | none => (pool, pending)

/-- The second fairness loop: while pending is over the limit and the last
offender has more than its allowance, a round over all offenders; on fuel. -/
def allowanceLoop (offenders : List Address) (watched : Address) : Nat → TxPool → Nat → TxPool × Nat
  | 0, pool, pending => (pool, pending)
  | fuel + 1, pool, pending =>
    match GoMap.get pool.pending watched with
    | some list =>
      if pending > pool.config.GlobalSlots ∧ list.Len > pool.config.AccountSlots then
        let (pool, pending) := capRound offenders pool pending
        allowanceLoop offenders watched fuel pool pending
      else (pool, pending)
    | none => (pool, pending)

/-- The spam queue's order: the larger list first (prque over container/heap). -/
def spamLess (a b : Address × Nat) : Bool := decide (a.2 > b.2)

/-- The offender loop: pops the largest remaining spammer and, from the second
one on, evens the earlier offenders down to its length; on fuel. -/
def offenderLoop : Nat → List (Address × Nat) → List Address → TxPool → Nat →
    TxPool × Nat × List Address
  | 0, _, offenders, pool, pending => (pool, pending, offenders)
  | fuel + 1, spammers, offenders, pool, pending =>
    if pending > pool.config.GlobalSlots then
      match Heap.pop spamLess spammers with
      | (_, none) => (pool, pending, offenders)
      | (spammers, some (offender, _)) =>
        let offenders := offenders ++ [offender]
        let (pool, pending) :=
          if offenders.length > 1 then
            let threshold := ((GoMap.get pool.pending offender).map txList.Len).getD 0
            equalizeLoop threshold (offenders.take (offenders.length - 1))
              (offenders.getD (offenders.length - 2) offender) pending pool pending
          else (pool, pending)
        offenderLoop fuel spammers offenders pool pending
    else (pool, pending, offenders)

/-- The pending limit: when the pending lists hold more than GlobalSlots, the
largest remote lists over their allowance are evened out and then cut to it. -/
def capPending (pool : TxPool) : TxPool :=
  let pending := countTxs pool.pending
  if pending > pool.config.GlobalSlots then
    let spammers := pool.pending.foldl
      (fun spammers (addr, list) =>
        if !pool.locals.contains addr && list.Len > pool.config.AccountSlots then
          Heap.push spamLess spammers (addr, list.Len)
        else spammers) []
    let (pool, pending, offenders) := offenderLoop spammers.length spammers [] pool pending
    match offenders.getLast? with
    | some last =>
      if pending > pool.config.GlobalSlots then (allowanceLoop offenders last pending pool pending).1
      else pool
    | none => pool
  else pool

/-- The queue limit's loop: drops from the accounts with the latest heartbeat
(the end of addresses) until drop transactions are gone; on fuel. -/
def dropQueuedLoop : Nat → List (Address × Nat) → Nat → TxPool → TxPool
  | 0, _, _, pool => pool
  | fuel + 1, addresses, drop, pool =>
    match addresses.getLast? with
    | none => pool
    | some (addr, _) =>
      if drop = 0 then pool
      else
        let addresses := addresses.dropLast
        let list := (GoMap.get pool.queue addr).getD (newTxList false)
        let (txs, _) := list.Flatten
        if list.Len ≤ drop then
          dropQueuedLoop fuel addresses (drop - list.Len)
            (txs.foldl (fun pool tx => pool.removeTx tx.Hash) pool)
        else
          -- the last few transactions only
          let dropped := (txs.reverse.take drop)
          dropQueuedLoop fuel addresses (drop - dropped.length)
            (dropped.foldl (fun pool tx => pool.removeTx tx.Hash) pool)

/-- The queue limit: when the queue lists hold more than GlobalQueue, remote
accounts lose their queued transactions, the most recently active first. -/
def capQueued (pool : TxPool) : TxPool :=
  let queued := countTxs pool.queue
  if queued > pool.config.GlobalQueue then
    let addresses := (pool.queue.filter fun entry => !pool.locals.contains entry.1).map
      fun entry => (entry.1, (GoMap.get pool.beats entry.1).getD 0)
    let addresses := addresses.mergeSort fun a b => decide (a.2 ≤ b.2)
    dropQueuedLoop addresses.length addresses (queued - pool.config.GlobalQueue) pool
  else pool

/-- promoteExecutables: the given accounts' queues (all of them for none), then
the pending and queue limits. -/
def promoteExecutables (now : Nat) (pool : TxPool) (accounts : Option (List Address)) : TxPool :=
  let accounts := accounts.getD (pool.queue.map (·.1))
  let pool := accounts.foldl (promoteAccount now) pool
  capQueued (capPending pool)

/-! ### The entry points -/

/-- The queueing part of add. -/
def addQueued (pool : TxPool) (tx : Transaction) (isLocal : Bool) : Except TxPoolError Bool × TxPool :=
  match pool.enqueueTx tx.Hash tx with
  | (.error err, pool) => (.error err, pool)
  | (.ok replace, pool) => (.ok replace, if isLocal then pool.addLocal tx.From else pool)

/-- add: validates a transaction and queues it, or replaces a pending
transaction of the same nonce directly; a full pool first drops its cheapest
remote transactions, unless the new one is no dearer. Returns whether it
replaced a transaction. -/
def add (pool : TxPool) (tx : Transaction) (isLocal : Bool) : Except TxPoolError Bool × TxPool :=
  if !tx.Protected then (.error .incompatibleHomesteadSigner, pool)
  else if pool.isChiefUpdateTx tx then (.error .chiefUpdateTx, pool)
  else if (GoMap.get pool.all tx.Hash).isSome then (.error .knownTransaction, pool)
  else
    match pool.validateTx tx isLocal with
    | some err => (.error err, pool)
    | none =>
      let full := pool.all.length ≥ pool.config.GlobalSlots + pool.config.GlobalQueue
      let (underpriced, priced) :=
        if full then pool.priced.Underpriced tx pool.locals pool.all else (false, pool.priced)
      let pool := { pool with priced }
      if underpriced then (.error .ErrUnderpriced, pool)
      else
        let pool :=
          if full then
            let (drop, priced) := pool.priced.Discard
              (pool.all.length + 1 - (pool.config.GlobalSlots + pool.config.GlobalQueue)) pool.locals pool.all
            drop.foldl (fun pool tx => pool.removeTx tx.Hash) { pool with priced }
          else pool
        let sender := tx.From
        match GoMap.get pool.pending sender with
        | some list =>
          if list.Overlaps tx then
            match list.Add tx pool.config.PriceBump with
            | (false, _, _) => (.error .ErrReplaceUnderpriced, pool)
            | (true, old, list) =>
              let pool := { pool with pending := GoMap.set pool.pending sender list }
              let pool := match old with
                | some old => pool.dropTx old.Hash
                | none => pool
              (.ok old.isSome,
                { pool with all := GoMap.set pool.all tx.Hash tx, priced := pool.priced.Put tx })
          else pool.addQueued tx isLocal
        | none => pool.addQueued tx isLocal

/-- addTx: add, and promotion of the sender's queue when nothing was
replaced. -/
def addTx (now : Nat) (pool : TxPool) (tx : Transaction) (isLocal : Bool) : Option TxPoolError × TxPool :=
  match pool.add tx isLocal with
  | (.error err, pool) => (some err, pool)
  | (.ok replace, pool) =>
    (none, if replace then pool else pool.promoteExecutables now (some [tx.From]))

def AddLocal (now : Nat) (pool : TxPool) (tx : Transaction) : Option TxPoolError × TxPool :=
  addTx now pool tx !pool.config.NoLocals

def AddRemote (now : Nat) (pool : TxPool) (tx : Transaction) : Option TxPoolError × TxPool :=
  addTx now pool tx false

/-- addTxsLocked: adds a batch and promotes the senders of what it added
without replacing. -/
def addTxsLocked (now : Nat) (pool : TxPool) (txs : List Transaction) (isLocal : Bool) :
    List (Option TxPoolError) × TxPool :=
  let (errs, dirty, pool) := txs.foldl
    (fun (errs, dirty, pool) tx =>
      match pool.add tx isLocal with
      | (.error err, pool) => (errs ++ [some err], dirty, pool)
      | (.ok replace, pool) =>
        (errs ++ [none], if replace || dirty.contains tx.From then dirty else dirty ++ [tx.From], pool))
    ([], [], pool)
  (errs, if dirty.length > 0 then pool.promoteExecutables now (some dirty) else pool)

def AddLocals (now : Nat) (pool : TxPool) (txs : List Transaction) : List (Option TxPoolError) × TxPool :=
  addTxsLocked now pool txs !pool.config.NoLocals

def AddRemotes (now : Nat) (pool : TxPool) (txs : List Transaction) : List (Option TxPoolError) × TxPool :=
  addTxsLocked now pool txs false

/-- SetGasPrice: the new price floor, and the remote transactions below it
removed. -/
def SetGasPrice (pool : TxPool) (price : Nat) : TxPool :=
  let pool := { pool with gasPrice := price }
  let (drops, priced) := pool.priced.Cap price pool.locals pool.all
  drops.foldl (fun pool tx => pool.removeTx tx.Hash) { pool with priced }

/-! ### Resetting to a new head -/

/-- The work demoteUnexecutables does on one account's pending list. -/
def demoteAccount (pool : TxPool) (entry : Address × txList) : TxPool :=
  let (addr, list) := entry
  let nonce := pool.currentState.GetNonce addr
  let (olds, list) := list.Forward nonce
  let pool := olds.foldl (fun pool tx => pool.dropTx tx.Hash) pool
  let (drops, invalids, list) := list.Filter (pool.currentState.GetBalance addr) pool.currentMaxGas
  let pool := drops.foldl (fun pool tx => pool.dropTx tx.Hash) pool
  let pool := invalids.foldl (fun pool tx => (pool.enqueueTx tx.Hash tx).2) pool
  -- a gap in front: everything goes back to the queue
  let (gapped, list) :=
    if list.Len > 0 ∧ (list.txs.Get nonce).isNone then list.Cap 0 else ([], list)
  let pool := gapped.foldl (fun pool tx => (pool.enqueueTx tx.Hash tx).2) pool
  if list.Empty then
    { pool with pending := GoMap.delete pool.pending addr, beats := GoMap.delete pool.beats addr }
  else { pool with pending := GoMap.set pool.pending addr list }

/-- demoteUnexecutables: every pending list checked against the head. -/
def demoteUnexecutables (pool : TxPool) : TxPool :=
  pool.pending.foldl demoteAccount pool

/-- reset: the pool moved to a new head state and gas limit, with the
transactions a reorg dropped injected again. -/
def reset (now : Nat) (pool : TxPool) (state : HeadState) (gasLimit : Nat) (reinject : List Transaction) :
    TxPool :=
  let pool := { pool with currentState := state, pendingState := [], currentMaxGas := gasLimit }
  let pool := (pool.addTxsLocked now reinject false).2
  let pool := pool.demoteUnexecutables
  -- every account's managed nonce after its highest pending transaction
  let pool := pool.pending.foldl
    (fun pool (addr, list) =>
      let (txs, list) := list.Flatten
      let pool := { pool with pending := GoMap.set pool.pending addr list }
      match txs.getLast? with
      | some tx => pool.setPendingNonce addr (tx.Nonce + 1)
      | none => pool)
    pool
  pool.promoteExecutables now none

/-- stats: the numbers of pending and of queued transactions. -/
def stats (pool : TxPool) : Nat × Nat := (countTxs pool.pending, countTxs pool.queue)

end TxPool

/-- NewTxPool: an empty pool with the sanitized configuration, reset to the
chain's head. -/
def NewTxPool (now : Nat) (config : TxPoolConfig) (chainconfig : ChainConfig) (head : HeadState)
    (gasLimit : Nat) : TxPool :=
  let config := config.sanitize
  let pool : TxPool :=
    { config, chainconfig, gasPrice := config.PriceLimit, currentState := head, pendingState := [],
      currentMaxGas := gasLimit, locals := [], pending := [], queue := [], beats := [], all := [],
      priced := newTxPricedList, homestead := false }
  pool.reset now head gasLimit []

/-! ### Removing the head of a pending run

removeTx takes the transaction out of its strict pending list, which then
drops every higher nonce as invalidated. Only a list that still holds
transactions sends those back to the queue: when the removal empties the list,
the invalidated transactions are in no list, yet stay in all and in the priced
heap. -/

namespace TxPool

@[simp] theorem dropTx_pending (pool : TxPool) (hash : Hash) : (pool.dropTx hash).pending = pool.pending :=
  rfl

@[simp] theorem dropTx_queue (pool : TxPool) (hash : Hash) : (pool.dropTx hash).queue = pool.queue := rfl

@[simp] theorem dropTx_all (pool : TxPool) (hash : Hash) :
    (pool.dropTx hash).all = GoMap.delete pool.all hash := rfl

/-- removeTx when the removal empties the sender's pending list: the list is
deleted, the queue is left as it was, and all loses the one transaction. -/
theorem removeTx_of_emptied {pool : TxPool} {tx : Transaction} {list list' : txList}
    {invalids : List Transaction} (found : GoMap.get pool.all tx.Hash = some tx)
    (pendingList : GoMap.get pool.pending tx.From = some list)
    (removal : list.Remove tx = (true, invalids, list')) (emptied : list'.Empty = true) :
    (pool.removeTx tx.Hash).pending = GoMap.delete pool.pending tx.From ∧
      (pool.removeTx tx.Hash).queue = pool.queue ∧
      (pool.removeTx tx.Hash).all = GoMap.delete pool.all tx.Hash := by
  simp only [removeTx, found, dropTx_pending, pendingList, removal, emptied, if_true]
  split <;> simp [setPendingNonce, dropTx]

end TxPool

/-! ### Two pending transactions of one account -/

/-- The account that sends, and the one it pays. -/
def senderA : Address := Vector.replicate 20 1

def recipientB : Address := Vector.replicate 20 2

/-- A head state where A has nonce 0 and a balance of 10^9. -/
def headA : HeadState := { nonces := [(senderA, 0)], balances := [(senderA, 1000000000)] }

/-- A's plain transfer to B with the given nonce, at gas price 1. -/
def transferA (nonce : Nat) : Transaction :=
  { Hash := Vector.replicate 32 (UInt8.ofNat (nonce + 1)), From := senderA, Nonce := nonce, GasPrice := 1,
    Gas := 21000, Value := 0, To := some recipientB, Data := [], Size := 100, Protected := true }

/-- A mainnet pool with the default configuration after AddLocal of A's
transfers of nonces 0 and 1: both are pending. -/
def twoPending : TxPool :=
  let pool := NewTxPool 0 DefaultTxPoolConfig MainnetChainConfig headA 4712388
  let pool := (TxPool.AddLocal 1 pool (transferA 0)).2
  (TxPool.AddLocal 2 pool (transferA 1)).2

/-- removeTx of the first of two pending transactions: before it, the pool's
size is its pending plus queued transactions and the priced heap's live
entries, and the managed nonce is the highest pending one plus one; after it,
the transaction of nonce 1 is still in all and in the heap, while the pending
and queue lists hold nothing. -/
theorem removeTx_orphans_invalidated :
    twoPending.stats = (2, 0) ∧ twoPending.all.length = 2 ∧
      (twoPending.priced.items.length : Int) - twoPending.priced.stales = 2 ∧
      twoPending.pendingNonce senderA = 2 ∧
      GoMap.get (twoPending.removeTx (transferA 0).Hash).all (transferA 1).Hash = some (transferA 1) ∧
      (twoPending.removeTx (transferA 0).Hash).stats = (0, 0) ∧
      (twoPending.removeTx (transferA 0).Hash).all.length = 1 ∧
      ((twoPending.removeTx (transferA 0).Hash).priced.items.length : Int) -
        (twoPending.removeTx (transferA 0).Hash).priced.stales = 1 := by
  decide +kernel

end Meshbox.Core
