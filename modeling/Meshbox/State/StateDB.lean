/-
This file models core/state/statedb.go, state_object.go and journal.go: the
state database a block is executed against. It holds the account trie, a map of
live state objects loaded from it or created, the set of dirty accounts that
Finalise writes back, the refund counter, the logs and preimages, and the
journal that Snapshot and RevertToSnapshot use to undo changes.

The account trie and each account's storage trie are held by their contents, a
map from keys to values; the root hash of a trie stands for its contents, so two
roots agree exactly when the contents do. Reading an account that is not live
loads it from the trie into the live map, which the journal does not record.

Each state object carries an onDirty callback that adds its account to the
dirty set the first time the object changes and is then cleared. The undo of a
touch removes the account from the dirty set, since the journal entry records
it as not dirty before.

Code is read through two caches that belong to the process rather than to a
state database: the chief contract code cache of params and the
contractCodeCache, a least-recently-used cache of at most contractCodeCacheSize
entries. Both are keyed by address.
-/

import Meshbox.Params.Config
import Meshbox.Library.Lru

namespace Meshbox.State

open Meshbox.Params

/-- The slots of a storage trie, each reading zero until written. -/
abbrev Storage := Hash → Hash

/-- The zero hash, common.Hash of no bytes. -/
def zeroHash : Hash := Vector.replicate 32 0

/-- emptyCodeHash: the Keccak-256 hash of no bytes. -/
def emptyCodeHash : Hash :=
  #v[0xc5, 0xd2, 0x46, 0x01, 0x86, 0xf7, 0x23, 0x3c, 0x92, 0x7e, 0x7d, 0xb2, 0xdc, 0xc7, 0x03, 0xc0,
    0xe5, 0x00, 0xb6, 0x53, 0xca, 0x82, 0x27, 0x3b, 0x7b, 0xfa, 0xd8, 0x04, 0x5d, 0x85, 0xa4, 0x70]

/-- The ripemd precompile, whose touch the journal does not undo. -/
def ripemd : Address := Vector.ofFn fun index => if index.val = 19 then 3 else 0

/-- Account: an account as the account trie holds it, with its storage trie as
Root. -/
structure Account where
  Nonce : Nat
  Balance : Int
  Root : Storage
  CodeHash : Hash

/-- Account{} with the defaults newObject fills in: no storage, no code. -/
def Account.empty : Account :=
  ⟨0, 0, fun _ => zeroHash, emptyCodeHash⟩

/-- stateObject: a live account. storage is the storage as GetState reads it,
the trie below the written slots; code is the code once loaded or set (none is
Go's nil); onDirty is whether the dirty callback is still armed. -/
structure stateObject where
  address : Address
  data : Account
  storage : Storage
  code : Option (List UInt8)
  suicided : Bool
  touched : Bool
  deleted : Bool
  onDirty : Bool

/-- newObject: a live account over data, with its callback armed. -/
def newObject (address : Address) (data : Account) : stateObject :=
  ⟨address, data, data.Root, none, false, false, false, true⟩

/-- empty: no nonce, no balance and no code. -/
def stateObject.empty (obj : stateObject) : Bool :=
  obj.data.Nonce = 0 ∧ obj.data.Balance = 0 ∧ obj.data.CodeHash = emptyCodeHash

/-- Log: a log entry, with the fields AddLog fills in. -/
structure Log where
  Address : Address
  Topics : List Hash
  Data : List UInt8
  TxHash : Hash
  TxIndex : Nat
  BlockHash : Hash
  Index : Nat

/-- journalEntry: the changes the journal records, each with what its undo needs. -/
inductive journalEntry where
  | createObjectChange (account : Address)
  | resetObjectChange (prev : stateObject)
  | suicideChange (account : Address) (prev : Bool) (prevbalance : Int)
  | balanceChange (account : Address) (prev : Int)
  | nonceChange (account : Address) (prev : Nat)
  | storageChange (account : Address) (key prevalue : Hash)
  | codeChange (account : Address) (prevcode : Option (List UInt8)) (prevhash : Hash)
  | refundChange (prev : Nat)
  | addLogChange (txhash : Hash)
  | addPreimageChange (hash : Hash)
  | touchChange (account : Address) (prev prevDirty : Bool)

/-- revision: a snapshot's id and the length of the journal when it was taken. -/
structure revision where
  id : Nat
  journalIndex : Nat

/-- StateDB: the account trie and what is built over it while a block runs. -/
structure StateDB where
  trie : Address → Option Account
  stateObjects : Address → Option stateObject
  stateObjectsDirty : Address → Bool
  refund : Nat
  thash : Hash
  bhash : Hash
  txIndex : Nat
  logs : Hash → List Log
  logSize : Nat
  preimages : Hash → Option (List UInt8)
  journal : List journalEntry
  validRevisions : List revision
  nextRevisionId : Nat

/-- Database: the code the database stores under each code hash; none is the
error of a missing entry. -/
structure Database where
  ContractCode : Hash → Option (List UInt8)

/-- The code caches of the process, shared by every state database. -/
structure CodeCaches where
  contractCodeCache : Lru.Cache Address (List UInt8)
  chiefContractCodeCache : Address → Option (List UInt8)

/-- contractCodeCacheSize: 128 MB of code of at most 24 KB. -/
def contractCodeCacheSize : Nat := 5461

namespace StateDB

/-- New: a state database over the account trie given, with nothing loaded. -/
def New (trie : Address → Option Account) : StateDB :=
  ⟨trie, fun _ => none, fun _ => false, 0, zeroHash, zeroHash, 0, fun _ => [], 0, fun _ => none, [], [],
    0⟩

/-! ### State objects -/

section Objects

variable (s : StateDB)

def journalAppend (entry : journalEntry) : StateDB :=
  { s with journal := s.journal ++ [entry] }

def MarkStateObjectDirty (addr : Address) : StateDB :=
  { s with stateObjectsDirty := Function.update s.stateObjectsDirty addr true }

def setStateObject (object : stateObject) : StateDB :=
  { s with stateObjects := Function.update s.stateObjects object.address (some object) }

/-- The object's onDirty callback, if still armed: its account marked dirty and
the callback cleared. -/
def fireDirty (obj : stateObject) : StateDB × stateObject :=
  if obj.onDirty then (s.MarkStateObjectDirty obj.address, { obj with onDirty := false })
  else (s, obj)

/-- getStateObject: the live object at addr unless deleted, or the account
loaded from the trie into the live map. -/
def getStateObject (addr : Address) : Option stateObject × StateDB :=
  match s.stateObjects addr with
  | some obj => (if obj.deleted then none else some obj, s)
  | none =>
    match s.trie addr with
    | none => (none, s)
    | some data =>
      let obj := newObject addr data
      (some obj, s.setStateObject obj)

end Objects

/-! The lower-case setters change an object and fire its callback; the
upper-case ones journal the value they replace first. -/

namespace Object

variable (s : StateDB) (obj : stateObject)

def setBalance (amount : Int) : StateDB × stateObject :=
  s.fireDirty { obj with data := { obj.data with Balance := amount } }

def setNonce (nonce : Nat) : StateDB × stateObject :=
  s.fireDirty { obj with data := { obj.data with Nonce := nonce } }

def setCode (codeHash : Hash) (code : Option (List UInt8)) : StateDB × stateObject :=
  s.fireDirty { obj with code := code, data := { obj.data with CodeHash := codeHash } }

def setState (key value : Hash) : StateDB × stateObject :=
  s.fireDirty { obj with storage := Function.update obj.storage key value }

def SetBalance (amount : Int) : StateDB × stateObject :=
  setBalance (s.journalAppend (.balanceChange obj.address obj.data.Balance)) obj amount

def SetNonce (nonce : Nat) : StateDB × stateObject :=
  setNonce (s.journalAppend (.nonceChange obj.address obj.data.Nonce)) obj nonce

def SetState (key value : Hash) : StateDB × stateObject :=
  setState (s.journalAppend (.storageChange obj.address key (obj.storage key))) obj key value

/-- touch: journalled as not touched and not dirty before. -/
def touch : StateDB × stateObject :=
  let (s, obj) := (s.journalAppend (.touchChange obj.address false false)).fireDirty obj
  (s, { obj with touched := true })

/-- AddBalance: a zero amount only touches an empty account. -/
def AddBalance (amount : Int) : StateDB × stateObject :=
  if amount = 0 then
    if obj.empty then touch s obj else (s, obj)
  else SetBalance s obj (obj.data.Balance + amount)

def SubBalance (amount : Int) : StateDB × stateObject :=
  if amount = 0 then (s, obj) else SetBalance s obj (obj.data.Balance - amount)

def markSuicided : StateDB × stateObject :=
  s.fireDirty { obj with suicided := true }

end Object

section Accounts

variable (s : StateDB)

/-- The object at addr as getStateObject finds it, changed by f and written
back. Go dereferences a nil object here; no journal entry is undone for an
account without one. -/
def updateObject (addr : Address) (f : StateDB → stateObject → StateDB × stateObject) : StateDB :=
  match s.getStateObject addr with
  | (some obj, s) =>
    let (s, obj) := f s obj
    s.setStateObject obj
  | (none, s) => s

/-- createObject: a new empty object at addr, replacing the one there, which is
returned; the journal records the creation or the replaced object. -/
def createObject (addr : Address) : (stateObject × Option stateObject) × StateDB :=
  let (prev, s) := s.getStateObject addr
  let (s, newobj) := Object.setNonce s (newObject addr Account.empty) 0
  let s := s.journalAppend (match prev with
    | none => .createObjectChange addr
    | some prev => .resetObjectChange prev)
  ((newobj, prev), s.setStateObject newobj)

def GetOrNewStateObject (addr : Address) : stateObject × StateDB :=
  match s.getStateObject addr with
  | (some obj, s) =>
    if obj.deleted then
      let ((obj, _), s) := s.createObject addr
      (obj, s)
    else (obj, s)
  | (none, s) =>
    let ((obj, _), s) := s.createObject addr
    (obj, s)

/-- The object at addr, or a new one, changed by f and written back. -/
def updateOrNewObject (addr : Address) (f : StateDB → stateObject → StateDB × stateObject) :
    StateDB :=
  let (obj, s) := s.GetOrNewStateObject addr
  let (s, obj) := f s obj
  s.setStateObject obj

/-- CreateAccount: a new account at addr with the balance of the one it
replaces. -/
def CreateAccount (addr : Address) : StateDB :=
  let ((new, prev), s) := s.createObject addr
  match prev with
  | some prev =>
    let (s, new) := Object.setBalance s new prev.data.Balance
    s.setStateObject new
  | none => s

def AddBalance (addr : Address) (amount : Int) : StateDB :=
  s.updateOrNewObject addr fun s obj => Object.AddBalance s obj amount

def SubBalance (addr : Address) (amount : Int) : StateDB :=
  s.updateOrNewObject addr fun s obj => Object.SubBalance s obj amount

def SetBalance (addr : Address) (amount : Int) : StateDB :=
  s.updateOrNewObject addr fun s obj => Object.SetBalance s obj amount

def SetNonce (addr : Address) (nonce : Nat) : StateDB :=
  s.updateOrNewObject addr fun s obj => Object.SetNonce s obj nonce

def SetState (addr : Address) (key value : Hash) : StateDB :=
  s.updateOrNewObject addr fun s obj => Object.SetState s obj key value

/-- Suicide: the account marked suicided and its balance cleared; false when
there is no account. -/
def Suicide (addr : Address) : Bool × StateDB :=
  match s.getStateObject addr with
  | (none, s) => (false, s)
  | (some obj, s) =>
    let s := s.journalAppend (.suicideChange addr obj.suicided obj.data.Balance)
    let (s, obj) := Object.markSuicided s obj
    (true, s.setStateObject { obj with data := { obj.data with Balance := 0 } })

def AddRefund (gas : Nat) : StateDB :=
  { s.journalAppend (.refundChange s.refund) with refund := s.refund + gas }

/-- AddLog: the log stamped with the transaction and its index in the block. -/
def AddLog (log : Log) : StateDB :=
  let s := s.journalAppend (.addLogChange s.thash)
  let log := { log with TxHash := s.thash, BlockHash := s.bhash, TxIndex := s.txIndex, Index := s.logSize }
  { s with
    logs := Function.update s.logs s.thash (s.logs s.thash ++ [log])
    logSize := s.logSize + 1 }

/-- AddPreimage: recorded once per hash. -/
def AddPreimage (hash : Hash) (preimage : List UInt8) : StateDB :=
  match s.preimages hash with
  | some _ => s
  | none =>
    { s.journalAppend (.addPreimageChange hash) with
      preimages := Function.update s.preimages hash (some preimage) }

end Accounts

/-! ### Reads -/

section Reads

variable (s : StateDB)

def Exist (addr : Address) : Bool × StateDB :=
  let (obj, s) := s.getStateObject addr
  (obj.isSome, s)

def Empty (addr : Address) : Bool × StateDB :=
  let (obj, s) := s.getStateObject addr
  (match obj with
    | none => true
    | some obj => obj.empty, s)

def GetBalance (addr : Address) : Int × StateDB :=
  let (obj, s) := s.getStateObject addr
  ((obj.map (·.data.Balance)).getD 0, s)

def GetNonce (addr : Address) : Nat × StateDB :=
  let (obj, s) := s.getStateObject addr
  ((obj.map (·.data.Nonce)).getD 0, s)

def GetCodeHash (addr : Address) : Hash × StateDB :=
  let (obj, s) := s.getStateObject addr
  ((obj.map (·.data.CodeHash)).getD zeroHash, s)

def GetState (addr : Address) (key : Hash) : Hash × StateDB :=
  let (obj, s) := s.getStateObject addr
  ((obj.map (·.storage key)).getD zeroHash, s)

def HasSuicided (addr : Address) : Bool × StateDB :=
  let (obj, s) := s.getStateObject addr
  ((obj.map (·.suicided)).getD false, s)

def GetRefund : Nat :=
  s.refund

def GetLogs (hash : Hash) : List Log :=
  s.logs hash

def Preimages : Hash → Option (List UInt8) :=
  s.preimages

end Reads

/-! ### Code -/

section Code

variable (config : ChainConfig) (db : Database)

/-- getCode: the code of the object's address in contractCodeCache, or the code
stored under its code hash, which is then cached under its address. -/
def Object.getCode (caches : CodeCaches) (obj : stateObject) : Option (List UInt8) × CodeCaches :=
  let (cached, cache) := caches.contractCodeCache.Get obj.address
  let caches := { caches with contractCodeCache := cache }
  match cached with
  | some code => (some code, caches)
  | none =>
    match db.ContractCode obj.data.CodeHash with
    | none => (none, caches)
    | some code => (some code, { caches with contractCodeCache := cache.Add obj.address code })

/-- Code: the object's code, loaded once. A chief contract's code comes from the
chief code cache, filled from the database on a miss; any other code through
getCode. A failed load leaves the code nil. -/
def Object.Code (caches : CodeCaches) (obj : stateObject) :
    Option (List UInt8) × stateObject × CodeCaches :=
  match obj.code with
  | some code => (some code, obj, caches)
  | none =>
    if obj.data.CodeHash = emptyCodeHash then (none, obj, caches)
    else
      let (code, caches) :=
        if IsChiefAddress config obj.address then
          match caches.chiefContractCodeCache obj.address with
          | some code => (some code, caches)
          | none =>
            match db.ContractCode obj.data.CodeHash with
            | some code =>
              (some code, { caches with
                chiefContractCodeCache := Function.update caches.chiefContractCodeCache obj.address
                  (some code) })
            | none => (none, caches)
        else Object.getCode db caches obj
      (code, { obj with code := code }, caches)

variable (s : StateDB) (caches : CodeCaches)

/-- GetCode: the code of the account at addr, none without one. -/
def GetCode (addr : Address) : List UInt8 × StateDB × CodeCaches :=
  match s.getStateObject addr with
  | (none, s) => ([], s, caches)
  | (some obj, s) =>
    let (code, obj, caches) := Object.Code config db caches obj
    (code.getD [], s.setStateObject obj, caches)

/-- GetCodeSize: the length of the loaded code, or of the code stored under
the account's code hash; zero when that is missing. -/
def GetCodeSize (addr : Address) : Nat × StateDB :=
  match s.getStateObject addr with
  | (none, s) => (0, s)
  | (some obj, s) =>
    match obj.code with
    | some code => (code.length, s)
    | none => (((db.ContractCode obj.data.CodeHash).map List.length).getD 0, s)

/-- SetCode: the code and its hash, the code it replaces journalled. -/
def SetCode (keccak : List UInt8 → Hash) (addr : Address) (code : List UInt8) :
    StateDB × CodeCaches :=
  let (obj, s) := s.GetOrNewStateObject addr
  let (prevcode, obj, caches) := Object.Code config db caches obj
  let s := s.journalAppend (.codeChange obj.address prevcode obj.data.CodeHash)
  let (s, obj) := Object.setCode s obj (keccak code) (some code)
  (s.setStateObject obj, caches)

/-- Once contractCodeCache holds code for an address, GetCode in any state
returns that code for an ordinary account there whose code is not loaded yet,
whatever code hash the account has. -/
theorem GetCode_of_cached {s : StateDB} {caches : CodeCaches} {addr : Address} {obj : stateObject}
    {code : List UInt8} (live : s.stateObjects addr = some obj) (keyed : obj.address = addr)
    (present : obj.deleted = false) (unloaded : obj.code = none)
    (withCode : obj.data.CodeHash ≠ emptyCodeHash) (ordinary : IsChiefAddress config addr = false)
    (cached : (caches.contractCodeCache.Get addr).1 = some code) :
    (GetCode config db s caches addr).1 = code := by
  unfold GetCode getStateObject
  rw [live]
  simp only [present, Bool.false_eq_true, if_false]
  unfold Object.Code Object.getCode
  rw [unloaded, keyed]
  simp only [withCode, ordinary, Bool.false_eq_true, if_false]
  rcases hit : caches.contractCodeCache.Get addr with ⟨found, cache⟩
  rw [hit] at cached
  cases cached
  rfl

/-- Two states hold different code at the address A: PUSH1 0 in the first and
PUSH1 1 PUSH1 0 in the second, each under its Keccak-256 hash, in one database.
After GetCode of A in the first, the second's GetCodeSize of A is 4, the length
of its own code, but its GetCode of A returns the first's two bytes from
contractCodeCache, while its GetCodeHash stays the hash of its own code. -/
theorem GetCode_served_from_other_state :
    let A : Address := Vector.replicate 20 5
    let pushZero : List UInt8 := [0x60, 0x00]
    let pushOnePushZero : List UInt8 := [0x60, 0x01, 0x60, 0x00]
    let pushZeroHash : Hash :=
      #v[0x07, 0xad, 0x11, 0x8d, 0x6c, 0xc8, 0x64, 0x2c, 0x86, 0xc0, 0x38, 0x27, 0xf2, 0x76, 0xd8, 0xb7,
        0x91, 0xa6, 0x5e, 0x5c, 0x99, 0xa3, 0x84, 0x5f, 0xaf, 0x18, 0x6b, 0xe7, 0x20, 0xa1, 0x45, 0x5d]
    let pushOnePushZeroHash : Hash :=
      #v[0xcf, 0x61, 0xa6, 0xeb, 0x3b, 0x9b, 0x89, 0xe7, 0x5f, 0x1d, 0xad, 0xf3, 0xdc, 0xd1, 0x65, 0x09,
        0x61, 0x68, 0x96, 0xcb, 0x50, 0xea, 0xc7, 0x65, 0xa6, 0x8f, 0xa2, 0x7b, 0xbb, 0xc6, 0xde, 0x82]
    let db : Database := ⟨fun hash =>
      if hash = pushZeroHash then some pushZero
      else if hash = pushOnePushZeroHash then some pushOnePushZero else none⟩
    let holding := fun codeHash => New fun addr =>
      if addr = A then some ⟨1, 0, fun _ => zeroHash, codeHash⟩ else none
    let caches : CodeCaches := ⟨Lru.Cache.New contractCodeCacheSize, fun _ => none⟩
    let caches := (GetCode MainnetChainConfig db (holding pushZeroHash) caches A).2.2
    let (size, second) := GetCodeSize db (holding pushOnePushZeroHash) A
    let (code, second, _) := GetCode MainnetChainConfig db second caches A
    size = 4 ∧ code = pushZero ∧ (GetCodeHash second A).1 = pushOnePushZeroHash := by
  decide

end Code

end StateDB

/-! ### The journal -/

open StateDB in
/-- undo: what each journal entry restores. -/
def journalEntry.undo : journalEntry → StateDB → StateDB
  | .createObjectChange account, s =>
    { s with
      stateObjects := Function.update s.stateObjects account none
      stateObjectsDirty := Function.update s.stateObjectsDirty account false }
  | .resetObjectChange prev, s => s.setStateObject prev
  | .suicideChange account prev prevbalance, s =>
    s.updateObject account fun s obj => Object.setBalance s { obj with suicided := prev } prevbalance
  | .touchChange account prev prevDirty, s =>
    if !prev && account ≠ ripemd then
      let s := s.updateObject account fun s obj => (s, { obj with touched := prev })
      if !prevDirty then
        { s with stateObjectsDirty := Function.update s.stateObjectsDirty account false }
      else s
    else s
  | .balanceChange account prev, s =>
    s.updateObject account fun s obj => Object.setBalance s obj prev
  | .nonceChange account prev, s =>
    s.updateObject account fun s obj => Object.setNonce s obj prev
  | .codeChange account prevcode prevhash, s =>
    s.updateObject account fun s obj => Object.setCode s obj prevhash prevcode
  | .storageChange account key prevalue, s =>
    s.updateObject account fun s obj => Object.setState s obj key prevalue
  | .refundChange prev, s => { s with refund := prev }
  | .addLogChange txhash, s =>
    { s with
      logs := Function.update s.logs txhash (s.logs txhash).dropLast
      logSize := s.logSize - 1 }
  | .addPreimageChange hash, s =>
    { s with preimages := Function.update s.preimages hash none }

namespace StateDB

section Snapshots

variable (s : StateDB)

/-- Snapshot: a new revision id at the journal's current length. -/
def Snapshot : Nat × StateDB :=
  (s.nextRevisionId,
    { s with
      nextRevisionId := s.nextRevisionId + 1
      validRevisions := s.validRevisions ++ [⟨s.nextRevisionId, s.journal.length⟩] })

/-- RevertToSnapshot: the journal undone, latest entry first, back to the
revision's length; the revision and the later ones dropped. none is the panic
of an id that is not a valid revision. -/
def RevertToSnapshot (revid : Nat) : Option StateDB :=
  let idx := (s.validRevisions.findIdx? (revid ≤ ·.id)).getD s.validRevisions.length
  match s.validRevisions[idx]? with
  | some rev =>
    if rev.id = revid then
      let s := (s.journal.drop rev.journalIndex).reverse.foldl (fun s entry => entry.undo s) s
      some { s with journal := s.journal.take rev.journalIndex, validRevisions := s.validRevisions.take idx }
    else none
  | none => none

/-- clearJournalAndRefund: no journal, no revisions, no refund. -/
def clearJournalAndRefund : StateDB :=
  { s with journal := [], validRevisions := [], refund := 0 }

/-- Whether Finalise deletes a dirty object: when it is suicided, or empty and
empty objects are to be deleted. -/
def deletes (deleteEmptyObjects : Bool) (obj : stateObject) : Bool :=
  obj.suicided || (deleteEmptyObjects && obj.empty)

/-- What Finalise makes of a dirty object: marked deleted, or its storage root
updated. -/
def finaliseObject (deleteEmptyObjects : Bool) (obj : stateObject) : stateObject :=
  if deletes deleteEmptyObjects obj then { obj with deleted := true }
  else { obj with data := { obj.data with Root := obj.storage } }

/-- Finalise: every dirty account deleted from the trie or written to it with
its updated root, and the journal and refund cleared. Each dirty account is
handled on its own, so the order of Go's map iteration does not matter. -/
def Finalise (deleteEmptyObjects : Bool) : StateDB :=
  let written := fun addr =>
    if s.stateObjectsDirty addr then
      match s.stateObjects addr with
      | some obj =>
        if deletes deleteEmptyObjects obj then none
        else some (finaliseObject deleteEmptyObjects obj).data
      | none => s.trie addr
    else s.trie addr
  let finalised := fun addr =>
    if s.stateObjectsDirty addr then (s.stateObjects addr).map (finaliseObject deleteEmptyObjects)
    else s.stateObjects addr
  clearJournalAndRefund { s with stateObjects := finalised, trie := written }

/-- IntermediateRoot: the account trie after Finalise. -/
def IntermediateRoot (deleteEmptyObjects : Bool) : (Address → Option Account) × StateDB :=
  let s := s.Finalise deleteEmptyObjects
  (s.trie, s)

end Snapshots

/-! ### Reverting a touch -/

/-- A new account a, then a snapshot, a zero AddBalance that touches a, and the
revert: the undo of the touch takes a out of the dirty set it had been in since
its creation, so Finalise no longer sees it. Deleting empty objects, a stays in
existence where without the snapshot it is deleted; keeping them, a is not
written to the trie where without the snapshot it is. -/
theorem RevertToSnapshot_touch_drops_dirty :
    let a : Address := Vector.replicate 20 1
    let base := (New fun _ => none).CreateAccount a
    let reverted := (base.Snapshot.2.AddBalance a 0).RevertToSnapshot base.Snapshot.1
    (reverted.map fun s => ((s.IntermediateRoot true).2.Exist a).1) = some true ∧
      ((base.IntermediateRoot true).2.Exist a).1 = false ∧
      (reverted.map fun s => ((s.IntermediateRoot false).1 a).isSome) = some false ∧
      ((base.IntermediateRoot false).1 a).isSome = true := by
  decide

end StateDB

end Meshbox.State
