/-
This file models the state synchronisation of core/state/sync.go: a trie
scheduler over the account trie whose leaf callback decodes each account and
requests its storage trie, as a subtrie without a callback, and its contract
code, as a raw entry, both below the account's node.
-/

import Mathlib
import Meshbox.Rlp.Decode
import Meshbox.Trie.Sync

namespace Meshbox.State

open Meshbox.Rlp Meshbox.Trie

/-- state.Account as rlp.Decode fills it in: the storage trie as its root hash
and the code hash as the bytes the list holds. -/
structure DecodedAccount where
  Nonce : Nat
  Balance : Nat
  Root : Hash
  CodeHash : List UInt8
deriving DecidableEq, Repr

/-- The struct decoder of state.Account: a list of the four fields in order and
nothing after them. -/
def decodeAccount : Decoder DecodedAccount := fun s =>
  match wrapped Rlp.Stream.List "state.Account" s with
  | .error err s => .error err s
  | .ok _ s =>
    (do
      let nonce ← structField "state.Account" "Nonce" (decodeUint "uint64" 64)
      let balance ← structField "state.Account" "Balance" (decodeBigInt "*big.Int")
      let root ← structField "state.Account" "Root" (decodeByteArray "common.Hash" 32)
      let codeHash ← structField "state.Account" "CodeHash" (decodeByteSlice "[]uint8")
      wrapped Rlp.Stream.ListEnd "state.Account"
      pure (DecodedAccount.mk nonce balance (BytesToHash root) codeHash)) s

/-- rlp.Decode of an account from a bytes.Reader over leaf: a decodeError found
in a field also names the target type. -/
def DecodeAccount (leaf : List UInt8) : Except DecodeError DecodedAccount :=
  match decodeAccount (NewStream leaf 0) with
  | .ok obj _ => .ok obj
  | .error (.decodeError msg typ ctx) _ =>
    .error (.decodeError msg typ (if ctx = [] then ctx else ctx ++ ["(state.Account)"]))
  | .error err _ => .error err

/-- The leaf callback of NewStateSync: the account's storage trie requested
below parent without a callback, then its code as a raw entry. -/
def stateSyncCallback : TrieSyncLeafCallback DecodeError := fun leaf parent syncer =>
  match DecodeAccount leaf with
  | .error err => some (syncer, some err)
  | .ok obj =>
    match syncer.AddSubTrie obj.Root 64 parent false with
    | none => none
    | some syncer =>
      match syncer.AddRawEntry (BytesToHash obj.CodeHash) 64 parent with
      | none => none
      | some syncer => some (syncer, none)

/-- NewStateSync: a trie scheduler for the account trie under root whose
requests run stateSyncCallback. -/
def NewStateSync (root : Hash) (database : MemDatabase) : Option TrieSync :=
  NewTrieSync root database true

/-! ### The callback -/

/-- The callback on a leaf that decodes as an account requests the storage trie
and then the code. -/
theorem stateSyncCallback_of_decoded {leaf : List UInt8} {parent : Hash} {syncer : TrieSync}
    {obj : DecodedAccount} (decoded : DecodeAccount leaf = .ok obj) :
    stateSyncCallback leaf parent syncer =
      (syncer.AddSubTrie obj.Root 64 parent false).bind fun syncer =>
        (syncer.AddRawEntry (BytesToHash obj.CodeHash) 64 parent).map (·, none) := by
  unfold stateSyncCallback
  rw [decoded]
  dsimp only
  cases syncer.AddSubTrie obj.Root 64 parent false with
  | none => rfl
  | some syncer =>
    dsimp only [Option.bind]
    cases syncer.AddRawEntry (BytesToHash obj.CodeHash) 64 parent <;> rfl

/-- The callback only schedules: AddSubTrie and AddRawEntry, or nothing when the
leaf is not an account. -/
theorem stateSyncCallback_grows : TrieSync.KeepsGrowing stateSyncCallback := by
  intro leaf parent syncer synced err called
  unfold stateSyncCallback at called
  split at called
  · cases called
    exact TrieSync.Grows.refl syncer
  · split at called
    · cases called
    · rename_i storage added
      split at called
      · cases called
      · rename_i code addedRaw
        cases called
        exact (TrieSync.AddSubTrie_grows added).trans (TrieSync.AddRawEntry_grows addedRaw)

/-! ### Code that is also a trie node

A raw request and a trie-node request share the map of pending requests, keyed
by hash. When an account's code hash is requested first and a storage node then
references the same hash, schedule only adds the storage node as a parent of
the raw request: the data arrives, is committed as code, and the node's own
children are never requested. Below, the account trie is the single account
leaf under accountHash. Its storage trie is the short node under storageHash,
whose child is the node under codeHash, whose child in turn is under
grandchildHash; the account's code is the bytes of that middle node, so it has
the same hash. The hashes stand for the Keccak-256 hashes of the nodes: the
scheduler only compares them. -/

/-- The hash of the account trie's root, the account's leaf node. -/
def accountHash : Hash := Vector.replicate 32 0x0a

/-- The hash of the storage trie's root. -/
def storageHash : Hash := Vector.replicate 32 0x0b

/-- The hash of the account's code, which is also the storage root's child. -/
def codeHash : Hash := Vector.replicate 32 0x0e

/-- The hash of the child of the node under codeHash. -/
def grandchildHash : Hash := Vector.replicate 32 0x0f

/-- The account: no nonce, no balance, the storage trie and the code. -/
def accountLeaf : List UInt8 :=
  [0xf8, 0x44, 0x80, 0x80, 0xa0] ++ storageHash.toList ++ [0xa0] ++ codeHash.toList

/-- The account trie: a leaf with the empty key and the account as its value. -/
def accountNode : List UInt8 :=
  [0xf8, 0x49, 0x20, 0xb8, 0x46] ++ accountLeaf

/-- The storage root: the nibble 2, then the node under codeHash. -/
def storageNode : List UInt8 :=
  [0xe2, 0x12, 0xa0] ++ codeHash.toList

/-- The node under codeHash, and the account's code: the nibble 3, then the
node under grandchildHash. -/
def codeNode : List UInt8 :=
  [0xe2, 0x13, 0xa0] ++ grandchildHash.toList

/-- The request for the account trie's root that NewStateSync makes. -/
def accountRequest : request :=
  { hash := accountHash, data := none, raw := false, parents := [], depth := 0, deps := 0,
    callback := true }

/-- The request for the storage trie that the account's callback makes. -/
def storageRequest : request :=
  { hash := storageHash, data := none, raw := false, parents := [accountHash], depth := 64,
    deps := 0, callback := false }

/-- The raw request for the code that the account's callback makes. -/
def codeRequest : request :=
  { hash := codeHash, data := none, raw := true, parents := [accountHash], depth := 64, deps := 0,
    callback := false }

/-- The scheduler NewStateSync makes over an empty database: the root requested
and queued. -/
def syncStarted : TrieSync :=
  ⟨NewMemDatabase, newSyncMemBatch, [(accountHash, accountRequest)], [(accountHash, 0)]⟩

/-- The scheduler once the account's node is processed: the account waits on its
two children, both requested and queued. -/
def syncAccountHeld : TrieSync :=
  ⟨NewMemDatabase, newSyncMemBatch, [(accountHash, { accountRequest with data := some accountNode, deps := 2 }),
    (storageHash, storageRequest), (codeHash, codeRequest)], [(storageHash, 64), (codeHash, 64)]⟩

theorem NewStateSync_accountHash : NewStateSync accountHash NewMemDatabase = some syncStarted := by
  rw [NewStateSync, NewTrieSync, TrieSync.AddSubTrie_of_absent (by decide) rfl rfl]
  rfl

theorem syncStarted_Missing : syncStarted.Missing 0 [accountHash] = some { syncStarted with queue := [] } := by
  rfl

/-- Processing the account's node decodes the account and requests its storage
trie and its code. -/
theorem syncStarted_Process_account :
    ({ syncStarted with queue := [] } : TrieSync).Process stateSyncCallback [⟨accountHash, accountNode⟩] =
      some (syncAccountHeld, false, 0, none) := by
  have decoded : decodeNode (some accountHash.toList) accountNode 0 =
      .ok (.shortNode [16] (.valueNode accountLeaf) { hash := some accountHash.toList, gen := 0, dirty := false }) :=
    decodeNode_long_leaf _ _ (by decide) (by decide) (by decide) (by decide) (by decide) (by decide)
  have notified : stateSyncCallback accountLeaf accountHash
      (({ syncStarted with queue := [] } : TrieSync).setData accountRequest accountNode) =
        some (syncAccountHeld, none) := by
    have account : DecodeAccount accountLeaf = .ok ⟨0, 0, storageHash, codeHash.toList⟩ := by
      rfl
    rw [stateSyncCallback_of_decoded account, TrieSync.AddSubTrie_of_absent (by decide) rfl rfl]
    rfl
  have recount : GoMap.get syncAccountHeld.requests accountHash =
      some { accountRequest with data := some accountNode, deps := 2 } := by
    rfl
  rw [TrieSync.Process, TrieSync.processFrom_node false 0 (by rfl) rfl rfl decoded rfl
    (TrieSync.requestChildren_value rfl notified) recount]
  rfl

theorem syncAccountHeld_Missing :
    syncAccountHeld.Missing 0 [storageHash, codeHash] = some { syncAccountHeld with queue := [] } := by
  rfl

/-- The run: each hash Missing returns is delivered with its data, and the batch
is committed at the end. -/
def syncRun : List SyncAction :=
  [.missing 0 [accountHash], .process [⟨accountHash, accountNode⟩],
   .missing 0 [storageHash, codeHash], .process [⟨storageHash, storageNode⟩],
   .process [⟨codeHash, codeNode⟩], .commit]

/-- The run ends with nothing pending and nothing queued, and with the node under
codeHash in the database while its child under grandchildHash is not. -/
theorem StateSync_commits_node_without_its_child :
    ∃ synced, (NewStateSync accountHash NewMemDatabase).bind (·.run stateSyncCallback syncRun) = some synced ∧
      synced.Pending = 0 ∧ synced.queue = [] ∧
      synced.database.Get codeHash.toList = some codeNode ∧
      decodeNode (some codeHash.toList) codeNode 0 =
        .ok (.shortNode [3] (.hashNode grandchildHash.toList)
          { hash := some codeHash.toList, gen := 0, dirty := false }) ∧
      synced.database.Has grandchildHash.toList = false := by
  -- the states after the storage root and then the code are processed
  let s5 : TrieSync := ⟨NewMemDatabase, newSyncMemBatch,
    [(accountHash, { accountRequest with data := some accountNode, deps := 2 }),
    (storageHash, { storageRequest with data := some storageNode, deps := 1 }),
    (codeHash, { codeRequest with parents := [accountHash, storageHash] })], []⟩
  let s6 : TrieSync := ⟨NewMemDatabase, ⟨[(codeHash, codeNode), (storageHash, storageNode),
    (accountHash, accountNode)], [codeHash, storageHash, accountHash]⟩, [], []⟩
  have processB : ({ syncAccountHeld with queue := [] } : TrieSync).Process stateSyncCallback [⟨storageHash, storageNode⟩] = some (s5, false, 0, none) := by
    have decoded : decodeNode (some storageHash.toList) storageNode 0 =
        .ok (.shortNode [2] (.hashNode codeHash.toList) { hash := some storageHash.toList, gen := 0, dirty := false }) :=
      decodeNode_short_hash _ _ (by decide) (by decide) (by decide) (by simp)
    let stored : TrieSync :=
      { ({ syncAccountHeld with queue := [] } : TrieSync) with requests := GoMap.set ({ syncAccountHeld with queue := [] } : TrieSync).requests storageHash { storageRequest with data := some storageNode } }
    let childRequest : request :=
      { hash := codeHash, data := none, raw := false, parents := [storageHash], depth := 65, deps := 0,
        callback := false }
    have requested : TrieSync.requestChildren stateSyncCallback storageRequest
        [(.hashNode codeHash.toList, 65)] (({ syncAccountHeld with queue := [] } : TrieSync).setData storageRequest storageNode) =
          some (stored, .ok [childRequest]) := by
      rfl
    have recount : GoMap.get stored.requests storageHash =
        some { storageRequest with data := some storageNode } := by
      rfl
    rw [TrieSync.Process, TrieSync.processFrom_node false 0 (by rfl) rfl rfl decoded rfl
      requested recount]
    rfl
  have processN : s5.Process stateSyncCallback [⟨codeHash, codeNode⟩] = some (s6, true, 0, none) := by
    rfl
  have runs : (NewStateSync accountHash NewMemDatabase).bind (·.run stateSyncCallback syncRun) =
      some s6.Commit.1 := by
    rw [NewStateSync_accountHash]
    simp only [syncRun, Option.bind_some, TrieSync.run, TrieSync.step, syncStarted_Missing,
      syncStarted_Process_account, syncAccountHeld_Missing, processB, processN]
  have codeDecoded : decodeNode (some codeHash.toList) codeNode 0 =
      .ok (.shortNode [3] (.hashNode grandchildHash.toList)
        { hash := some codeHash.toList, gen := 0, dirty := false }) :=
    decodeNode_short_hash _ _ (by decide) (by decide) (by decide) (by simp)
  exact ⟨_, runs, rfl, rfl, by rfl, codeDecoded, by rfl⟩

/-! ### No request for a hash in the batch -/

/-- Over every run of the state sync, whatever results it is given, no pending
request is for a hash in the batch: the scheduler never requests a hash it
holds in memory. -/
theorem StateSync_never_requests_batched_hash {root : Hash} {database : MemDatabase}
    {s s' : TrieSync} {actions : List SyncAction} (start : NewStateSync root database = some s)
    (ran : s.run stateSyncCallback actions = some s') {hash : Hash}
    (pending : (GoMap.get s'.requests hash).isSome) : GoMap.get s'.membatch.batch hash = none :=
  pending_unbatched_of_run stateSyncCallback_grows start ran pending

/-- The run that delivers the account's node, commits, asks for the account's
children and delivers the code before the storage trie. -/
def codeFirstRun : List SyncAction :=
  [.missing 0 [accountHash], .process [⟨accountHash, accountNode⟩], .commit,
   .missing 0 [storageHash, codeHash], .process [⟨codeHash, codeNode⟩]]

/-- After that run the code is in the batch while the account, its data held,
still waits on its storage trie: it is pending, and not in the batch. -/
theorem StateSync_never_requests_batched_hash_code_first :
    ∃ synced, syncStarted.run stateSyncCallback codeFirstRun = some synced ∧
      GoMap.get synced.membatch.batch codeHash = some codeNode ∧
      (GoMap.get synced.requests accountHash).isSome ∧
      GoMap.get synced.membatch.batch accountHash = none := by
  -- the code completes at once, being raw, and the account counts down to one
  let delivered : TrieSync := ⟨NewMemDatabase, ⟨[(codeHash, codeNode)], [codeHash]⟩,
    [(accountHash, { accountRequest with data := some accountNode, deps := 1 }),
    (storageHash, storageRequest)], []⟩
  have processCode : ({ syncAccountHeld with queue := [] } : TrieSync).Process stateSyncCallback
      [⟨codeHash, codeNode⟩] = some (delivered, true, 0, none) := by
    rfl
  have committed : syncAccountHeld.Commit.1 = syncAccountHeld := rfl
  have ran : syncStarted.run stateSyncCallback codeFirstRun = some delivered := by
    simp only [codeFirstRun, TrieSync.run, TrieSync.step, syncStarted_Missing, syncStarted_Process_account,
      Option.bind_some, committed, syncAccountHeld_Missing, processCode]
  have pending : (GoMap.get delivered.requests accountHash).isSome := by rfl
  exact ⟨delivered, ran, by rfl, pending,
    StateSync_never_requests_batched_hash NewStateSync_accountHash ran pending⟩

end Meshbox.State
