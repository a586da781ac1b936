/-
This file models the trie synchronisation scheduler of trie/sync.go. A TrieSync
downloads the trie under a root hash: Missing hands out hashes of nodes it does
not hold yet, Process takes their data back, and each downloaded node waits in a
memory batch until all of the nodes it references are stored; Commit then writes
the batch to the database in the order the nodes completed.

Each scheduled hash has one request, in a map keyed by the hash. A request
counts in deps the children it still waits for and names in parents the
requests that wait for it; committing a request counts it off each parent and
commits the parents this completes. A raw request (contract code) is committed
as soon as its data arrives, while a trie-node request first requests the
children its node references by hash that neither the batch nor the database
holds. A second request for a pending hash only adds its parents to the pending
one, which keeps its own kind.

The Go requests are objects linked by pointers; here a parent is named by its
hash, which finds the same object while it is pending. A committed request had
no child left to wait for, so the count of a parent no longer in the map could
only go below zero and never commits it again: the model skips it. The priority
queue is the list of scheduled hashes with their depths, and Missing may pop any
entry of the greatest depth, as the heap leaves the order among equal depths
open. The leaf callback acts on the scheduler, as the closure of NewStateSync
does; a request records whether it runs the callback, which is the one the
scheduler was made with or none. A panic is none, and so is a commit that runs
out of its fuel, one unit for each nested commit.
-/

import Mathlib
import Meshbox.Trie.Trie
import Meshbox.Library.GoMap

namespace Meshbox.Trie

open Meshbox.Rlp

/-! ### The scheduler's state -/

/-- emptyState: the Keccak-256 hash of no bytes, the code hash of an account
without code. -/
def emptyState : Hash :=
  ⟨#[0xc5, 0xd2, 0x46, 0x01, 0x86, 0xf7, 0x23, 0x3c, 0x92, 0x7e, 0x7d, 0xb2, 0xdc, 0xc7, 0x03, 0xc0,
    0xe5, 0x00, 0xb6, 0x53, 0xca, 0x82, 0x27, 0x3b, 0x7b, 0xfa, 0xd8, 0x04, 0x5d, 0x85, 0xa4, 0x70],
    by decide⟩

deriving instance DecidableEq for MemDatabase

/-- Has: whether the database holds a value under key. -/
def MemDatabase.Has (db : MemDatabase) (key : List UInt8) : Bool :=
  (db.Get key).isSome

/-- request: a scheduled or in-flight retrieval. data is none until the node
arrives; parents are the pending requests that reference this one, by hash;
deps is the Go int count of children not yet committed; callback is whether the
leaf callback runs on this branch. -/
structure request where
  hash : Hash
  data : Option (List UInt8)
  raw : Bool
  parents : List Hash
  depth : Nat
  deps : Int
  callback : Bool
deriving DecidableEq, Repr

/-- SyncResult: a retrieved node with the hash it was requested under. -/
structure SyncResult where
  Hash : Meshbox.Hash
  Data : List UInt8
deriving DecidableEq, Repr

/-- syncMemBatch: the downloaded items not yet written, and the order they
completed in. -/
structure syncMemBatch where
  batch : List (Hash × List UInt8)
  order : List Hash
deriving DecidableEq, Repr

/-- newSyncMemBatch: an empty batch. -/
def newSyncMemBatch : syncMemBatch :=
  ⟨[], []⟩

/-- TrieSync: the database the scheduler checks and commits to, the batch, the
pending requests by hash, and the priority queue of scheduled hashes with their
depths. -/
structure TrieSync where
  database : MemDatabase
  membatch : syncMemBatch
  requests : List (Hash × request)
  queue : List (Hash × Nat)
deriving DecidableEq

/-- TrieSyncLeafCallback: what the callback does with a leaf value reached below
parent: the scheduler it leaves and the error it returns, none for a panic. -/
abbrev TrieSyncLeafCallback (ε : Type) :=
  List UInt8 → Hash → TrieSync → Option (TrieSync × Option ε)

/-- The errors of Process: ErrNotRequested, ErrAlreadyProcessed, a node that
does not decode, and an error of the leaf callback. -/
inductive SyncError (ε : Type) where
  | ErrNotRequested
  | ErrAlreadyProcessed
  | decode (err : NodeError)
  | callback (err : ε)
deriving DecidableEq

/-- The calls a run makes on the scheduler: Missing(max) answered with the given
hashes, Process of a batch of results that reports no error, and Commit. -/
inductive SyncAction where
  | missing (max : Nat) (hashes : List Hash)
  | process (results : List SyncResult)
  | commit

namespace TrieSync

variable {ε : Type}

/-! ### Scheduling -/

/-- schedule: a request for a hash already pending only adds its parents to the
pending one; any other is queued at its depth and recorded. -/
def schedule (s : TrieSync) (req : request) : TrieSync :=
  match GoMap.get s.requests req.hash with
  | some old =>
    { s with requests := GoMap.set s.requests req.hash { old with parents := old.parents ++ req.parents } }
  | none =>
    { s with queue := s.queue ++ [(req.hash, req.depth)], requests := GoMap.set s.requests req.hash req }

/-- The common tail of AddSubTrie and AddRawEntry: a request below a parent adds
one to the parent's count and names it, and a parent that is not pending
panics; the zero hash stands for no parent. -/
def linkParent (s : TrieSync) (req : request) (parent : Hash) : Option TrieSync :=
  if parent = zeroRoot then some (s.schedule req)
  else
    match GoMap.get s.requests parent with
    | none => none
    | some ancestor =>
      let s := { s with requests := GoMap.set s.requests parent { ancestor with deps := ancestor.deps + 1 } }
      some (s.schedule { req with parents := [parent] })

/-- AddSubTrie: a trie-node request for root, unless root is the empty trie, is
in the batch, or decodes from what the database holds under it. -/
def AddSubTrie (s : TrieSync) (root : Hash) (depth : Nat) (parent : Hash) (callback : Bool) :
    Option TrieSync :=
  if root = emptyRoot then some s
  else if (GoMap.get s.membatch.batch root).isSome then some s
  else
    match decodeNode (some root.toList) ((s.database.Get root.toList).getD []) 0 with
    | .ok _ => some s
    | .panic => none
    | .error _ =>
      let req : request :=
        { hash := root, data := none, raw := false, parents := [], depth := depth, deps := 0,
          callback := callback }
      s.linkParent req parent

/-- AddRawEntry: a raw request for hash, unless hash is that of no bytes or is
in the batch or the database. -/
def AddRawEntry (s : TrieSync) (hash : Hash) (depth : Nat) (parent : Hash) : Option TrieSync :=
  if hash = emptyState then some s
  else if (GoMap.get s.membatch.batch hash).isSome then some s
  else if s.database.Has hash.toList then some s
  else
    let req : request :=
      { hash := hash, data := none, raw := true, parents := [], depth := depth, deps := 0,
        callback := false }
    s.linkParent req parent

/-! ### Handing out hashes -/

/-- PopItem: the queue entry of hash taken out, which must be of the greatest
depth in the queue. -/
def popItem (s : TrieSync) (hash : Hash) : Option TrieSync :=
  match s.queue.find? (·.1 = hash) with
  | none => none
  | some entry => if s.queue.all (·.2 ≤ entry.2) then some { s with queue := s.queue.erase entry } else none

/-- The pops of the loop of Missing, one hash after the other. -/
def popItems : TrieSync → List Hash → Option TrieSync
  | s, [] => some s
  | s, hash :: rest => (s.popItem hash).bind (popItems · rest)

/-- Missing(max) answering hashes: each hash is popped in turn, and the loop
stops where the source's does, once the queue is empty or, when max is not
zero, max hashes are out. Any other answer is none. -/
def Missing (s : TrieSync) (max : Nat) (hashes : List Hash) : Option TrieSync :=
  match s.popItems hashes with
  | none => none
  | some s' =>
    if (s'.queue = [] ∨ (max ≠ 0 ∧ hashes.length = max)) ∧ (max = 0 ∨ hashes.length ≤ max) then
      some s'
    else none

/-! ### Committing -/

/-- The loop body of commit over the parents: the parent's count lowered by one,
and the parent committed with next when that completes it. -/
def release (next : TrieSync → Hash → Option TrieSync) (s : TrieSync) (parent : Hash) :
    Option TrieSync :=
  match GoMap.get s.requests parent with
  | none => some s
  | some ancestor =>
    let s := { s with requests := GoMap.set s.requests parent { ancestor with deps := ancestor.deps - 1 } }
    if ancestor.deps - 1 = 0 then next s parent else some s

/-- commit: the pending request of hash written to the batch and dropped from
the map, then released from each of its parents. -/
def commit : Nat → TrieSync → Hash → Option TrieSync
  | 0, _, _ => none
  | fuel + 1, s, hash =>
    match GoMap.get s.requests hash with
    | none => none
    | some req =>
      let s := { s with
        membatch := { batch := GoMap.set s.membatch.batch hash (req.data.getD []),
                      order := s.membatch.order ++ [hash] },
        requests := GoMap.delete s.requests hash }
      req.parents.foldlM (release (commit fuel)) s

/-- The request with its data filled in. -/
def setData (s : TrieSync) (req : request) (data : List UInt8) : TrieSync :=
  { s with requests := GoMap.set s.requests req.hash { req with data := some data } }

/-! ### Processing results -/

/-- The children of a node with their depths: the child of a short node one key
length deeper, and each slot of a full node that is not nil one level deeper.
Any other node panics. -/
def childNodes (node : Node) (depth : Nat) : Option (List (Node × Nat)) :=
  match node with
  | .shortNode key val _ => some [(val, depth + key.length)]
  | .fullNode children _ =>
    some ((List.finRange 17).filterMap fun index =>
      match children index with
      | .nil => none
      | child => some (child, depth + 1))
  | _ => none

/-- The notification of children: a value node goes to the leaf callback when
req runs it. -/
def notify (callback : TrieSyncLeafCallback ε) (req : request) (child : Node) (s : TrieSync) :
    Option (TrieSync × Option ε) :=
  match req.callback, child with
  | true, .valueNode leaf => callback leaf req.hash s
  | _, _ => some (s, none)

/-- The loop of children: each child is notified, and a hash node that neither
the batch nor the database holds becomes a new request below req. -/
def requestChildren (callback : TrieSyncLeafCallback ε) (req : request) :
    List (Node × Nat) → TrieSync → Option (TrieSync × Except ε (List request))
  | [], s => some (s, .ok [])
  | (child, depth) :: rest, s =>
    match notify callback req child s with
    | none => none
    | some (s, some err) => some (s, .error err)
    | some (s, none) =>
      match child with
      | .hashNode node =>
        let hash := BytesToHash node
        if (GoMap.get s.membatch.batch hash).isSome || s.database.Has node then
          requestChildren callback req rest s
        else
          let fresh : request :=
            { hash := hash, data := none, raw := false, parents := [req.hash], depth := depth,
              deps := 0, callback := req.callback }
          (requestChildren callback req rest s).map fun (s, requests) =>
            (s, requests.map (fresh :: ·))
      | _ => requestChildren callback req rest s

/-- The loop of Process from item i on, with whether anything was committed so
far: the scheduler, that flag, the index of the failing item (zero when none
fails) and its error. -/
def processFrom (callback : TrieSyncLeafCallback ε) (committed : Bool) (i : Nat) :
    List SyncResult → TrieSync → Option (TrieSync × Bool × Nat × Option (SyncError ε))
  | [], s => some (s, committed, 0, none)
  | item :: rest, s =>
    match GoMap.get s.requests item.Hash with
    | none => some (s, committed, i, some .ErrNotRequested)
    | some request =>
      if request.data.isSome then some (s, committed, i, some .ErrAlreadyProcessed)
      else if request.raw then
        -- a raw entry is committed directly
        match (s.setData request item.Data).commit s.requests.length item.Hash with
        | none => none
        | some s => processFrom callback true (i + 1) rest s
      else
        match decodeNode (some item.Hash.toList) item.Data 0 with
        | .panic => none
        | .error err => some (s, committed, i, some (.decode err))
        | .ok node =>
          match childNodes node request.depth with
          | none => none
          | some children =>
            match requestChildren callback request children (s.setData request item.Data) with
            | none => none
            | some (s, .error err) => some (s, committed, i, some (.callback err))
            | some (s, .ok requests) =>
              -- the callback may have added children to the request's count
              match GoMap.get s.requests item.Hash with
              | none => none
              | some request =>
                if requests.isEmpty ∧ request.deps = 0 then
                  match s.commit s.requests.length item.Hash with
                  | none => none
                  | some s => processFrom callback true (i + 1) rest s
                else
                  let counted := { request with deps := request.deps + requests.length }
                  let s := { s with requests := GoMap.set s.requests item.Hash counted }
                  processFrom callback committed (i + 1) rest (requests.foldl schedule s)

/-- Process: a batch of retrieved nodes injected in order. -/
def Process (s : TrieSync) (callback : TrieSyncLeafCallback ε) (results : List SyncResult) :
    Option (TrieSync × Bool × Nat × Option (SyncError ε)) :=
  processFrom callback false 0 results s

/-- Commit into the database the scheduler reads: the batch written in the order
its items completed, and the number written; the batch is then emptied. -/
def Commit (s : TrieSync) : TrieSync × Nat :=
  let database := s.membatch.order.foldl
    (fun db key => db.Put key.toList ((GoMap.get s.membatch.batch key).getD [])) s.database
  ({ s with database := database, membatch := newSyncMemBatch }, s.membatch.order.length)

/-- Pending: the number of pending requests. -/
def Pending (s : TrieSync) : Nat :=
  s.requests.length

/-! ### Runs -/

/-- One call of a run; a Process that reports an error ends the run. -/
def step (callback : TrieSyncLeafCallback ε) (s : TrieSync) : SyncAction → Option TrieSync
  | .missing max hashes => s.Missing max hashes
  | .process results =>
    match s.Process callback results with
    | some (s, _, _, none) => some s
    | _ => none
  | .commit => some s.Commit.1

/-- The calls of a run one after the other. -/
def run (callback : TrieSyncLeafCallback ε) : TrieSync → List SyncAction → Option TrieSync
  | s, [] => some s
  | s, action :: rest => (s.step callback action).bind (run callback · rest)

end TrieSync

/-- NewTrieSync: a scheduler over database with the trie under root requested. -/
def NewTrieSync (root : Hash) (database : MemDatabase) (callback : Bool) : Option TrieSync :=
  ({ database := database, membatch := newSyncMemBatch, requests := [], queue := [] } : TrieSync).AddSubTrie
    root 0 zeroRoot callback


namespace TrieSync

/-! ### One call at a time -/

section Calls

variable {ε : Type} {s s' : TrieSync} {callback : TrieSyncLeafCallback ε}

/-- A root that is neither the empty trie nor in the batch nor in the database
is requested. -/
theorem AddSubTrie_of_absent {root parent : Hash} {depth : Nat} {runs : Bool}
    (nonEmpty : root ≠ emptyRoot) (unbatched : GoMap.get s.membatch.batch root = none)
    (absent : s.database.Get root.toList = none) :
    s.AddSubTrie root depth parent runs =
      s.linkParent
        { hash := root, data := none, raw := false, parents := [], depth := depth, deps := 0,
          callback := runs } parent := by
  simp [AddSubTrie, nonEmpty, unbatched, absent, decodeNode_nil]

/-- A trie node whose children are requested without error: it is committed when
nothing is left to wait for, and otherwise waits for the new requests too. -/
theorem processFrom_node (committed : Bool) (i : Nat) {item : SyncResult}
    {rest : List SyncResult} {req req' : request} {node : Node} {children : List (Node × Nat)}
    {requests : List request} (found : GoMap.get s.requests item.Hash = some req)
    (fresh : req.data = none) (trie : req.raw = false)
    (decoded : decodeNode (some item.Hash.toList) item.Data 0 = .ok node)
    (kids : childNodes node req.depth = some children)
    (requested : requestChildren callback req children (s.setData req item.Data) = some (s', .ok requests))
    (recount : GoMap.get s'.requests item.Hash = some req') :
    processFrom callback committed i (item :: rest) s =
      if requests.isEmpty ∧ req'.deps = 0 then
        (s'.commit s'.requests.length item.Hash).bind (processFrom callback true (i + 1) rest)
      else
        processFrom callback committed (i + 1) rest (requests.foldl schedule
          { s' with requests := GoMap.set s'.requests item.Hash { req' with deps := req'.deps + requests.length } }) := by
  simp only [processFrom, found, fresh, trie, decoded, kids, requested, recount, Option.isSome_none,
    Bool.false_eq_true, if_false]
  split
  · cases s'.commit s'.requests.length item.Hash <;> rfl
  · rfl

/-- A leaf value below a request that runs the callback goes to the callback. -/
theorem requestChildren_value {req : request} {leaf : List UInt8} {depth : Nat}
    {rest : List (Node × Nat)} (runs : req.callback = true)
    (notified : callback leaf req.hash s = some (s', none)) :
    requestChildren callback req ((.valueNode leaf, depth) :: rest) s =
      requestChildren callback req rest s' := by
  simp [requestChildren, notify, runs, notified]

end Calls

/-! ### No pending request for a batched hash

The scheduler never holds a pending request for a hash that is in its batch:
AddSubTrie, AddRawEntry and children look in the batch before they schedule,
commit moves a request from the map into the batch, and Commit empties the
batch. The argument also needs each request to be stored under its own hash,
since setData writes under the request's hash. -/

section Invariant

variable {ε : Type} {s s' s'' : TrieSync} {callback : TrieSyncLeafCallback ε}

/-- Every pending request is stored under its own hash. -/
def Keyed (s : TrieSync) : Prop :=
  ∀ entry ∈ s.requests, entry.2.hash = entry.1

/-- No hash is both pending and in the batch. -/
def Separated (s : TrieSync) : Prop :=
  ∀ hash ∈ s.requests.map Prod.fst, hash ∉ s.membatch.batch.map Prod.fst

/-- The invariant of the scheduler. -/
structure Inv (s : TrieSync) : Prop where
  keyed : s.Keyed
  separated : s.Separated

/-- s' only schedules: it has the batch of s, each hash it has pending was
pending in s or is not in the batch, and it is keyed when s is. -/
structure Grows (s s' : TrieSync) : Prop where
  batch : s'.membatch = s.membatch
  fresh : ∀ hash ∈ s'.requests.map Prod.fst,
    hash ∈ s.requests.map Prod.fst ∨ hash ∉ s.membatch.batch.map Prod.fst
  keyed : s.Keyed → s'.Keyed

theorem Grows.refl (s : TrieSync) : Grows s s :=
  ⟨rfl, fun _ pending => .inl pending, id⟩

theorem Grows.trans (first : Grows s s') (second : Grows s' s'') : Grows s s'' where
  batch := second.batch.trans first.batch
  fresh hash pending := by
    rcases second.fresh hash pending with earlier | unbatched
    · exact first.fresh hash earlier
    · rw [first.batch] at unbatched
      exact .inr unbatched
  keyed := second.keyed ∘ first.keyed

theorem Inv.grows (inv : s.Inv) (grows : Grows s s') : s'.Inv where
  keyed := grows.keyed inv.keyed
  separated hash pending := by
    rw [grows.batch]
    rcases grows.fresh hash pending with earlier | unbatched
    · exact inv.separated hash earlier
    · exact unbatched

/-- A hash the batch does not hold, as the checks of the source read it. -/
theorem not_mem_batch {hash : Hash} (unbatched : GoMap.get s.membatch.batch hash = none) :
    hash ∉ s.membatch.batch.map Prod.fst :=
  GoMap.get_eq_none_iff.mp unbatched

/-- Replacing a pending request by one of the same hash only schedules. -/
theorem update_grows {hash : Hash} {req : request} (req' : request)
    (found : GoMap.get s.requests hash = some req) (same : req'.hash = req.hash) :
    Grows s { s with requests := GoMap.set s.requests hash req' } where
  batch := rfl
  fresh other pending := by
    rcases GoMap.mem_keys_set.mp pending with rfl | earlier
    · exact .inl (List.mem_map.mpr ⟨_, GoMap.mem_of_get found, rfl⟩)
    · exact .inl earlier
  keyed keyed entry member := by
    rcases GoMap.mem_set member with rfl | earlier
    · rw [same]
      exact keyed _ (GoMap.mem_of_get found)
    · exact keyed entry earlier

theorem schedule_grows {req : request} (unbatched : GoMap.get s.membatch.batch req.hash = none) :
    Grows s (s.schedule req) := by
  unfold schedule
  split
  · rename_i old found
    exact update_grows _ found rfl
  · refine ⟨rfl, fun hash pending => ?_, fun keyed entry member => ?_⟩
    · rcases GoMap.mem_keys_set.mp pending with rfl | earlier
      · exact .inr (not_mem_batch unbatched)
      · exact .inl earlier
    · rcases GoMap.mem_set member with rfl | earlier
      · rfl
      · exact keyed entry earlier

theorem linkParent_grows {req : request} {parent : Hash}
    (unbatched : GoMap.get s.membatch.batch req.hash = none)
    (linked : s.linkParent req parent = some s') : Grows s s' := by
  unfold linkParent at linked
  split at linked
  · cases linked
    exact schedule_grows unbatched
  · split at linked
    · cases linked
    · rename_i ancestor found
      cases linked
      exact (update_grows { ancestor with deps := ancestor.deps + 1 } found rfl).trans
        (schedule_grows unbatched)

theorem AddSubTrie_grows {root parent : Hash} {depth : Nat} {runs : Bool}
    (added : s.AddSubTrie root depth parent runs = some s') : Grows s s' := by
  unfold AddSubTrie at added
  split at added
  · cases added
    exact Grows.refl s
  · split at added
    · cases added
      exact Grows.refl s
    · rename_i _ batched
      split at added
      · cases added
        exact Grows.refl s
      · cases added
      · exact linkParent_grows (by simpa using batched) added

theorem AddRawEntry_grows {hash parent : Hash} {depth : Nat}
    (added : s.AddRawEntry hash depth parent = some s') : Grows s s' := by
  unfold AddRawEntry at added
  split at added
  · cases added
    exact Grows.refl s
  · split at added
    · cases added
      exact Grows.refl s
    · rename_i _ batched
      split at added
      · cases added
        exact Grows.refl s
      · exact linkParent_grows (by simpa using batched) added

/-- A callback that only schedules, as the one of NewStateSync does. -/
def KeepsGrowing (callback : TrieSyncLeafCallback ε) : Prop :=
  ∀ leaf parent s s' err, callback leaf parent s = some (s', err) → Grows s s'

/-- notify only schedules. -/
theorem notify_grows (growing : KeepsGrowing callback) {req : request} {child : Node} {err : Option ε}
    (notified : notify callback req child s = some (s', err)) : Grows s s' := by
  unfold notify at notified
  split at notified
  · exact growing _ _ _ _ _ notified
  · cases notified
    exact Grows.refl s

/-- children only schedules, and each request it returns is for a hash the batch
did not hold. -/
theorem requestChildren_grows (growing : KeepsGrowing callback) {req : request}
    {children : List (Node × Nat)} {result : Except ε (List request)}
    (requested : requestChildren callback req children s = some (s', result)) :
    Grows s s' ∧ ∀ requests, result = .ok requests →
      ∀ fresh ∈ requests, GoMap.get s.membatch.batch fresh.hash = none := by
  fun_induction requestChildren callback req children s generalizing s' result with
  | case1 s =>
    cases requested
    exact ⟨Grows.refl s, by simp⟩
  | case2 child depth rest s notified => cases requested
  | case3 child depth rest s s₁ err notified =>
    cases requested
    exact ⟨notify_grows growing notified, by simp⟩
  | case4 depth rest s s₁ node hash known notified =>
    -- a hash the batch or the database holds is not requested
    rename_i ih
    have first := notify_grows growing notified
    obtain ⟨grows, restFresh⟩ := ih requested
    rw [first.batch] at restFresh
    exact ⟨first.trans grows, restFresh⟩
  | case5 depth rest s s₁ node hash unknown child =>
    -- a hash neither holds is requested in front of what the rest requests
    rename_i notified ih
    have first := notify_grows growing notified
    obtain ⟨⟨s₂, result'⟩, restRun, done⟩ := Option.map_eq_some_iff.mp requested
    cases done
    obtain ⟨grows, restFresh⟩ := ih restRun
    rw [first.batch] at restFresh unknown
    refine ⟨first.trans grows, fun requests done member request => ?_⟩
    cases result' with
    | error err => cases done
    | ok tail =>
      cases done
      rcases List.mem_cons.mp request with rfl | inTail
      · have unbatched : GoMap.get s.membatch.batch hash = none ∧ s₁.database.Has node = false := by
          simpa using unknown
        exact unbatched.1
      · exact restFresh tail rfl member inTail
  | case6 child depth rest s s₁ notified other ih =>
    have first := notify_grows growing notified
    obtain ⟨grows, restFresh⟩ := ih requested
    rw [first.batch] at restFresh
    exact ⟨first.trans grows, restFresh⟩

theorem foldl_schedule_grows {requests : List request}
    (fresh : ∀ req ∈ requests, GoMap.get s.membatch.batch req.hash = none) :
    Grows s (requests.foldl schedule s) := by
  induction requests generalizing s with
  | nil => exact Grows.refl s
  | cons req rest ih =>
    have first := schedule_grows (fresh req (List.mem_cons_self ..))
    refine first.trans (ih fun later member => ?_)
    rw [first.batch]
    exact fresh later (List.mem_cons_of_mem _ member)

/-- commit moves the request from the map to the batch and keeps the invariant,
and so do the commits of the parents it completes. -/
theorem commit_inv {fuel : Nat} {hash : Hash} (inv : s.Inv)
    (committed : s.commit fuel hash = some s') : s'.Inv := by
  induction fuel generalizing s s' hash with
  | zero => cases committed
  | succ fuel ih =>
    unfold commit at committed
    split at committed
    · cases committed
    · rename_i req found
      -- the request leaves the map and enters the batch
      have moved : Inv { s with
          membatch := { batch := GoMap.set s.membatch.batch hash (req.data.getD []),
                        order := s.membatch.order ++ [hash] },
          requests := GoMap.delete s.requests hash } := by
        constructor
        · intro entry member
          exact inv.keyed entry (List.mem_of_mem_filter member)
        · intro other pending batched
          obtain ⟨different, earlier⟩ := GoMap.mem_keys_delete.mp pending
          rcases GoMap.mem_keys_set.mp batched with same | before
          · exact different same
          · exact inv.separated other earlier before
      -- releasing each parent keeps it, through the commits it triggers
      have releaseKeeps : ∀ s₁, s₁.Inv → ∀ parent ∈ req.parents,
          SatisfiesM Inv (release (commit fuel) s₁ parent) := by
        intro s₁ inv₁ parent _
        rw [SatisfiesM_Option_eq]
        intro s₂ step
        unfold release at step
        split at step
        · cases step
          exact inv₁
        · rename_i ancestor present
          have lowered :=
            inv₁.grows (update_grows { ancestor with deps := ancestor.deps - 1 } present rfl)
          split at step
          · exact ih lowered step
          · cases step
            exact lowered
      exact SatisfiesM_Option_eq.mp (List.satisfiesM_foldlM moved releaseKeeps) s' committed

/-- setData fills in a pending request, which a keyed map stores under its hash. -/
theorem setData_grows {hash : Hash} {req : request} (data : List UInt8) (keyed : s.Keyed)
    (found : GoMap.get s.requests hash = some req) : Grows s (s.setData req data) := by
  have sameHash : req.hash = hash := keyed _ (GoMap.mem_of_get found)
  rw [← sameHash] at found
  exact update_grows _ found rfl

/-- Process keeps the invariant, whatever it returns. -/
theorem processFrom_inv (growing : KeepsGrowing callback) {committed : Bool} {i : Nat}
    {items : List SyncResult} {result : TrieSync × Bool × Nat × Option (SyncError ε)}
    (inv : s.Inv) (processed : processFrom callback committed i items s = some result) :
    result.1.Inv := by
  induction items generalizing s committed i with
  | nil =>
    cases processed
    exact inv
  | cons item rest ih =>
    unfold processFrom at processed
    split at processed
    · cases processed
      exact inv
    · rename_i req found
      have stored := inv.grows (setData_grows item.Data inv.keyed found)
      split at processed
      · cases processed
        exact inv
      split at processed
      · -- a raw entry is committed at once
        split at processed
        · cases processed
        · rename_i s₁ committedRaw
          exact ih (commit_inv stored committedRaw) processed
      -- a trie node: decoded, its children requested, then committed or left waiting
      split at processed
      · cases processed
      · cases processed
        exact inv
      rename_i node decoded
      split at processed
      · cases processed
      rename_i children kids
      split at processed
      · cases processed
      · cases processed
        exact (stored.grows (requestChildren_grows growing ‹_›).1)
      rename_i s₂ requests requested
      obtain ⟨grows, fresh⟩ := requestChildren_grows growing requested
      have inv₂ := stored.grows grows
      split at processed
      · cases processed
      rename_i request' recount
      split at processed
      · split at processed
        · cases processed
        · rename_i s₃ committedNode
          exact ih (commit_inv inv₂ committedNode) processed
      · have counted := inv₂.grows (update_grows { request' with deps := request'.deps + requests.length } recount rfl)
        refine ih (counted.grows (foldl_schedule_grows fun child member => ?_)) processed
        rw [show s₂.membatch = (s.setData req item.Data).membatch from grows.batch]
        exact fresh requests rfl child member

/-- Missing only takes entries off the queue. -/
theorem popItems_keeps {hashes : List Hash} (popped : s.popItems hashes = some s') :
    s'.requests = s.requests ∧ s'.membatch = s.membatch := by
  induction hashes generalizing s with
  | nil =>
    cases popped
    exact ⟨rfl, rfl⟩
  | cons hash rest ih =>
    rw [popItems] at popped
    cases first : s.popItem hash with
    | none => rw [first] at popped; cases popped
    | some s₁ =>
      rw [first] at popped
      obtain ⟨sameRequests, sameBatch⟩ := ih popped
      unfold popItem at first
      split at first
      · cases first
      · split at first
        · cases first
          exact ⟨sameRequests, sameBatch⟩
        · cases first

theorem Missing_inv {max : Nat} {hashes : List Hash} (inv : s.Inv)
    (missing : s.Missing max hashes = some s') : s'.Inv := by
  unfold Missing at missing
  split at missing
  · cases missing
  · rename_i s₁ popped
    split at missing
    · cases missing
      obtain ⟨sameRequests, sameBatch⟩ := popItems_keeps popped
      exact ⟨fun entry member => inv.keyed entry (sameRequests ▸ member),
        fun hash pending => sameBatch ▸ inv.separated hash (sameRequests ▸ pending)⟩
    · cases missing

/-- Commit empties the batch. -/
theorem Commit_inv (inv : s.Inv) : s.Commit.1.Inv :=
  ⟨inv.keyed, fun _ _ batched => by simp [Commit, newSyncMemBatch] at batched⟩

theorem step_inv (growing : KeepsGrowing callback) {action : SyncAction} (inv : s.Inv)
    (stepped : s.step callback action = some s') : s'.Inv := by
  unfold step at stepped
  split at stepped
  · exact Missing_inv inv stepped
  · split at stepped
    · cases stepped
      exact processFrom_inv growing inv ‹_›
    · cases stepped
  · cases stepped
    exact Commit_inv inv

/-- Every run keeps the invariant. -/
theorem run_inv (growing : KeepsGrowing callback) {actions : List SyncAction} (inv : s.Inv)
    (ran : s.run callback actions = some s') : s'.Inv := by
  induction actions generalizing s with
  | nil =>
    cases ran
    exact inv
  | cons action rest ih =>
    rw [run] at ran
    cases stepped : s.step callback action with
    | none => rw [stepped] at ran; cases ran
    | some s₁ =>
      rw [stepped] at ran
      exact ih (step_inv growing inv stepped) ran

end Invariant

end TrieSync

/-- A new scheduler holds the one request for its root, if any. -/
theorem NewTrieSync_inv {root : Hash} {database : MemDatabase} {runs : Bool} {s : TrieSync}
    (created : NewTrieSync root database runs = some s) : s.Inv := by
  have empty : TrieSync.Inv ⟨database, newSyncMemBatch, [], []⟩ := by
    constructor
    · intro entry member
      cases member
    · intro hash pending
      cases pending
  exact empty.grows (TrieSync.AddSubTrie_grows created)

/-- Over every run of a scheduler whose callback only schedules, no pending
request is for a hash in the batch. -/
theorem pending_unbatched_of_run {ε : Type} {callback : TrieSyncLeafCallback ε}
    (growing : TrieSync.KeepsGrowing callback) {root : Hash} {database : MemDatabase}
    {runs : Bool} {s s' : TrieSync} {actions : List SyncAction}
    (created : NewTrieSync root database runs = some s)
    (ran : s.run callback actions = some s') {hash : Hash}
    (pending : (GoMap.get s'.requests hash).isSome) : GoMap.get s'.membatch.batch hash = none := by
  have inv := TrieSync.run_inv growing (NewTrieSync_inv created) ran
  obtain ⟨req, found⟩ := Option.isSome_iff_exists.mp pending
  have key : hash ∈ s'.requests.map Prod.fst := List.mem_map.mpr ⟨_, GoMap.mem_of_get found, rfl⟩
  exact GoMap.get_eq_none_iff.mpr (inv.separated hash key)


end Meshbox.Trie
