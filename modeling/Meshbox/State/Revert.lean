/-
Snapshot and RevertToSnapshot of core/state over whole runs of message
execution (statedb.go, journal.go, core/vm/evm.go). Message execution works on
the state database through the vm.StateDB interface: calls that change an
account, the refund counter, the logs or the preimages, each journalled with
what it replaces, and reads that load accounts into the live map. Each call
frame of the EVM takes a Snapshot first and, when the frame fails, calls
RevertToSnapshot with the snapshot's id. Runs are these runs: calls one after
another, and frames nested in any way, each kept or reverted.

A revert takes back everything a reader sees. From a state database whose live
objects sit under their addresses, whose account trie holds no account a reader
does not see and whose revision ids are below the next one, a Snapshot, any run
and RevertToSnapshot of the snapshot's id give a state in which Exist, Empty,
GetBalance, GetNonce, GetCodeHash, GetState, HasSuicided, GetRefund, GetLogs
and Preimages answer as before the Snapshot, with the journal and the revisions
as they were. The dirty set is not among what is restored: the undo of a touch
drops an account from it even when the account was dirty before
(RevertToSnapshot_touch_drops_dirty). Nor is the loaded code: the undo of
SetCode puts back the code SetCode loaded, which comes through the
address-keyed code cache.

Each call appends entries whose undoReads give back what a reader saw before it
(Undoable); by induction over the run, so does every run, frames included, and
RevertToSnapshot of a frame's snapshot undoes exactly the entries the frame
appended.
-/

import Meshbox.State.Journal

namespace Meshbox.State

open UndoLog Meshbox.Params

namespace StateDB

/-- SubRefund: the refund counter lowered, journalled first; none is the panic
of a counter that would go below zero. -/
def SubRefund (s : StateDB) (gas : Nat) : Option StateDB :=
  let s := s.journalAppend (.refundChange s.refund)
  if gas > s.refund then none
  else some { s with refund := s.refund - gas }

section Window

variable (s : StateDB)

/-- Only the live objects, the dirty set and the journal differ, and the journal
has the entries appended. -/
def Writes (s' : StateDB) (entries : List journalEntry) : Prop :=
  ∃ objects dirty, s' = { s with stateObjects := objects, stateObjectsDirty := dirty, journal := s.journal ++ entries }

/-- What a stretch of calls leaves that a revert has to take back: entries
appended to the journal whose undoReads over the account trie give back what a
reader saw, the account trie as it was, no account a reader saw hidden, and the
live objects still under their addresses. -/
structure Undoable (s' : StateDB) : Prop where
  trie : s'.trie = s.trie
  logged : ∃ entries, s'.journal = s.journal ++ entries ∧
    undoAll (journalEntry.undoReads s.trie) entries s'.reads = s.reads
  kept : ∀ addr, s'.seen addr = none → s.seen addr = none
  keyed : s'.Keyed

/-- The revisions taken since: appended to the stack, with ids from the next id
on and below the next id now. -/
def Stacked (s' : StateDB) : Prop :=
  ∃ later, s'.validRevisions = s.validRevisions ++ later ∧ s.nextRevisionId ≤ s'.nextRevisionId ∧
    ∀ rev ∈ later, s.nextRevisionId ≤ rev.id ∧ rev.id < s'.nextRevisionId

/-- The states a revert is proved from: live objects under their addresses, no
account in the trie that a reader does not see, revision ids below the next. -/
structure Inv : Prop where
  keyed : s.Keyed
  trieSeen : ∀ addr, s.seen addr = none → s.trie addr = none
  fresh : ∀ rev ∈ s.validRevisions, rev.id < s.nextRevisionId

end Window

variable {s t u : StateDB}

/-! ### Stretches of calls -/

theorem Undoable.refl (keyed : s.Keyed) : s.Undoable s :=
  ⟨rfl, ⟨[], (List.append_nil _).symm, rfl⟩, fun _ hidden => hidden, keyed⟩

theorem Undoable.trans (first : s.Undoable t) (second : t.Undoable u) : s.Undoable u := by
  obtain ⟨firstEntries, firstJournal, firstUndone⟩ := first.logged
  obtain ⟨secondEntries, secondJournal, secondUndone⟩ := second.logged
  -- the later entries are undone first, over the same trie
  have secondUndone' : undoAll (journalEntry.undoReads s.trie) secondEntries u.reads = t.reads := by
    rw [← first.trie]
    exact secondUndone
  refine ⟨second.trie.trans first.trie, ⟨firstEntries ++ secondEntries, ?_, ?_⟩,
    fun addr hidden => first.kept addr (second.kept addr hidden), second.keyed⟩
  · rw [secondJournal, firstJournal, List.append_assoc]
  · rw [undoAll_append, secondUndone', firstUndone]

theorem Stacked.refl (s : StateDB) : s.Stacked s :=
  ⟨[], (List.append_nil _).symm, le_refl _, fun _ member => by cases member⟩

theorem Stacked.of_same (revisions : t.validRevisions = s.validRevisions) (next : t.nextRevisionId = s.nextRevisionId) :
    s.Stacked t :=
  ⟨[], by rw [revisions, List.append_nil], next.ge, fun _ member => by cases member⟩

theorem Stacked.trans (first : s.Stacked t) (second : t.Stacked u) : s.Stacked u := by
  obtain ⟨firstLater, firstStack, firstNext, firstIds⟩ := first
  obtain ⟨secondLater, secondStack, secondNext, secondIds⟩ := second
  refine ⟨firstLater ++ secondLater, by rw [secondStack, firstStack, List.append_assoc], by omega, ?_⟩
  intro rev member
  rcases List.mem_append.mp member with early | late
  · have bounds := firstIds rev early
    omega
  · have bounds := secondIds rev late
    omega

/-- A stretch of calls from a state of the invariant that a revert can take back
ends in a state of the invariant. -/
theorem Inv.of_window (inv : s.Inv) (undoable : s.Undoable t) (stacked : s.Stacked t) : t.Inv := by
  obtain ⟨later, stack, next, ids⟩ := stacked
  refine ⟨undoable.keyed, fun addr hidden => ?_, fun rev member => ?_⟩
  · rw [undoable.trie]
    exact inv.trieSeen addr (undoable.kept addr hidden)
  · rw [stack] at member
    rcases List.mem_append.mp member with early | late
    · have below := inv.fresh rev early
      omega
    · exact (ids rev late).2

/-- Writes that only the live objects and the journal show, and whose entries
give back what a reader saw, are undoable, and take no revision. -/
theorem Writes.undoable {entries : List journalEntry} (writes : s.Writes t entries)
    (undone : undoAll (journalEntry.undoReads s.trie) entries { s.reads with accounts := t.seen } = s.reads)
    (kept : ∀ addr, t.seen addr = none → s.seen addr = none) (keyed : t.Keyed) :
    s.Undoable t ∧ s.Stacked t := by
  obtain ⟨objects, dirty, rfl⟩ := writes
  exact ⟨⟨rfl, ⟨entries, rfl, undone⟩, kept, keyed⟩, Stacked.of_same rfl rfl⟩

theorem writes_of_objectsOnly (only : s.ObjectsOnly t) : s.Writes t [] := by
  obtain ⟨objects, dirty, rfl⟩ := only
  exact ⟨objects, dirty, by rw [List.append_nil]⟩

theorem Writes.trans {entries later : List journalEntry} (first : s.Writes t entries) (second : t.Writes u later) :
    s.Writes u (entries ++ later) := by
  obtain ⟨_, _, rfl⟩ := first
  obtain ⟨objects, dirty, rfl⟩ := second
  exact ⟨objects, dirty, by rw [List.append_assoc]⟩

theorem Writes.seen_of_objects {entries : List journalEntry} (writes : s.Writes t entries)
    (objects : t.stateObjects = s.stateObjects) : t.seen = s.seen := by
  obtain ⟨objs, _, rfl⟩ := writes
  have same : objs = s.stateObjects := objects
  subst same
  rfl

theorem writes_setStateObject {entries : List journalEntry} (writes : s.Writes t entries) (obj : stateObject) :
    s.Writes (t.setStateObject obj) entries := by
  obtain ⟨_, _, rfl⟩ := writes
  exact ⟨_, _, rfl⟩

theorem writes_journalAppend (entry : journalEntry) : s.Writes (s.journalAppend entry) [entry] :=
  ⟨_, _, rfl⟩

@[simp] theorem seen_journalAppend (entry : journalEntry) : (s.journalAppend entry).seen = s.seen :=
  rfl

theorem writes_fireDirty {entries : List journalEntry} (writes : s.Writes t entries) (obj : stateObject) :
    s.Writes (t.fireDirty obj).1 entries := by
  rw [fireDirty_fst]
  obtain ⟨_, _, rfl⟩ := writes
  exact ⟨_, _, rfl⟩

/-- A write of one account over what a reader saw, taken back by entries that
put back what a reader saw there: undoable. -/
theorem undoable_of_write {entries : List journalEntry} (addr : Address) (view : AccountView)
    (keyed : t.Keyed) (writes : s.Writes t entries) (written : t.seen = Function.update s.seen addr (some view))
    (undone : ∀ r : Reads, r.accounts addr = some view →
      undoAll (journalEntry.undoReads s.trie) entries r = { r with accounts := Function.update r.accounts addr (s.seen addr) }) :
    s.Undoable t ∧ s.Stacked t := by
  refine writes.undoable ?_ (fun other hidden => ?_) keyed
  · have atAddr : ({ s.reads with accounts := t.seen } : Reads).accounts addr = some view := by
      show t.seen addr = some view
      rw [written, Function.update_self]
    rw [undone _ atAddr]
    show ({ s.reads with accounts := Function.update t.seen addr (s.seen addr) } : Reads) = s.reads
    rw [written, Function.update_idem, Function.update_eq_self]
    rfl
  · by_cases same : other = addr
    · rw [written, same, Function.update_self] at hidden
      cases hidden
    · rwa [written, Function.update_of_ne same] at hidden

/-! ### Creating an object -/

theorem createObject_eq (addr : Address) :
    s.createObject addr =
      (((Object.setNonce (s.getStateObject addr).2 (newObject addr Account.empty) 0).2, (s.getStateObject addr).1),
        ((Object.setNonce (s.getStateObject addr).2 (newObject addr Account.empty) 0).1.journalAppend
          (match (s.getStateObject addr).1 with
            | none => .createObjectChange addr
            | some prev => .resetObjectChange prev)).setStateObject
          (Object.setNonce (s.getStateObject addr).2 (newObject addr Account.empty) 0).2) :=
  rfl

/-- createObject: a new empty object at addr, not deleted, where the object it
replaces is what a reader saw; one entry is journalled, whose undo gives back
what a reader saw at addr. -/
theorem createObject_spec (inv : s.Inv) (addr : Address) :
    ∃ entry, s.Writes (s.createObject addr).2 [entry] ∧
      (s.createObject addr).1.1.view = (newObject addr Account.empty).view ∧
      (s.createObject addr).1.1.deleted = false ∧
      (s.createObject addr).1.2.map stateObject.view = s.seen addr ∧
      (s.createObject addr).2.seen = Function.update s.seen addr (some (newObject addr Account.empty).view) ∧
      (s.createObject addr).2.Keyed ∧
      ∀ r : Reads, entry.undoReads s.trie r = { r with accounts := Function.update r.accounts addr (s.seen addr) } := by
  obtain ⟨found, located, seenLoaded, keyedLoaded⟩ := getStateObject_spec inv.keyed addr
  have loads := writes_of_objectsOnly (objectsOnly_getStateObject (s := s) addr)
  rw [createObject_eq]
  -- the new object's nonce is set to zero, which only fires its dirty callback
  have fired : s.Writes (Object.setNonce (s.getStateObject addr).2 (newObject addr Account.empty) 0).1 [] :=
    writes_fireDirty loads _
  have firedSeen : (Object.setNonce (s.getStateObject addr).2 (newObject addr Account.empty) 0).1.seen = s.seen :=
    (seen_fireDirty _).trans seenLoaded
  refine ⟨match (s.getStateObject addr).1 with
    | none => .createObjectChange addr
    | some prev => .resetObjectChange prev, writes_setStateObject (fired.trans (writes_journalAppend _)) _,
    rfl, rfl, found, ?_, Keyed.setStateObject (keyedLoaded.fireDirty _) _, fun r => ?_⟩
  · rw [seen_setStateObject]
    show Function.update (Object.setNonce (s.getStateObject addr).2 (newObject addr Account.empty) 0).1.seen addr
      (some (newObject addr Account.empty).view) = _
    rw [firedSeen]
  · cases prevEq : (s.getStateObject addr).1 with
    | none =>
      -- nothing was seen at addr, so the trie holds nothing there
      have unseen : s.seen addr = none := by rw [← found, prevEq]; rfl
      simp only [journalEntry.undoReads, inv.trieSeen addr unseen, Option.map_none, unseen]
    | some prev =>
      obtain ⟨atAddr, notDeleted⟩ := located prev prevEq
      have seenPrev : s.seen addr = some prev.view := by rw [← found, prevEq]; rfl
      simp only [journalEntry.undoReads, atAddr, notDeleted, Bool.false_eq_true, if_false, seenPrev]

theorem GetOrNewStateObject_of_found {addr : Address} {obj : stateObject}
    (found : (s.getStateObject addr).1 = some obj) (notDeleted : obj.deleted = false) :
    s.GetOrNewStateObject addr = (obj, (s.getStateObject addr).2) := by
  unfold GetOrNewStateObject
  rcases loading : s.getStateObject addr with ⟨_ | other, loaded⟩
  · rw [loading] at found
    cases found
  · rw [loading] at found
    cases found
    simp only [notDeleted, Bool.false_eq_true, if_false]

theorem GetOrNewStateObject_of_none {addr : Address} (missing : (s.getStateObject addr).1 = none) :
    s.GetOrNewStateObject addr = ((s.createObject addr).1.1, (s.createObject addr).2) := by
  have unloaded := getStateObject_snd_of_none missing
  unfold GetOrNewStateObject
  rcases loading : s.getStateObject addr with ⟨_ | other, loaded⟩
  · rw [loading] at unloaded
    cases unloaded
    rfl
  · rw [loading] at missing
    cases missing

/-- GetOrNewStateObject: the object a reader sees at addr, or a new empty one
whose creation is journalled; the entries' undo gives back what a reader saw at
addr. -/
theorem GetOrNewStateObject_spec (inv : s.Inv) (addr : Address) :
    ∃ entries, s.Writes (s.GetOrNewStateObject addr).2 entries ∧
      (s.GetOrNewStateObject addr).1.address = addr ∧ (s.GetOrNewStateObject addr).1.deleted = false ∧
      (s.GetOrNewStateObject addr).2.seen = Function.update s.seen addr (some (s.GetOrNewStateObject addr).1.view) ∧
      (s.GetOrNewStateObject addr).2.Keyed ∧
      ∀ r : Reads, r.accounts addr = some (s.GetOrNewStateObject addr).1.view →
        undoAll (journalEntry.undoReads s.trie) entries r =
          { r with accounts := Function.update r.accounts addr (s.seen addr) } := by
  obtain ⟨found, located, seenLoaded, keyedLoaded⟩ := getStateObject_spec inv.keyed addr
  cases loading : (s.getStateObject addr).1 with
  | none =>
    -- no account is seen: a new one is created
    rw [GetOrNewStateObject_of_none loading]
    obtain ⟨entry, writes, newView, newDeleted, -, newSeen, newKeyed, undone⟩ := createObject_spec inv addr
    refine ⟨[entry], writes, ?_, newDeleted, ?_, newKeyed, fun r _ => undone r⟩
    · rw [← stateObject.view_address, newView]
      rfl
    · rw [newSeen, newView]
  | some obj =>
    obtain ⟨atAddr, notDeleted⟩ := located obj loading
    have seenObj : s.seen addr = some obj.view := by rw [← found, loading]; rfl
    rw [GetOrNewStateObject_of_found loading notDeleted]
    refine ⟨[], writes_of_objectsOnly (objectsOnly_getStateObject addr), atAddr, notDeleted, ?_, keyedLoaded,
      fun r atView => ?_⟩
    · rw [seenLoaded, ← seenObj, Function.update_eq_self]
    · rw [undoAll_nil, seenObj, ← atView, Function.update_eq_self]

/-- The object GetOrNewStateObject returns shows what a reader saw at addr, or a
new empty account where a reader saw none. -/
theorem GetOrNewStateObject_view (inv : s.Inv) (addr : Address) :
    (s.GetOrNewStateObject addr).1.view = (s.seen addr).getD (newObject addr Account.empty).view := by
  obtain ⟨found, located, -, -⟩ := getStateObject_spec inv.keyed addr
  cases loading : (s.getStateObject addr).1 with
  | none =>
    obtain ⟨-, -, newView, -⟩ := createObject_spec inv addr
    have unseen : s.seen addr = none := by rw [← found, loading]; rfl
    rw [GetOrNewStateObject_of_none loading, newView, unseen]
    rfl
  | some obj =>
    obtain ⟨-, notDeleted⟩ := located obj loading
    have seenObj : s.seen addr = some obj.view := by rw [← found, loading]; rfl
    rw [GetOrNewStateObject_of_found loading notDeleted, seenObj]
    rfl

/-! ### The setters of a live object -/

section Setters

variable (s : StateDB) (obj : stateObject)

/-- What a setter of a live object leaves that a revert takes back: journal
entries appended and the dirty callback fired with the live objects untouched,
the object at its address and not deleted, and entries whose undoReads give the
object's account back. -/
structure RestoresAt (result : StateDB × stateObject) : Prop where
  logs : ∃ entries, s.Writes result.1 entries ∧ result.1.stateObjects = s.stateObjects ∧
    ∀ trie (r : Reads), r.accounts obj.address = some result.2.view →
      undoAll (journalEntry.undoReads trie) entries r =
        { r with accounts := Function.update r.accounts obj.address (some obj.view) }
  address : result.2.address = obj.address
  deleted : result.2.deleted = obj.deleted

/-- A setter that journals one entry and fires the dirty callback on the changed
object, when the entry's undoReads gives the account back. -/
theorem restoresAt_setter (entry : journalEntry) (changed : stateObject) (address : changed.address = obj.address)
    (deleted : changed.deleted = obj.deleted)
    (undone : ∀ trie (r : Reads), r.accounts obj.address = some changed.view →
      entry.undoReads trie r = { r with accounts := Function.update r.accounts obj.address (some obj.view) }) :
    s.RestoresAt obj ((s.journalAppend entry).fireDirty changed) := by
  refine ⟨⟨[entry], writes_fireDirty (writes_journalAppend _) _, by rw [fireDirty_fst]; rfl, fun trie r atView => ?_⟩,
    by rw [fireDirty_snd]; exact address, by rw [fireDirty_snd]; exact deleted⟩
  rw [undoAll_singleton]
  exact undone trie r (by rw [atView, fireDirty_snd]; rfl)

/-- A setter that changes nothing. -/
theorem restoresAt_unchanged : s.RestoresAt obj (s, obj) := by
  refine ⟨⟨[], writes_of_objectsOnly (objectsOnly_refl s), rfl, fun trie r atView => ?_⟩, rfl, rfl⟩
  rw [undoAll_nil, ← atView, Function.update_eq_self]

theorem touch_eq : Object.touch s obj =
    (((s.journalAppend (.touchChange obj.address false false)).fireDirty obj).1,
      { ((s.journalAppend (.touchChange obj.address false false)).fireDirty obj).2 with touched := true }) :=
  rfl

/-- touch: the touched flag and the dirty set are nothing a reader sees. -/
theorem restoresAt_touch : s.RestoresAt obj (Object.touch s obj) := by
  have fired := writes_fireDirty (writes_journalAppend (s := s) (.touchChange obj.address false false)) obj
  refine ⟨⟨[.touchChange obj.address false false], fired, by rw [touch_eq, fireDirty_fst]; rfl,
    fun trie r atView => ?_⟩, by rw [touch_eq, fireDirty_snd], by rw [touch_eq, fireDirty_snd]⟩
  have sameView : (Object.touch s obj).2.view = obj.view := by
    rw [touch_eq, fireDirty_snd]
    rfl
  rw [undoAll_singleton, ← sameView, ← atView, Function.update_eq_self]
  rfl

theorem restoresAt_SetBalance (amount : Int) : s.RestoresAt obj (Object.SetBalance s obj amount) :=
  restoresAt_setter s obj (.balanceChange obj.address obj.data.Balance)
    { obj with data := { obj.data with Balance := amount } } rfl rfl fun trie r atView => by
      simp only [journalEntry.undoReads, Reads.modify, atView, Option.map_some]
      rfl

theorem restoresAt_SetNonce (nonce : Nat) : s.RestoresAt obj (Object.SetNonce s obj nonce) :=
  restoresAt_setter s obj (.nonceChange obj.address obj.data.Nonce)
    { obj with data := { obj.data with Nonce := nonce } } rfl rfl fun trie r atView => by
      simp only [journalEntry.undoReads, Reads.modify, atView, Option.map_some]
      rfl

theorem restoresAt_SetState (key value : Hash) : s.RestoresAt obj (Object.SetState s obj key value) :=
  restoresAt_setter s obj (.storageChange obj.address key (obj.storage key))
    { obj with storage := Function.update obj.storage key value } rfl rfl fun trie r atView => by
      simp only [journalEntry.undoReads, Reads.modify, atView, Option.map_some]
      -- the slot gets the value it held back
      have slot : Function.update (Function.update obj.storage key value) key (obj.storage key) = obj.storage := by
        rw [Function.update_idem, Function.update_eq_self]
      simp only [stateObject.view, slot]

/-- AddBalance: a zero amount touches an empty account or does nothing. -/
theorem restoresAt_AddBalance (amount : Int) : s.RestoresAt obj (Object.AddBalance s obj amount) := by
  unfold Object.AddBalance
  split
  · split
    · exact restoresAt_touch s obj
    · exact restoresAt_unchanged s obj
  · exact restoresAt_SetBalance s obj _

theorem restoresAt_SubBalance (amount : Int) : s.RestoresAt obj (Object.SubBalance s obj amount) := by
  unfold Object.SubBalance
  split
  · exact restoresAt_unchanged s obj
  · exact restoresAt_SetBalance s obj _

end Setters

theorem updateOrNewObject_eq (addr : Address) (f : StateDB → stateObject → StateDB × stateObject) :
    s.updateOrNewObject addr f =
      (f (s.GetOrNewStateObject addr).2 (s.GetOrNewStateObject addr).1).1.setStateObject
        (f (s.GetOrNewStateObject addr).2 (s.GetOrNewStateObject addr).1).2 :=
  rfl

/-- updateOrNewObject with a setter that a revert takes back: a reader sees at
addr the object the setter leaves. -/
theorem seen_updateOrNewObject (inv : s.Inv) (addr : Address) {f : StateDB → stateObject → StateDB × stateObject}
    (restores : ∀ (s : StateDB) (obj : stateObject), s.RestoresAt obj (f s obj)) :
    (s.updateOrNewObject addr f).seen =
      Function.update s.seen addr (some (f (s.GetOrNewStateObject addr).2 (s.GetOrNewStateObject addr).1).2.view) := by
  obtain ⟨-, -, atAddr, notDeleted, seenNew, -, -⟩ := GetOrNewStateObject_spec inv addr
  obtain ⟨⟨later, changed, objectsKept, -⟩, address, deleted⟩ :=
    restores (s.GetOrNewStateObject addr).2 (s.GetOrNewStateObject addr).1
  rw [updateOrNewObject_eq, seen_setStateObject, address, deleted, notDeleted, atAddr,
    changed.seen_of_objects objectsKept, seenNew, Function.update_idem]
  rfl

/-- updateOrNewObject with a setter that a revert takes back: the account, new
or not, written, and the whole call undoable. -/
theorem updateOrNewObject_undoable (inv : s.Inv) (addr : Address) {f : StateDB → stateObject → StateDB × stateObject}
    (restores : ∀ (s : StateDB) (obj : stateObject), s.RestoresAt obj (f s obj)) :
    s.Undoable (s.updateOrNewObject addr f) ∧ s.Stacked (s.updateOrNewObject addr f) := by
  obtain ⟨entries, writes, atAddr, -, -, keyedNew, undoneNew⟩ := GetOrNewStateObject_spec inv addr
  obtain ⟨⟨later, changed, objectsKept, undoneChange⟩, -, -⟩ :=
    restores (s.GetOrNewStateObject addr).2 (s.GetOrNewStateObject addr).1
  have changedKeyed : (f (s.GetOrNewStateObject addr).2 (s.GetOrNewStateObject addr).1).1.Keyed :=
    fun other obj held => keyedNew other obj (objectsKept ▸ held)
  refine undoable_of_write addr (f (s.GetOrNewStateObject addr).2 (s.GetOrNewStateObject addr).1).2.view
    (changedKeyed.setStateObject _) (writes.trans (writes_setStateObject changed _))
    (seen_updateOrNewObject inv addr restores) ?_
  · -- the setter's entries give the account back, then the creation's give back what was seen
    intro r atView
    rw [atAddr] at undoneChange
    rw [undoAll_append, undoneChange s.trie r atView]
    rw [undoneNew _ (Function.update_self _ _ _)]
    simp only [Function.update_idem]

/-! ### The calls -/

/-- A call that only loads an account: nothing to take back. -/
theorem undoable_of_objectsOnly (only : s.ObjectsOnly t) (same : t.seen = s.seen) (keyed : t.Keyed) :
    s.Undoable t ∧ s.Stacked t :=
  (writes_of_objectsOnly only).undoable (by rw [same]; rfl) (fun addr hidden => same ▸ hidden) keyed

/-- The reads (Exist, Empty, GetBalance, GetNonce, GetCodeHash, GetState,
HasSuicided, GetCodeSize) load the account at most. -/
theorem getStateObject_undoable (inv : s.Inv) (addr : Address) :
    s.Undoable (s.getStateObject addr).2 ∧ s.Stacked (s.getStateObject addr).2 := by
  obtain ⟨-, -, seenLoaded, keyedLoaded⟩ := getStateObject_spec inv.keyed addr
  exact undoable_of_objectsOnly (objectsOnly_getStateObject addr) seenLoaded keyedLoaded

section Code

variable (config : ChainConfig) (db : Database) (caches : CodeCaches)

/-- Loading the code changes the object's code alone. -/
theorem Code_obj (obj : stateObject) :
    (Object.Code config db caches obj).2.1 = { obj with code := (Object.Code config db caches obj).2.1.code } := by
  unfold Object.Code
  split
  · rfl
  · split
    · rfl
    · rfl

theorem GetCode_eq (addr : Address) :
    (GetCode config db s caches addr).2.1 =
      match (s.getStateObject addr).1 with
      | none => (s.getStateObject addr).2
      | some obj => (s.getStateObject addr).2.setStateObject (Object.Code config db caches obj).2.1 := by
  unfold GetCode
  rcases s.getStateObject addr with ⟨_ | obj, loaded⟩ <;> rfl

/-- GetCode loads the account and its code: nothing a reader sees. -/
theorem seen_GetCode (inv : s.Inv) (addr : Address) : (GetCode config db s caches addr).2.1.seen = s.seen := by
  obtain ⟨found, located, seenLoaded, -⟩ := getStateObject_spec inv.keyed addr
  rw [GetCode_eq]
  cases loading : (s.getStateObject addr).1 with
  | none => exact seenLoaded
  | some obj =>
    obtain ⟨atAddr, notDeleted⟩ := located obj loading
    have seenObj : s.seen addr = some obj.view := by rw [← found, loading]; rfl
    dsimp only
    rw [seen_setStateObject, Code_obj]
    show Function.update (s.getStateObject addr).2.seen obj.address (if obj.deleted = true then none else some obj.view) = _
    rw [notDeleted, atAddr, seenLoaded, ← seenObj]
    exact Function.update_eq_self addr s.seen

theorem GetCode_undoable (inv : s.Inv) (addr : Address) :
    s.Undoable (GetCode config db s caches addr).2.1 ∧ s.Stacked (GetCode config db s caches addr).2.1 := by
  have keyedLoaded := (getStateObject_spec inv.keyed addr).2.2.2
  have loads : s.ObjectsOnly (GetCode config db s caches addr).2.1 ∧ (GetCode config db s caches addr).2.1.Keyed := by
    rw [GetCode_eq]
    cases (s.getStateObject addr).1 with
    | none => exact ⟨objectsOnly_getStateObject addr, keyedLoaded⟩
    | some obj => exact ⟨(objectsOnly_getStateObject addr).trans (objectsOnly_setStateObject _), keyedLoaded.setStateObject _⟩
  exact undoable_of_objectsOnly loads.1 (seen_GetCode config db caches inv addr) loads.2

/-- SetCode: through updateOrNewObject, with the code it replaces loaded first. -/
theorem SetCode_eq (keccak : List UInt8 → Hash) (addr : Address) (code : List UInt8) :
    (SetCode config db s caches keccak addr code).1 = s.updateOrNewObject addr fun s obj =>
      Object.setCode (s.journalAppend (.codeChange (Object.Code config db caches obj).2.1.address
        (Object.Code config db caches obj).1 (Object.Code config db caches obj).2.1.data.CodeHash))
        (Object.Code config db caches obj).2.1 (keccak code) (some code) :=
  rfl

theorem restoresAt_setCode (obj : stateObject) (hash : Hash) (code : List UInt8) :
    s.RestoresAt obj (Object.setCode (s.journalAppend (.codeChange (Object.Code config db caches obj).2.1.address
        (Object.Code config db caches obj).1 (Object.Code config db caches obj).2.1.data.CodeHash))
        (Object.Code config db caches obj).2.1 hash (some code)) := by
  rw [Code_obj]
  exact restoresAt_setter s obj _ _ rfl rfl fun trie r atView => by
    simp only [journalEntry.undoReads, Reads.modify, atView, Option.map_some]
    rfl

end Code

theorem CreateAccount_eq (addr : Address) :
    s.CreateAccount addr =
      match (s.createObject addr).1.2 with
      | some prev =>
        (Object.setBalance (s.createObject addr).2 (s.createObject addr).1.1 prev.data.Balance).1.setStateObject
          (Object.setBalance (s.createObject addr).2 (s.createObject addr).1.1 prev.data.Balance).2
      | none => (s.createObject addr).2 :=
  rfl

/-- CreateAccount: a reader sees a new empty account at addr, with the balance of
the account a reader saw there. -/
theorem seen_CreateAccount (inv : s.Inv) (addr : Address) :
    (s.CreateAccount addr).seen = Function.update s.seen addr
      (some { (newObject addr Account.empty).view with Balance := ((s.seen addr).map AccountView.Balance).getD 0 }) := by
  obtain ⟨-, -, newView, newDeleted, prevSeen, newSeen, -⟩ := createObject_spec inv addr
  have newAddress : (s.createObject addr).1.1.address = addr := by
    rw [← stateObject.view_address, newView]
    rfl
  rw [CreateAccount_eq]
  cases prevEq : (s.createObject addr).1.2 with
  | none =>
    have unseen : s.seen addr = none := by rw [← prevSeen, prevEq]; rfl
    rw [newSeen, unseen]
    rfl
  | some prev =>
    -- the balance is carried over onto the new object
    have seenPrev : s.seen addr = some prev.view := by rw [← prevSeen, prevEq]; rfl
    rw [seen_setStateObject]
    show Function.update ((s.createObject addr).2.fireDirty _).1.seen (s.createObject addr).1.1.address
      (if (s.createObject addr).1.1.deleted = true then none else some _) = _
    rw [seen_fireDirty, newSeen, newAddress, newDeleted, Function.update_idem, seenPrev]
    rfl

/-- CreateAccount journals the creation alone, whose undo gives back what a
reader saw at addr: the balance carried over is not journalled. -/
theorem CreateAccount_writes (inv : s.Inv) (addr : Address) :
    ∃ entry, s.Writes (s.CreateAccount addr) [entry] ∧ (s.CreateAccount addr).Keyed ∧
      ∀ r : Reads, entry.undoReads s.trie r = { r with accounts := Function.update r.accounts addr (s.seen addr) } := by
  obtain ⟨entry, writes, -, -, -, -, newKeyed, undone⟩ := createObject_spec inv addr
  have logged : s.Writes (s.CreateAccount addr) [entry] ∧ (s.CreateAccount addr).Keyed := by
    rw [CreateAccount_eq]
    cases (s.createObject addr).1.2 with
    | none => exact ⟨writes, newKeyed⟩
    | some prev => exact ⟨writes_setStateObject (writes_fireDirty writes _) _, (newKeyed.fireDirty _).setStateObject _⟩
  exact ⟨entry, logged.1, logged.2, undone⟩

/-- CreateAccount: a new account, carrying the balance of the one it replaces;
the creation's entry gives back what a reader saw. -/
theorem CreateAccount_undoable (inv : s.Inv) (addr : Address) :
    s.Undoable (s.CreateAccount addr) ∧ s.Stacked (s.CreateAccount addr) := by
  obtain ⟨entry, writes, keyed, undone⟩ := CreateAccount_writes inv addr
  exact undoable_of_write addr _ keyed writes (seen_CreateAccount inv addr)
    fun r _ => by rw [undoAll_singleton]; exact undone r

theorem Suicide_eq (addr : Address) :
    (s.Suicide addr).2 =
      match (s.getStateObject addr).1 with
      | none => (s.getStateObject addr).2
      | some obj =>
        (Object.markSuicided ((s.getStateObject addr).2.journalAppend (.suicideChange addr obj.suicided obj.data.Balance))
            obj).1.setStateObject
          { (Object.markSuicided ((s.getStateObject addr).2.journalAppend
              (.suicideChange addr obj.suicided obj.data.Balance)) obj).2 with
            data := { (Object.markSuicided ((s.getStateObject addr).2.journalAppend
              (.suicideChange addr obj.suicided obj.data.Balance)) obj).2.data with Balance := 0 } } := by
  unfold Suicide
  rcases s.getStateObject addr with ⟨_ | obj, loaded⟩ <;> rfl

theorem markSuicided_seen (obj : stateObject) : (Object.markSuicided s obj).1.seen = s.seen :=
  seen_fireDirty _

theorem markSuicided_snd (obj : stateObject) :
    (Object.markSuicided s obj).2 = { obj with suicided := true, onDirty := false } :=
  fireDirty_snd _

/-- Suicide: a reader sees the account marked and emptied of its balance, where
a reader saw one. -/
theorem seen_Suicide (inv : s.Inv) (addr : Address) :
    (s.Suicide addr).2.seen =
      Function.update s.seen addr ((s.seen addr).map fun v => { v with suicided := true, Balance := 0 }) := by
  obtain ⟨found, located, seenLoaded, -⟩ := getStateObject_spec inv.keyed addr
  rw [Suicide_eq]
  cases loading : (s.getStateObject addr).1 with
  | none =>
    -- no account: only the load, which a reader does not see
    have unseen : s.seen addr = none := by rw [← found, loading]; rfl
    dsimp only
    rw [seenLoaded, unseen, Option.map_none, ← unseen, Function.update_eq_self]
  | some obj =>
    obtain ⟨atAddr, notDeleted⟩ := located obj loading
    have seenObj : s.seen addr = some obj.view := by rw [← found, loading]; rfl
    dsimp only
    rw [markSuicided_snd, seen_setStateObject]
    show Function.update (Object.markSuicided _ obj).1.seen obj.address
      (if obj.deleted = true then none else some _) = _
    rw [markSuicided_seen, seen_journalAppend, seenLoaded, notDeleted, seenObj, ← atAddr]
    rfl

/-- Suicide journals the mark where there is an account, and only loads where
there is none. -/
theorem Suicide_writes (keyed : s.Keyed) (addr : Address) :
    s.Writes (s.Suicide addr).2
        ((s.getStateObject addr).1.map fun obj => journalEntry.suicideChange addr obj.suicided obj.data.Balance).toList ∧
      (s.Suicide addr).2.Keyed := by
  obtain ⟨-, -, -, keyedLoaded⟩ := getStateObject_spec keyed addr
  rw [Suicide_eq]
  cases (s.getStateObject addr).1 with
  | none => exact ⟨writes_of_objectsOnly (objectsOnly_getStateObject addr), keyedLoaded⟩
  | some obj =>
    have logged := (writes_of_objectsOnly (objectsOnly_getStateObject (s := s) addr)).trans
      (writes_journalAppend (.suicideChange addr obj.suicided obj.data.Balance))
    have keyedLogged : ((s.getStateObject addr).2.journalAppend (.suicideChange addr obj.suicided obj.data.Balance)).Keyed :=
      keyedLoaded
    exact ⟨writes_setStateObject (writes_fireDirty logged _) _, (keyedLogged.fireDirty _).setStateObject _⟩

/-- Suicide: the account marked and emptied of its balance, both recorded. -/
theorem Suicide_undoable (inv : s.Inv) (addr : Address) :
    s.Undoable (s.Suicide addr).2 ∧ s.Stacked (s.Suicide addr).2 := by
  obtain ⟨found, -, -, -⟩ := getStateObject_spec inv.keyed addr
  obtain ⟨writes, keyed⟩ := Suicide_writes inv.keyed addr
  cases loading : (s.getStateObject addr).1 with
  | none =>
    -- no account: Suicide only loads, which a reader does not see
    have unseen : s.seen addr = none := by rw [← found, loading]; rfl
    have same : (s.Suicide addr).2.seen = s.seen := by
      rw [seen_Suicide inv addr, unseen, Option.map_none, ← unseen, Function.update_eq_self]
    rw [loading] at writes
    exact writes.undoable (by rw [same]; rfl) (fun other hidden => same ▸ hidden) keyed
  | some obj =>
    have seenObj : s.seen addr = some obj.view := by rw [← found, loading]; rfl
    rw [loading] at writes
    refine undoable_of_write addr { obj.view with suicided := true, Balance := 0 } keyed writes
      (by rw [seen_Suicide inv addr, seenObj]; rfl) fun r atView => ?_
    simp only [Option.map_some, Option.toList_some, undoAll_singleton, journalEntry.undoReads, Reads.modify, atView,
      seenObj]
    rfl

/-- A change of the refund counter, recorded with the counter it replaces. -/
theorem refund_undoable (keyed : s.Keyed) (refund : Nat) :
    s.Undoable { s.journalAppend (.refundChange s.refund) with refund := refund } ∧
      s.Stacked { s.journalAppend (.refundChange s.refund) with refund := refund } :=
  ⟨⟨rfl, ⟨[.refundChange s.refund], rfl, rfl⟩, fun _ hidden => hidden, keyed⟩, Stacked.of_same rfl rfl⟩

theorem AddLog_undoable (keyed : s.Keyed) (log : Log) : s.Undoable (s.AddLog log) ∧ s.Stacked (s.AddLog log) := by
  refine ⟨⟨rfl, ⟨[.addLogChange s.thash], rfl, ?_⟩, fun _ hidden => hidden, keyed⟩, Stacked.of_same rfl rfl⟩
  -- the log appended is dropped again, and the count goes back
  simp only [undoAll_singleton, journalEntry.undoReads, reads, AddLog, journalAppend, Function.update_self,
    List.dropLast_concat, Function.update_idem, Function.update_eq_self, Nat.add_sub_cancel]
  rfl

theorem AddPreimage_undoable (keyed : s.Keyed) (hash : Hash) (preimage : List UInt8) :
    s.Undoable (s.AddPreimage hash preimage) ∧ s.Stacked (s.AddPreimage hash preimage) := by
  unfold AddPreimage
  cases recorded : s.preimages hash with
  | some _ => exact ⟨Undoable.refl keyed, Stacked.refl s⟩
  | none =>
    refine ⟨⟨rfl, ⟨[.addPreimageChange hash], rfl, ?_⟩, fun _ hidden => hidden, keyed⟩, Stacked.of_same rfl rfl⟩
    have restored : Function.update (Function.update s.preimages hash (some preimage)) hash none = s.preimages := by
      rw [Function.update_idem, ← recorded, Function.update_eq_self]
    simp only [undoAll_singleton, journalEntry.undoReads, reads, journalAppend, restored]
    rfl

end StateDB

/-- StateCall: the calls of the vm.StateDB interface that change what a reader
sees or load an account, each with the code caches of the process at the time
of the call. read stands for the reads that go through getStateObject (Exist,
Empty, GetBalance, GetNonce, GetCodeHash, GetState, HasSuicided, GetCodeSize). -/
inductive StateCall where
  | CreateAccount (addr : Address)
  | SubBalance (addr : Address) (amount : Int)
  | AddBalance (addr : Address) (amount : Int)
  | SetBalance (addr : Address) (amount : Int)
  | SetNonce (addr : Address) (nonce : Nat)
  | SetCode (caches : CodeCaches) (addr : Address) (code : List UInt8)
  | SetState (addr : Address) (key value : Hash)
  | Suicide (addr : Address)
  | AddRefund (gas : Nat)
  | SubRefund (gas : Nat)
  | AddLog (log : Log)
  | AddPreimage (hash : Hash) (preimage : List UInt8)
  | GetCode (caches : CodeCaches) (addr : Address)
  | read (addr : Address)

/-- The state a call leaves; none is a panic. -/
def StateCall.apply (config : ChainConfig) (db : Database) (keccak : List UInt8 → Hash) (s : StateDB) :
    StateCall → Option StateDB
  | .CreateAccount addr => some (s.CreateAccount addr)
  | .SubBalance addr amount => some (s.SubBalance addr amount)
  | .AddBalance addr amount => some (s.AddBalance addr amount)
  | .SetBalance addr amount => some (s.SetBalance addr amount)
  | .SetNonce addr nonce => some (s.SetNonce addr nonce)
  | .SetCode caches addr code => some (StateDB.SetCode config db s caches keccak addr code).1
  | .SetState addr key value => some (s.SetState addr key value)
  | .Suicide addr => some (s.Suicide addr).2
  | .AddRefund gas => some (s.AddRefund gas)
  | .SubRefund gas => s.SubRefund gas
  | .AddLog log => some (s.AddLog log)
  | .AddPreimage hash preimage => some (s.AddPreimage hash preimage)
  | .GetCode caches addr => some (StateDB.GetCode config db s caches addr).2.1
  | .read addr => some (s.getStateObject addr).2

namespace StateDB

/-- Every call a revert can take back. -/
theorem StateCall.apply_undoable {config : ChainConfig} {db : Database} {keccak : List UInt8 → Hash}
    {s t : StateDB} (inv : s.Inv) (call : StateCall) (applied : call.apply config db keccak s = some t) :
    s.Undoable t ∧ s.Stacked t := by
  cases call with
  | CreateAccount addr =>
    cases applied
    exact CreateAccount_undoable inv addr
  | SubBalance addr amount =>
    cases applied
    exact updateOrNewObject_undoable inv addr fun s obj => restoresAt_SubBalance s obj amount
  | AddBalance addr amount =>
    cases applied
    exact updateOrNewObject_undoable inv addr fun s obj => restoresAt_AddBalance s obj amount
  | SetBalance addr amount =>
    cases applied
    exact updateOrNewObject_undoable inv addr fun s obj => restoresAt_SetBalance s obj amount
  | SetNonce addr nonce =>
    cases applied
    exact updateOrNewObject_undoable inv addr fun s obj => restoresAt_SetNonce s obj nonce
  | SetCode caches addr code =>
    cases applied
    rw [SetCode_eq]
    exact updateOrNewObject_undoable inv addr fun s obj => restoresAt_setCode config db caches obj _ code
  | SetState addr key value =>
    cases applied
    exact updateOrNewObject_undoable inv addr fun s obj => restoresAt_SetState s obj key value
  | Suicide addr =>
    cases applied
    exact Suicide_undoable inv addr
  | AddRefund gas =>
    cases applied
    exact refund_undoable inv.keyed _
  | SubRefund gas =>
    -- the counter is journalled before the check that may panic
    simp only [StateCall.apply, SubRefund] at applied
    split at applied
    · cases applied
    · cases applied
      exact refund_undoable inv.keyed _
  | AddLog log =>
    cases applied
    exact AddLog_undoable inv.keyed log
  | AddPreimage hash preimage =>
    cases applied
    exact AddPreimage_undoable inv.keyed hash preimage
  | GetCode caches addr =>
    cases applied
    exact GetCode_undoable config db caches inv addr
  | read addr =>
    cases applied
    exact getStateObject_undoable inv addr

/-! ### Snapshots and reverts -/

variable {s t u : StateDB}

theorem Snapshot_window (keyed : s.Keyed) : s.Undoable s.Snapshot.2 ∧ s.Stacked s.Snapshot.2 := by
  refine ⟨⟨rfl, ⟨[], (List.append_nil _).symm, rfl⟩, fun _ hidden => hidden, keyed⟩,
    ⟨[⟨s.nextRevisionId, s.journal.length⟩], rfl, Nat.le_succ _, fun rev member => ?_⟩⟩
  rw [List.mem_singleton] at member
  subst member
  exact ⟨le_refl _, Nat.lt_succ_self _⟩

/-- RevertToSnapshot of a revision in the stack after revisions of smaller ids:
the journal since the revision's index undone, the journal cut back to it, and
the stack cut before the revision. -/
theorem RevertToSnapshot_of_stack {before later : List revision} {rev : revision}
    (stack : s.validRevisions = before ++ rev :: later) (older : ∀ r ∈ before, r.id < rev.id) :
    s.RevertToSnapshot rev.id =
      some { undoAll journalEntry.undo (s.journal.drop rev.journalIndex) s with
        journal := s.journal.take rev.journalIndex, validRevisions := before } := by
  -- sort.Search finds the revision: every one before it has a smaller id
  have earlier : before.findIdx? (fun r => decide (rev.id ≤ r.id)) = none :=
    List.findIdx?_eq_none_iff.mpr fun r member => by simpa using older r member
  have index : (s.validRevisions.findIdx? fun r => decide (rev.id ≤ r.id)) = some before.length := by
    rw [stack, List.findIdx?_append, earlier, List.findIdx?_cons]
    simp
  have found : s.validRevisions[before.length]? = some rev := by
    rw [stack, List.getElem?_append_right (le_refl _), Nat.sub_self, List.getElem?_cons_zero]
  have unmoved := unmoved_undoAll (s := s) (s.journal.drop rev.journalIndex)
  unfold RevertToSnapshot
  simp only [index, Option.getD_some, found, if_true]
  show some { undoAll journalEntry.undo (s.journal.drop rev.journalIndex) s with
      journal := (undoAll journalEntry.undo (s.journal.drop rev.journalIndex) s).journal.take rev.journalIndex,
      validRevisions := (undoAll journalEntry.undo (s.journal.drop rev.journalIndex) s).validRevisions.take before.length } = _
  rw [unmoved.journal, unmoved.validRevisions, stack, List.take_left']
  rfl

/-- A frame run from a Snapshot and reverted to it: a state a reader cannot tell
from the one before the Snapshot, with the journal and the revisions it had. -/
theorem RevertToSnapshot_window (inv : t.Inv) (undoable : t.Snapshot.2.Undoable u) (stacked : t.Snapshot.2.Stacked u) :
    ∃ v, u.RevertToSnapshot t.Snapshot.1 = some v ∧ v.reads = t.reads ∧ v.journal = t.journal ∧
      v.validRevisions = t.validRevisions ∧ v.trie = t.trie ∧ v.Keyed ∧ t.nextRevisionId ≤ v.nextRevisionId := by
  obtain ⟨later, stack, next, -⟩ := stacked
  obtain ⟨entries, journal, undone⟩ := undoable.logged
  -- the frame's revision sits right after the revisions before the Snapshot
  have revision : u.validRevisions = t.validRevisions ++ ⟨t.nextRevisionId, t.journal.length⟩ :: later := by
    rw [stack]
    show (t.validRevisions ++ [⟨t.nextRevisionId, t.journal.length⟩]) ++ later = _
    rw [List.append_assoc]
    rfl
  have extended : u.journal = t.journal ++ entries := journal
  have dropped : u.journal.drop t.journal.length = entries := by
    rw [extended, List.drop_left]
  have taken : u.journal.take t.journal.length = t.journal := by
    rw [extended, List.take_left]
  have unmoved := unmoved_undoAll (s := u) (u.journal.drop t.journal.length)
  obtain ⟨undoneReads, undoneKeyed⟩ := undoAll_spec undoable.keyed entries
  rw [← dropped] at undoneReads undoneKeyed
  refine ⟨_, RevertToSnapshot_of_stack revision inv.fresh, ?_, ?_, rfl, ?_, undoneKeyed, ?_⟩
  · -- the entries of the frame are undone, which gives back what a reader saw
    show (undoAll journalEntry.undo (u.journal.drop t.journal.length) u).reads = t.reads
    rw [undoneReads, dropped, undoable.trie]
    exact undone
  · exact taken
  · show (undoAll journalEntry.undo (u.journal.drop t.journal.length) u).trie = t.trie
    rw [unmoved.trie, undoable.trie]
    rfl
  · show t.nextRevisionId ≤ (undoAll journalEntry.undo (u.journal.drop t.journal.length) u).nextRevisionId
    rw [unmoved.nextRevisionId]
    exact Nat.le_of_succ_le next

/-- A state a reader cannot tell from another, with its journal and trie, is
one nothing needs to be taken back from. -/
theorem undoable_of_reads (reads : u.reads = t.reads) (journal : u.journal = t.journal) (trie : u.trie = t.trie)
    (keyed : u.Keyed) : t.Undoable u :=
  ⟨trie, ⟨[], by rw [journal, List.append_nil], reads⟩,
    fun addr hidden => by rwa [← show u.seen = t.seen from congrArg Reads.accounts reads], keyed⟩

end StateDB

/-- Runs: the runs of calls on a state database that message execution makes,
from the state it starts in to the one it ends in: calls one after another, and
frames nested in any way, each opened by a Snapshot and, when the frame fails,
closed by RevertToSnapshot of the snapshot's id (core/vm/evm.go). -/
inductive Runs (config : ChainConfig) (db : Database) (keccak : List UInt8 → Hash) : StateDB → StateDB → Prop
  | start (s : StateDB) : Runs config db keccak s s
  | call {s t t' : StateDB} (c : StateCall) :
      Runs config db keccak s t → c.apply config db keccak t = some t' → Runs config db keccak s t'
  | frame {s t u : StateDB} :
      Runs config db keccak s t → Runs config db keccak t.Snapshot.2 u → Runs config db keccak s u
  | revertedFrame {s t u v : StateDB} :
      Runs config db keccak s t → Runs config db keccak t.Snapshot.2 u →
        u.RevertToSnapshot t.Snapshot.1 = some v → Runs config db keccak s v

namespace StateDB

variable {config : ChainConfig} {db : Database} {keccak : List UInt8 → Hash} {s t : StateDB}

/-- Every run, from a state of the invariant, is one a revert can take back. The
induction is on the run; a reverted frame is back where it started. -/
theorem Runs.window (run : Runs config db keccak s t) (inv : s.Inv) : s.Undoable t ∧ s.Stacked t := by
  induction run with
  | start s => exact ⟨Undoable.refl inv.keyed, Stacked.refl s⟩
  | call c prior applied priorWindow =>
    obtain ⟨undoable, stacked⟩ := priorWindow inv
    obtain ⟨callUndoable, callStacked⟩ := StateCall.apply_undoable (inv.of_window undoable stacked) c applied
    exact ⟨undoable.trans callUndoable, stacked.trans callStacked⟩
  | frame prior inner priorWindow innerWindow =>
    obtain ⟨undoable, stacked⟩ := priorWindow inv
    have atFrame := inv.of_window undoable stacked
    obtain ⟨snapshotUndoable, snapshotStacked⟩ := Snapshot_window atFrame.keyed
    obtain ⟨innerUndoable, innerStacked⟩ := innerWindow (atFrame.of_window snapshotUndoable snapshotStacked)
    exact ⟨undoable.trans (snapshotUndoable.trans innerUndoable), stacked.trans (snapshotStacked.trans innerStacked)⟩
  | revertedFrame prior inner reverted priorWindow innerWindow =>
    obtain ⟨undoable, stacked⟩ := priorWindow inv
    have atFrame := inv.of_window undoable stacked
    obtain ⟨snapshotUndoable, snapshotStacked⟩ := Snapshot_window atFrame.keyed
    obtain ⟨innerUndoable, innerStacked⟩ := innerWindow (atFrame.of_window snapshotUndoable snapshotStacked)
    obtain ⟨v, revertedTo, reads, journal, revisions, trie, keyed, next⟩ :=
      RevertToSnapshot_window atFrame innerUndoable innerStacked
    rw [reverted, Option.some.injEq] at revertedTo
    subst revertedTo
    -- the reverted frame leaves what a reader saw at the frame's start
    exact ⟨undoable.trans (undoable_of_reads reads journal trie keyed),
      stacked.trans ⟨[], by rw [revisions, List.append_nil], next, fun _ member => by cases member⟩⟩

/-! ### What a reader sees after a revert -/

/-- Two states a reader cannot tell apart: every read of the vm.StateDB
interface that goes through getStateObject answers the same, and so do the
refund counter, the logs and the preimages. -/
structure SameReads (s t : StateDB) : Prop where
  Exist : ∀ addr, (s.Exist addr).1 = (t.Exist addr).1
  Empty : ∀ addr, (s.Empty addr).1 = (t.Empty addr).1
  GetBalance : ∀ addr, (s.GetBalance addr).1 = (t.GetBalance addr).1
  GetNonce : ∀ addr, (s.GetNonce addr).1 = (t.GetNonce addr).1
  GetCodeHash : ∀ addr, (s.GetCodeHash addr).1 = (t.GetCodeHash addr).1
  GetState : ∀ addr key, (s.GetState addr key).1 = (t.GetState addr key).1
  HasSuicided : ∀ addr, (s.HasSuicided addr).1 = (t.HasSuicided addr).1
  GetRefund : s.GetRefund = t.GetRefund
  GetLogs : ∀ hash, s.GetLogs hash = t.GetLogs hash
  Preimages : s.Preimages = t.Preimages

/-- Empty: no account, or one with no nonce, no balance and no code. -/
theorem Empty_fst (addr : Address) :
    (s.Empty addr).1 =
      ((s.seen addr).map fun v => decide (v.Nonce = 0 ∧ v.Balance = 0 ∧ v.CodeHash = emptyCodeHash)).getD true := by
  rw [← map_getStateObject]
  unfold Empty
  rcases s.getStateObject addr with ⟨_ | obj, loaded⟩ <;> rfl

/-- The reads answer from what a reader sees. -/
theorem sameReads_of_reads (same : s.reads = t.reads) : SameReads s t := by
  have seen : s.seen = t.seen := congrArg Reads.accounts same
  refine ⟨fun addr => ?_, fun addr => ?_, fun addr => ?_, fun addr => ?_, fun addr => ?_, fun addr key => ?_,
    fun addr => ?_, congrArg Reads.refund same, fun hash => congrFun (congrArg Reads.logs same) hash,
    congrArg Reads.preimages same⟩
  · show (s.getStateObject addr).1.isSome = (t.getStateObject addr).1.isSome
    rw [← Option.isSome_map (f := stateObject.view), ← Option.isSome_map (f := stateObject.view),
      getStateObject_view, getStateObject_view, seen]
  · rw [Empty_fst, Empty_fst, seen]
  · show ((s.getStateObject addr).1.map (AccountView.Balance ∘ stateObject.view)).getD 0 =
      ((t.getStateObject addr).1.map (AccountView.Balance ∘ stateObject.view)).getD 0
    rw [map_getStateObject, map_getStateObject, seen]
  · show ((s.getStateObject addr).1.map (AccountView.Nonce ∘ stateObject.view)).getD 0 =
      ((t.getStateObject addr).1.map (AccountView.Nonce ∘ stateObject.view)).getD 0
    rw [map_getStateObject, map_getStateObject, seen]
  · show ((s.getStateObject addr).1.map (AccountView.CodeHash ∘ stateObject.view)).getD zeroHash =
      ((t.getStateObject addr).1.map (AccountView.CodeHash ∘ stateObject.view)).getD zeroHash
    rw [map_getStateObject, map_getStateObject, seen]
  · show ((s.getStateObject addr).1.map ((fun v => v.storage key) ∘ stateObject.view)).getD zeroHash =
      ((t.getStateObject addr).1.map ((fun v => v.storage key) ∘ stateObject.view)).getD zeroHash
    rw [map_getStateObject, map_getStateObject, seen]
  · show ((s.getStateObject addr).1.map (AccountView.suicided ∘ stateObject.view)).getD false =
      ((t.getStateObject addr).1.map (AccountView.suicided ∘ stateObject.view)).getD false
    rw [map_getStateObject, map_getStateObject, seen]

/-- A revert takes back everything a reader sees. From a state database whose
live objects sit under their addresses, whose trie holds no account a reader
does not see and whose revision ids are below the next, a Snapshot, any run of
calls and frames, and RevertToSnapshot of the snapshot's id succeed, and leave
a state whose reads answer as before the Snapshot, with the journal and the
revisions it had. -/
theorem RevertToSnapshot_restores_reads (inv : s.Inv) (run : Runs config db keccak s.Snapshot.2 t) :
    ∃ v, t.RevertToSnapshot s.Snapshot.1 = some v ∧ SameReads v s ∧ v.journal = s.journal ∧
      v.validRevisions = s.validRevisions := by
  obtain ⟨snapshotUndoable, snapshotStacked⟩ := Snapshot_window inv.keyed
  obtain ⟨undoable, stacked⟩ := Runs.window run (inv.of_window snapshotUndoable snapshotStacked)
  obtain ⟨v, reverted, reads, journal, revisions, -⟩ := RevertToSnapshot_window inv undoable stacked
  exact ⟨v, reverted, sameReads_of_reads reads, journal, revisions⟩

/-- A state database over any account trie, with nothing loaded yet, is one a
revert is proved from. -/
theorem New_inv (trie : Address → Option Account) : (New trie).Inv := by
  constructor
  · intro addr obj held
    cases held
  · intro addr hidden
    simpa [seen, New] using hidden
  · intro rev member
    cases member

theorem RevertToSnapshot_restores_reads_new_account :
    ∃ v, ((New fun _ => none).Snapshot.2.AddBalance (Vector.replicate 20 1) 5).RevertToSnapshot
        (New fun _ => none).Snapshot.1 = some v ∧
      SameReads v (New fun _ => none) ∧ v.journal = (New fun _ => none).journal ∧
      v.validRevisions = (New fun _ => none).validRevisions :=
  RevertToSnapshot_restores_reads (New_inv _)
    (Runs.call (.AddBalance (Vector.replicate 20 1) 5)
      (Runs.start _ : Runs MainnetChainConfig ⟨fun _ => none⟩ (fun _ => zeroHash) _ _) rfl)

end StateDB

end Meshbox.State
