/-
The journal of core/state read at the level of what a reader of the state
database sees (journal.go, statedb.go, state_object.go). A reader sees, at each
address, the account getStateObject finds there, its nonce, balance, code hash
and storage and whether it suicided; and the refund counter, the logs and the
preimages. These are the values of Exist, Empty, GetBalance, GetNonce,
GetCodeHash, GetState, HasSuicided, GetRefund, GetLogs and Preimages. Loading an
account into the live map and firing a dirty callback change none of them.

The undo of each journal entry moves what a reader sees by a function of what
was seen before and of the account trie (undoReads): the entry's account gets
back the field the entry recorded, and an account whose creation is undone is
again what the trie holds. That holds in every state whose live objects sit
under their own addresses (Keyed), which every operation keeps. A run of undos
then moves what a reader sees as the run of the undoReads does, by the
simulation rule of Library/UndoLog.
-/

import Meshbox.State.StateDB
import Meshbox.Library.UndoLog

namespace Meshbox.State

open UndoLog

/-- What a reader sees of a live account: the fields the Get methods read. -/
structure AccountView where
  address : Address
  Nonce : Nat
  Balance : Int
  CodeHash : Hash
  storage : Storage
  suicided : Bool

/-- The account a reader sees in a live object. -/
def stateObject.view (obj : stateObject) : AccountView :=
  ⟨obj.address, obj.data.Nonce, obj.data.Balance, obj.data.CodeHash, obj.storage, obj.suicided⟩

@[simp] theorem stateObject.view_address (obj : stateObject) : obj.view.address = obj.address :=
  rfl

/-- What a reader sees of a state database: the accounts getStateObject finds,
the refund counter, the logs and their count, and the preimages. -/
structure Reads where
  accounts : Address → Option AccountView
  refund : Nat
  logs : Hash → List Log
  logSize : Nat
  preimages : Hash → Option (List UInt8)

/-- The account at addr changed by f, where a reader sees one. -/
def Reads.modify (r : Reads) (addr : Address) (f : AccountView → AccountView) : Reads :=
  { r with accounts := Function.update r.accounts addr ((r.accounts addr).map f) }

/-- undoReads: what the undo of each journal entry makes of what a reader sees,
over the account trie given. -/
def journalEntry.undoReads (trie : Address → Option Account) : journalEntry → Reads → Reads
  | .createObjectChange account, r =>
    let stored := (trie account).map fun data => (newObject account data).view
    { r with accounts := Function.update r.accounts account stored }
  | .resetObjectChange prev, r =>
    { r with accounts := Function.update r.accounts prev.address (if prev.deleted then none else some prev.view) }
  | .suicideChange account prev prevbalance, r =>
    r.modify account fun v => { v with suicided := prev, Balance := prevbalance }
  | .touchChange _ _ _, r => r
  | .balanceChange account prev, r => r.modify account fun v => { v with Balance := prev }
  | .nonceChange account prev, r => r.modify account fun v => { v with Nonce := prev }
  | .codeChange account _ prevhash, r => r.modify account fun v => { v with CodeHash := prevhash }
  | .storageChange account key prevalue, r =>
    r.modify account fun v => { v with storage := Function.update v.storage key prevalue }
  | .refundChange prev, r => { r with refund := prev }
  | .addLogChange txhash, r =>
    { r with logs := Function.update r.logs txhash (r.logs txhash).dropLast, logSize := r.logSize - 1 }
  | .addPreimageChange hash, r => { r with preimages := Function.update r.preimages hash none }

namespace StateDB

section View

variable (s : StateDB)

/-- The account getStateObject finds at addr, as a reader sees it. -/
def seen (addr : Address) : Option AccountView :=
  match s.stateObjects addr with
  | some obj => if obj.deleted then none else some obj.view
  | none => (s.trie addr).map fun data => (newObject addr data).view

def reads : Reads :=
  ⟨s.seen, s.refund, s.logs, s.logSize, s.preimages⟩

/-- Every live object sits under its own address. -/
def Keyed : Prop :=
  ∀ addr obj, s.stateObjects addr = some obj → obj.address = addr

/-- Only the live objects and the dirty set differ. -/
def ObjectsOnly (s' : StateDB) : Prop :=
  ∃ objects dirty, s' = { s with stateObjects := objects, stateObjectsDirty := dirty }

/-- The account trie, the journal and the revisions are the same. -/
structure Unmoved (s' : StateDB) : Prop where
  trie : s'.trie = s.trie
  journal : s'.journal = s.journal
  validRevisions : s'.validRevisions = s.validRevisions
  nextRevisionId : s'.nextRevisionId = s.nextRevisionId

end View

variable {s t u : StateDB}

/-! ### Frames -/

theorem objectsOnly_refl (s : StateDB) : s.ObjectsOnly s :=
  ⟨s.stateObjects, s.stateObjectsDirty, rfl⟩

theorem ObjectsOnly.trans (first : s.ObjectsOnly t) (second : t.ObjectsOnly u) : s.ObjectsOnly u := by
  obtain ⟨_, _, rfl⟩ := first
  obtain ⟨objects, dirty, rfl⟩ := second
  exact ⟨objects, dirty, rfl⟩

/-- A change of the live objects alone changes only the accounts a reader sees. -/
theorem ObjectsOnly.reads (only : s.ObjectsOnly t) : t.reads = { s.reads with accounts := t.seen } := by
  obtain ⟨_, _, rfl⟩ := only
  rfl

theorem ObjectsOnly.unmoved (only : s.ObjectsOnly t) : s.Unmoved t := by
  obtain ⟨_, _, rfl⟩ := only
  exact ⟨rfl, rfl, rfl, rfl⟩

theorem unmoved_refl (s : StateDB) : s.Unmoved s :=
  ⟨rfl, rfl, rfl, rfl⟩

theorem Unmoved.trans (first : s.Unmoved t) (second : t.Unmoved u) : s.Unmoved u :=
  ⟨second.trie.trans first.trie, second.journal.trans first.journal,
    second.validRevisions.trans first.validRevisions, second.nextRevisionId.trans first.nextRevisionId⟩

theorem objectsOnly_setStateObject (obj : stateObject) : s.ObjectsOnly (s.setStateObject obj) :=
  ⟨_, _, rfl⟩

theorem seen_setStateObject (obj : stateObject) :
    (s.setStateObject obj).seen =
      Function.update s.seen obj.address (if obj.deleted then none else some obj.view) := by
  funext addr
  by_cases same : addr = obj.address
  · subst same
    simp only [seen, setStateObject, Function.update_self]
  · simp only [seen, setStateObject, Function.update_of_ne same]

theorem Keyed.setStateObject (keyed : s.Keyed) (obj : stateObject) : (s.setStateObject obj).Keyed := by
  intro addr other held
  by_cases same : addr = obj.address
  · subst same
    simp only [StateDB.setStateObject, Function.update_self, Option.some.injEq] at held
    rw [held]
  · simp only [StateDB.setStateObject, Function.update_of_ne same] at held
    exact keyed addr other held

/-- The dirty callback changes the dirty set alone, and leaves the object with
its callback cleared. -/
theorem fireDirty_fst (obj : stateObject) :
    (s.fireDirty obj).1 = { s with stateObjectsDirty := (s.fireDirty obj).1.stateObjectsDirty } := by
  unfold fireDirty
  split <;> rfl

theorem fireDirty_snd (obj : stateObject) : (s.fireDirty obj).2 = { obj with onDirty := false } := by
  unfold fireDirty
  split
  · rfl
  · next unarmed =>
    cases obj
    simp only [Bool.not_eq_true] at unarmed
    subst unarmed
    rfl

theorem seen_fireDirty (obj : stateObject) : (s.fireDirty obj).1.seen = s.seen := by
  rw [fireDirty_fst]
  rfl

theorem Keyed.fireDirty (keyed : s.Keyed) (obj : stateObject) : (s.fireDirty obj).1.Keyed := by
  rw [fireDirty_fst]
  exact keyed

/-! ### getStateObject and updateObject -/

section Get

variable {addr : Address}

theorem getStateObject_of_live {obj : stateObject} (live : s.stateObjects addr = some obj) :
    s.getStateObject addr = (if obj.deleted then none else some obj, s) := by
  rw [getStateObject, live]

theorem getStateObject_of_missing (absent : s.stateObjects addr = none) (missing : s.trie addr = none) :
    s.getStateObject addr = (none, s) := by
  rw [getStateObject, absent, missing]

theorem getStateObject_of_stored {data : Account} (absent : s.stateObjects addr = none)
    (stored : s.trie addr = some data) :
    s.getStateObject addr = (some (newObject addr data), s.setStateObject (newObject addr data)) := by
  rw [getStateObject, absent, stored]

end Get

/-- getStateObject loads nothing when it finds no account. -/
theorem getStateObject_snd_of_none {addr : Address} (missing : (s.getStateObject addr).1 = none) :
    (s.getStateObject addr).2 = s := by
  cases live : s.stateObjects addr with
  | some obj => rw [getStateObject_of_live live]
  | none =>
    cases stored : s.trie addr with
    | none => rw [getStateObject_of_missing live stored]
    | some data =>
      rw [getStateObject_of_stored live stored] at missing
      cases missing

/-- getStateObject changes the live objects alone: at most the account is loaded. -/
theorem objectsOnly_getStateObject (addr : Address) : s.ObjectsOnly (s.getStateObject addr).2 := by
  cases live : s.stateObjects addr with
  | some obj =>
    rw [getStateObject_of_live live]
    exact objectsOnly_refl s
  | none =>
    cases stored : s.trie addr with
    | none =>
      rw [getStateObject_of_missing live stored]
      exact objectsOnly_refl s
    | some data =>
      rw [getStateObject_of_stored live stored]
      exact objectsOnly_setStateObject _

/-- getStateObject finds the account a reader sees. -/
theorem getStateObject_view (addr : Address) : (s.getStateObject addr).1.map stateObject.view = s.seen addr := by
  cases live : s.stateObjects addr with
  | some obj =>
    rw [getStateObject_of_live live]
    cases deleted : obj.deleted <;> simp only [seen, live, deleted, Bool.false_eq_true, if_true, if_false,
      Option.map_none, Option.map_some]
  | none =>
    cases stored : s.trie addr with
    | none => simp only [getStateObject_of_missing live stored, seen, live, stored, Option.map_none]
    | some data => simp only [getStateObject_of_stored live stored, seen, live, stored, Option.map_some]

/-- A read of a live object's fields that a reader sees is a read of the account
a reader sees. -/
theorem map_getStateObject {α : Type} (addr : Address) (read : AccountView → α) :
    (s.getStateObject addr).1.map (read ∘ stateObject.view) = (s.seen addr).map read := by
  rw [← getStateObject_view, Option.map_map]

/-- getStateObject finds what a reader sees, an object under its address that is
not deleted; loading it changes nothing a reader sees. -/
theorem getStateObject_spec (keyed : s.Keyed) (addr : Address) :
    (s.getStateObject addr).1.map stateObject.view = s.seen addr ∧
      (∀ obj, (s.getStateObject addr).1 = some obj → obj.address = addr ∧ obj.deleted = false) ∧
      (s.getStateObject addr).2.seen = s.seen ∧ (s.getStateObject addr).2.Keyed := by
  cases live : s.stateObjects addr with
  | some obj =>
    have located := keyed addr obj live
    rw [getStateObject_of_live live]
    cases deleted : obj.deleted with
    | true =>
      refine ⟨?_, fun other found => ?_, rfl, keyed⟩
      · simp only [seen, live, deleted, if_true, Option.map_none]
      · simp only [if_true, reduceCtorEq] at found
    | false =>
      refine ⟨?_, fun other found => ?_, rfl, keyed⟩
      · simp only [seen, live, deleted, Bool.false_eq_true, if_false, Option.map_some]
      · simp only [Bool.false_eq_true, if_false, Option.some.injEq] at found
        subst found
        exact ⟨located, deleted⟩
  | none =>
    cases stored : s.trie addr with
    | none =>
      rw [getStateObject_of_missing live stored]
      refine ⟨?_, fun other found => ?_, rfl, keyed⟩
      · simp only [seen, live, stored, Option.map_none]
      · cases found
    | some data =>
      -- the account is loaded into the live map, where a reader already saw it
      rw [getStateObject_of_stored live stored]
      have unseen : s.seen addr = some (newObject addr data).view := by
        simp only [seen, live, stored, Option.map_some]
      refine ⟨unseen.symm, fun other found => ?_, ?_, keyed.setStateObject _⟩
      · cases found
        exact ⟨rfl, rfl⟩
      · rw [seen_setStateObject]
        exact (unseen ▸ Function.update_eq_self addr s.seen)

section Update

variable {f : StateDB → stateObject → StateDB × stateObject} {change : AccountView → AccountView}

/-- updateObject with a change that fires the dirty callback at most changes
the live objects alone. -/
theorem objectsOnly_updateObject (addr : Address)
    (fires : ∀ s obj, (f s obj).1 = { s with stateObjectsDirty := (f s obj).1.stateObjectsDirty }) :
    s.ObjectsOnly (s.updateObject addr f) := by
  unfold updateObject
  have loads := objectsOnly_getStateObject (s := s) addr
  rcases loading : s.getStateObject addr with ⟨_ | obj, loaded⟩
  · rw [loading] at loads
    exact loads
  · rw [loading] at loads
    have fired : loaded.ObjectsOnly (f loaded obj).1 := by
      rw [fires]
      exact ⟨_, _, rfl⟩
    exact loads.trans (fired.trans (objectsOnly_setStateObject _))

/-- updateObject with a change that fires the dirty callback at most, and moves
the account a reader sees by change, moves what a reader sees at the address by
change and nowhere else. -/
theorem seen_updateObject (keyed : s.Keyed) (addr : Address) (address : ∀ v, (change v).address = v.address)
    (fires : ∀ s obj, (f s obj).1 = { s with stateObjectsDirty := (f s obj).1.stateObjectsDirty })
    (viewed : ∀ s obj, (f s obj).2.view = change obj.view) (kept : ∀ s obj, (f s obj).2.deleted = obj.deleted) :
    (s.updateObject addr f).seen = Function.update s.seen addr ((s.seen addr).map change) ∧
      (s.updateObject addr f).Keyed := by
  obtain ⟨found, located, seenLoaded, keyedLoaded⟩ := getStateObject_spec keyed addr
  unfold updateObject
  rcases loading : s.getStateObject addr with ⟨_ | obj, loaded⟩
  · -- a reader sees no account: nothing is written
    rw [loading] at found seenLoaded keyedLoaded
    have unseen : s.seen addr = none := found.symm
    have loadedSeen : loaded.seen = s.seen := seenLoaded
    refine ⟨?_, keyedLoaded⟩
    show loaded.seen = _
    rw [loadedSeen, unseen, Option.map_none, ← unseen]
    exact (Function.update_eq_self addr s.seen).symm
  · simp only [loading, Option.map_some] at found located seenLoaded keyedLoaded
    obtain ⟨atAddr, notDeleted⟩ := located obj rfl
    have firedSeen : (f loaded obj).1.seen = loaded.seen := by
      rw [fires]
      rfl
    have firedKeyed : (f loaded obj).1.Keyed := by
      rw [fires]
      exact keyedLoaded
    have writtenAt : (f loaded obj).2.address = addr := by
      rw [← stateObject.view_address, viewed, address, stateObject.view_address, atAddr]
    refine ⟨?_, firedKeyed.setStateObject _⟩
    rw [seen_setStateObject, firedSeen, seenLoaded, writtenAt, kept, notDeleted, ← found, viewed]
    rfl

end Update

/-! ### Undoing journal entries -/

/-- Once a creation is undone, a reader sees at the account what the trie
holds. -/
theorem seen_undo_create (account : Address) :
    ((journalEntry.createObjectChange account).undo s).seen =
      Function.update s.seen account ((s.trie account).map fun data => (newObject account data).view) := by
  funext addr
  by_cases same : addr = account
  · subst same
    simp only [seen, journalEntry.undo, Function.update_self]
  · simp only [seen, journalEntry.undo, Function.update_of_ne same]

/-- No undo moves the account trie, the journal or the revisions. -/
theorem unmoved_undo (entry : journalEntry) : s.Unmoved (entry.undo s) := by
  cases entry with
  | createObjectChange account => exact ⟨rfl, rfl, rfl, rfl⟩
  | resetObjectChange prev => exact (objectsOnly_setStateObject prev).unmoved
  | suicideChange account prev prevbalance =>
    exact (objectsOnly_updateObject account fun _ _ => fireDirty_fst _).unmoved
  | touchChange account prev prevDirty =>
    simp only [journalEntry.undo]
    split
    · have touched : s.Unmoved (s.updateObject account fun s obj => (s, { obj with touched := prev })) :=
        (objectsOnly_updateObject account fun _ _ => rfl).unmoved
      split
      · exact touched.trans ⟨rfl, rfl, rfl, rfl⟩
      · exact touched
    · exact unmoved_refl s
  | balanceChange account prev => exact (objectsOnly_updateObject account fun _ _ => fireDirty_fst _).unmoved
  | nonceChange account prev => exact (objectsOnly_updateObject account fun _ _ => fireDirty_fst _).unmoved
  | codeChange account prevcode prevhash =>
    exact (objectsOnly_updateObject account fun _ _ => fireDirty_fst _).unmoved
  | storageChange account key prevalue =>
    exact (objectsOnly_updateObject account fun _ _ => fireDirty_fst _).unmoved
  | refundChange prev => exact ⟨rfl, rfl, rfl, rfl⟩
  | addLogChange txhash => exact ⟨rfl, rfl, rfl, rfl⟩
  | addPreimageChange hash => exact ⟨rfl, rfl, rfl, rfl⟩

/-- The undo of a setter of one field, through updateObject and the object's
setter: what a reader sees of the account gets the field back. -/
theorem reads_undo_setter (keyed : s.Keyed) (addr : Address) {g : stateObject → stateObject}
    (address : ∀ v, (change v).address = v.address) (viewed : ∀ obj, (g obj).view = change obj.view)
    (kept : ∀ obj, (g obj).deleted = obj.deleted) :
    (s.updateObject addr fun s obj => s.fireDirty (g obj)).reads = s.reads.modify addr change ∧
      (s.updateObject addr fun s obj => s.fireDirty (g obj)).Keyed := by
  obtain ⟨seenAfter, keyedAfter⟩ := seen_updateObject keyed addr address (fun _ _ => fireDirty_fst _)
    (fun _ obj => by rw [fireDirty_snd]; exact viewed obj) (fun _ obj => by rw [fireDirty_snd]; exact kept obj)
  refine ⟨?_, keyedAfter⟩
  rw [(objectsOnly_updateObject addr fun _ _ => fireDirty_fst _).reads, seenAfter]
  rfl

/-- The undo of every entry moves what a reader sees by the entry's undoReads,
in a state whose live objects sit under their addresses, and keeps them so. -/
theorem undo_spec (keyed : s.Keyed) (entry : journalEntry) :
    (entry.undo s).reads = entry.undoReads s.trie s.reads ∧ (entry.undo s).Keyed := by
  cases entry with
  | createObjectChange account =>
    refine ⟨?_, ?_⟩
    · have uncreated : s.ObjectsOnly ((journalEntry.createObjectChange account).undo s) := ⟨_, _, rfl⟩
      rw [uncreated.reads, seen_undo_create]
      rfl
    · intro addr obj held
      by_cases same : addr = account
      · subst same
        simp only [journalEntry.undo, Function.update_self] at held
        cases held
      · simp only [journalEntry.undo, Function.update_of_ne same] at held
        exact keyed addr obj held
  | resetObjectChange prev =>
    refine ⟨?_, keyed.setStateObject prev⟩
    rw [journalEntry.undo, (objectsOnly_setStateObject prev).reads, seen_setStateObject]
    rfl
  | suicideChange account prev prevbalance =>
    exact reads_undo_setter keyed account (fun _ => rfl) (fun _ => rfl) (fun _ => rfl)
  | touchChange account prev prevDirty =>
    -- the touched flag and the dirty set are nothing a reader sees
    simp only [journalEntry.undo, journalEntry.undoReads]
    split
    · have updated : (s.updateObject account fun s obj => (s, { obj with touched := prev })).seen =
            Function.update s.seen account ((s.seen account).map id) ∧
          (s.updateObject account fun s obj => (s, { obj with touched := prev })).Keyed :=
        seen_updateObject keyed account (fun _ => rfl) (fun _ _ => rfl) (fun _ _ => rfl) (fun _ _ => rfl)
      obtain ⟨seenAfter, keyedAfter⟩ := updated
      have same : (s.updateObject account fun s obj => (s, { obj with touched := prev })).reads = s.reads := by
        rw [(objectsOnly_updateObject account fun _ _ => rfl).reads, seenAfter, Option.map_id, id_eq,
          Function.update_eq_self]
        rfl
      split
      · exact ⟨same, keyedAfter⟩
      · exact ⟨same, keyedAfter⟩
    · exact ⟨rfl, keyed⟩
  | balanceChange account prev =>
    exact reads_undo_setter keyed account (fun _ => rfl) (fun _ => rfl) (fun _ => rfl)
  | nonceChange account prev =>
    exact reads_undo_setter keyed account (fun _ => rfl) (fun _ => rfl) (fun _ => rfl)
  | codeChange account prevcode prevhash =>
    exact reads_undo_setter keyed account (fun _ => rfl) (fun _ => rfl) (fun _ => rfl)
  | storageChange account key prevalue =>
    exact reads_undo_setter keyed account (fun _ => rfl) (fun _ => rfl) (fun _ => rfl)
  | refundChange prev => exact ⟨rfl, keyed⟩
  | addLogChange txhash => exact ⟨rfl, keyed⟩
  | addPreimageChange hash => exact ⟨rfl, keyed⟩

theorem unmoved_undoAll (entries : List journalEntry) : s.Unmoved (undoAll journalEntry.undo entries s) := by
  induction entries with
  | nil => exact unmoved_refl s
  | cons entry entries inductionHypothesis =>
    rw [undoAll_cons]
    exact inductionHypothesis.trans (unmoved_undo entry)

/-- A run of undos moves what a reader sees as the run of undoReads over the
account trie does, in a state whose live objects sit under their addresses. -/
theorem undoAll_spec (keyed : s.Keyed) (entries : List journalEntry) :
    (undoAll journalEntry.undo entries s).reads = undoAll (journalEntry.undoReads s.trie) entries s.reads ∧
      (undoAll journalEntry.undo entries s).Keyed := by
  have simulated := undoAll_simulates journalEntry.undo reads (journalEntry.undoReads s.trie)
    (fun state => state.Keyed ∧ s.Unmoved state)
    (fun entry _ kept => ⟨(undo_spec kept.1 entry).2, kept.2.trans (unmoved_undo entry)⟩)
    (fun entry _ kept => by rw [(undo_spec kept.1 entry).1, kept.2.trie])
    entries s ⟨keyed, unmoved_refl s⟩
  exact ⟨simulated.2, simulated.1.1⟩

end StateDB

end Meshbox.State
