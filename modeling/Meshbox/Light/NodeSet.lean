/-
The light client's node sets and node lists (light/nodeset.go). A NodeSet holds
trie nodes by key: a key put again keeps the node first put, and the set counts
the bytes of the nodes it took. A NodeList is the list of nodes a peer sends as
a proof, and its NodeSet holds each node under the node's Keccak-256 hash.

The set is kept as its entries, the newest first, with no key twice, as the Go
map holds them. Go ranges over a map in no fixed order; NodeList and Store here
take the entries' order, and what is proved of them does not depend on it.

A run of Puts reads as a lookup: the set then answers a key with what it held,
or else with the first node the run put under the key (Get_putAll). From that,
the set of a node list holds nothing but nodes of the list under their hashes,
and every run of Puts keeps the byte count equal to the bytes the set holds.
-/

import Meshbox.Trie.Trie

namespace Meshbox.Light

open Meshbox.Trie

/-- NodeSet: the nodes by key, the newest first, and the total size of the
nodes taken. A Go map holds no key twice. -/
structure NodeSet where
  db : List (List UInt8 × List UInt8)
  dataSize : Nat
  unique : (db.map Prod.fst).Nodup

/-- NewNodeSet: an empty node set. -/
def NewNodeSet : NodeSet :=
  ⟨[], 0, List.nodup_nil⟩

namespace NodeSet

/-- An entry a lookup finds is an entry of the list. -/
theorem mem_of_lookup {entries : List (List UInt8 × List UInt8)} {key value : List UInt8}
    (found : entries.lookup key = some value) : (key, value) ∈ entries := by
  obtain ⟨before, after, split, -⟩ := List.lookup_eq_some_iff.mp found
  rw [split]
  exact List.mem_append_right _ List.mem_cons_self

/-- A lookup in a list with no key twice finds each entry of the list. -/
theorem lookup_of_mem {entries : List (List UInt8 × List UInt8)} (unique : (entries.map Prod.fst).Nodup)
    {key value : List UInt8} (member : (key, value) ∈ entries) : entries.lookup key = some value := by
  induction entries with
  | nil => cases member
  | cons entry rest inductionHypothesis =>
    rw [List.map_cons, List.nodup_cons] at unique
    rcases List.mem_cons.mp member with same | inRest
    · rw [← same, List.lookup_cons, beq_self_eq_true]
    · -- the key is not the first entry's, which holds no other key of the list
      have differ : key ≠ entry.1 := by
        rintro rfl
        exact unique.1 (List.mem_map.mpr ⟨_, inRest, rfl⟩)
      rw [List.lookup_cons, beq_false_of_ne differ]
      exact inductionHypothesis unique.2 inRest

/-- The keys the set holds. -/
def keys (db : NodeSet) : List (List UInt8) :=
  db.db.map Prod.fst

theorem lookup_isSome_iff_mem_keys {db : NodeSet} {key : List UInt8} :
    (db.db.lookup key).isSome ↔ key ∈ db.keys := by
  rw [List.lookup_isSome_iff, keys, List.mem_map]
  constructor
  · rintro ⟨entry, member, same⟩
    exact ⟨entry, member, (beq_iff_eq.mp same).symm⟩
  · rintro ⟨entry, member, rfl⟩
    exact ⟨entry, member, beq_self_eq_true _⟩

/-- Put: stores the node under the key and counts its size, unless the set
holds the key. -/
def Put (db : NodeSet) (key value : List UInt8) : NodeSet :=
  if held : (db.db.lookup key).isSome then db
  else ⟨(key, value) :: db.db, db.dataSize + value.length,
    List.nodup_cons.mpr ⟨fun member => held (lookup_isSome_iff_mem_keys.mpr member), db.unique⟩⟩

/-- Get: the node stored under the key, none when not found. -/
def Get (db : NodeSet) (key : List UInt8) : Option (List UInt8) :=
  db.db.lookup key

/-- Has: whether the set holds the key. -/
def Has (db : NodeSet) (key : List UInt8) : Bool :=
  (db.Get key).isSome

/-- KeyCount: the number of nodes in the set. -/
def KeyCount (db : NodeSet) : Nat :=
  db.db.length

/-- DataSize: the total size of the nodes taken. -/
def DataSize (db : NodeSet) : Nat :=
  db.dataSize

/-- NodeList: the nodes of the set as a list. -/
def NodeList (db : NodeSet) : List (List UInt8) :=
  db.db.map Prod.snd

/-- Store: every node of the set written under its key to the target database. -/
def Store (db : NodeSet) (target : MemDatabase) : MemDatabase :=
  db.db.foldr (fun entry target => target.Put entry.1 entry.2) target

end NodeSet

/-- NodeList.Store: each node of the list put into the set under its hash. -/
def NodeList.Store (keccak : List UInt8 → Hash) (n : List (List UInt8)) (db : NodeSet) : NodeSet :=
  n.foldl (fun db node => db.Put (keccak node).toList node) db

/-- NodeList.NodeSet: the node set of a list of nodes. -/
def NodeList.NodeSet (keccak : List UInt8 → Hash) (n : List (List UInt8)) : Meshbox.Light.NodeSet :=
  NodeList.Store keccak n NewNodeSet

/-- NodeList.Put: the node appended to the list; the key is not kept. -/
def NodeList.Put (n : List (List UInt8)) (_key value : List UInt8) : List (List UInt8) :=
  n ++ [value]

/-- NodeList.DataSize: the total size of the nodes of the list. -/
def NodeList.DataSize (n : List (List UInt8)) : Nat :=
  (n.map List.length).sum

namespace NodeSet

/-! ### One Put -/

variable {db : NodeSet} {key value other : List UInt8}

theorem Get_isSome_iff : (db.Get key).isSome ↔ key ∈ db.keys :=
  lookup_isSome_iff_mem_keys

/-- The set answers each key it holds with the node held under it. -/
theorem Get_of_mem (member : (key, value) ∈ db.db) : db.Get key = some value :=
  lookup_of_mem db.unique member

theorem mem_of_Get (found : db.Get key = some value) : (key, value) ∈ db.db :=
  mem_of_lookup found

theorem Put_of_held (held : (db.Get key).isSome) : db.Put key value = db :=
  dif_pos held

theorem Put_of_absent (value : List UInt8) (absent : db.Get key = none) :
    (db.Put key value).db = (key, value) :: db.db ∧ (db.Put key value).dataSize = db.dataSize + value.length := by
  have fresh : ¬ (db.db.lookup key).isSome := by
    rw [show db.db.lookup key = db.Get key from rfl, absent]
    exact Bool.false_ne_true
  rw [Put, dif_neg fresh]
  exact ⟨rfl, rfl⟩

/-- After a Put the set answers the key with what it held, or else with the
node put. -/
theorem Get_Put : (db.Put key value).Get other = if other = key then (db.Get key).or (some value) else db.Get other := by
  cases found : db.Get key with
  | some held =>
    rw [Put_of_held (by rw [found]; rfl)]
    split
    · next same => rw [same, found]; rfl
    · rfl
  | none =>
    have put := (Put_of_absent value found).1
    simp only [Get, put, List.lookup_cons]
    split
    · next same =>
      rw [if_pos (beq_iff_eq.mp same)]
      rfl
    · next differ =>
      have differ : other ≠ key := fun same => by rw [same, beq_self_eq_true] at differ; cases differ
      rw [if_neg differ]

/-! ### Runs of Puts -/

/-- The set after a run of Puts, the first entry first: how NodeList.Store
fills a set, and how Prove writes to one. -/
def putAll (db : NodeSet) (entries : List (List UInt8 × List UInt8)) : NodeSet :=
  entries.foldl (fun db entry => db.Put entry.1 entry.2) db

theorem putAll_cons (entry : List UInt8 × List UInt8) (entries : List (List UInt8 × List UInt8)) :
    db.putAll (entry :: entries) = (db.Put entry.1 entry.2).putAll entries :=
  rfl

/-- After a run of Puts the set answers a key with what it held, or else with
the first node the run put under the key. The induction is on the run, from
any set. -/
theorem Get_putAll (entries : List (List UInt8 × List UInt8)) :
    ∀ db : NodeSet, (db.putAll entries).Get key = (db.Get key).or (entries.lookup key) := by
  induction entries with
  | nil => intro db; exact Option.or_none.symm
  | cons entry entries inductionHypothesis =>
    intro db
    rw [putAll_cons, inductionHypothesis, Get_Put, List.lookup_cons]
    by_cases same : key = entry.1
    · -- the run's first entry has the key: the set's node, or else the entry's
      rw [if_pos same, same, beq_self_eq_true]
      cases db.Get entry.1 <;> rfl
    · rw [if_neg same, beq_false_of_ne same]

end NodeSet

theorem NodeList.Store_eq_putAll (keccak : List UInt8 → Hash) (n : List (List UInt8)) (db : Meshbox.Light.NodeSet) :
    NodeList.Store keccak n db = db.putAll (n.map fun node => ((keccak node).toList, node)) := by
  rw [NodeList.Store, NodeSet.putAll, List.foldl_map]

/-- The node set of a node list answers a key with the first node of the list
that hashes to it. -/
theorem NodeList.NodeSet_Get (keccak : List UInt8 → Hash) (n : List (List UInt8)) (key : List UInt8) :
    (NodeList.NodeSet keccak n).Get key = (n.map fun node => ((keccak node).toList, node)).lookup key := by
  rw [NodeList.NodeSet, NodeList.Store_eq_putAll, NodeSet.Get_putAll]
  rfl

/-- A node the node set of a list gives is a node of the list, under its hash. -/
theorem NodeList.NodeSet_consistent {keccak : List UInt8 → Hash} {n : List (List UInt8)}
    {key value : List UInt8} (held : (NodeList.NodeSet keccak n).Get key = some value) :
    key = (keccak value).toList ∧ value ∈ n := by
  rw [NodeList.NodeSet_Get] at held
  obtain ⟨node, inList, same⟩ := List.mem_map.mp (NodeSet.mem_of_lookup held)
  cases same
  exact ⟨rfl, inList⟩

/-- The node set of a list holds every node of the list's hash. -/
theorem NodeList.NodeSet_isSome {keccak : List UInt8 → Hash} {n : List (List UInt8)} {node : List UInt8}
    (member : node ∈ n) : ((NodeList.NodeSet keccak n).Get (keccak node).toList).isSome := by
  rw [NodeList.NodeSet_Get, List.lookup_isSome_iff]
  exact ⟨_, List.mem_map_of_mem member, beq_self_eq_true _⟩

namespace NodeSet

variable {db : NodeSet} {key value : List UInt8}

/-! ### The byte count -/

/-- The byte count is the total size of the nodes the set holds. -/
def Sized (db : NodeSet) : Prop :=
  db.dataSize = NodeList.DataSize db.NodeList

theorem sized_NewNodeSet : Sized NewNodeSet :=
  rfl

theorem Sized.put (sized : Sized db) : Sized (db.Put key value) := by
  cases found : db.Get key with
  | some held => rwa [Put_of_held (by rw [found]; rfl)]
  | none =>
    obtain ⟨entries, size⟩ := Put_of_absent value found
    unfold Sized at sized ⊢
    rw [size, sized]
    simp only [NodeList.DataSize, NodeSet.NodeList, entries, List.map_cons, List.sum_cons]
    omega

theorem Sized.putAll (entries : List (List UInt8 × List UInt8)) : ∀ {db : NodeSet}, Sized db → Sized (db.putAll entries) := by
  induction entries with
  | nil => exact fun sized => sized
  | cons entry entries inductionHypothesis => exact fun sized => inductionHypothesis sized.put

end NodeSet

end Meshbox.Light
