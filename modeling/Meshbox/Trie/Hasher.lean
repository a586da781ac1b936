/-
This file models trie/hasher.go and the hashing entry points of trie.go:
Trie.Hash, Trie.Commit with CommitTo, and hashRoot. The hasher collapses a node
to what its parent stores: a node whose encoding is shorter than 32 bytes is
kept inside its parent, any other is replaced by its Keccak-256 hash and, when
committing, written to the database under that hash. It returns both the
collapsed node and the node with its hash cached, which Trie.Hash and Commit
put back as the root. A node that is not dirty and already has a hash is not
walked again; when committing, such a node older than the cache limit is
unloaded, replaced by its hash node.

The hash function is a parameter. The goroutines that hash the sixteen
children of the top full node at once write to the database under a lock; the
model hashes the children in order.
-/

import Meshbox.Trie.Trie

namespace Meshbox.Trie

open Meshbox.Rlp

set_option linter.dupNamespace false

/-- The RLP value of a node as rlp.Encode writes it: a short node is the list of
its key and child, a full node the list of its seventeen children, a hash or a
value node its bytes, and nil, an empty interface, the empty list. -/
def Node.toItem : Node → Item
  | .nil => .list []
  | .valueNode value => .str value
  | .hashNode hash => .str hash
  | .shortNode key val _ => .list [.str key, val.toItem]
  | .fullNode children _ => .list (List.ofFn fun index => (children index).toItem)

/-- cache: the cached hash of a node and whether it is dirty. Hash and value
nodes have none and are dirty. -/
def Node.cache : Node → Option (List UInt8) × Bool
  | .fullNode _ flags => (flags.hash, flags.dirty)
  | .shortNode _ _ flags => (flags.hash, flags.dirty)
  | _ => (none, true)

/-- canUnload: a node that is not dirty and is at least cachelimit generations
old can be unloaded. -/
def nodeFlag.canUnload (flags : nodeFlag) (cachegen cachelimit : UInt16) : Bool :=
  !flags.dirty && cachegen - flags.gen ≥ cachelimit

/-- hasher: the cache generation and limit of the trie being hashed. -/
structure hasher where
  cachegen : UInt16
  cachelimit : UInt16

/-- The result of hashing a node: the collapsed node, the node with its hash
cached, and the database after (none when only hashing). -/
abbrev HashResult := Node × Node × Option MemDatabase

/-- The sixteen nibble indices, the children hashChildren hashes. -/
def nibbleIndices : List (Fin 17) :=
  (List.finRange 16).map Fin.castSucc

/-- The loop of hashChildren over a full node's nibble children, given how a
child is hashed: a nil child is collapsed to an empty value and not hashed. It
carries the collapsed children, the cached children and the database. -/
def hashChildrenLoop (hashChild : Fin 17 → Option MemDatabase → Option HashResult) :
    List (Fin 17) → (Fin 17 → Node) × (Fin 17 → Node) × Option MemDatabase →
      Option ((Fin 17 → Node) × (Fin 17 → Node) × Option MemDatabase)
  | [], state => some state
  | index :: rest, (collapsed, cached, db) =>
    match collapsed index with
    -- Ensure that nil children are encoded as empty strings.
    | .nil => hashChildrenLoop hashChild rest (Function.update collapsed index (.valueNode []), cached, db)
    | _ =>
      match hashChild index db with
      | none => none
      | some (collapsedChild, cachedChild, db) =>
        hashChildrenLoop hashChild rest
          (Function.update collapsed index collapsedChild, Function.update cached index cachedChild, db)

namespace hasher

variable (keccak : List UInt8 → Meshbox.Hash) (h : hasher)

/-- store: a node whose encoding is shorter than 32 bytes stays inside its
parent unless force; any other is replaced by its hash, the cached one if there
is one, and written to the database. Hash nodes and nil are kept. -/
def store (n : Node) (db : Option MemDatabase) (force : Bool) : Node × Option MemDatabase :=
  match n with
  | .nil => (n, db)
  | .hashNode _ => (n, db)
  | _ =>
    let enc := n.toItem.encode
    -- Nodes smaller than 32 bytes are stored inside their parent
    if enc.length < 32 ∧ !force then (n, db)
    else
      let hash := match n.cache.1 with
        | some hash => hash
        | none => (keccak enc).toList
      (.hashNode hash, db.map (·.Put hash enc))

/-- The start of hash for a node with a cached hash: the hash when only
hashing, the hash node when committing a node that can be unloaded, and the
hash when committing a node already written; none when the node must be
walked. -/
def useCache (n : Node) (flags : nodeFlag) (db : Option MemDatabase) : Option HashResult :=
  match flags.hash with
  | none => none
  | some hash =>
    if db.isNone then some (.hashNode hash, n, db)
    else if flags.canUnload h.cachegen h.cachelimit then some (.hashNode hash, .hashNode hash, db)
    else if !flags.dirty then some (.hashNode hash, n, db)
    else none

/-- The end of hash: the collapsed node stored, and the hash it got cached in
the node, which a commit marks as no longer dirty. -/
def finish (collapsed cached : Node) (db db' : Option MemDatabase) (force : Bool) : HashResult :=
  let (hashed, stored) := store keccak collapsed db' force
  let cachedHash := match hashed with
    | .hashNode hash => some hash
    | _ => none
  let mark := fun (flags : nodeFlag) =>
    { flags with hash := cachedHash, dirty := if db.isSome then false else flags.dirty }
  let cached := match cached with
    | .shortNode key val flags => .shortNode key val (mark flags)
    | .fullNode children flags => .fullNode children (mark flags)
    | other => other
  (hashed, cached, stored)

/-- hash: a node collapsed, with the hash cached in the copy that replaces it.
hashChildren collapses the children first: a short node's key is put in
COMPACT form and its child hashed unless it is a value; a full node's sixteen
nibble children are hashed and its value slot kept. Hashing nil panics, as
calling cache on a nil interface does. -/
def hash : Node → Option MemDatabase → Bool → Option HashResult
  | .nil, _, _ => none
  | .valueNode value, db, force =>
    let (hashed, db') := store keccak (.valueNode value) db force
    some (hashed, .valueNode value, db')
  | .hashNode hash, db, _ => some (.hashNode hash, .hashNode hash, db)
  | .shortNode key val flags, db, force =>
    match h.useCache (.shortNode key val flags) flags db with
    | some result => some result
    | none =>
      let hashedVal := match val with
        | .valueNode _ => some (val, val, db)
        | _ => hash val db false
      match hashedVal with
      | none => none
      | some (collapsedVal, cachedVal, db') =>
        -- Ensure that nil children are encoded as empty strings.
        let collapsedVal := match collapsedVal with
          | .nil => (.valueNode [] : Node)
          | other => other
        some (finish keccak (.shortNode (hexToCompact key) collapsedVal flags)
          (.shortNode key cachedVal flags) db db' force)
  | .fullNode children flags, db, force =>
    match h.useCache (.fullNode children flags) flags db with
    | some result => some result
    | none =>
      match hashChildrenLoop (fun index db => hash (children index) db false) nibbleIndices
          (children, children, db) with
      | none => none
      | some (collapsed, cached, db') =>
        let collapsed := match collapsed 16 with
          | .nil => Function.update collapsed 16 (.valueNode [])
          | _ => collapsed
        some (finish keccak (.fullNode collapsed flags) (.fullNode cached flags) db db' force)

/-- hashChildren: a short or full node with its children collapsed as hash
collapses them, and its copy with the children's hashes cached; value and hash
nodes, and nil, are left as they are. -/
def hashChildren (original : Node) (db : Option MemDatabase) : Option HashResult :=
  match original with
  | .shortNode key val flags =>
    let hashedVal := match val with
      | .valueNode _ => some (val, val, db)
      | _ => hash keccak h val db false
    match hashedVal with
    | none => none
    | some (collapsedVal, cachedVal, db') =>
      -- Ensure that nil children are encoded as empty strings.
      let collapsedVal := match collapsedVal with
        | .nil => (.valueNode [] : Node)
        | other => other
      some (.shortNode (hexToCompact key) collapsedVal flags, .shortNode key cachedVal flags, db')
  | .fullNode children flags =>
    match hashChildrenLoop (fun index db => hash keccak h (children index) db false) nibbleIndices
        (children, children, db) with
    | none => none
    | some (collapsed, cached, db') =>
      let collapsed := match collapsed 16 with
        | .nil => Function.update collapsed 16 (.valueNode [])
        | _ => collapsed
      some (.fullNode collapsed flags, .fullNode cached flags, db')
  | n => some (n, n, db)

end hasher

namespace Trie

variable (keccak : List UInt8 → Meshbox.Hash) (t : Trie)

/-- hashRoot: the root collapsed by a hasher of the trie's generation, with
force, so that even a small root is hashed; emptyRoot for an empty trie. -/
def hashRoot (db : Option MemDatabase) : Option HashResult :=
  match t.root with
  | .nil => some (.hashNode emptyRoot.toList, .nil, db)
  | root => hasher.hash keccak ⟨t.cachegen, t.cachelimit⟩ root db true

/-- Hash: the root hash, the root replaced by its copy with the hashes
cached. -/
def Hash : Option (Meshbox.Hash × Trie) :=
  match t.hashRoot keccak none with
  | some (.hashNode hash, cached, _) => some (BytesToHash hash, { t with root := cached })
  | _ => none

/-- Commit: every dirty node written to the database, the root replaced by its
copy with the hashes cached and old nodes unloaded, and a new cache
generation. -/
def Commit : Option (Meshbox.Hash × Trie) :=
  match t.hashRoot keccak (some t.db) with
  | some (.hashNode hash, cached, some db) =>
    some (BytesToHash hash, { t with root := cached, db := db, cachegen := t.cachegen + 1 })
  | _ => none

end Trie

end Meshbox.Trie
