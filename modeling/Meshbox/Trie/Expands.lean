/-
What a trie's nodes promise about the tree they spell out. A node stands for a
tree given the database: a short or full node through its children, a hash node
through the node the database holds under the hash. The cache flags say more:
a cached hash is the hash of the node's encoding, and a node that is not dirty
has its whole subtree in the database, itself too when it has a hash. Where a
node sits limits its hash: below the root a parent refers to a node by hash
exactly when its encoding has 32 bytes or more, while the root is hashed
whatever its size.

These are the facts that let the operations of trie.go resolve a hash node
they reach, and let the hasher skip a clean node or unload it to its hash. They
hold as long as the database keeps what it held: a database whose values are
encodings stored under their hashes, among encodings with no two of one hash,
keeps them under every write the hasher makes.
-/

import Meshbox.Trie.Canonical

namespace Meshbox.Trie

open Radix

section Expansion

variable (keccak : List UInt8 → Hash)

/-! ### What the database holds -/

/-- The database holds the node's encoding under its hash. -/
def StoredTop (db : MemDatabase) (tree : HexTree) : Prop :=
  db.Get (hashOf keccak tree) = some (encoding keccak tree)

/-- A child its parent refers to by hash is in the database: a node, not a
value, whose encoding is big. -/
def StoredRef (db : MemDatabase) (child : HexTree) : Prop :=
  child.IsLeaf = false → Big keccak child → StoredTop keccak db child

/-- Every node below the root that its parent refers to by hash is in the
database. -/
def StoredBelow (db : MemDatabase) : HexTree → Prop
  | .empty => True
  | .leaf _ => True
  | .short _ child => StoredRef keccak db child ∧ StoredBelow db child
  | .full children => ∀ symbol, StoredRef keccak db (children symbol) ∧ StoredBelow db (children symbol)

/-- The node and everything below it is in the database. -/
def Stored (db : MemDatabase) (tree : HexTree) : Prop :=
  StoredTop keccak db tree ∧ StoredBelow keccak db tree

/-! ### Flags and positions -/

/-- What a node's cache flags promise: a cached hash is the tree's hash, and a
clean node has its subtree in the database, itself too when it has a hash. -/
def FlagsOk (db : MemDatabase) (flags : nodeFlag) (tree : HexTree) : Prop :=
  (∀ hash, flags.hash = some hash → hash = hashOf keccak tree) ∧
    (flags.dirty = false → StoredBelow keccak db tree ∧ (flags.hash.isSome → StoredTop keccak db tree))

/-- What a position allows of a node's flags. Below the root a node has a hash
only when it is big, and a clean node without one is small, as the hasher made
it; a clean root has its hash, as the root is hashed whatever its size. -/
def FlagsPlaced (atRoot : Bool) (tree : HexTree) (flags : nodeFlag) : Prop :=
  if atRoot then flags.dirty = false → flags.hash.isSome
  else (flags.hash.isSome → Big keccak tree) ∧ (flags.dirty = false → flags.hash = none → ¬ Big keccak tree)

/-- What a position allows of a node: below the root, a hash node stands for a
big node; a short or full node's flags fit the position. -/
def Placed (atRoot : Bool) (tree : HexTree) : Node → Prop
  | .hashNode _ => atRoot = true ∨ Big keccak tree
  | .shortNode _ _ flags => FlagsPlaced keccak atRoot tree flags
  | .fullNode _ flags => FlagsPlaced keccak atRoot tree flags
  | _ => True

/-! ### The expansion of a node -/

/-- The node stands for the tree, reading hash nodes from db. A full node's
slot index is the symbol its child is reached by, and past the terminator its
tree has no children. A hash node stands for a short or full node of that hash
that the database holds with everything below it. -/
inductive Expands (db : MemDatabase) : Node → HexTree → Prop
  | nil : Expands db .nil .empty
  | valueNode (value : List UInt8) : Expands db (.valueNode value) (.leaf value)
  | shortNode {key : List UInt8} {child : Node} {flags : nodeFlag} {tree : HexTree} :
      Expands db child tree → Placed keccak false tree child → FlagsOk keccak db flags (.short key tree) →
      Expands db (.shortNode key child flags) (.short key tree)
  | fullNode {children : Fin 17 → Node} {flags : nodeFlag} {trees : UInt8 → HexTree} :
      (∀ index : Fin 17, Expands db (children index) (trees (UInt8.ofNat index.val))) →
      (∀ index : Fin 17, Placed keccak false (trees (UInt8.ofNat index.val)) (children index)) →
      (∀ symbol : UInt8, 16 < symbol → trees symbol = .empty) →
      FlagsOk keccak db flags (.full trees) →
      Expands db (.fullNode children flags) (.full trees)
  | hashNode {tree : HexTree} : tree ≠ .empty → tree.IsLeaf = false → Stored keccak db tree →
      Expands db (.hashNode (hashOf keccak tree)) tree

/-! ### Databases that keep what they hold -/

/-- The second database holds everything the first does. -/
def Retains (db db' : MemDatabase) : Prop :=
  ∀ key value, db.Get key = some value → db'.Get key = some value

theorem Retains.refl (db : MemDatabase) : Retains db db := fun _ _ held => held

theorem Retains.trans {db db' db'' : MemDatabase} (first : Retains db db') (second : Retains db' db'') :
    Retains db db'' := fun key value held => second key value (first key value held)

variable {keccak} {db db' : MemDatabase}

theorem StoredTop.mono {tree : HexTree} (stored : StoredTop keccak db tree) (retains : Retains db db') :
    StoredTop keccak db' tree :=
  retains _ _ stored

theorem StoredBelow.mono {tree : HexTree} (stored : StoredBelow keccak db tree) (retains : Retains db db') :
    StoredBelow keccak db' tree := by
  induction tree with
  | empty => trivial
  | leaf value => trivial
  | short run child inductionHypothesis =>
    exact ⟨fun notLeaf big => (stored.1 notLeaf big).mono retains, inductionHypothesis stored.2⟩
  | full children inductionHypothesis =>
    exact fun symbol => ⟨fun notLeaf big => ((stored symbol).1 notLeaf big).mono retains,
      inductionHypothesis symbol (stored symbol).2⟩

theorem Stored.mono {tree : HexTree} (stored : Stored keccak db tree) (retains : Retains db db') :
    Stored keccak db' tree :=
  ⟨stored.1.mono retains, stored.2.mono retains⟩

theorem FlagsOk.mono {flags : nodeFlag} {tree : HexTree} (ok : FlagsOk keccak db flags tree)
    (retains : Retains db db') : FlagsOk keccak db' flags tree :=
  ⟨ok.1, fun clean => ⟨(ok.2 clean).1.mono retains, fun hashed => ((ok.2 clean).2 hashed).mono retains⟩⟩

/-- A node stands for the same tree in a database that holds more. -/
theorem Expands.mono {node : Node} {tree : HexTree} (expands : Expands keccak db node tree)
    (retains : Retains db db') : Expands keccak db' node tree := by
  induction expands with
  | nil => exact .nil
  | valueNode value => exact .valueNode value
  | shortNode _ placed ok inductionHypothesis => exact .shortNode inductionHypothesis placed (ok.mono retains)
  | fullNode _ placed beyond ok inductionHypothesis =>
    exact .fullNode inductionHypothesis placed beyond (ok.mono retains)
  | hashNode nonempty notLeaf stored => exact .hashNode nonempty notLeaf (stored.mono retains)

/-- Encodings of which no two have one hash, none of them the hash of the zero
root or the empty root. -/
def Collisionless (keccak : List UInt8 → Hash) (encodings : List UInt8 → Prop) : Prop :=
  (∀ first second, encodings first → encodings second → keccak first = keccak second → first = second) ∧
    ∀ enc, encodings enc → keccak enc ≠ zeroRoot ∧ keccak enc ≠ emptyRoot

/-- Every value the database holds is one of the encodings, stored under its
hash. -/
def Sound (keccak : List UInt8 → Hash) (encodings : List UInt8 → Prop) (db : MemDatabase) : Prop :=
  ∀ key value, db.Get key = some value → key = (keccak value).toList ∧ encodings value

theorem MemDatabase.Get_Put (db : MemDatabase) (key value other : List UInt8) :
    (db.Put key value).Get other = if other = key then some value else db.Get other := by
  by_cases same : other = key
  · subst same
    simp [MemDatabase.Get, MemDatabase.Put]
  · simp [MemDatabase.Get, MemDatabase.Put, Ne.symm same, same]

/-- Storing one of the encodings under its hash keeps what a sound database
holds, when no two encodings have one hash. -/
theorem Sound.put {encodings : List UInt8 → Prop} (sound : Sound keccak encodings db)
    (collisionless : Collisionless keccak encodings) {enc : List UInt8} (allowed : encodings enc) :
    Sound keccak encodings (db.Put (keccak enc).toList enc) ∧ Retains db (db.Put (keccak enc).toList enc) := by
  constructor
  · intro key value held
    rw [MemDatabase.Get_Put] at held
    split at held
    · next same =>
      cases held
      exact ⟨same, allowed⟩
    · exact sound key value held
  · intro key value held
    rw [MemDatabase.Get_Put]
    split
    · next same =>
      obtain ⟨hashEq, heldAllowed⟩ := sound key value held
      rw [same] at hashEq
      have sameHash : keccak enc = keccak value := Vector.toList_inj.mp hashEq
      rw [collisionless.1 enc value allowed heldAllowed sameHash]
    · exact held

end Expansion

end Meshbox.Trie
