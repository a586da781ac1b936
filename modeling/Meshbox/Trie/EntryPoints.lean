/-
The entry points of trie.go on a trie that spells out a canonical tree of HEX
keys. TryGet finds what the tree holds at the key's HEX form; TryUpdate and
TryDelete leave a trie for the tree with the key put or removed; Hash gives the
root hash of the tree and Commit gives it too, with the tree written to the
database; and New at that root over the database reads the same tree back.

Each lemma assembles the node-level statements of Operations and Hashing at the
root: a call on the root takes two calls per HEX symbol of the key and two more
to resolve a root hash node, and the root is hashed whatever its size.
-/

import Meshbox.Trie.Hashing

namespace Meshbox.Trie

open Radix

set_option linter.dupNamespace false

section EntryPoints

variable {keccak : List UInt8 → Meshbox.Hash} {encodings : List UInt8 → Prop}

variable (keccak encodings) in
/-- A trie spells out the tree: its root stands for the tree over its database,
in place as a root, the tree is canonical and holds HEX keys with non-empty
values, and the database holds encodings under their hashes. -/
structure Trie.Spells (t : Trie) (tree : HexTree) : Prop where
  expands : Expands keccak t.db t.root tree
  placed : Placed keccak true tree t.root
  canonical : tree.Canonical
  keys : HexKeys tree
  sound : Sound keccak encodings t.db

theorem Expands.eq_nil_of_empty {db : MemDatabase} {n : Node} (expands : Expands keccak db n .empty) : n = .nil := by
  cases expands with
  | nil => rfl
  | hashNode nonempty => exact absurd rfl nonempty

/-- The root of a trie holds no value itself: every key it holds ends with the
terminator. -/
theorem HexKeys.isLeaf_eq_false {tree : HexTree} (keys : HexKeys tree) : tree.IsLeaf = false := by
  cases tree with
  | leaf value =>
    obtain ⟨nibbles, -, emptyKey⟩ := (keys [] value rfl).1
    simp at emptyKey
  | empty | short | full => rfl

/-- A node of the tree is one of its nodes. -/
theorem mem_nodes_self {tree : HexTree} (nonempty : tree ≠ .empty) (notLeaf : tree.IsLeaf = false) :
    tree ∈ nodes tree := by
  cases tree with
  | empty => exact absurd rfl nonempty
  | leaf => cases notLeaf
  | short | full => exact List.mem_cons_self

theorem BytesToHash_toList (hash : Meshbox.Hash) : BytesToHash hash.toList = hash := by
  ext index bounded
  simp [BytesToHash]

/-- The root hash of a tree that is not empty is the hash of its encoding. -/
theorem BytesToHash_hashOf {tree : HexTree} (nonempty : tree ≠ .empty) :
    BytesToHash (hashOf keccak tree) = rootHash keccak tree := by
  rw [hashOf, BytesToHash_toList]
  cases tree with
  | empty => exact absurd rfl nonempty
  | _ => rfl

/-- The root hash of a tree that is not empty, as bytes, is the hash of its
encoding. -/
theorem rootHash_toList {tree : HexTree} (nonempty : tree ≠ .empty) :
    (rootHash keccak tree).toList = hashOf keccak tree := by
  cases tree with
  | empty => exact absurd rfl nonempty
  | _ => rfl

theorem Trie.hashRoot_of_ne_nil (t : Trie) (dbo : Option MemDatabase) (notNil : t.root ≠ .nil) :
    t.hashRoot keccak dbo = hasher.hash keccak ⟨t.cachegen, t.cachelimit⟩ t.root dbo true := by
  unfold Trie.hashRoot
  split
  · next isNil => exact absurd isNil notNil
  · rfl

/-! ### Reading and writing -/

section Operations

variable (fits : ∀ enc, encodings enc → enc.length < 2 ^ 64) {t : Trie} {tree : HexTree}

/-- Enough fuel for a call with the key: two calls per HEX symbol and two more. -/
theorem root_fuel {fuel : Nat} {key : List UInt8} (enough : 2 * (keybytesToHex key).length + 2 ≤ fuel) :
    2 * (keybytesToHex key).length + t.root.cost ≤ fuel := by
  have := t.root.cost_le_two
  omega

include fits in
/-- TryGet finds what the tree holds at the key, and leaves a trie for the same
tree over the same database. -/
theorem Trie.TryGet_spec (spells : t.Spells keccak encodings tree) (key : List UInt8) {fuel : Nat}
    (enough : 2 * (keybytesToHex key).length + 2 ≤ fuel) :
    ∃ t', t.TryGet fuel key = some (.ok (tree.find (keybytesToHex key), t')) ∧
      t'.Spells keccak encodings tree ∧ t'.db = t.db := by
  have terminated := keybytesToHex_terminated key
  obtain ⟨n', resolved, read, expands', placed'⟩ :=
    t.tryGet_spec spells.sound fits terminated fuel spells.expands spells.placed spells.canonical
      spells.keys.hexShaped (by rw [List.drop_zero]; exact spells.keys.compatible terminated)
      (by rw [Nat.sub_zero]; exact root_fuel enough)
  rw [List.drop_zero] at read
  refine ⟨if resolved then { t with root := n' } else t, ?_, ?_, ?_⟩
  · rw [Trie.TryGet, read]
    rfl
  · cases resolved
    · exact spells
    · exact ⟨expands', placed', spells.canonical, spells.keys, spells.sound⟩
  · cases resolved <;> rfl

include fits in
/-- TryDelete leaves a trie for the tree with the key removed. -/
theorem Trie.TryDelete_spec (spells : t.Spells keccak encodings tree) (key : List UInt8) {fuel : Nat}
    (enough : 2 * (keybytesToHex key).length + 2 ≤ fuel) :
    ∃ t', t.TryDelete fuel key = some (.ok t') ∧ t'.Spells keccak encodings (tree.delete (keybytesToHex key)) ∧
      t'.db = t.db := by
  have terminated := keybytesToHex_terminated key
  have compatible := spells.keys.compatible terminated
  obtain ⟨dirty, n', deleted, expands', placed', -, -⟩ :=
    t.delete_spec spells.sound fits fuel spells.expands spells.placed spells.canonical spells.keys.hexShaped compatible
      (.inr terminated) (root_fuel enough)
  refine ⟨{ t with root := n' }, ?_, ⟨expands', placed', Tree.canonical_delete spells.canonical compatible,
    spells.keys.delete spells.canonical terminated, spells.sound⟩, rfl⟩
  rw [Trie.TryDelete, deleted]
  rfl

include fits in
/-- TryUpdate leaves a trie for the tree with the value put at the key, or with
the key removed when the value is empty. -/
theorem Trie.TryUpdate_spec (spells : t.Spells keccak encodings tree) (key value : List UInt8) {fuel : Nat}
    (enough : 2 * (keybytesToHex key).length + 2 ≤ fuel) :
    ∃ t', t.TryUpdate fuel key value = some (.ok t') ∧
      t'.Spells keccak encodings
        (if value = [] then tree.delete (keybytesToHex key) else tree.insert (keybytesToHex key) value) ∧
      t'.db = t.db := by
  have terminated := keybytesToHex_terminated key
  have compatible := spells.keys.compatible terminated
  by_cases empty : value = []
  · -- an empty value deletes the key
    subst empty
    obtain ⟨dirty, n', deleted, expands', placed', -, -⟩ :=
      t.delete_spec spells.sound fits fuel spells.expands spells.placed spells.canonical spells.keys.hexShaped compatible
        (.inr terminated) (root_fuel enough)
    refine ⟨{ t with root := n' }, ?_, ?_, rfl⟩
    · unfold Trie.TryUpdate
      rw [if_neg (by simp), deleted]
      rfl
    · rw [if_pos rfl]
      exact ⟨expands', placed', Tree.canonical_delete spells.canonical compatible,
        spells.keys.delete spells.canonical terminated, spells.sound⟩
  · obtain ⟨dirty, n', inserted, expands', placed', -⟩ :=
      t.insert_spec spells.sound fits value fuel spells.expands spells.placed spells.canonical spells.keys.hexShaped
        compatible (.inr terminated) (root_fuel enough)
    refine ⟨{ t with root := n' }, ?_, ?_, rfl⟩
    · unfold Trie.TryUpdate
      rw [if_pos (by simpa using empty), inserted]
      rfl
    · rw [if_neg empty]
      exact ⟨expands', placed', .inr (Tree.proper_insert spells.canonical compatible value),
        spells.keys.insert spells.canonical terminated empty, spells.sound⟩

end Operations

/-! ### Hashing, committing and opening -/

section Hashes

variable (collisionless : Collisionless keccak encodings) {t : Trie} {tree : HexTree}

include collisionless in
/-- Hash gives the root hash of the tree, and leaves a trie for the same tree
over the same database. -/
theorem Trie.Hash_spec (spells : t.Spells keccak encodings tree)
    (allowed : ∀ node ∈ nodes tree, encodings (encoding keccak node)) :
    ∃ t', t.Hash keccak = some (rootHash keccak tree, t') ∧ t'.Spells keccak encodings tree ∧ t'.db = t.db := by
  by_cases empty : tree = .empty
  · -- the empty trie hashes to emptyRoot
    subst empty
    have rootNil := Expands.eq_nil_of_empty spells.expands
    refine ⟨{ t with root := .nil }, ?_, ⟨.nil, trivial, spells.canonical, spells.keys, spells.sound⟩, rfl⟩
    simp [Trie.Hash, Trie.hashRoot, rootNil, rootHash, BytesToHash_toList]
  · have notNil : t.root ≠ .nil := fun isNil => empty (Expands.eq_empty_of_nil (isNil ▸ spells.expands))
    obtain ⟨⟨hashed, cached, dbo'⟩, hashedEq, result⟩ :=
      hasher.hash_spec collisionless ⟨t.cachegen, t.cachelimit⟩ spells.expands none spells.placed
        spells.canonical spells.keys.hexShaped empty spells.keys.isLeaf_eq_false allowed (Retains.refl _) spells.sound
    have hashedRoot : hashed = .hashNode (hashOf keccak tree) := result.collapsed
    -- only hashing writes nothing
    obtain rfl : dbo' = none := by simpa using result.committing
    refine ⟨{ t with root := cached }, ?_, ⟨result.expands, result.placed, spells.canonical, spells.keys, spells.sound⟩,
      rfl⟩
    rw [Trie.Hash, t.hashRoot_of_ne_nil none notNil, hashedEq, hashedRoot]
    simp only [BytesToHash_hashOf empty]

include collisionless in
/-- Commit gives the root hash of the tree, and leaves a trie for the same tree
over a database grown by the encodings of its nodes, which then holds the whole
tree. -/
theorem Trie.Commit_spec (spells : t.Spells keccak encodings tree)
    (allowed : ∀ node ∈ nodes tree, encodings (encoding keccak node)) :
    ∃ t', t.Commit keccak = some (rootHash keccak tree, t') ∧ t'.Spells keccak encodings tree ∧
      Retains t.db t'.db ∧ (tree ≠ .empty → Stored keccak t'.db tree) := by
  by_cases empty : tree = .empty
  · -- the empty trie commits nothing
    subst empty
    have rootNil := Expands.eq_nil_of_empty spells.expands
    refine ⟨{ t with root := .nil, db := t.db, cachegen := t.cachegen + 1 }, ?_,
      ⟨.nil, trivial, spells.canonical, spells.keys, spells.sound⟩, Retains.refl _, fun nonempty => absurd rfl nonempty⟩
    simp [Trie.Commit, Trie.hashRoot, rootNil, rootHash, BytesToHash_toList]
  · have notNil : t.root ≠ .nil := fun isNil => empty (Expands.eq_empty_of_nil (isNil ▸ spells.expands))
    obtain ⟨⟨hashed, cached, dbo'⟩, hashedEq, result⟩ :=
      hasher.hash_spec collisionless ⟨t.cachegen, t.cachelimit⟩ spells.expands (some t.db) spells.placed
        spells.canonical spells.keys.hexShaped empty spells.keys.isLeaf_eq_false allowed (Retains.refl _) spells.sound
    have hashedRoot : hashed = .hashNode (hashOf keccak tree) := result.collapsed
    -- committing writes to the database
    obtain ⟨db', rfl⟩ : ∃ db', dbo' = some db' := Option.isSome_iff_exists.mp result.committing
    have stored := result.stored rfl
    refine ⟨{ t with root := cached, db := db', cachegen := t.cachegen + 1 }, ?_,
      ⟨result.expands, result.placed, spells.canonical, spells.keys, result.sound⟩, result.retains,
      fun _ => ⟨stored.2 (.inl rfl), stored.1⟩⟩
    rw [Trie.Commit, t.hashRoot_of_ne_nil (some t.db) notNil, hashedEq, hashedRoot]
    simp only [BytesToHash_hashOf empty]

include collisionless in
/-- New at the root hash of a tree the database holds reads the tree back: the
empty trie for the empty tree, and the root resolved from the database for any
other. -/
theorem New_spec (fits : ∀ enc, encodings enc → enc.length < 2 ^ 64) {db : MemDatabase}
    (sound : Sound keccak encodings db) (canonical : tree.Canonical) (keys : HexKeys tree)
    (allowed : ∀ node ∈ nodes tree, encodings (encoding keccak node)) (stored : tree ≠ .empty → Stored keccak db tree) :
    ∃ t, New (rootHash keccak tree) db = .ok t ∧ t.Spells keccak encodings tree ∧ t.db = db := by
  by_cases empty : tree = .empty
  · subst empty
    refine ⟨⟨.nil, db, emptyRoot, 0, 0⟩, ?_, ⟨.nil, trivial, canonical, keys, sound⟩, rfl⟩
    simp [New, rootHash]
  · have notLeaf := keys.isLeaf_eq_false
    have hashes := collisionless.2 _ (allowed tree (mem_nodes_self empty notLeaf))
    have rootEq : rootHash keccak tree = keccak (encoding keccak tree) := by
      cases tree with
      | empty => exact absurd rfl empty
      | _ => rfl
    obtain ⟨resolved, expands, -, -⟩ :=
      Trie.resolveHash_of_expands (t := ⟨.nil, db, rootHash keccak tree, 0, 0⟩) sound fits
        (.hashNode empty notLeaf (stored empty)) canonical keys.hexShaped []
    refine ⟨⟨decoded keccak (some (hashOf keccak tree)) 0 tree, db, rootHash keccak tree, 0, 0⟩, ?_,
      ⟨expands, placed_decoded_some 0 (canonical.resolve_left empty) notLeaf (.inl rfl), canonical, keys, sound⟩, rfl⟩
    unfold New
    rw [if_pos (by rw [rootEq]; exact hashes)]
    simp only [rootHash_toList empty]
    rw [resolved]
    rfl

end Hashes

end EntryPoints

end Meshbox.Trie
