/-
What a trie stands for. A trie maps byte keys to non-empty byte values, and
looks a key up by its HEX form: the nibbles of each byte, high first, then the
terminator 16. As a whole it is a radix tree over those symbols, a HexTree; of
the trees that hold one map exactly one is canonical, and that is the tree the
trie's nodes spell out.

The root hash is computed from the RLP encodings hasher.go gives the nodes of
that tree: a value is its bytes, a short node the list of its COMPACT key and
its child, a full node the list of its seventeen slots. A short node keeps a
value child as it is; any other child whose encoding has fewer than 32 bytes is
embedded in its parent, and a larger one is replaced by its Keccak-256 hash.
The hash function is a parameter. canonOf builds the canonical tree of a list
of key-value pairs by insertion, so that the trees and encodings of a given
map can be computed.
-/

import Mathlib
import Meshbox.Library.RadixUpdate
import Meshbox.Trie.Trie

namespace Meshbox.Trie

open Meshbox.Rlp Radix

/-- The tree a trie spells out: a radix tree over HEX symbols, with byte values. -/
abbrev HexTree := Radix.Tree UInt8 (List UInt8)

/-! ### HEX keys -/

/-- A HEX key: nibbles, then the terminator. -/
def Terminated (key : List UInt8) : Prop :=
  ∃ nibbles, (∀ nibble ∈ nibbles, nibble < 16) ∧ key = nibbles ++ [16]

theorem keybytesToHex_terminated (key : List UInt8) : Terminated (keybytesToHex key) :=
  ⟨_, flatMap_nibbles_small key, rfl⟩

/-- The terminator is a HEX key's last symbol and every other is a nibble. -/
theorem terminated_iff {key : List UInt8} :
    Terminated key ↔ key ≠ [] ∧ key.getLast? = some 16 ∧ ∀ symbol ∈ key.dropLast, symbol < 16 := by
  constructor
  · rintro ⟨nibbles, small, rfl⟩
    simpa using small
  · rintro ⟨nonempty, last, small⟩
    refine ⟨key.dropLast, small, ?_⟩
    rw [List.getLast?_eq_some_getLast nonempty, Option.some.injEq] at last
    rw [← last, List.dropLast_append_getLast nonempty]

/-- A non-empty end of a HEX key is a HEX key. -/
theorem Terminated.right {front back : List UInt8} (terminated : Terminated (front ++ back))
    (nonempty : back ≠ []) : Terminated back := by
  rw [terminated_iff] at terminated ⊢
  obtain ⟨-, last, small⟩ := terminated
  refine ⟨nonempty, by rwa [List.getLast?_append_of_ne_nil _ nonempty] at last, ?_⟩
  intro symbol member
  rw [List.dropLast_append_of_ne_nil nonempty] at small
  exact small symbol (List.mem_append_right _ member)

/-- The end of a HEX key is empty or a HEX key. -/
theorem Terminated.right_or_nil {front back : List UInt8} (terminated : Terminated (front ++ back)) :
    back = [] ∨ Terminated back :=
  (em (back = [])).imp id terminated.right

/-- The end of a key that is empty or a HEX key is empty or a HEX key. -/
theorem Terminated.shape_right {front back : List UInt8} (shape : front ++ back = [] ∨ Terminated (front ++ back)) :
    back = [] ∨ Terminated back := by
  rcases shape with isEmpty | terminated
  · exact .inl (List.append_eq_nil_iff.mp isEmpty).2
  · exact terminated.right_or_nil

/-- A symbol of a HEX key with more after it is a nibble. -/
theorem Terminated.lt_of_cons {front back : List UInt8} {symbol : UInt8}
    (terminated : Terminated (front ++ symbol :: back)) (more : back ≠ []) : symbol < 16 := by
  rw [terminated_iff] at terminated
  refine terminated.2.2 symbol ?_
  rw [List.dropLast_append_of_ne_nil (List.cons_ne_nil _ _), List.dropLast_cons_of_ne_nil more]
  simp

/-- The last symbol of a HEX key is the terminator. -/
theorem Terminated.last {front : List UInt8} {symbol : UInt8} (terminated : Terminated (front ++ [symbol])) :
    symbol = 16 := by
  rw [terminated_iff] at terminated
  simpa using terminated.2.1

/-- Of two HEX keys neither is a proper prefix of the other. -/
theorem Terminated.eq_of_prefix {first second : List UInt8} (firstTerminated : Terminated first)
    (secondTerminated : Terminated second) (isPrefix : first <+: second) : first = second := by
  obtain ⟨rest, rfl⟩ := isPrefix
  cases rest with
  | nil => simp
  | cons symbol after =>
    obtain ⟨nibbles, -, rfl⟩ := firstTerminated
    rw [List.append_assoc, List.singleton_append] at secondTerminated
    have small := secondTerminated.lt_of_cons (List.cons_ne_nil symbol after)
    exact absurd small (by decide)

/-! ### The shape of a trie's tree -/

/-- The keys of a trie: HEX keys, each with a non-empty value. -/
def HexKeys (tree : HexTree) : Prop :=
  ∀ key value, tree.find key = some value → Terminated key ∧ value ≠ []

/-- The shape of any subtree of a trie: every key it holds is empty or a HEX
key, and every value non-empty. -/
def HexShaped (tree : HexTree) : Prop :=
  ∀ key value, tree.find key = some value → (key = [] ∨ Terminated key) ∧ value ≠ []

theorem HexKeys.hexShaped {tree : HexTree} (keys : HexKeys tree) : HexShaped tree :=
  fun key value found => ⟨.inr (keys key value found).1, (keys key value found).2⟩

/-- A HEX key is compatible with the tree of a trie. -/
theorem HexKeys.compatible {tree : HexTree} (keys : HexKeys tree) {key : List UInt8}
    (terminated : Terminated key) : tree.Compatible key := by
  intro other value found related
  have otherTerminated := (keys other value found).1
  rcases related with isPrefix | extended
  · exact otherTerminated.eq_of_prefix terminated isPrefix
  · exact (terminated.eq_of_prefix otherTerminated extended).symm

theorem HexKeys.insert {tree : HexTree} (keys : HexKeys tree) (canonical : tree.Canonical)
    {key value : List UInt8} (terminated : Terminated key) (nonempty : value ≠ []) :
    HexKeys (tree.insert key value) := by
  intro other found holds
  rw [Tree.find_insert canonical (keys.compatible terminated)] at holds
  by_cases same : other = key
  · subst same
    simp only [Function.update_self, Option.some.injEq] at holds
    exact ⟨terminated, holds ▸ nonempty⟩
  · rw [Function.update_of_ne same] at holds
    exact keys other found holds

theorem HexKeys.delete {tree : HexTree} (keys : HexKeys tree) (canonical : tree.Canonical)
    {key : List UInt8} (terminated : Terminated key) : HexKeys (tree.delete key) := by
  intro other found holds
  rw [Tree.find_delete canonical (keys.compatible terminated)] at holds
  by_cases same : other = key
  · subst same
    simp at holds
  · rw [Function.update_of_ne same] at holds
    exact keys other found holds

namespace HexShaped

variable {tree : HexTree}

theorem short {run : List UInt8} {child : HexTree} (shaped : HexShaped (Tree.short run child)) :
    HexShaped child := by
  intro key value found
  have inParent : (Tree.short run child).find (run ++ key) = some value := by
    rw [Tree.find_short_append, found]
  obtain ⟨keyShape, nonempty⟩ := shaped _ _ inParent
  refine ⟨?_, nonempty⟩
  by_cases empty : key = []
  · exact .inl empty
  · rcases keyShape with isEmpty | terminated
    · exact .inl (List.append_eq_nil_iff.mp isEmpty).2
    · exact .inr (terminated.right empty)

theorem full {children : UInt8 → HexTree} (shaped : HexShaped (Tree.full children)) (symbol : UInt8) :
    HexShaped (children symbol) := by
  intro key value found
  have inParent : (Tree.full children).find (symbol :: key) = some value := by
    rw [Tree.find_full_cons, found]
  obtain ⟨keyShape, nonempty⟩ := shaped _ _ inParent
  refine ⟨?_, nonempty⟩
  by_cases empty : key = []
  · exact .inl empty
  · rcases keyShape with isEmpty | terminated
    · cases isEmpty
    · exact .inr ((show Terminated ([symbol] ++ key) from terminated).right empty)

/-- A tree that holds only what a trie-shaped tree holds is trie-shaped. -/
theorem of_find {other : HexTree} (shaped : HexShaped tree)
    (within : ∀ key value, other.find key = some value → tree.find key = some value) : HexShaped other :=
  fun key value found => shaped key value (within key value found)

theorem delete (shaped : HexShaped tree) (canonical : tree.Canonical) {key : List UInt8}
    (compatible : tree.Compatible key) : HexShaped (tree.delete key) := by
  refine shaped.of_find fun other value found => ?_
  rw [Tree.find_delete canonical compatible] at found
  by_cases same : other = key
  · subst same
    simp at found
  · rwa [Function.update_of_ne same] at found

theorem leaf_ne_nil {value : List UInt8} (shaped : HexShaped (Tree.leaf value : HexTree)) : value ≠ [] :=
  (shaped [] value rfl).2

/-- The run of a short node over a value is a HEX key. -/
theorem run_terminated {run value : List UInt8} (shaped : HexShaped (Tree.short run (.leaf value)))
    (nonempty : run ≠ []) : Terminated run := by
  have holds : (Tree.short run (.leaf value)).find run = some value := by
    simpa using Tree.find_short_append run (.leaf value : HexTree) []
  exact ((shaped run value holds).1.resolve_left nonempty)

/-- The run of a short node over a proper full node is nibbles. -/
theorem run_nibbles {run : List UInt8} {children : UInt8 → HexTree}
    (shaped : HexShaped (Tree.short run (.full children))) (proper : (Tree.full children).Proper) :
    ∀ symbol ∈ run, symbol < 16 := by
  obtain ⟨first, rest, value, -, -, -, -, found, -⟩ := proper.full_two_keys
  have holds : (Tree.short run (.full children)).find (run ++ first :: rest) = some value := by
    rw [Tree.find_short_append, Tree.find_full_cons, found]
  have terminated := ((shaped _ value holds).1.resolve_left (by simp))
  intro symbol member
  obtain ⟨front, back, rfl⟩ := List.append_of_mem member
  rw [List.append_assoc, List.cons_append] at terminated
  exact terminated.lt_of_cons (by simp)

/-- A full node of a trie has no child past the terminator. -/
theorem full_child_empty {children : UInt8 → HexTree} (shaped : HexShaped (Tree.full children))
    (canonical : ∀ symbol, (children symbol).Canonical) {symbol : UInt8} (large : 16 < symbol) :
    children symbol = .empty := by
  refine (canonical symbol).resolve_right fun proper => ?_
  obtain ⟨rest, value, found⟩ := proper.exists_find
  have holds : (Tree.full children).find (symbol :: rest) = some value := by
    rw [Tree.find_full_cons, found]
  have terminated := ((shaped _ value holds).1.resolve_left (by simp))
  cases rest with
  | nil =>
    have last := (show Terminated ([] ++ [symbol]) from terminated).last
    subst last
    exact absurd large (by decide)
  | cons next after =>
    have small := (show Terminated ([] ++ symbol :: next :: after) from terminated).lt_of_cons
      (List.cons_ne_nil next after)
    rw [UInt8.lt_iff_toNat_lt] at small large
    exact absurd small (by simp only [UInt8.reduceToNat] at large ⊢; omega)

/-- The terminator's child of a full node of a trie is empty or a value. -/
theorem full_value_slot {children : UInt8 → HexTree} (shaped : HexShaped (Tree.full children))
    (canonical : (children 16).Canonical) : children 16 = .empty ∨ (children 16).IsLeaf := by
  refine canonical.imp_right fun proper => ?_
  -- every key below the terminator is empty, and only a leaf holds the empty key alone
  have onlyEmpty : ∀ rest value, (children 16).find rest = some value → rest = [] := by
    intro rest value found
    have holds : (Tree.full children).find (16 :: rest) = some value := by
      rw [Tree.find_full_cons, found]
    have terminated := ((shaped _ value holds).1.resolve_left (by simp))
    by_contra more
    exact absurd ((show Terminated ([] ++ 16 :: rest) from terminated).lt_of_cons more) (by decide)
  cases child : children 16 with
  | leaf value => rfl
  | empty => rw [child] at proper; exact proper.elim
  | short run grandchild =>
    rw [child] at proper onlyEmpty
    obtain ⟨rest, value, found⟩ := proper.2.2.exists_find
    have holds := onlyEmpty (run ++ rest) value (by rw [Tree.find_short_append, found])
    exact absurd (List.append_eq_nil_iff.mp holds).1 proper.1
  | full grandchildren =>
    rw [child] at proper onlyEmpty
    obtain ⟨first, rest, value, -, -, -, -, found, -⟩ := proper.full_two_keys
    cases onlyEmpty (first :: rest) value (by rw [Tree.find_full_cons, found])

end HexShaped

/-! ### Encodings and hashes -/

section Hashing

variable (keccak : List UInt8 → Hash)

/-- The reference a parent holds to a node: the node's item when its encoding
has fewer than 32 bytes, the item of its hash otherwise. -/
def embed (item : Item) : Item :=
  if item.encode.length < 32 then item else .str (keccak item.encode).toList

/-- The item hasher.go encodes for a node of the tree: a value as its bytes, a
short node as its COMPACT key and its child, a value child as it is and any
other by reference, and a full node as its sixteen children by reference and
its value slot. An empty slot is the empty string. -/
def collapse : HexTree → Item
  | .empty => .str []
  | .leaf value => .str value
  | .short run child =>
    .list [.str (hexToCompact run), if child.IsLeaf then collapse child else embed keccak (collapse child)]
  | .full children =>
    .list (List.ofFn fun index : Fin 17 =>
      if index.val < 16 then embed keccak (collapse (children (UInt8.ofNat index.val)))
      else collapse (children 16))

/-- The encoding of a node. -/
def encoding (tree : HexTree) : List UInt8 :=
  (collapse keccak tree).encode

/-- The key a node is stored under: the hash of its encoding. -/
def hashOf (tree : HexTree) : List UInt8 :=
  (keccak (encoding keccak tree)).toList

/-- A node whose parent refers to it by hash: its encoding has 32 bytes or more. -/
def Big (tree : HexTree) : Prop :=
  32 ≤ (encoding keccak tree).length

instance (tree : HexTree) : Decidable (Big keccak tree) :=
  inferInstanceAs (Decidable (32 ≤ _))

/-- The root hash of the tree: emptyRoot for the empty tree, and otherwise the
hash of the root's encoding, however short. -/
def rootHash (tree : HexTree) : Hash :=
  match tree with
  | .empty => emptyRoot
  | _ => keccak (encoding keccak tree)

theorem embed_of_big {tree : HexTree} (big : Big keccak tree) :
    embed keccak (collapse keccak tree) = .str (hashOf keccak tree) := by
  have large : ¬ (collapse keccak tree).encode.length < 32 := Nat.not_lt.mpr big
  rw [embed, if_neg large]
  rfl

theorem embed_of_small {tree : HexTree} (small : ¬ Big keccak tree) :
    embed keccak (collapse keccak tree) = collapse keccak tree := by
  have short : (collapse keccak tree).encode.length < 32 := Nat.lt_of_not_le small
  rw [embed, if_pos short]

theorem length_hashOf (tree : HexTree) : (hashOf keccak tree).length = 32 := by
  simp [hashOf]

end Hashing

/-! ### The nodes of a tree, and the canonical tree of a list -/

/-- The subtrees that are short or full nodes, the tree first: the nodes a
hasher may store. A full node's children are taken at the seventeen HEX
symbols. -/
def nodes : HexTree → List HexTree
  | .empty => []
  | .leaf _ => []
  | .short run child => .short run child :: nodes child
  | .full children =>
    .full children :: (List.finRange 17).flatMap fun index => nodes (children (UInt8.ofNat index.val))

/-- The canonical tree of a list of key-value pairs, where an earlier pair hides
a later one of the same key: the pairs inserted from the last to the first. -/
def canonOf (pairs : List (List UInt8 × List UInt8)) : HexTree :=
  pairs.foldr (fun pair tree => tree.insert (keybytesToHex pair.1) pair.2) .empty

/-- A byte is its two nibbles. -/
theorem byte_eq_of_nibbles {first second : UInt8} (high : first / 16 = second / 16)
    (low : first % 16 = second % 16) : first = second := by
  rw [← UInt8.toNat_inj] at high low ⊢
  simp only [UInt8.toNat_div, UInt8.toNat_mod, UInt8.reduceToNat] at high low
  omega

/-- Different byte keys have different HEX keys. -/
theorem keybytesToHex_injective : Function.Injective keybytesToHex := by
  intro first second same
  rw [keybytesToHex, keybytesToHex, List.append_cancel_right_eq] at same
  induction first generalizing second with
  | nil => cases second <;> simp_all
  | cons byte rest inductionHypothesis =>
    cases second with
    | nil => simp at same
    | cons other others =>
      simp only [List.flatMap_cons, List.cons_append, List.nil_append, List.cons.injEq] at same
      obtain ⟨high, low, below⟩ := same
      rw [byte_eq_of_nibbles high low, inductionHypothesis below]

/-- The canonical tree of a list of pairs with non-empty values is canonical,
holds HEX keys, and finds each key's first value. -/
theorem canonOf_spec (pairs : List (List UInt8 × List UInt8)) (nonempty : ∀ pair ∈ pairs, pair.2 ≠ []) :
    (canonOf pairs).Canonical ∧ HexKeys (canonOf pairs) ∧
      ∀ key, (canonOf pairs).find (keybytesToHex key) = pairs.lookup key := by
  induction pairs with
  | nil =>
    exact ⟨.inl rfl, (fun _ _ found => by cases found), fun _ => rfl⟩
  | cons pair rest inductionHypothesis =>
    obtain ⟨canonical, keys, finds⟩ :=
      inductionHypothesis fun other member => nonempty other (List.mem_cons_of_mem _ member)
    have compatible := keys.compatible (keybytesToHex_terminated pair.1)
    refine ⟨.inr (Tree.proper_insert canonical compatible pair.2),
      keys.insert canonical (keybytesToHex_terminated pair.1) (nonempty pair List.mem_cons_self),
      fun key => ?_⟩
    rw [canonOf, List.foldr_cons, ← canonOf, Tree.find_insert canonical compatible]
    by_cases same : key = pair.1
    · subst same
      simp [List.lookup]
    · have different : (key == pair.1) = false := by simpa using same
      rw [Function.update_of_ne (fun hex => same (keybytesToHex_injective hex)), finds]
      simp [List.lookup, different]

end Meshbox.Trie
