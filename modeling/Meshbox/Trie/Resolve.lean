/-
What resolving a hash node gives. The hasher stores a node of the trie as the
encoding of a node of the tree the trie spells out, and decodeNode reads that
encoding back as a node of the same shape: a child its parent refers to by hash
becomes a hash node, a child embedded in its parent is decoded in place with no
hash, a value stays a value, and every node decoded is clean, of the trie's
cache generation, and flagged with the hash it was stored under.

The decoded node stands for the same tree as the hash node it replaces, as long
as the database holds the subtrees its parents refer to by hash. So resolving a
hash node, as tryGet, insert, delete and deleteReduce do, keeps what the trie
spells out and keeps the cache flags truthful.
-/

import Meshbox.Trie.Expands
import Meshbox.Rlp.StreamRoundTrip

namespace Meshbox.Trie

open Meshbox.Rlp Radix

set_option linter.dupNamespace false

section Decoded

variable (keccak : List UInt8 → Meshbox.Hash)

/-- The node decodeNode gives for the encoding of a node of the tree, stored
under hash (none for an embedded node), in cache generation cachegen. A child
that is a big node is read as its hash; any other child is decoded in place. -/
def decoded (hash : Option (List UInt8)) (cachegen : UInt16) : HexTree → Node
  | .empty => .nil
  | .leaf value => .valueNode value
  | .short run child =>
    .shortNode run
      (if child.IsLeaf = false ∧ Big keccak child then .hashNode (hashOf keccak child)
        else decoded none cachegen child)
      { hash := hash, gen := cachegen, dirty := false }
  | .full children =>
    .fullNode (fun index =>
        if (children (UInt8.ofNat index.val)).IsLeaf = false ∧ Big keccak (children (UInt8.ofNat index.val)) then
          .hashNode (hashOf keccak (children (UInt8.ofNat index.val)))
        else decoded none cachegen (children (UInt8.ofNat index.val)))
      { hash := hash, gen := cachegen, dirty := false }

/-- The node a decoded parent holds for a child: its hash when the child is a
big node, the child decoded in place otherwise. -/
def reference (cachegen : UInt16) (child : HexTree) : Node :=
  if child.IsLeaf = false ∧ Big keccak child then .hashNode (hashOf keccak child)
  else decoded keccak none cachegen child

/-- The flags of a node decodeNode reads. -/
def decodedFlags (hash : Option (List UInt8)) (cachegen : UInt16) : nodeFlag :=
  { hash := hash, gen := cachegen, dirty := false }

theorem decoded_short (hash : Option (List UInt8)) (cachegen : UInt16) (run : List UInt8)
    (child : HexTree) :
    decoded keccak hash cachegen (.short run child) =
      .shortNode run (reference keccak cachegen child) (decodedFlags hash cachegen) :=
  rfl

theorem decoded_full (hash : Option (List UInt8)) (cachegen : UInt16) (children : UInt8 → HexTree) :
    decoded keccak hash cachegen (.full children) =
      .fullNode (fun index => reference keccak cachegen (children (UInt8.ofNat index.val)))
        (decodedFlags hash cachegen) :=
  rfl

theorem not_big_empty : ¬ Big keccak .empty := by
  have single : (encoding keccak (.empty : HexTree)).length = 1 := rfl
  rw [Big, single]
  omega

/-- A leaf or an empty child is read in place. -/
theorem reference_of_not_node {child : HexTree} (cachegen : UInt16)
    (notNode : child = .empty ∨ child.IsLeaf = true) :
    reference keccak cachegen child = decoded keccak none cachegen child := by
  unfold reference
  rw [if_neg]
  rintro ⟨notLeaf, big⟩
  rcases notNode with rfl | leaf
  · exact not_big_empty keccak big
  · rw [leaf] at notLeaf
    cases notLeaf

end Decoded

/-! ### Reading one child reference -/

section References

variable {buf more : List UInt8} {decodeEmbedded : (b : List UInt8) → b.length ≤ buf.length → Outcome NodeError Node}

/-- A reference that is a 32-byte string is a hash node. -/
theorem decodeRefWith_hash {hash : List UInt8} (hashLength : hash.length = 32)
    (encoded : buf = (Item.str hash).encode ++ more) :
    decodeRefWith buf decodeEmbedded = .ok (.hashNode hash, more) := by
  obtain ⟨kind, -, notSingle, split⟩ := Split_encodeString hash more (by rw [hashLength]; decide)
  have isString : kind = .String := notSingle (by rw [hashLength]; decide)
  subst isString encoded
  have read : Split ((Item.str hash).encode ++ more) = .ok (.String, hash, more) := split
  unfold decodeRefWith
  rw [read]
  simp [hashLength]

/-- A reference that is the empty string is the empty node. -/
theorem decodeRefWith_empty (encoded : buf = (Item.str []).encode ++ more) :
    decodeRefWith buf decodeEmbedded = .ok (.nil, more) := by
  obtain ⟨kind, -, notSingle, split⟩ := Split_encodeString [] more (by decide)
  have isString : kind = .String := notSingle (by decide)
  subst isString encoded
  have read : Split ((Item.str []).encode ++ more) = .ok (.String, [], more) := split
  unfold decodeRefWith
  rw [read]
  simp

/-- A reference that is a list no longer than a hash is decoded in place. -/
theorem decodeRefWith_embedded {items : List Item} {node : Node} (encoded : buf = (Item.list items).encode ++ more)
    (small : (Item.list items).encode.length ≤ 32)
    (decodes : decodeEmbedded buf (Nat.le_refl _) = .ok node) :
    decodeRefWith buf decodeEmbedded = .ok (node, more) := by
  have bound : (encodeList items).length < 2 ^ 64 := by
    have := length_encodeList_lt items
    omega
  have size : ¬ buf.length - more.length > hashLen := by
    rw [encoded, List.length_append, hashLen]
    omega
  subst encoded
  unfold decodeRefWith
  rw [Split_encode_list items more bound]
  simp only [if_pos, size, if_false, decodes]

/-- decodeChildren reads the references from i to fifteen in order, each as
decoded alone, and leaves what follows them. -/
theorem decodeChildren_encodeList {cachegen : UInt16} {refs : Nat → Item} {nodes : Nat → Node}
    (decodes : ∀ j < 16, ∀ more, decodeRefWith ((refs j).encode ++ more)
      (fun b _ => decodeNode none b cachegen) = .ok (nodes j, more))
    (more : List UInt8) :
    ∀ count i, i + count = 16 →
      decodeChildren (encodeList ((List.range' i count).map refs) ++ more) cachegen i =
        .ok ((List.range' i count).map nodes, more) := by
  intro count
  induction count with
  | zero =>
    intro i done
    rw [decodeChildren, if_neg (by omega)]
    rfl
  | succ count inductionHypothesis =>
    intro i fits
    rw [List.range'_succ, List.map_cons, List.map_cons, encodeList, List.append_assoc, decodeChildren,
      if_pos (by omega)]
    split
    · rename_i child rest read
      rw [decodes i (by omega)] at read
      cases read
      rw [inductionHypothesis (i + 1) (by omega)]
    · rename_i err read
      rw [decodes i (by omega)] at read
      cases read
    · rename_i read
      rw [decodes i (by omega)] at read
      cases read

end References

/-! ### Reading a short or a full node -/

section Nodes

variable {hash : Option (List UInt8)} {cachegen : UInt16}

/-- The elements of a short node: its COMPACT key, then what follows. -/
theorem SplitString_compact (run : List UInt8) (more : List UInt8) (runBound : (hexToCompact run).length < 2 ^ 64) :
    SplitString (encodeList [.str (hexToCompact run)] ++ more) = .ok (hexToCompact run, more) := by
  have split := SplitString_encodeString (hexToCompact run) more runBound
  simpa [encodeList, Item.encode] using split

/-- A short node over a value: a HEX key with the terminator and the value. -/
theorem decodeShort_value {run value : List UInt8} (hex : IsHex run) (term : hasTerm run = true)
    (runBound : (hexToCompact run).length < 2 ^ 64) (valueBound : value.length < 2 ^ 64) :
    decodeShort hash (encodeList [.str (hexToCompact run), .str value]) cachegen =
      .ok (.shortNode run (.valueNode value) (decodedFlags hash cachegen)) := by
  have keyBytes := SplitString_compact run (encodeList [.str value]) runBound
  have valueBytes : SplitString (encodeList [.str value]) = .ok (value, []) := by
    simpa [encodeList, Item.encode] using SplitString_encodeString value [] valueBound
  rw [decodeShort]
  split
  · rename_i err failed
    rw [← List.singleton_append, encodeList_append, keyBytes] at failed
    cases failed
  · rename_i kbuf rest splitEq
    rw [← List.singleton_append, encodeList_append, keyBytes] at splitEq
    cases splitEq
    simp [compactToHex_hexToCompact hex, term, valueBytes, decodedFlags]

/-- A short node over a node: a HEX key without the terminator and the child's
reference. -/
theorem decodeShort_ref {run : List UInt8} {ref : Item} {child : Node} (hex : IsHex run)
    (term : hasTerm run = false) (runBound : (hexToCompact run).length < 2 ^ 64)
    (decodes : decodeRefWith (ref.encode ++ []) (fun b _ => decodeNode none b cachegen) = .ok (child, [])) :
    decodeShort hash (encodeList [.str (hexToCompact run), ref]) cachegen =
      .ok (.shortNode run child (decodedFlags hash cachegen)) := by
  have keyBytes := SplitString_compact run (encodeList [ref]) runBound
  rw [decodeShort]
  split
  · rename_i err failed
    rw [← List.singleton_append, encodeList_append, keyBytes] at failed
    cases failed
  · rename_i kbuf rest splitEq
    rw [← List.singleton_append, encodeList_append, keyBytes] at splitEq
    cases splitEq
    have refBytes : encodeList [ref] = ref.encode ++ [] := rfl
    simp only [compactToHex_hexToCompact hex, term, Bool.false_eq_true, if_false]
    rw [refBytes, decodes]
    rfl

/-- A full node: sixteen references, then the value slot, empty or a value. -/
theorem decodeFull_encoding {refs : Nat → Item} {nodes : Nat → Node} {value : List UInt8}
    (decodes : ∀ j < 16, ∀ more, decodeRefWith ((refs j).encode ++ more)
      (fun b _ => decodeNode none b cachegen) = .ok (nodes j, more))
    (valueBound : value.length < 2 ^ 64) :
    decodeFull hash (encodeList ((List.range' 0 16).map refs ++ [.str value])) cachegen =
      .ok (.fullNode (fun index => if index.val < 16 then nodes index.val
          else if value.length > 0 then .valueNode value else .nil) (decodedFlags hash cachegen)) := by
  have valueBytes : SplitString (encodeList [.str value]) = .ok (value, []) := by
    simpa [encodeList, Item.encode] using SplitString_encodeString value [] valueBound
  rw [decodeFull, encodeList_append, decodeChildren_encodeList decodes _ 16 0 rfl]
  simp only [valueBytes]
  congr 2
  funext index
  split
  · rename_i inRange
    rw [List.getD_eq_getElem?_getD, List.getElem?_map, List.getElem?_range' inRange]
    simp
  · rfl

/-- The encoding of a list, whatever follows it, is decoded by the number of its
elements. -/
theorem decodeNode_list {items : List Item} (more : List UInt8)
    (bound : (Item.list items).encode.length < 2 ^ 64) :
    decodeNode hash ((Item.list items).encode ++ more) cachegen =
      match items.length with
      | 2 => (decodeShort hash (encodeList items) cachegen).mapError (wrapError · "short")
      | 17 => (decodeFull hash (encodeList items) cachegen).mapError (wrapError · "full")
      | count => .error (.plain (.invalidElementCount count)) := by
  have contentBound : (encodeList items).length < 2 ^ 64 := by
    have := length_encodeList_lt items
    omega
  have itemBounds : ∀ item ∈ items, item.payloadLength < 2 ^ 64 := by
    intro item member
    have := payloadLength_le item
    have := length_encode_le_encodeList member
    omega
  rw [decodeNode_of_split (SplitList_encode_list items more contentBound), CountValues_encodeList items itemBounds]
  rfl

/-- Every element of a list whose encoding fits is shorter still. -/
theorem encode_lt_of_mem {items : List Item} {item : Item} (member : item ∈ items)
    (bound : (Item.list items).encode.length < 2 ^ 64) :
    item.payloadLength < 2 ^ 64 ∧ item.encode.length < 2 ^ 64 := by
  have payload := payloadLength_le item
  have inside := length_encode_le_encodeList member
  have content := length_encodeList_lt items
  omega

end Nodes

/-! ### Reading back a node of the tree -/

namespace HexShaped

/-- A nibble's child of a full node of a trie is not a value. -/
theorem full_nibble_not_leaf {children : UInt8 → HexTree} (shaped : HexShaped (Tree.full children))
    {symbol : UInt8} (nibble : symbol < 16) : (children symbol).IsLeaf = false := by
  cases child : children symbol with
  | leaf value =>
    have holds : (Tree.full children).find [symbol] = some value := by
      rw [Tree.find_full_cons, child]
      rfl
    have terminated := ((shaped _ value holds).1.resolve_left (by simp))
    have last := (show Terminated ([] ++ [symbol]) from terminated).last
    subst last
    exact absurd nibble (by decide)
  | empty => rfl
  | short run grandchild => rfl
  | full grandchildren => rfl

end HexShaped

section Decoding

variable (keccak : List UInt8 → Meshbox.Hash) (cachegen : UInt16)

/-- A node that is not a value is encoded as a list. -/
theorem collapse_eq_list {tree : HexTree} (proper : tree.Proper) (notLeaf : tree.IsLeaf = false) :
    ∃ items, collapse keccak tree = .list items := by
  cases tree with
  | empty => exact proper.elim
  | leaf value => cases notLeaf
  | short run child => exact ⟨_, rfl⟩
  | full children => exact ⟨_, rfl⟩

/-- A full node's elements: the sixteen references, then the value slot. -/
theorem collapse_full (children : UInt8 → HexTree) :
    collapse keccak (.full children) =
      .list ((List.range' 0 16).map (fun j => embed keccak (collapse keccak (children (UInt8.ofNat j)))) ++
        [collapse keccak (children 16)]) :=
  rfl

/-- A child reference reads back as the reference a decoded parent holds: a
hash for a big node, the empty string for an empty child, and a small node in
place. -/
theorem decodeRefWith_reference {child : HexTree} (canonical : child.Canonical) (notLeaf : child.IsLeaf = false)
    (decodes : ¬ Big keccak child → child.Proper → ∀ more,
      decodeNode none (encoding keccak child ++ more) cachegen = .ok (decoded keccak none cachegen child))
    (more : List UInt8) :
    decodeRefWith ((embed keccak (collapse keccak child)).encode ++ more) (fun b _ => decodeNode none b cachegen) =
      .ok (reference keccak cachegen child, more) := by
  by_cases big : Big keccak child
  · rw [embed_of_big keccak big, decodeRefWith_hash (length_hashOf keccak child) rfl]
    unfold reference
    rw [if_pos ⟨notLeaf, big⟩]
  · rw [embed_of_small keccak big]
    have inPlace : reference keccak cachegen child = decoded keccak none cachegen child := by
      unfold reference
      rw [if_neg fun both => big both.2]
    rw [inPlace]
    rcases canonical with rfl | proper
    · exact decodeRefWith_empty rfl
    · obtain ⟨items, listed⟩ := collapse_eq_list keccak proper notLeaf
      have small : (Item.list items).encode.length ≤ 32 := by
        rw [← listed]
        simp only [Big, encoding] at big
        omega
      have decodesChild := decodes big proper more
      rw [encoding, listed] at decodesChild
      rw [listed]
      exact decodeRefWith_embedded rfl small decodesChild

/-- The key of a short node over a value is a HEX key with the terminator, and
over a full node one without. -/
theorem isHex_run {run : List UInt8} {child : HexTree} (proper : (Tree.short run child).Proper)
    (shaped : HexShaped (Tree.short run child)) :
    IsHex run ∧ hasTerm run = child.IsLeaf := by
  obtain ⟨nonempty, notShort, childProper⟩ := proper
  cases child with
  | empty => exact childProper.elim
  | leaf value =>
    obtain ⟨nibbles, small, rfl⟩ := shaped.run_terminated nonempty
    exact ⟨⟨nibbles, small, .inr rfl⟩, hasTerm_append_terminator nibbles⟩
  | short grandRun grandchild => cases notShort
  | full grandchildren =>
    have small := shaped.run_nibbles childProper
    exact ⟨⟨run, small, .inl rfl⟩, hasTerm_of_small small⟩

/-- decodeNode reads the encoding of a node of a trie's tree back as the
decoded node, whatever follows the encoding. The induction is on the tree; a
child embedded in its parent is read by the induction hypothesis, and a child
referred to by hash is not read at all. -/
theorem decodeNode_encoding (tree : HexTree) :
    ∀ hash, tree.Proper → tree.IsLeaf = false → HexShaped tree → (encoding keccak tree).length < 2 ^ 64 →
      ∀ more, decodeNode hash (encoding keccak tree ++ more) cachegen = .ok (decoded keccak hash cachegen tree) := by
  induction tree with
  | empty =>
    intro _ proper
    exact proper.elim
  | leaf value =>
    intro _ _ notLeaf
    cases notLeaf
  | short run child inductionHypothesis =>
    intro hash proper _ shaped bound more
    obtain ⟨hex, term⟩ := isHex_run proper shaped
    have runBound := (encode_lt_of_mem (List.mem_cons_self) bound).1
    rw [encoding, collapse, decodeNode_list more bound, decoded_short]
    show Outcome.mapError _ (decodeShort hash _ cachegen) = _
    cases leaf : child.IsLeaf
    · -- a node below: read through its reference
      have childProper : child.Proper := proper.2.2
      have readRef := decodeRefWith_reference keccak cachegen (.inr childProper) leaf
        (fun small childProper more => inductionHypothesis none childProper leaf shaped.short
          (by simp only [Big] at small; omega) more) []
      rw [leaf] at term
      simp only [Bool.false_eq_true, if_false]
      rw [decodeShort_ref hex term runBound readRef]
      rfl
    · -- a value below, kept in place
      cases child with
      | leaf value =>
        have valueBound := (encode_lt_of_mem (List.mem_cons_of_mem _ List.mem_cons_self) bound).1
        rw [leaf] at term
        rw [reference_of_not_node keccak cachegen (.inr leaf)]
        exact congrArg (Outcome.mapError _) (decodeShort_value hex term runBound valueBound)
      | _ => cases leaf
  | full children inductionHypothesis =>
    intro hash proper _ shaped bound more
    have canonical : ∀ symbol, (children symbol).Canonical := proper.1
    -- the sixteen nibble children are read through their references
    have readRefs : ∀ j < 16, ∀ more, decodeRefWith ((embed keccak (collapse keccak (children (UInt8.ofNat j)))).encode ++ more)
        (fun b _ => decodeNode none b cachegen) = .ok (reference keccak cachegen (children (UInt8.ofNat j)), more) := by
      intro j nibble more
      have nibbleSymbol : UInt8.ofNat j < 16 := by
        rw [UInt8.lt_iff_toNat_lt]
        simp
        omega
      have notLeaf := shaped.full_nibble_not_leaf nibbleSymbol
      exact decodeRefWith_reference keccak cachegen (canonical _) notLeaf
        (fun small childProper more => inductionHypothesis _ none childProper notLeaf (shaped.full _)
          (by simp only [Big] at small; omega) more) more
    -- the value slot is empty or a value
    obtain ⟨value, slot, slotDecoded⟩ : ∃ value, collapse keccak (children 16) = .str value ∧
        reference keccak cachegen (children 16) = if value.length > 0 then .valueNode value else .nil := by
      rcases shaped.full_value_slot (canonical 16) with empty | leaf
      · refine ⟨[], by rw [empty]; rfl, ?_⟩
        rw [reference_of_not_node keccak cachegen (.inl empty), empty]
        rfl
      · cases child : children 16 with
        | leaf value =>
          have childShaped := shaped.full 16
          rw [child] at childShaped
          have nonempty := childShaped.leaf_ne_nil
          refine ⟨value, rfl, ?_⟩
          rw [reference_of_not_node keccak cachegen (.inr rfl), decoded,
            if_pos (List.length_pos_iff.mpr nonempty)]
        | _ => rw [child] at leaf; cases leaf
    rw [encoding, collapse_full] at bound ⊢
    have valueBound := (encode_lt_of_mem (List.mem_append_right _ List.mem_cons_self) bound).1
    rw [slot] at valueBound bound ⊢
    rw [decodeNode_list more bound, decoded_full]
    show Outcome.mapError _ (decodeFull hash _ cachegen) = _
    rw [decodeFull_encoding readRefs valueBound]
    show Outcome.ok _ = _
    congr 2
    funext index
    split
    · rfl
    · rename_i beyond
      have last : index = 16 := by omega
      subst last
      exact slotDecoded.symm

end Decoding

/-! ### What a decoded node stands for -/

section Expansion

variable {keccak : List UInt8 → Meshbox.Hash} {db : MemDatabase} (cachegen : UInt16)

/-- The decoded node of a node that is neither empty nor a value has clean
flags with no hash: it is placed below the root exactly when it is small. -/
theorem placed_decoded_none {tree : HexTree} (small : tree.IsLeaf = false → ¬ Big keccak tree) :
    Placed keccak false tree (decoded keccak none cachegen tree) := by
  cases tree with
  | empty => trivial
  | leaf value => trivial
  | short run child => exact ⟨fun hashed => absurd hashed (by simp), fun _ _ => small rfl⟩
  | full children => exact ⟨fun hashed => absurd hashed (by simp), fun _ _ => small rfl⟩

/-- A child's reference stands for the child, and is placed below the root. -/
theorem expands_reference {child : HexTree} (storedRef : StoredRef keccak db child)
    (below : StoredBelow keccak db child)
    (inPlace : Expands keccak db (decoded keccak none cachegen child) child) :
    Expands keccak db (reference keccak cachegen child) child ∧
      Placed keccak false child (reference keccak cachegen child) := by
  unfold reference
  split
  · rename_i hashed
    obtain ⟨notLeaf, big⟩ := hashed
    have nonempty : child ≠ .empty := by
      rintro rfl
      exact not_big_empty keccak big
    exact ⟨.hashNode nonempty notLeaf ⟨storedRef notLeaf big, below⟩, .inr big⟩
  · rename_i inline
    exact ⟨inPlace, placed_decoded_none cachegen fun notLeaf big => inline ⟨notLeaf, big⟩⟩

/-- A decoded node stands for its tree when the database holds the subtrees
referred to by hash, and a hash it is flagged with is the tree's, stored. The
induction is on the tree; the children are read through their references. -/
theorem expands_decoded (tree : HexTree) :
    ∀ hash, tree.Canonical → HexShaped tree → StoredBelow keccak db tree →
      (∀ stored, hash = some stored → stored = hashOf keccak tree ∧ StoredTop keccak db tree) →
      Expands keccak db (decoded keccak hash cachegen tree) tree := by
  induction tree with
  | empty => intros; exact .nil
  | leaf value => intros; exact .valueNode value
  | short run child inductionHypothesis =>
    intro hash canonical shaped below flagged
    have proper : (Tree.short run child).Proper := canonical.resolve_left (by simp)
    obtain ⟨storedRef, childBelow⟩ := below
    have inPlace := inductionHypothesis none (.inr proper.2.2) shaped.short childBelow (by simp)
    obtain ⟨expands, placed⟩ := expands_reference cachegen storedRef childBelow inPlace
    refine .shortNode expands placed ⟨fun stored same => (flagged stored same).1, fun _ => ⟨⟨storedRef, childBelow⟩, ?_⟩⟩
    intro hashed
    obtain ⟨stored, same⟩ := Option.isSome_iff_exists.mp hashed
    exact (flagged stored same).2
  | full children inductionHypothesis =>
    intro hash canonical shaped below flagged
    have proper : (Tree.full children).Proper := canonical.resolve_left (by simp)
    have references : ∀ index : Fin 17,
        Expands keccak db (reference keccak cachegen (children (UInt8.ofNat index.val))) (children (UInt8.ofNat index.val)) ∧
          Placed keccak false (children (UInt8.ofNat index.val)) (reference keccak cachegen (children (UInt8.ofNat index.val))) := by
      intro index
      obtain ⟨storedRef, childBelow⟩ := below (UInt8.ofNat index.val)
      exact expands_reference cachegen storedRef childBelow
        (inductionHypothesis _ none (proper.1 _) (shaped.full _) childBelow (by simp))
    refine .fullNode (fun index => (references index).1) (fun index => (references index).2)
      (fun symbol beyond => shaped.full_child_empty proper.1 beyond)
      ⟨fun stored same => (flagged stored same).1, fun _ => ⟨below, ?_⟩⟩
    intro hashed
    obtain ⟨stored, same⟩ := Option.isSome_iff_exists.mp hashed
    exact (flagged stored same).2

/-- Resolving moves a hash node's place to the decoded node: a clean node
flagged with the hash, which below the root is big. -/
theorem placed_decoded_some {tree : HexTree} {hash : List UInt8} {atRoot : Bool} (proper : tree.Proper)
    (notLeaf : tree.IsLeaf = false) (placed : Placed keccak atRoot tree (.hashNode hash)) :
    Placed keccak atRoot tree (decoded keccak (some hash) cachegen tree) := by
  have flagsPlaced : FlagsPlaced keccak atRoot tree (decodedFlags (some hash) cachegen) := by
    cases atRoot with
    | true => exact fun _ => rfl
    | false =>
      have big : Big keccak tree := placed.resolve_left Bool.false_ne_true
      exact ⟨fun _ => big, fun _ none => absurd none (by simp [decodedFlags])⟩
  cases tree with
  | empty => exact proper.elim
  | leaf value => cases notLeaf
  | short run child => exact flagsPlaced
  | full children => exact flagsPlaced

end Expansion

/-! ### Resolving a hash node -/

section Resolving

variable {keccak : List UInt8 → Meshbox.Hash} {encodings : List UInt8 → Prop}

/-- A hash node of the trie resolves to the decoded node of its tree, which
stands for the tree as the hash node did. Every value the database holds fits
RLP's sizes, as every encoding the hasher writes does. -/
theorem Trie.resolveHash_of_expands {t : Trie} (sound : Sound keccak encodings t.db)
    (fits : ∀ enc, encodings enc → enc.length < 2 ^ 64) {hash : List UInt8} {tree : HexTree}
    (expands : Expands keccak t.db (.hashNode hash) tree) (canonical : tree.Canonical) (shaped : HexShaped tree)
    (pfx : List UInt8) :
    t.resolveHash hash pfx = .ok (decoded keccak (some hash) t.cachegen tree) ∧
      Expands keccak t.db (decoded keccak (some hash) t.cachegen tree) tree ∧ tree.Proper ∧
      tree.IsLeaf = false := by
  cases expands with
  | hashNode nonempty notLeaf stored =>
    have proper := canonical.resolve_left nonempty
    have bound := fits _ (sound _ _ stored.1).2
    refine ⟨?_, expands_decoded t.cachegen tree _ canonical shaped stored.2 fun _ same => ?_, proper, notLeaf⟩
    · unfold Trie.resolveHash
      rw [stored.1]
      simp only
      rw [← List.append_nil (encoding keccak tree), decodeNode_encoding keccak t.cachegen tree _ proper notLeaf
        shaped bound []]
    · cases same
      exact ⟨rfl, stored.1⟩

end Resolving

end Meshbox.Trie
