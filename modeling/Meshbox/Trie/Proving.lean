/-
Merkle proofs of a trie that spells out a canonical tree. Prove walks the trie
along a key and writes the encodings of the nodes it passes to a proof database,
each under its hash, the root whatever its size and the others when their
parents refer to them by hash. VerifyProof reads the root back from the proof
database by the root hash, decodes it, walks it along the key with get, and
reads on from the proof database at each hash the walk reaches.

Both sides follow one path of the tree, pathNodes, and meet at its proof
elements: the root and the big nodes of the path. Prove writes exactly these,
each under its hash (Trie.Prove_writes). A node read back from its encoding
walks as the tree does (getsTo_decoded): get ends at nil where the tree holds
nothing, at the value the tree holds, or at the hash of the next big node of
the path, which holds the rest of the key. From that lemma the proofs below get
completeness, that what Prove writes makes VerifyProof return what TryGet
returns, and soundness, that a proof database holding each entry under the
hash of the entry cannot make VerifyProof return anything else, unless two
encodings collide.
-/

import Meshbox.Trie.Proof
import Meshbox.Trie.RandTest

namespace Meshbox.Trie

open Meshbox.Rlp Radix

set_option linter.dupNamespace false

/-! ### The path of a key -/

/-- The short and full nodes a walk along key passes, as Prove collects them:
the walk stops when the key is used up or at nothing, and a short node that the
key leaves is passed and ends the walk. -/
def pathNodes : HexTree → List UInt8 → List HexTree
  | _, [] => []
  | .short run child, key => .short run child :: if run <+: key then pathNodes child (key.drop run.length) else []
  | .full children, symbol :: rest => .full children :: pathNodes (children symbol) rest
  | _, _ => []

theorem pathNodes_short {run : List UInt8} {child : HexTree} {rest : List UInt8} (nonempty : run ≠ []) :
    pathNodes (.short run child) (run ++ rest) = .short run child :: pathNodes child rest := by
  obtain ⟨symbol, more, rfl⟩ := List.exists_cons_of_ne_nil nonempty
  simp [pathNodes]

theorem pathNodes_full (children : UInt8 → HexTree) (symbol : UInt8) (rest : List UInt8) :
    pathNodes (.full children) (symbol :: rest) = .full children :: pathNodes (children symbol) rest :=
  rfl

/-- A path that is not empty starts at the root. -/
theorem head?_pathNodes {tree : HexTree} {key : List UInt8} (nonempty : pathNodes tree key ≠ []) :
    (pathNodes tree key).head? = some tree := by
  cases key with
  | nil => simp [pathNodes] at nonempty
  | cons symbol rest =>
    cases tree with
    | short run child => simp [pathNodes]
    | full children => rfl
    | empty | leaf => simp [pathNodes] at nonempty

/-- A node of a full node's tree is the full node or a node of one of its
children. -/
theorem mem_nodes_full {children : UInt8 → HexTree} {sub : HexTree} (member : sub ∈ nodes (.full children)) :
    sub = .full children ∨ ∃ index : Fin 17, sub ∈ nodes (children (UInt8.ofNat index.val)) := by
  rcases List.mem_cons.mp member with rfl | below
  · exact .inl rfl
  · obtain ⟨index, -, inChild⟩ := List.mem_flatMap.mp below
    exact .inr ⟨index, inChild⟩

/-- The nodes below a node of the tree are nodes of the tree. -/
theorem nodes_subset_of_mem {tree sub : HexTree} (member : sub ∈ nodes tree) : nodes sub ⊆ nodes tree := by
  induction tree with
  | empty => cases member
  | leaf value => cases member
  | short run child inductionHypothesis =>
    rcases List.mem_cons.mp member with rfl | below
    · exact List.Subset.refl _
    · exact List.Subset.trans (inductionHypothesis below) (List.subset_cons_self _ _)
  | full children inductionHypothesis =>
    rcases mem_nodes_full member with rfl | ⟨index, inChild⟩
    · exact List.Subset.refl _
    · refine List.Subset.trans (inductionHypothesis _ inChild) fun node inNodes => List.mem_cons_of_mem _ ?_
      exact List.mem_flatMap.mpr ⟨index, List.mem_finRange _, inNodes⟩

/-- A key compatible with a tree that is neither empty nor a value is not used
up. -/
theorem ne_nil_of_compatible {tree : HexTree} {key : List UInt8} (proper : tree.Proper)
    (notLeaf : tree.IsLeaf = false) (compatible : tree.Compatible key) : key ≠ [] := by
  rintro rfl
  rcases compatible.nil_cases (.inr proper) with rfl | leaf
  · exact proper.elim
  · rw [notLeaf] at leaf
    cases leaf

/-- A node of the tree is a short or a full node. -/
theorem mem_nodes_shape {tree sub : HexTree} (member : sub ∈ nodes tree) : sub ≠ .empty ∧ sub.IsLeaf = false := by
  induction tree with
  | empty => cases member
  | leaf value => cases member
  | short run child inductionHypothesis =>
    rcases List.mem_cons.mp member with rfl | below
    · exact ⟨by simp, rfl⟩
    · exact inductionHypothesis below
  | full children inductionHypothesis =>
    rcases mem_nodes_full member with rfl | ⟨index, inChild⟩
    · exact ⟨by simp, rfl⟩
    · exact inductionHypothesis _ inChild

/-- A node of a trie's tree has a trie's shape. -/
theorem shape_of_mem_nodes {tree sub : HexTree} (canonical : tree.Canonical) (shaped : HexShaped tree)
    (member : sub ∈ nodes tree) : sub.Canonical ∧ HexShaped sub := by
  induction tree with
  | empty => cases member
  | leaf value => cases member
  | short run child inductionHypothesis =>
    rcases List.mem_cons.mp member with rfl | below
    · exact ⟨canonical, shaped⟩
    · have proper : (Tree.short run child).Proper := canonical.resolve_left (by simp)
      exact inductionHypothesis (.inr proper.2.2) shaped.short below
  | full children inductionHypothesis =>
    rcases mem_nodes_full member with rfl | ⟨index, inChild⟩
    · exact ⟨canonical, shaped⟩
    · have proper : (Tree.full children).Proper := canonical.resolve_left (by simp)
      exact inductionHypothesis _ (proper.1 _) (shaped.full _) inChild

/-- The nodes on a path through a trie's tree are nodes of the tree. -/
theorem pathNodes_subset_nodes (tree : HexTree) :
    ∀ key, tree.Canonical → HexShaped tree → pathNodes tree key ⊆ nodes tree := by
  induction tree with
  | empty => intro key; cases key <;> simp [pathNodes]
  | leaf value => intro key; cases key <;> simp [pathNodes]
  | short run child inductionHypothesis =>
    intro key canonical shaped
    have proper : (Tree.short run child).Proper := canonical.resolve_left (by simp)
    cases key with
    | nil => simp [pathNodes]
    | cons symbol rest =>
      simp only [pathNodes]
      refine List.cons_subset_cons _ ?_
      split
      · exact inductionHypothesis _ (.inr proper.2.2) shaped.short
      · exact List.nil_subset _
  | full children inductionHypothesis =>
    intro key canonical shaped
    have proper : (Tree.full children).Proper := canonical.resolve_left (by simp)
    cases key with
    | nil => simp [pathNodes]
    | cons symbol rest =>
      rw [pathNodes_full]
      refine List.cons_subset_cons _ ?_
      by_cases bounded : symbol.toNat < 17
      · -- the child at a HEX symbol is one of the seventeen the node's nodes take
        intro node member
        refine List.mem_flatMap.mpr ⟨⟨symbol.toNat, bounded⟩, List.mem_finRange _, ?_⟩
        rw [ofNat_index bounded]
        exact inductionHypothesis symbol rest (proper.1 symbol) (shaped.full symbol) member
      · -- past the terminator there is no child
        have large : 16 < symbol := by
          rw [UInt8.lt_iff_toNat_lt]
          simp only [UInt8.reduceToNat]
          omega
        rw [shaped.full_child_empty proper.1 large]
        cases rest <;> simp [pathNodes]

/-- The big nodes of the path after its first. With the first, the root, they
are the nodes Prove writes as proof elements and VerifyProof reads back. -/
def bigsAfter (keccak : List UInt8 → Meshbox.Hash) (tree : HexTree) (key : List UInt8) : List HexTree :=
  (pathNodes tree key).tail.filter fun sub => Big keccak sub

/-- The nodes of the path Prove writes as proof elements: the first, the root,
and the big nodes after it. -/
def proofElements (keccak : List UInt8 → Meshbox.Hash) (tree : HexTree) (key : List UInt8) : List HexTree :=
  if (pathNodes tree key).isEmpty then [] else tree :: bigsAfter keccak tree key

/-- What Prove writes for a node: the node's encoding under its hash. -/
def proofEntry (keccak : List UInt8 → Meshbox.Hash) (sub : HexTree) : List UInt8 × List UInt8 :=
  (hashOf keccak sub, encoding keccak sub)

theorem pathNodes_leaf (value key : List UInt8) : pathNodes (.leaf value) key = [] := by
  cases key <;> rfl

/-- A path that is not empty is its root and the rest. -/
theorem pathNodes_eq_cons {tree : HexTree} {key : List UInt8} (nonempty : pathNodes tree key ≠ []) :
    pathNodes tree key = tree :: (pathNodes tree key).tail := by
  obtain ⟨more, path⟩ := List.head?_eq_some_iff.mp (head?_pathNodes nonempty)
  rw [path, List.tail_cons]

section Bigs

variable {keccak : List UInt8 → Meshbox.Hash} {tree child : HexTree} {key rest : List UInt8}

/-- A path of at most one node has no big node after its first. -/
theorem bigsAfter_of_tail_nil (single : (pathNodes tree key).tail = []) : bigsAfter keccak tree key = [] := by
  rw [bigsAfter, single, List.filter_nil]

/-- A child walked in place, a leaf or a small node, is no big node of the
path. -/
theorem bigsAfter_of_inline (passes : pathNodes tree key = tree :: pathNodes child rest)
    (inline : child.IsLeaf = true ∨ ¬ Big keccak child) : bigsAfter keccak tree key = bigsAfter keccak child rest := by
  rw [bigsAfter, bigsAfter, passes, List.tail_cons]
  by_cases empty : pathNodes child rest = []
  · rw [empty]
    rfl
  · rw [pathNodes_eq_cons empty]
    -- a leaf has no path, so the child is small
    have small : ¬ Big keccak child := by
      rcases inline with leaf | small
      · cases child with
        | leaf value => exact absurd (pathNodes_leaf value rest) empty
        | empty | short | full => cases leaf
      · exact small
    rw [List.filter_cons_of_neg (by simpa using small), List.tail_cons]

/-- A big child walked through its hash is the next big node of the path. -/
theorem bigsAfter_of_hashed (passes : pathNodes tree key = tree :: pathNodes child rest) (big : Big keccak child)
    (onPath : child ∈ pathNodes child rest) : bigsAfter keccak tree key = child :: bigsAfter keccak child rest := by
  rw [bigsAfter, bigsAfter, passes, List.tail_cons, pathNodes_eq_cons (List.ne_nil_of_mem onPath),
    List.filter_cons_of_pos (by simpa using big), List.tail_cons]

/-- A path that is not empty gives the root and the big nodes after it as
proof elements. -/
theorem proofElements_of_ne_nil (nonempty : pathNodes tree key ≠ []) :
    proofElements keccak tree key = tree :: bigsAfter keccak tree key := by
  rw [proofElements, if_neg (by simpa using nonempty)]

/-- The root and the big nodes of the path are proof elements. -/
theorem mem_proofElements {sub : HexTree} (onPath : sub ∈ pathNodes tree key) (rootOrBig : sub = tree ∨ Big keccak sub) :
    sub ∈ proofElements keccak tree key := by
  have nonempty := List.ne_nil_of_mem onPath
  rw [proofElements_of_ne_nil nonempty]
  rw [pathNodes_eq_cons nonempty] at onPath
  rcases List.mem_cons.mp onPath with rfl | inTail
  · exact List.mem_cons_self
  · rcases rootOrBig with rfl | big
    · exact List.mem_cons_self
    · exact List.mem_cons_of_mem _ (List.mem_filter.mpr ⟨inTail, by simpa using big⟩)

/-- The proof elements are nodes of the path. -/
theorem proofElements_subset : proofElements keccak tree key ⊆ pathNodes tree key := by
  by_cases nonempty : pathNodes tree key = []
  · rw [proofElements, if_pos (by simpa using nonempty)]
    exact List.nil_subset _
  · rw [proofElements_of_ne_nil nonempty]
    intro sub member
    rcases List.mem_cons.mp member with rfl | inBigs
    · rw [pathNodes_eq_cons nonempty]
      exact List.mem_cons_self
    · rw [pathNodes_eq_cons nonempty]
      exact List.mem_cons_of_mem _ (List.mem_filter.mp inBigs).1

end Bigs

/-! ### Nodes a walk reaches -/

/-- A node that a walk along key from the root of tree reaches with rest of
the key left: a short or full node of a trie's shape, compatible with the rest,
holding at rest what the tree holds at key, and a node of the tree whose path
is part of the tree's. -/
structure Reached (tree : HexTree) (key : List UInt8) (sub : HexTree) (rest : List UInt8) : Prop where
  proper : sub.Proper
  notLeaf : sub.IsLeaf = false
  shaped : HexShaped sub
  compatible : sub.Compatible rest
  shape : rest = [] ∨ Terminated rest
  find : tree.find key = sub.find rest
  path : pathNodes sub rest ⊆ pathNodes tree key
  node : sub ∈ nodes tree

namespace Reached

variable {tree sub other : HexTree} {key rest more : List UInt8}

/-- The walk starts at the root. -/
theorem refl (proper : tree.Proper) (notLeaf : tree.IsLeaf = false) (shaped : HexShaped tree)
    (compatible : tree.Compatible key) (shape : key = [] ∨ Terminated key) : Reached tree key tree key :=
  ⟨proper, notLeaf, shaped, compatible, shape, rfl, List.Subset.refl _,
    mem_nodes_self (fun isEmpty => by rw [isEmpty] at proper; exact proper) notLeaf⟩

theorem trans (first : Reached tree key sub rest) (second : Reached sub rest other more) :
    Reached tree key other more :=
  { second with
    find := first.find.trans second.find
    path := List.Subset.trans second.path first.path
    node := nodes_subset_of_mem first.node second.node }

/-- A node reached on the walk is on the path. -/
theorem mem_path (reached : Reached tree key sub rest) : sub ∈ pathNodes tree key := by
  apply reached.path
  obtain ⟨symbol, after, split⟩ :=
    List.exists_cons_of_ne_nil (ne_nil_of_compatible reached.proper reached.notLeaf reached.compatible)
  cases sub with
  | empty => exact reached.proper.elim
  | leaf value => cases reached.notLeaf
  | short run child =>
    rw [split]
    exact List.mem_cons_self
  | full children =>
    rw [split, pathNodes_full]
    exact List.mem_cons_self

/-- A walk below a short node's child is a walk below the short node. -/
theorem short {run : List UInt8} {child : HexTree} (nonempty : run ≠ [])
    (reached : Reached child rest other more) : Reached (.short run child) (run ++ rest) other more :=
  { reached with
    find := by rw [Tree.find_short_append]; exact reached.find
    path := by rw [pathNodes_short nonempty]; exact List.Subset.trans reached.path (List.subset_cons_self _ _)
    node := List.mem_cons_of_mem _ reached.node }

/-- A walk below a full node's child is a walk below the full node. -/
theorem full {children : UInt8 → HexTree} {symbol : UInt8} (bounded : symbol.toNat < 17)
    (reached : Reached (children symbol) rest other more) : Reached (.full children) (symbol :: rest) other more :=
  { reached with
    find := reached.find
    path := by rw [pathNodes_full]; exact List.Subset.trans reached.path (List.subset_cons_self _ _)
    node := by
      refine List.mem_cons_of_mem _ (List.mem_flatMap.mpr ⟨⟨symbol.toNat, bounded⟩, List.mem_finRange _, ?_⟩)
      rw [ofNat_index bounded]
      exact reached.node }

end Reached

/-! ### Walking a node read back from its encoding -/

section Walking

variable (keccak : List UInt8 → Meshbox.Hash)

/-- What get may give on the node read back from the encoding of a node of the
tree, along key: nil where the tree holds nothing at key, the value it holds,
or the hash of a big node on the way that holds the rest of the key. The nodes
get walks in place are small: the big node it stops at, if any, is the next on
the path. -/
def GetsTo (tree : HexTree) (key : List UInt8) : Option (List UInt8 × Node) → Prop
  | some (_, .nil) => tree.find key = none ∧ bigsAfter keccak tree key = []
  | some (_, .valueNode value) => tree.find key = some value ∧ bigsAfter keccak tree key = []
  | some (rest, .hashNode hash) =>
    ∃ child, hash = hashOf keccak child ∧ Big keccak child ∧ Reached tree key child rest ∧
      rest.length < key.length ∧ bigsAfter keccak tree key = child :: bigsAfter keccak child rest
  | _ => False

variable {keccak}

/-- Reached below a short node's child, reached below the short node. -/
theorem GetsTo.short {run : List UInt8} {child : HexTree} {rest : List UInt8} {result : Option (List UInt8 × Node)}
    (nonempty : run ≠ []) (passes : bigsAfter keccak (.short run child) (run ++ rest) = bigsAfter keccak child rest)
    (getsTo : GetsTo keccak child rest result) : GetsTo keccak (.short run child) (run ++ rest) result := by
  rcases result with _ | ⟨after, _ | _ | _ | hash | value⟩ <;> simp only [GetsTo, passes] at getsTo ⊢
  · rwa [Tree.find_short_append]
  · obtain ⟨grandchild, rfl, big, reached, shorter, next⟩ := getsTo
    refine ⟨grandchild, rfl, big, reached.short nonempty, ?_, next⟩
    have := List.length_pos_iff.mpr nonempty
    rw [List.length_append]
    omega
  · rwa [Tree.find_short_append]

/-- Reached below a full node's child, reached below the full node. -/
theorem GetsTo.full {children : UInt8 → HexTree} {symbol : UInt8} {rest : List UInt8}
    {result : Option (List UInt8 × Node)} (bounded : symbol.toNat < 17)
    (passes : bigsAfter keccak (.full children) (symbol :: rest) = bigsAfter keccak (children symbol) rest)
    (getsTo : GetsTo keccak (children symbol) rest result) :
    GetsTo keccak (.full children) (symbol :: rest) result := by
  rcases result with _ | ⟨after, _ | _ | _ | hash | value⟩ <;> simp only [GetsTo, passes] at getsTo ⊢
  · exact getsTo
  · obtain ⟨grandchild, rfl, big, reached, shorter, next⟩ := getsTo
    exact ⟨grandchild, rfl, big, reached.full bounded, by rw [List.length_cons]; omega, next⟩
  · exact getsTo

/-- get's test at a short node is whether the node's key starts the key. -/
theorem get_mismatch_iff {key run : List UInt8} :
    (key.length < run.length ∨ run ≠ key.take run.length) ↔ ¬ run <+: key := by
  simpa using @mismatch_iff key run 0

theorem get_shortNode_of_prefix {run rest : List UInt8} {val : Node} {flags : nodeFlag} :
    get (.shortNode run val flags) (run ++ rest) = get val rest := by
  rw [get, if_neg (get_mismatch_iff.not_left.mpr (List.prefix_append run rest)), List.drop_left]

theorem get_shortNode_of_not_prefix {run key : List UInt8} {val : Node} {flags : nodeFlag}
    (leaves : ¬ run <+: key) : get (.shortNode run val flags) key = some ([], .nil) := by
  rw [get, if_pos (get_mismatch_iff.mpr leaves)]

theorem get_fullNode_cons {children : Fin 17 → Node} {flags : nodeFlag} {symbol : UInt8} {rest : List UInt8}
    (bounded : symbol.toNat < 17) :
    get (.fullNode children flags) (symbol :: rest) = get (children ⟨symbol.toNat, bounded⟩) rest := by
  rw [get, dif_pos bounded]

variable (keccak) in
/-- A child is walked through its reference: the walk stops at the child's hash
with the whole rest of the key when the child is a big node, and walks the child
read in place otherwise, a leaf or a small node. -/
theorem get_reference (cachegen : UInt16) (child : HexTree) (rest : List UInt8) :
    (child.IsLeaf = false ∧ Big keccak child ∧
        get (reference keccak cachegen child) rest = some (rest, .hashNode (hashOf keccak child))) ∨
      ((child.IsLeaf = true ∨ ¬ Big keccak child) ∧
        get (reference keccak cachegen child) rest = get (decoded keccak none cachegen child) rest) := by
  unfold reference
  split
  · next hashed => exact .inl ⟨hashed.1, hashed.2, rfl⟩
  · next inPlace =>
    refine .inr ⟨?_, rfl⟩
    cases leaf : child.IsLeaf
    · exact .inr fun big => inPlace ⟨leaf, big⟩
    · exact .inl rfl

/-- A big child of a canonical tree, reached with the rest of a key compatible
with it, is a node a walk reaches. -/
theorem Reached.of_big {child : HexTree} {rest : List UInt8} (canonical : child.Canonical)
    (notLeaf : child.IsLeaf = false) (big : Big keccak child) (shaped : HexShaped child)
    (compatible : child.Compatible rest) (shape : rest = [] ∨ Terminated rest) : Reached child rest child rest := by
  have nonempty : child ≠ .empty := by
    rintro rfl
    exact not_big_empty keccak big
  exact .refl (canonical.resolve_left nonempty) notLeaf shaped compatible shape

variable (keccak) in
/-- The node read back from the encoding of a node of a trie's tree walks along
a key compatible with the tree as the tree does. The induction is on the tree;
each child is walked through its reference. -/
theorem getsTo_decoded (cachegen : UInt16) (tree : HexTree) :
    ∀ hash key, tree.Canonical → HexShaped tree → tree.Compatible key → (key = [] ∨ Terminated key) →
      GetsTo keccak tree key (get (decoded keccak hash cachegen tree) key) := by
  induction tree with
  | empty =>
    intro hash key _ _ _ _
    exact ⟨rfl, bigsAfter_of_tail_nil (by cases key <;> rfl)⟩
  | leaf value =>
    intro hash key _ _ compatible _
    rw [compatible.eq_nil_of_leaf]
    exact ⟨rfl, bigsAfter_of_tail_nil rfl⟩
  | short run child inductionHypothesis =>
    intro hash key canonical shaped compatible shape
    have proper : (Tree.short run child).Proper := canonical.resolve_left (by simp)
    by_cases starts : run <+: key
    · -- the key runs through the node's key: walk the child through its reference
      obtain ⟨rest, rfl⟩ := starts
      have childShape := Terminated.shape_right shape
      rw [decoded_short, get_shortNode_of_prefix]
      rcases get_reference keccak cachegen child rest with ⟨notLeaf, big, walked⟩ | ⟨inline, inPlace⟩
      · rw [walked]
        have reached := Reached.of_big (.inr proper.2.2) notLeaf big shaped.short compatible.short childShape
        refine ⟨child, rfl, big, reached.short proper.1, ?_,
          bigsAfter_of_hashed (pathNodes_short proper.1) big reached.mem_path⟩
        have := List.length_pos_iff.mpr proper.1
        rw [List.length_append]
        omega
      · rw [inPlace]
        exact (inductionHypothesis none rest (.inr proper.2.2) shaped.short compatible.short childShape).short
          proper.1 (bigsAfter_of_inline (pathNodes_short proper.1) inline)
    · -- the key leaves the node's key: nothing there, and the node ends the path
      rw [decoded_short, get_shortNode_of_not_prefix starts]
      refine ⟨?_, bigsAfter_of_tail_nil ?_⟩
      · show (Tree.short run child).find key = none
        rw [Tree.find_short, if_neg starts]
      · cases key with
        | nil => rfl
        | cons symbol more => simp only [pathNodes, if_neg starts, List.tail_cons]
  | full children inductionHypothesis =>
    intro hash key canonical shaped compatible shape
    have proper : (Tree.full children).Proper := canonical.resolve_left (by simp)
    obtain ⟨symbol, rest, rfl⟩ := List.exists_cons_of_ne_nil (compatible.ne_nil_of_full proper)
    have terminated := shape.resolve_left (List.cons_ne_nil _ _)
    have bounded := terminated.toNat_lt List.mem_cons_self
    have childShape := (show Terminated ([symbol] ++ rest) from terminated).right_or_nil
    -- the key's first symbol picks the child, walked through its reference
    rw [decoded_full, get_fullNode_cons bounded]
    simp only [ofNat_index bounded]
    rcases get_reference keccak cachegen (children symbol) rest with ⟨notLeaf, big, walked⟩ | ⟨inline, inPlace⟩
    · rw [walked]
      have reached := Reached.of_big (proper.1 symbol) notLeaf big (shaped.full symbol) compatible.full childShape
      exact ⟨children symbol, rfl, big, reached.full bounded, by rw [List.length_cons]; omega,
        bigsAfter_of_hashed (pathNodes_full children symbol rest) big reached.mem_path⟩
    · rw [inPlace]
      exact (inductionHypothesis symbol none rest (proper.1 symbol) (shaped.full symbol) compatible.full
        childShape).full bounded (bigsAfter_of_inline (pathNodes_full children symbol rest) inline)

end Walking

/-! ### Verifying a proof -/

section Verifying

variable {keccak : List UInt8 → Meshbox.Hash}

/-- One turn of VerifyProof at the hash of a node the walk reached, whose
encoding the proof database holds under that hash: the turn returns what the
tree holds at the key, when no big node of the path lies below, or goes on to
the hash of the next big node of the path, with a shorter rest. -/
theorem verifyStep_reached {proofDb : List UInt8 → Option (List UInt8)} {state : ProofState}
    {tree sub : HexTree} {key : List UInt8} (reached : Reached tree key sub state.key)
    (wanted : state.wantHash = hashOf keccak sub) (fits : (encoding keccak sub).length < 2 ^ 64)
    (held : proofDb (hashOf keccak sub) = some (encoding keccak sub)) :
    (∃ used, verifyStep proofDb state = .ok (.inl (tree.find key, used)) ∧ bigsAfter keccak sub state.key = []) ∨
      ∃ child rest, verifyStep proofDb state = .ok (.inr ⟨state.index + 1, rest, hashOf keccak child⟩) ∧
        Big keccak child ∧ Reached tree key child rest ∧ rest.length < state.key.length ∧
        bigsAfter keccak sub state.key = child :: bigsAfter keccak child rest := by
  have decodes : decodeNode (some (hashOf keccak sub)) (encoding keccak sub) 0 =
      .ok (decoded keccak (some (hashOf keccak sub)) 0 sub) := by
    simpa using decodeNode_encoding keccak 0 sub _ reached.proper reached.notLeaf reached.shaped fits []
  have walk := getsTo_decoded keccak 0 sub (some (hashOf keccak sub)) state.key (.inr reached.proper) reached.shaped
    reached.compatible reached.shape
  rw [verifyStep, wanted, held]
  simp only [decodes]
  -- what get gives decides the turn, as GetsTo describes it
  revert walk
  generalize get (decoded keccak (some (hashOf keccak sub)) 0 sub) state.key = result
  rcases result with _ | ⟨rest, _ | _ | _ | hash | value⟩ <;> intro walk <;> simp only [GetsTo] at walk
  · exact .inl ⟨state.index, by rw [reached.find, walk.1], walk.2⟩
  · obtain ⟨child, rfl, big, below, shorter, next⟩ := walk
    exact .inr ⟨child, rest, rfl, big, reached.trans below, shorter, next⟩
  · exact .inl ⟨state.index + 1, by rw [reached.find, walk.1], walk.2⟩

/-- Where VerifyProof's loop stands on the walk along key: at the hash of a
node the walk reached, the root or a big node. -/
def AtReached (keccak : List UInt8 → Meshbox.Hash) (tree : HexTree) (key : List UInt8) (state : ProofState) : Prop :=
  ∃ sub, Reached tree key sub state.key ∧ state.wantHash = hashOf keccak sub ∧ (sub = tree ∨ Big keccak sub)

/-- The walk along a key starts at the root of a trie's tree. -/
theorem Reached.root {tree : HexTree} (canonical : tree.Canonical) (keys : HexKeys tree) (nonempty : tree ≠ .empty)
    (key : List UInt8) : Reached tree (keybytesToHex key) tree (keybytesToHex key) :=
  .refl (canonical.resolve_left nonempty) keys.isLeaf_eq_false keys.hexShaped
    (keys.compatible (keybytesToHex_terminated key)) (.inr (keybytesToHex_terminated key))

/-- VerifyProof starts at the root. -/
theorem atReached_start {tree : HexTree} (canonical : tree.Canonical) (keys : HexKeys tree)
    (nonempty : tree ≠ .empty) (key : List UInt8) :
    AtReached keccak tree (keybytesToHex key)
      { index := 0, key := keybytesToHex key, wantHash := (rootHash keccak tree).toList } :=
  ⟨tree, .root canonical keys nonempty key, rootHash_toList nonempty, .inl rfl⟩

/-- Completeness: against the root hash of a trie's tree, VerifyProof returns
what the tree holds at the key, given a proof database that holds the root and
every big node on the key's path under its hash, and one turn more than the HEX
key has symbols. -/
theorem VerifyProof_of_held {proofDb : List UInt8 → Option (List UInt8)} {tree : HexTree}
    (canonical : tree.Canonical) (keys : HexKeys tree) (nonempty : tree ≠ .empty)
    (fits : ∀ node ∈ nodes tree, (encoding keccak node).length < 2 ^ 64) (key : List UInt8)
    (held : ∀ sub ∈ pathNodes tree (keybytesToHex key), sub = tree ∨ Big keccak sub →
      proofDb (hashOf keccak sub) = some (encoding keccak sub))
    {fuel : Nat} (enough : (keybytesToHex key).length < fuel) :
    ∃ used, VerifyProof fuel (rootHash keccak tree) key proofDb =
      some (.ok (tree.find (keybytesToHex key), used)) := by
  -- each turn reads a node on the path and shortens the rest of the key
  have step : ∀ state, AtReached keccak tree (keybytesToHex key) state →
      (∃ result, verifyStep proofDb state = .ok (.inl result) ∧ result.1 = tree.find (keybytesToHex key)) ∨
        ∃ next, verifyStep proofDb state = .ok (.inr next) ∧ AtReached keccak tree (keybytesToHex key) next ∧
          next.key.length < state.key.length := by
    rintro state ⟨sub, reached, wanted, rootOrBig⟩
    rcases verifyStep_reached reached wanted (fits sub reached.node) (held sub reached.mem_path rootOrBig) with
      ⟨used, returns, -⟩ | ⟨child, rest, continues, big, below, shorter, -⟩
    · exact .inl ⟨_, returns, rfl⟩
    · exact .inr ⟨_, continues, ⟨child, below, rfl, .inr big⟩, shorter⟩
  obtain ⟨⟨value, used⟩, ran, found⟩ := Loop.run_of_measure _ (fun state => state.key.length) _ step fuel _
    (atReached_start canonical keys nonempty key) enough
  exact ⟨used, by rw [VerifyProof, ran, show value = _ from found]⟩

/-- A proof database holding each entry under the hash of the entry holds,
under the hash of a node, the node's encoding or nothing, when no two of its
entries and the node's encoding collide. -/
theorem held_or_missing {encodings : List UInt8 → Prop} (collisionless : Collisionless keccak encodings)
    {proofDb : List UInt8 → Option (List UInt8)}
    (consistent : ∀ hash buf, proofDb hash = some buf → hash = (keccak buf).toList ∧ encodings buf)
    {sub : HexTree} (subAllowed : encodings (encoding keccak sub)) :
    proofDb (hashOf keccak sub) = none ∨ proofDb (hashOf keccak sub) = some (encoding keccak sub) := by
  cases held : proofDb (hashOf keccak sub) with
  | none => exact .inl rfl
  | some buf =>
    obtain ⟨hashEq, bufAllowed⟩ := consistent _ _ held
    have sameHash : keccak (encoding keccak sub) = keccak buf := Vector.toList_inj.mp hashEq
    rw [collisionless.1 _ _ subAllowed bufAllowed sameHash]
    exact .inr rfl

/-- A proof database holding each entry under the hash of the entry, with no
two of its entries or the tree's encodings colliding, holds nothing but the
tree's encoding under the hash of a node the walk reached: one turn of
VerifyProof there fails, returns what the tree holds at the key, or goes on
to the hash of another node the walk reaches. -/
theorem verifyStep_consistent {encodings : List UInt8 → Prop} (collisionless : Collisionless keccak encodings)
    (fitting : ∀ enc, encodings enc → enc.length < 2 ^ 64) {tree : HexTree} {key : List UInt8}
    (allowed : ∀ node ∈ nodes tree, encodings (encoding keccak node)) {proofDb : List UInt8 → Option (List UInt8)}
    (consistent : ∀ hash buf, proofDb hash = some buf → hash = (keccak buf).toList ∧ encodings buf)
    {state : ProofState} (at_ : AtReached keccak tree key state) :
    (∃ err, verifyStep proofDb state = .error err) ∨
      (∃ used, verifyStep proofDb state = .ok (.inl (tree.find key, used))) ∨
      ∃ next, verifyStep proofDb state = .ok (.inr next) ∧ AtReached keccak tree key next := by
  obtain ⟨sub, reached, wanted, rootOrBig⟩ := at_
  rcases held_or_missing collisionless consistent (allowed sub reached.node) with missing | held
  · -- the node is missing
    exact .inl ⟨.missing state.index state.wantHash, by rw [verifyStep, wanted, missing]⟩
  · rcases verifyStep_reached reached wanted (fitting _ (allowed sub reached.node)) held with
      ⟨used, returns, -⟩ | ⟨child, rest, continues, big, below, -, -⟩
    · exact .inr (.inl ⟨used, returns⟩)
    · exact .inr (.inr ⟨_, continues, child, below, rfl, .inr big⟩)

/-- Soundness: a proof database holding each entry under the hash of the entry
cannot make VerifyProof return, against the root hash of a trie's tree, anything
but what the tree holds at the key, unless two of its entries or the tree's
encodings collide. -/
theorem VerifyProof_sound {encodings : List UInt8 → Prop} (collisionless : Collisionless keccak encodings)
    (fitting : ∀ enc, encodings enc → enc.length < 2 ^ 64) {tree : HexTree} (canonical : tree.Canonical)
    (keys : HexKeys tree) (nonempty : tree ≠ .empty) (allowed : ∀ node ∈ nodes tree, encodings (encoding keccak node))
    {proofDb : List UInt8 → Option (List UInt8)}
    (consistent : ∀ hash buf, proofDb hash = some buf → hash = (keccak buf).toList ∧ encodings buf)
    {fuel : Nat} {key : List UInt8} {value : Option (List UInt8)} {used : Nat}
    (verified : VerifyProof fuel (rootHash keccak tree) key proofDb = some (.ok (value, used))) :
    value = tree.find (keybytesToHex key) := by
  -- from every state on the walk a turn fails, returns the tree's answer or stays on the walk
  refine Loop.post_of_turn _ (fun result => result.1 = tree.find (keybytesToHex key)) (fun state at_ => ?_) fuel _
    (value, used) (atReached_start canonical keys nonempty key) verified
  rcases verifyStep_consistent collisionless fitting allowed consistent at_ with failed | ⟨used, answered⟩ | continued
  · exact .inl failed
  · exact .inr (.inl ⟨_, answered, rfl⟩)
  · exact .inr (.inr continued)

end Verifying

/-! ### Proving a key -/

section Proving

variable {keccak : List UInt8 → Meshbox.Hash} {encodings : List UInt8 → Prop}

variable (keccak) in
/-- What Prove's path loop collects for a node of the path: a short or full
node that stands for it, a hash node resolved first. -/
def PathNode (db : MemDatabase) (node : Node) (sub : HexTree) : Prop :=
  Expands keccak db node sub ∧ ∀ hash, node ≠ .hashNode hash

/-- A node's cached hash is its tree's. -/
theorem Expands.cached {db : MemDatabase} {n : Node} {tree : HexTree} (expands : Expands keccak db n tree) :
    ∀ hash, n.cache.1 = some hash → hash = hashOf keccak tree := by
  cases expands with
  | shortNode _ _ ok => exact ok.1
  | fullNode _ _ _ ok => exact ok.1
  | nil | valueNode | hashNode => intro hash held; simp [Node.cache] at held

section Path

variable {t : Trie} (sound : Sound keccak encodings t.db) (fits : ∀ enc, encodings enc → enc.length < 2 ^ 64)

/-- One turn of Prove's path loop at a short node whose key the rest of the key
runs through: on to the child, with the node collected. -/
theorem Trie.proveStep_short_through {run rest more : List UInt8} {symbol : UInt8} {child : Node}
    {flags : nodeFlag} {passed : List Node} (split : run ++ rest = symbol :: more) :
    t.proveStep ⟨symbol :: more, .shortNode run child flags, passed⟩ =
      .ok (.inr ⟨rest, child, passed ++ [.shortNode run child flags]⟩) := by
  have dropped : (symbol :: more).drop run.length = rest := by rw [← split, List.drop_left]
  simp only [Trie.proveStep, if_neg (get_mismatch_iff.not_left.mpr ⟨rest, split⟩), dropped]

/-- One turn at a short node the key leaves: the node is collected and the path
ends at nil. -/
theorem Trie.proveStep_short_off {run more : List UInt8} {symbol : UInt8} {child : Node} {flags : nodeFlag}
    {passed : List Node} (off : ¬ run <+: symbol :: more) :
    t.proveStep ⟨symbol :: more, .shortNode run child flags, passed⟩ =
      .ok (.inr ⟨symbol :: more, .nil, passed ++ [.shortNode run child flags]⟩) := by
  simp only [Trie.proveStep, if_pos (get_mismatch_iff.mpr off)]

/-- One turn at a full node: the key's first symbol picks the child. -/
theorem Trie.proveStep_full {more : List UInt8} {symbol : UInt8} {children : Fin 17 → Node} {flags : nodeFlag}
    {passed : List Node} (bounded : symbol.toNat < 17) :
    t.proveStep ⟨symbol :: more, .fullNode children flags, passed⟩ =
      .ok (.inr ⟨more, children ⟨symbol.toNat, bounded⟩, passed ++ [.fullNode children flags]⟩) := by
  simp only [Trie.proveStep, dif_pos bounded]

/-- One turn at a hash node: the node it resolves to takes its place. -/
theorem Trie.proveStep_hash {more hash : List UInt8} {symbol : UInt8} {resolved : Node} {passed : List Node}
    (resolves : t.resolveHash hash [] = .ok resolved) :
    t.proveStep ⟨symbol :: more, .hashNode hash, passed⟩ = .ok (.inr ⟨symbol :: more, resolved, passed⟩) := by
  simp only [Trie.proveStep, resolves]
  rfl

include sound fits in
/-- Prove's path loop collects, for each node on the key's path, a short or full
node that stands for it, resolving hash nodes on the way, within two turns per
symbol of the key and one more. The induction is on the fuel, as for tryGet. -/
theorem Trie.provePath_spec (fuel : Nat) :
    ∀ {n : Node} {tree : HexTree} {key : List UInt8} (passed : List Node),
      Expands keccak t.db n tree → tree.Canonical → HexShaped tree → tree.Compatible key →
      (key = [] ∨ Terminated key) → 2 * key.length + n.cost < fuel →
      ∃ path, Loop.run t.proveStep fuel ⟨key, n, passed⟩ = some (.ok (passed ++ path)) ∧
        List.Forall₂ (PathNode keccak t.db) path (pathNodes tree key) := by
  induction fuel with
  | zero => intros; omega
  | succ fuel inductionHypothesis =>
    intro n tree key passed expands canonical shaped compatible shape enough
    cases key with
    | nil =>
      -- the key is used up
      refine ⟨[], ?_, by cases tree <;> exact .nil⟩
      rw [List.append_nil]
      exact Loop.run_succ_of_return fuel rfl
    | cons symbol more =>
      cases expands with
      | nil => exact ⟨[], by rw [List.append_nil]; exact Loop.run_succ_of_return fuel rfl, .nil⟩
      | valueNode value => exact absurd compatible.eq_nil_of_leaf (List.cons_ne_nil _ _)
      | @shortNode run child flags childTree childExpands childPlaced flagsOk =>
        have proper : (Tree.short run childTree).Proper := canonical.resolve_left (by simp)
        have collected : PathNode keccak t.db (.shortNode run child flags) (.short run childTree) :=
          ⟨.shortNode childExpands childPlaced flagsOk, (by simp)⟩
        by_cases starts : run <+: symbol :: more
        · -- the key runs through the node's key: on to the child
          obtain ⟨rest, split⟩ := starts
          have lengths := congrArg List.length split
          simp only [List.length_append, List.length_cons] at lengths
          have restShape :=
            (show Terminated (run ++ rest) from split ▸ shape.resolve_left (List.cons_ne_nil _ _)).right_or_nil
          rw [← split] at compatible
          obtain ⟨path, ran, related⟩ := inductionHypothesis (passed ++ [.shortNode run child flags]) childExpands
            (.inr proper.2.2) shaped.short compatible.short restShape
            (by
              have := child.cost_le_two
              have := List.length_pos_iff.mpr proper.1
              simp only [List.length_cons, Node.cost] at enough
              omega)
          refine ⟨.shortNode run child flags :: path, ?_, ?_⟩
          · rw [Loop.run_succ_of_continue fuel (Trie.proveStep_short_through split), ran, List.append_assoc,
              List.singleton_append]
          · rw [← split, pathNodes_short proper.1]
            exact .cons collected related
        · -- the key leaves the node's key: the node ends the path
          obtain ⟨fuel, rfl⟩ : ∃ smaller, fuel = smaller + 1 :=
            ⟨fuel - 1, by simp only [List.length_cons] at enough; omega⟩
          refine ⟨[.shortNode run child flags], ?_, ?_⟩
          · rw [Loop.run_succ_of_continue _ (Trie.proveStep_short_off starts)]
            exact Loop.run_succ_of_return fuel rfl
          · simp only [pathNodes, if_neg starts]
            exact .cons collected .nil
      | @fullNode children flags trees childrenExpand childrenPlaced beyond flagsOk =>
        have proper : (Tree.full trees).Proper := canonical.resolve_left (by simp)
        have bounded := (shape.resolve_left (List.cons_ne_nil _ _)).toNat_lt List.mem_cons_self
        have restShape :=
          (show Terminated ([symbol] ++ more) from shape.resolve_left (List.cons_ne_nil _ _)).right_or_nil
        -- the key's first symbol picks the child
        have childExpands := childrenExpand ⟨symbol.toNat, bounded⟩
        rw [ofNat_index bounded] at childExpands
        obtain ⟨path, ran, related⟩ := inductionHypothesis (passed ++ [.fullNode children flags]) childExpands
          (proper.1 symbol) (shaped.full symbol) compatible.full restShape
          (by
            have := (children ⟨symbol.toNat, bounded⟩).cost_le_two
            simp only [List.length_cons, Node.cost] at enough
            omega)
        refine ⟨.fullNode children flags :: path, ?_, ?_⟩
        · rw [Loop.run_succ_of_continue fuel (Trie.proveStep_full bounded), ran, List.append_assoc,
            List.singleton_append]
        · rw [pathNodes_full]
          exact .cons ⟨.fullNode childrenExpand childrenPlaced beyond flagsOk, (by simp)⟩ related
      | hashNode nonempty notLeaf stored =>
        -- the hash node is resolved in place
        obtain ⟨resolvedEq, resolvedExpands, proper, -⟩ :=
          t.resolveHash_of_expands sound fits (.hashNode nonempty notLeaf stored) canonical shaped []
        obtain ⟨path, ran, related⟩ := inductionHypothesis passed resolvedExpands canonical shaped compatible shape
          (by rw [cost_decoded proper]; simp only [Node.cost] at enough; omega)
        exact ⟨path, by rw [Loop.run_succ_of_continue fuel (Trie.proveStep_hash resolvedEq), ran], related⟩

end Path

section Writing

variable (collisionless : Collisionless keccak encodings)

include collisionless in
/-- Writing a node's encoding under its hash keeps every node a database holds,
when no two encodings share a hash. -/
theorem StoredTop.put {db : MemDatabase} {sub other : HexTree} (stored : StoredTop keccak db sub)
    (subAllowed : encodings (encoding keccak sub)) (otherAllowed : encodings (encoding keccak other)) :
    StoredTop keccak (db.Put (hashOf keccak other) (encoding keccak other)) sub := by
  unfold StoredTop at stored ⊢
  rw [MemDatabase.Get_Put]
  split
  · next same =>
    have sameHash : keccak (encoding keccak sub) = keccak (encoding keccak other) := Vector.toList_inj.mp same
    rw [collisionless.1 _ _ subAllowed otherAllowed sameHash]
  · exact stored

theorem StoredTop.put_self (db : MemDatabase) (sub : HexTree) :
    StoredTop keccak (db.Put (hashOf keccak sub) (encoding keccak sub)) sub := by
  simp [StoredTop, MemDatabase.Get_Put]

include collisionless in
/-- One node of Prove's list, hashed with its children collapsed, is written
under its hash when it is big or first, the root. -/
theorem proveNodes_cons {db : MemDatabase} (sound : Sound keccak encodings db) {n : Node} {sub : HexTree}
    {rest : List Node} (i : Nat) (proofDb : MemDatabase) (collected : PathNode keccak db n sub)
    (canonical : sub.Canonical) (shaped : HexShaped sub) (member : sub ≠ .empty ∧ sub.IsLeaf = false)
    (allowed : ∀ node ∈ nodes sub, encodings (encoding keccak node)) :
    Trie.proveNodes keccak (n :: rest) i 0 proofDb = Trie.proveNodes keccak rest (i + 1) 0
      (if Big keccak sub ∨ i = 0 then proofDb.Put (hashOf keccak sub) (encoding keccak sub) else proofDb) := by
  obtain ⟨collapsed, cached, hashed, item, cache, notNil, notHash⟩ :=
    hasher.hashChildren_spec collisionless ⟨0, 0⟩ collected.1 collected.2 canonical shaped member.1 member.2 allowed
      sound
  have stored := hasher.store_eq none false notNil notHash item fun hash held => collected.1.cached hash (cache ▸ held)
  have encoded : collapsed.toItem.encode = encoding keccak sub := by
    rw [item]
    rfl
  rw [Trie.proveNodes, hashed]
  dsimp only
  rw [stored]
  by_cases big : Big keccak sub
  · -- a big node is hashed, and written under its hash
    simp only [big, or_true, if_true, true_or, Nat.lt_irrefl, if_false, encoded]
  · -- a small node is written only as the root
    simp only [big, or_false, if_false, Bool.false_eq_true, false_or]
    by_cases first : i = 0
    · simp only [first, if_true, Nat.lt_irrefl, if_false, encoded]
      rfl
    · simp only [first, if_false]

include collisionless in
/-- Prove's loop over the nodes of a path of the tree writes each big node, and
the first one when it starts the list, under its hash, and keeps what the proof
database held of the tree's nodes. The induction is on the path. -/
theorem proveNodes_spec {db : MemDatabase} (sound : Sound keccak encodings db) {tree : HexTree}
    (canonical : tree.Canonical) (shaped : HexShaped tree) (allowed : ∀ node ∈ nodes tree, encodings (encoding keccak node)) :
    ∀ {path : List Node} {subs : List HexTree}, List.Forall₂ (PathNode keccak db) path subs →
      (∀ sub ∈ subs, sub ∈ nodes tree) → ∀ (i : Nat) (proofDb : MemDatabase),
        ∃ proofDb', Trie.proveNodes keccak path i 0 proofDb = some proofDb' ∧
          (∀ sub ∈ nodes tree, StoredTop keccak proofDb sub → StoredTop keccak proofDb' sub) ∧
          (∀ sub ∈ subs, Big keccak sub → StoredTop keccak proofDb' sub) ∧
          (i = 0 → ∀ sub ∈ subs.head?, StoredTop keccak proofDb' sub) := by
  intro path subs related
  induction related with
  | nil => exact fun _ i proofDb => ⟨proofDb, rfl, fun _ _ held => held, by simp, by simp⟩
  | @cons n sub path subs collected _ inductionHypothesis =>
    intro within i proofDb
    have member := within sub List.mem_cons_self
    obtain ⟨subCanonical, subShaped⟩ := shape_of_mem_nodes canonical shaped member
    have subAllowed : ∀ node ∈ nodes sub, encodings (encoding keccak node) :=
      fun node inSub => allowed node (nodes_subset_of_mem member inSub)
    rw [proveNodes_cons collisionless sound i proofDb collected subCanonical subShaped (mem_nodes_shape member)
      subAllowed]
    -- the database after this node: the node written when big or first
    let written := if Big keccak sub ∨ i = 0 then proofDb.Put (hashOf keccak sub) (encoding keccak sub) else proofDb
    have keeps : ∀ other ∈ nodes tree, StoredTop keccak proofDb other → StoredTop keccak written other := by
      intro other otherMember held
      by_cases writes : Big keccak sub ∨ i = 0
      · simp only [written, if_pos writes]
        exact held.put collisionless (allowed other otherMember) (allowed sub member)
      · simpa only [written, if_neg writes] using held
    have holds : Big keccak sub ∨ i = 0 → StoredTop keccak written sub := by
      intro writes
      simp only [written, if_pos writes]
      exact StoredTop.put_self _ _
    obtain ⟨proofDb', ran, kept, bigs, -⟩ :=
      inductionHypothesis (fun other inRest => within other (List.mem_cons_of_mem _ inRest)) (i + 1) written
    refine ⟨proofDb', ran, fun other otherMember held => kept other otherMember (keeps other otherMember held), ?_,
      fun first head inHead => ?_⟩
    · intro other inSubs big
      rcases List.mem_cons.mp inSubs with rfl | inRest
      · exact kept _ member (holds (.inl big))
      · exact bigs other inRest big
    · obtain rfl : sub = head := by simpa using inHead
      exact kept _ member (holds (.inr first))

include collisionless in
/-- Past the first node, Prove's loop over a path of the tree writes exactly the
big nodes of the path, in order, each under its hash. The induction is on the
path. -/
theorem proveNodes_writes {db : MemDatabase} (sound : Sound keccak encodings db) {tree : HexTree}
    (canonical : tree.Canonical) (shaped : HexShaped tree) (allowed : ∀ node ∈ nodes tree, encodings (encoding keccak node)) :
    ∀ {path : List Node} {subs : List HexTree}, List.Forall₂ (PathNode keccak db) path subs →
      (∀ sub ∈ subs, sub ∈ nodes tree) → ∀ (i : Nat) (proofDb : MemDatabase),
        Trie.proveNodes keccak path (i + 1) 0 proofDb =
          some ⟨((subs.filter fun sub => Big keccak sub).map (proofEntry keccak)).reverse ++ proofDb.writes⟩ := by
  intro path subs related
  induction related with
  | nil => intro _ i proofDb; rfl
  | @cons n sub path subs collected _ inductionHypothesis =>
    intro within i proofDb
    have member := within sub List.mem_cons_self
    obtain ⟨subCanonical, subShaped⟩ := shape_of_mem_nodes canonical shaped member
    rw [proveNodes_cons collisionless sound (i + 1) proofDb collected subCanonical subShaped (mem_nodes_shape member)
        (fun node inSub => allowed node (nodes_subset_of_mem member inSub)),
      inductionHypothesis (fun other inRest => within other (List.mem_cons_of_mem _ inRest))]
    by_cases big : Big keccak sub
    · -- a big node is written under its hash
      rw [List.filter_cons_of_pos (p := fun sub => decide (Big keccak sub)) (decide_eq_true big), if_pos (Or.inl big)]
      simp only [MemDatabase.Put, List.map_cons, List.reverse_cons, List.append_assoc, List.singleton_append,
        proofEntry]
    · rw [List.filter_cons_of_neg (p := fun sub => decide (Big keccak sub)) (by simpa using big),
        if_neg (not_or.mpr ⟨big, Nat.succ_ne_zero i⟩)]

include collisionless in
/-- Prove writes exactly the proof elements of the key, the root first, each
under its hash, given two turns per HEX symbol of the key and three more. -/
theorem Trie.Prove_writes (fits : ∀ enc, encodings enc → enc.length < 2 ^ 64) {t : Trie} {tree : HexTree}
    (spells : t.Spells keccak encodings tree) (allowed : ∀ node ∈ nodes tree, encodings (encoding keccak node))
    (key : List UInt8) (proofDb : MemDatabase) {fuel : Nat} (enough : 2 * (keybytesToHex key).length + 2 < fuel) :
    t.Prove keccak fuel key 0 proofDb =
      some (.ok ⟨((proofElements keccak tree (keybytesToHex key)).map (proofEntry keccak)).reverse ++
        proofDb.writes⟩) := by
  have terminated := keybytesToHex_terminated key
  obtain ⟨path, ran, related⟩ := t.provePath_spec spells.sound fits fuel [] spells.expands spells.canonical
    spells.keys.hexShaped (spells.keys.compatible terminated) (.inr terminated)
    (by have := t.root.cost_le_two; omega)
  have within := pathNodes_subset_nodes tree (keybytesToHex key) spells.canonical spells.keys.hexShaped
  rw [Trie.Prove, ran, List.nil_append, Option.map_some, Outcome.ok_bind, proofElements, bigsAfter]
  generalize pathEq : pathNodes tree (keybytesToHex key) = subs at related within
  cases related with
  | nil => rfl
  | @cons n sub path subs collected rest =>
    -- the path's first node is the root, written whatever its size
    obtain rfl : sub = tree := by
      have head := head?_pathNodes (show pathNodes tree (keybytesToHex key) ≠ [] by
        rw [pathEq]
        exact List.cons_ne_nil _ _)
      rw [pathEq] at head
      exact Option.some.inj head
    rw [proveNodes_cons collisionless spells.sound 0 proofDb collected spells.canonical spells.keys.hexShaped
        (mem_nodes_shape (within List.mem_cons_self)) allowed, if_pos (Or.inr rfl),
      proveNodes_writes collisionless spells.sound spells.canonical spells.keys.hexShaped allowed rest
        (fun _ inRest => within (List.mem_cons_of_mem _ inRest))]
    simp only [List.isEmpty_cons, Bool.false_eq_true, if_false, List.tail_cons, List.map_cons, List.reverse_cons,
      List.append_assoc, List.singleton_append, MemDatabase.Put, proofEntry]

include collisionless in
/-- Prove writes the root and every big node on the key's path under its hash,
given two turns per HEX symbol of the key and three more. -/
theorem Trie.Prove_spec (fits : ∀ enc, encodings enc → enc.length < 2 ^ 64) {t : Trie} {tree : HexTree}
    (spells : t.Spells keccak encodings tree) (allowed : ∀ node ∈ nodes tree, encodings (encoding keccak node))
    (key : List UInt8) (proofDb : MemDatabase) {fuel : Nat} (enough : 2 * (keybytesToHex key).length + 2 < fuel) :
    ∃ proofDb', t.Prove keccak fuel key 0 proofDb = some (.ok proofDb') ∧
      ∀ sub ∈ pathNodes tree (keybytesToHex key), sub = tree ∨ Big keccak sub → StoredTop keccak proofDb' sub := by
  have terminated := keybytesToHex_terminated key
  obtain ⟨path, ran, related⟩ := t.provePath_spec spells.sound fits fuel [] spells.expands spells.canonical
    spells.keys.hexShaped (spells.keys.compatible terminated) (.inr terminated)
    (by have := t.root.cost_le_two; omega)
  obtain ⟨proofDb', proved, -, bigs, first⟩ := proveNodes_spec collisionless spells.sound spells.canonical
    spells.keys.hexShaped allowed related
    (fun sub member => pathNodes_subset_nodes tree _ spells.canonical spells.keys.hexShaped member) 0 proofDb
  refine ⟨proofDb', ?_, fun sub member rootOrBig => ?_⟩
  · rw [Trie.Prove, ran, List.nil_append, Option.map_some, Outcome.ok_bind, proved]
  · rcases rootOrBig with rfl | big
    · -- the root heads the path
      exact first rfl sub (by rw [head?_pathNodes (List.ne_nil_of_mem member)]; rfl)
    · exact bigs sub member big

end Writing

/-- Prove and VerifyProof agree with TryGet: on a trie that spells out a tree
that is not empty, the proof Prove writes for a key, checked by VerifyProof
against the root hash that Hash gives, returns what TryGet returns for the key,
the value or nil. The hash function has no collision on the tree's encodings,
each of which fits RLP's sizes. -/
theorem Prove_VerifyProof_TryGet (collisionless : Collisionless keccak encodings)
    (fits : ∀ enc, encodings enc → enc.length < 2 ^ 64) {t : Trie} {tree : HexTree}
    (spells : t.Spells keccak encodings tree) (nonempty : tree ≠ .empty)
    (allowed : ∀ node ∈ nodes tree, encodings (encoding keccak node)) (key : List UInt8) (proofDb : MemDatabase)
    {fuel : Nat} (enough : 2 * (keybytesToHex key).length + 2 < fuel) :
    ∃ root hashed proofDb' value got used, t.Hash keccak = some (root, hashed) ∧
      hashed.Prove keccak fuel key 0 proofDb = some (.ok proofDb') ∧
      hashed.TryGet fuel key = some (.ok (value, got)) ∧
      VerifyProof fuel root key proofDb'.Get = some (.ok (value, used)) := by
  obtain ⟨hashed, hashedEq, hashedSpells, -⟩ := Trie.Hash_spec collisionless spells allowed
  obtain ⟨proofDb', proved, held⟩ := Trie.Prove_spec collisionless fits hashedSpells allowed key proofDb enough
  obtain ⟨got, gotEq, -, -⟩ :=
    Trie.TryGet_spec fits hashedSpells key (show 2 * (keybytesToHex key).length + 2 ≤ fuel by omega)
  obtain ⟨used, verified⟩ := VerifyProof_of_held spells.canonical spells.keys nonempty
    (fun node member => fits _ (allowed node member)) key held (show (keybytesToHex key).length < fuel by omega)
  exact ⟨_, hashed, proofDb', _, got, used, hashedEq, proved, gotEq, verified⟩

end Proving

/-- The run that puts two keys in the empty trie, [0x10] to 32 bytes 0xaa and
[0x20] to 32 bytes 0xbb: it leaves a full node over two leaves, each too big to
embed, so the full node refers to both by hash. -/
def twoKeyRun : List Op :=
  [.update [0x10] (List.replicate 32 0xaa), .update [0x20] (List.replicate 32 0xbb)]

/-- Keccak-256 of the leaf of [0x10] under the full node. -/
def twoKeyLeafDigestA : Meshbox.Hash :=
  #v[0x66, 0x90, 0xe8, 0x8a, 0x7a, 0xb0, 0x82, 0x06, 0xd6, 0x81, 0xa5, 0x2b, 0xe3, 0x69, 0xbf, 0x20,
    0xe0, 0xaa, 0xd1, 0xa1, 0x6b, 0xe6, 0x69, 0xd4, 0xd8, 0xb8, 0xb1, 0x97, 0xc9, 0xde, 0xc2, 0xa8]

/-- Keccak-256 of the leaf of [0x20] under the full node. -/
def twoKeyLeafDigestB : Meshbox.Hash :=
  #v[0x93, 0x35, 0x0d, 0xaa, 0x7b, 0x51, 0x8f, 0x22, 0x6b, 0xf2, 0x86, 0x59, 0x60, 0x5e, 0xdb, 0xdc,
    0x4b, 0x79, 0x1a, 0x6f, 0x2d, 0x55, 0x52, 0xfc, 0x14, 0x4f, 0x9f, 0x88, 0x5d, 0xd1, 0xf7, 0x6e]

/-- Keccak-256 on the encodings of the trees of twoKeyRun: the one leaf after the
first update, then the full node and its two leaves. -/
def twoKeyKeccak : List UInt8 → Meshbox.Hash :=
  digestTable [
    ([0xe4, 0x82, 0x20, 0x10, 0xa0] ++ List.replicate 32 0xaa,
      #v[0xfb, 0xce, 0x7b, 0x77, 0x98, 0x03, 0x74, 0x1c, 0x73, 0x85, 0xbd, 0x7b, 0x6e, 0x2c, 0x1d, 0x75,
        0xef, 0x0c, 0x4a, 0x4f, 0xeb, 0x89, 0x60, 0x6b, 0xac, 0xfd, 0x15, 0x48, 0xf0, 0x74, 0xc5, 0xd5]),
    ([0xf8, 0x51, 0x80, 0xa0] ++ twoKeyLeafDigestA.toList ++ [0xa0] ++ twoKeyLeafDigestB.toList ++ List.replicate 14 0x80,
      #v[0x16, 0x06, 0x05, 0x94, 0x5d, 0x9b, 0x17, 0xf1, 0x79, 0x24, 0x30, 0xa8, 0x6f, 0xf3, 0x7d, 0x1b,
        0xa6, 0x4b, 0x7d, 0x69, 0xd5, 0x11, 0xd6, 0x42, 0x73, 0x76, 0x78, 0xfc, 0xdb, 0x70, 0x77, 0xb4]),
    ([0xe2, 0x30, 0xa0] ++ List.replicate 32 0xaa, twoKeyLeafDigestA),
    ([0xe2, 0x30, 0xa0] ++ List.replicate 32 0xbb, twoKeyLeafDigestB)]

theorem twoKey_collisionless : Collisionless twoKeyKeccak (· ∈ runEncodings twoKeyKeccak [] twoKeyRun) :=
  collisionless_of_list (by decide) (by decide)

theorem twoKey_fits : ∀ enc ∈ runEncodings twoKeyKeccak [] twoKeyRun, enc.length < 2 ^ 64 := by
  decide

/-- The trie twoKeyRun leaves, from the empty trie. -/
def twoKeyTrie : Trie :=
  ((run twoKeyKeccak ⟨.nil, NewMemDatabase, zeroRoot, 0, 0⟩ twoKeyRun).map Prod.snd).getD
    ⟨.nil, NewMemDatabase, zeroRoot, 0, 0⟩

theorem twoKeyTrie_spells :
    twoKeyTrie.Spells twoKeyKeccak (· ∈ runEncodings twoKeyKeccak [] twoKeyRun) (canonOf (values [] twoKeyRun)) := by
  obtain ⟨final, ran, spells⟩ :=
    run_spec twoKey_collisionless twoKey_fits twoKeyRun start_spells (by simp) fun _ member => member
  rw [twoKeyTrie, ran]
  exact spells

theorem twoKey_find :
    (canonOf (values [] twoKeyRun)).find (keybytesToHex [0x10]) = some (List.replicate 32 0xaa) := by
  decide

theorem twoKey_nonempty : canonOf (values [] twoKeyRun) ≠ .empty := by
  intro isEmpty
  have found := twoKey_find
  rw [isEmpty] at found
  cases found

/-- The proof of [0x10] passes the full node at the root and the leaf it refers
to by hash. -/
theorem Prove_VerifyProof_TryGet_two_keys :
    ∃ root hashed proofDb' value got used, twoKeyTrie.Hash twoKeyKeccak = some (root, hashed) ∧
      hashed.Prove twoKeyKeccak 9 [0x10] 0 NewMemDatabase = some (.ok proofDb') ∧
      hashed.TryGet 9 [0x10] = some (.ok (value, got)) ∧
      VerifyProof 9 root [0x10] proofDb'.Get = some (.ok (value, used)) :=
  Prove_VerifyProof_TryGet twoKey_collisionless twoKey_fits twoKeyTrie_spells twoKey_nonempty
    (fun node member => encoding_mem_runEncodings twoKeyRun node member) [0x10] NewMemDatabase (by decide)

end Meshbox.Trie
