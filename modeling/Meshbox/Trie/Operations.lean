/-
The reads and writes of trie.go act on the tree a trie spells out as the
operations of a radix tree do. tryGet finds what the tree holds at the key;
insert leaves a node for the tree with the value put at the key, and delete one
for the tree with the key removed, in the canonical form the abstract
operations of Library/RadixUpdate keep. Each resolves the hash nodes it reaches,
which keeps the tree it stands for; a node left unchanged keeps its flags, and
a node made new is dirty, with no hash, so the cache flags stay truthful.

Every lemma here is by induction on the fuel, with one case for each kind of
node. A call on a short or a full node takes at least one symbol of the key,
and a hash node is first resolved to one of them, so twice the key's length
and two more calls are enough.
-/

import Meshbox.Trie.Resolve

namespace Meshbox.Trie

open Radix

set_option linter.dupNamespace false

/-- prefixLen is the length of the common prefix. -/
theorem prefixLen_eq_matchLen (a b : List UInt8) : prefixLen a b = matchLen a b := by
  induction a generalizing b with
  | nil => cases b <;> rfl
  | cons x xs inductionHypothesis =>
    cases b with
    | nil => rfl
    | cons y ys => simp [prefixLen, matchLen, inductionHypothesis]

/-- Every symbol of a HEX key indexes a full node's children. -/
theorem Terminated.toNat_lt {key : List UInt8} (terminated : Terminated key) {symbol : UInt8}
    (member : symbol ∈ key) : symbol.toNat < 17 := by
  obtain ⟨nibbles, small, rfl⟩ := terminated
  rcases List.mem_append.mp member with nibble | terminator
  · have := UInt8.lt_iff_toNat_lt.mp (small symbol nibble)
    simp only [UInt8.reduceToNat] at this
    omega
  · rw [List.mem_singleton.mp terminator]
    decide

/-- Every symbol of a short node's key indexes a full node's children. -/
theorem IsHex.toNat_lt {key : List UInt8} (hex : IsHex key) {symbol : UInt8} (member : symbol ∈ key) :
    symbol.toNat < 17 := by
  obtain ⟨nibbles, small, rfl | rfl⟩ := hex
  · have := UInt8.lt_iff_toNat_lt.mp (small symbol member)
    simp only [UInt8.reduceToNat] at this
    omega
  · exact Terminated.toNat_lt ⟨nibbles, small, rfl⟩ member

/-- A symbol below 17 is the index of its slot. -/
theorem ofNat_index {symbol : UInt8} (bounded : symbol.toNat < 17) :
    UInt8.ofNat (⟨symbol.toNat, bounded⟩ : Fin 17).val = symbol :=
  UInt8.ofNat_toNat

/-- The calls a node takes before the key shrinks: a hash node is resolved
first. -/
def Node.cost : Node → Nat
  | .hashNode _ => 2
  | _ => 1

theorem Node.one_le_cost (n : Node) : 1 ≤ n.cost := by
  cases n <;> simp [Node.cost]

theorem Node.cost_le_two (n : Node) : n.cost ≤ 2 := by
  cases n <;> simp [Node.cost]

/-- A decoded node is a short or a full node, read without resolving. -/
theorem cost_decoded {keccak : List UInt8 → Meshbox.Hash} {tree : HexTree} (proper : tree.Proper)
    (hash : Option (List UInt8)) (cachegen : UInt16) : (decoded keccak hash cachegen tree).cost = 1 := by
  cases tree with
  | empty => exact proper.elim
  | leaf value => rfl
  | short run child => rfl
  | full children => rfl

/-! ### Flags that only change generation -/

section Flags

variable {keccak : List UInt8 → Meshbox.Hash} {db : MemDatabase}

theorem FlagsOk.gen {flags : nodeFlag} {tree : HexTree} (ok : FlagsOk keccak db flags tree) (gen : UInt16) :
    FlagsOk keccak db { flags with gen := gen } tree :=
  ok

theorem FlagsPlaced.gen {flags : nodeFlag} {tree : HexTree} {atRoot : Bool}
    (placed : FlagsPlaced keccak atRoot tree flags) (gen : UInt16) :
    FlagsPlaced keccak atRoot tree { flags with gen := gen } :=
  placed

/-- A node made new stands below its parent wherever it is. -/
theorem FlagsOk.newFlag (t : Trie) (tree : HexTree) : FlagsOk keccak db t.newFlag tree :=
  ⟨fun _ hashed => absurd hashed (by simp [Trie.newFlag]), fun clean => absurd clean (by simp [Trie.newFlag])⟩

theorem FlagsPlaced.newFlag (t : Trie) (atRoot : Bool) (tree : HexTree) :
    FlagsPlaced keccak atRoot tree t.newFlag := by
  cases atRoot with
  | true => exact fun clean => absurd clean (by simp [Trie.newFlag])
  | false =>
    exact ⟨fun hashed => absurd hashed (by simp [Trie.newFlag]), fun clean => absurd clean (by simp [Trie.newFlag])⟩

end Flags

/-! ### Full nodes with one child replaced -/

section Children

variable {keccak : List UInt8 → Meshbox.Hash} {db : MemDatabase}

theorem ofNat_index_injective {first second : Fin 17} (same : UInt8.ofNat first.val = UInt8.ofNat second.val) :
    first = second := by
  rw [← UInt8.toNat_inj, UInt8.toNat_ofNat', UInt8.toNat_ofNat'] at same
  have firstSmall := first.isLt
  have secondSmall := second.isLt
  exact Fin.ext (by omega)

theorem ofNat_index_le (index : Fin 17) : ¬ 16 < UInt8.ofNat index.val := by
  rw [UInt8.lt_iff_toNat_lt, UInt8.toNat_ofNat']
  have := index.isLt
  simp only [UInt8.reduceToNat]
  omega

/-- The child a full node holds in the slot of a key symbol stands for, and is
placed as, the subtree of that symbol. -/
theorem child_at_symbol {children : Fin 17 → Node} {trees : UInt8 → HexTree} {symbol : UInt8}
    (childrenExpand : ∀ index : Fin 17, Expands keccak db (children index) (trees (UInt8.ofNat index.val)))
    (childrenPlaced : ∀ index : Fin 17, Placed keccak false (trees (UInt8.ofNat index.val)) (children index))
    (bounded : symbol.toNat < 17) :
    Expands keccak db (children ⟨symbol.toNat, bounded⟩) (trees symbol) ∧
      Placed keccak false (trees symbol) (children ⟨symbol.toNat, bounded⟩) := by
  have childExpands := childrenExpand ⟨symbol.toNat, bounded⟩
  have childPlaced := childrenPlaced ⟨symbol.toNat, bounded⟩
  rw [ofNat_index bounded] at childExpands childPlaced
  exact ⟨childExpands, childPlaced⟩

/-- A full node with one child replaced by a node for another tree stands for
the full node of the trees with that one replaced. -/
theorem Expands.full_update {children : Fin 17 → Node} {flags flags' : nodeFlag} {trees : UInt8 → HexTree}
    (index : Fin 17) {child : Node} {childTree : HexTree}
    (expands : Expands keccak db (.fullNode children flags) (.full trees))
    (childExpands : Expands keccak db child childTree) (childPlaced : Placed keccak false childTree child)
    (flagsOk : FlagsOk keccak db flags' (.full (Function.update trees (UInt8.ofNat index.val) childTree))) :
    Expands keccak db (.fullNode (Function.update children index child) flags')
      (.full (Function.update trees (UInt8.ofNat index.val) childTree)) := by
  cases expands with
  | fullNode childrenExpand childrenPlaced beyond _ =>
    refine .fullNode (fun other => ?_) (fun other => ?_) (fun symbol large => ?_) flagsOk
    · by_cases same : other = index
      · subst same
        simpa using childExpands
      · rw [Function.update_of_ne same, Function.update_of_ne fun ofNatSame => same (ofNat_index_injective ofNatSame)]
        exact childrenExpand other
    · by_cases same : other = index
      · subst same
        simpa using childPlaced
      · rw [Function.update_of_ne same, Function.update_of_ne fun ofNatSame => same (ofNat_index_injective ofNatSame)]
        exact childrenPlaced other
    · have notIndex : symbol ≠ UInt8.ofNat index.val := by
        rintro rfl
        exact ofNat_index_le index large
      rw [Function.update_of_ne notIndex]
      exact beyond symbol large

/-- A full node's children past the terminator are empty, so a child that is
not has a slot. -/
theorem toNat_lt_of_ne_empty {trees : UInt8 → HexTree} (beyond : ∀ symbol : UInt8, 16 < symbol → trees symbol = .empty)
    {symbol : UInt8} (nonempty : trees symbol ≠ .empty) : symbol.toNat < 17 := by
  have small : ¬ 16 < symbol := fun large => nonempty (beyond symbol large)
  rw [UInt8.lt_iff_toNat_lt] at small
  simp only [UInt8.reduceToNat] at small
  omega

/-- A full node of one child per given symbol stands for the full node of their
trees: the node a split makes. -/
theorem expands_branch {runSymbol keySymbol : UInt8} (runBounded : runSymbol.toNat < 17)
    (keyBounded : keySymbol.toNat < 17) {runChild keyChild : Node} {runTree keyTree : HexTree}
    (runExpands : Expands keccak db runChild runTree) (runPlaced : Placed keccak false runTree runChild)
    (keyExpands : Expands keccak db keyChild keyTree) (keyPlaced : Placed keccak false keyTree keyChild)
    {flags : nodeFlag}
    (flagsOk : FlagsOk keccak db flags
      (.full (Function.update (Function.update (fun _ => .empty) runSymbol runTree) keySymbol keyTree))) :
    Expands keccak db (.fullNode (Function.update (Function.update (fun _ => .nil) ⟨runSymbol.toNat, runBounded⟩
        runChild) ⟨keySymbol.toNat, keyBounded⟩ keyChild) flags)
      (.full (Function.update (Function.update (fun _ => .empty) runSymbol runTree) keySymbol keyTree)) := by
  -- a dirty full node with no children yet, its children then put in one by one
  let building : nodeFlag := { hash := none, gen := 0, dirty := true }
  have buildingOk : ∀ tree, FlagsOk keccak db building tree :=
    fun _ => ⟨fun _ hashed => absurd hashed (by simp [building]), fun clean => absurd clean (by simp [building])⟩
  have empty : Expands keccak db (.fullNode (fun _ => .nil) building) (.full fun _ => .empty) :=
    .fullNode (fun _ => .nil) (fun _ => trivial) (fun _ _ => rfl) (buildingOk _)
  have withRun := Expands.full_update ⟨runSymbol.toNat, runBounded⟩ empty runExpands runPlaced (buildingOk _)
  rw [ofNat_index runBounded] at withRun
  have withKey := Expands.full_update ⟨keySymbol.toNat, keyBounded⟩ withRun keyExpands keyPlaced
    (show FlagsOk keccak db flags _ by rwa [ofNat_index keyBounded])
  rwa [ofNat_index keyBounded] at withKey

end Children

/-! ### The child a delete leaves in a full node -/

section Remaining

variable (children : Fin 17 → Node)

/-- One turn of the loop of remainingChild. -/
def remainingStep (pos : Int) (index : Fin 17) : Int :=
  match children index with
  | .nil => pos
  | _ => if pos = -1 then index.val else -2

/-- Whether a slot holds a child. -/
def occupied (index : Fin 17) : Bool :=
  match children index with
  | .nil => false
  | _ => true

theorem remainingChild_eq : remainingChild children = (List.finRange 17).foldl (remainingStep children) (-1) :=
  rfl

theorem remainingStep_of_occupied {pos : Int} {index : Fin 17} (holds : occupied children index = true) :
    remainingStep children pos index = if pos = -1 then (index.val : Int) else -2 := by
  unfold remainingStep
  unfold occupied at holds
  split
  · rename_i empty
    rw [empty] at holds
    cases holds
  · rfl

theorem remainingStep_of_empty {pos : Int} {index : Fin 17} (empty : occupied children index = false) :
    remainingStep children pos index = pos := by
  unfold remainingStep
  unfold occupied at empty
  split
  · rfl
  · rename_i notNil
    split at empty
    · exact absurd ‹_› notNil
    · cases empty

/-- Once two children are seen, the loop says so to the end. -/
theorem foldl_remainingStep_two (indices : List (Fin 17)) : indices.foldl (remainingStep children) (-2) = -2 := by
  induction indices with
  | nil => rfl
  | cons index rest inductionHypothesis =>
    rw [List.foldl_cons]
    cases holds : occupied children index
    · rw [remainingStep_of_empty children holds, inductionHypothesis]
    · rw [remainingStep_of_occupied children holds, if_neg (by decide), inductionHypothesis]

/-- Once one child is seen, the loop keeps its index unless another comes. -/
theorem foldl_remainingStep_index (first : Nat) (indices : List (Fin 17)) :
    indices.foldl (remainingStep children) (first : Int) =
      if indices.filter (occupied children) = [] then (first : Int) else -2 := by
  induction indices with
  | nil => rfl
  | cons index rest inductionHypothesis =>
    rw [List.foldl_cons]
    cases holds : occupied children index
    · rw [remainingStep_of_empty children holds, inductionHypothesis, List.filter_cons_of_neg (by simp [holds])]
    · rw [remainingStep_of_occupied children holds, if_neg (by omega), foldl_remainingStep_two,
        List.filter_cons_of_pos holds, if_neg (List.cons_ne_nil _ _)]

/-- The loop gives -1 for no child, the index of the only child, and -2 for two
or more. -/
theorem foldl_remainingStep (indices : List (Fin 17)) :
    indices.foldl (remainingStep children) (-1) =
      match indices.filter (occupied children) with
      | [] => (-1 : Int)
      | [index] => (index.val : Int)
      | _ => -2 := by
  induction indices with
  | nil => rfl
  | cons index rest inductionHypothesis =>
    rw [List.foldl_cons]
    cases holds : occupied children index
    · rw [remainingStep_of_empty children holds, inductionHypothesis, List.filter_cons_of_neg (by simp [holds])]
    · rw [remainingStep_of_occupied children holds, if_pos rfl, foldl_remainingStep_index,
        List.filter_cons_of_pos holds]
      split
      · rename_i none
        rw [none]
      · rename_i some
        cases later : rest.filter (occupied children) with
        | nil => exact absurd later some
        | cons other others => rfl

theorem filter_finRange_eq_singleton : ∀ only : Fin 17, (List.finRange 17).filter (fun index => decide (index = only)) = [only] := by
  decide

/-- The only child's index. -/
theorem remainingChild_single {only : Fin 17} (holds : occupied children only = true)
    (others : ∀ other, other ≠ only → occupied children other = false) : remainingChild children = only.val := by
  have justOne : (List.finRange 17).filter (occupied children) = [only] := by
    rw [← filter_finRange_eq_singleton only]
    refine List.filter_congr fun index _ => ?_
    by_cases same : index = only
    · subst same
      simp [holds]
    · simp [others index same, same]
  rw [remainingChild_eq, foldl_remainingStep, justOne]

/-- Two children left: -2. -/
theorem remainingChild_two {first second : Fin 17} (distinct : first ≠ second) (firstHolds : occupied children first = true)
    (secondHolds : occupied children second = true) : remainingChild children = -2 := by
  have firstIn : first ∈ (List.finRange 17).filter (occupied children) :=
    List.mem_filter.mpr ⟨List.mem_finRange _, firstHolds⟩
  have secondIn : second ∈ (List.finRange 17).filter (occupied children) :=
    List.mem_filter.mpr ⟨List.mem_finRange _, secondHolds⟩
  rw [remainingChild_eq, foldl_remainingStep]
  split
  · rename_i none
    rw [none] at firstIn
    cases firstIn
  · rename_i index single
    rw [single, List.mem_singleton] at firstIn secondIn
    exact absurd (firstIn.trans secondIn.symm) distinct
  · rfl

/-- A slot holds a child exactly when the child's tree is not empty. -/
theorem occupied_iff {keccak : List UInt8 → Meshbox.Hash} {db : MemDatabase} {index : Fin 17} {tree : HexTree}
    (expands : Expands keccak db (children index) tree) : occupied children index = true ↔ tree ≠ .empty := by
  unfold occupied
  generalize children index = child at expands
  cases expands with
  | nil => simp
  | hashNode nonempty => simp [nonempty]
  | valueNode | shortNode | fullNode => simp

end Remaining

/-! ### Reading -/

section Operations

variable {keccak : List UInt8 → Meshbox.Hash} {encodings : List UInt8 → Prop} {t : Trie}
  (sound : Sound keccak encodings t.db) (fits : ∀ enc, encodings enc → enc.length < 2 ^ 64)

/-- The key's test at a short node is whether its key starts the rest. -/
theorem mismatch_iff {key run : List UInt8} {pos : Nat} :
    (key.length - pos < run.length ∨ run ≠ (key.drop pos).take run.length) ↔ ¬ run <+: key.drop pos := by
  rw [List.prefix_iff_eq_take]
  constructor
  · rintro (short | different) starts
    · have lengths := congrArg List.length starts
      simp only [List.length_take, List.length_drop] at lengths
      omega
    · exact different starts
  · intro notStarting
    exact .inr notStarting

include sound fits in
/-- tryGet finds what the tree holds at the rest of the key, and leaves a node
for the same tree, with the hash nodes it resolved put in place. -/
theorem Trie.tryGet_spec {key : List UInt8} (terminated : Terminated key) (fuel : Nat) :
    ∀ {n : Node} {tree : HexTree} {pos : Nat} {atRoot : Bool},
      Expands keccak t.db n tree → Placed keccak atRoot tree n → tree.Canonical → HexShaped tree →
      tree.Compatible (key.drop pos) → 2 * (key.length - pos) + n.cost ≤ fuel →
      ∃ n' resolved, t.tryGet fuel n key pos = some (.ok (tree.find (key.drop pos), n', resolved)) ∧
        Expands keccak t.db n' tree ∧ Placed keccak atRoot tree n' := by
  induction fuel with
  | zero =>
    intro n _ _ _ _ _ _ _ _ enough
    have := n.one_le_cost
    omega
  | succ fuel inductionHypothesis =>
    intro n tree pos atRoot expands placed canonical shaped compatible enough
    cases expands with
    | nil => exact ⟨.nil, false, rfl, .nil, placed⟩
    | valueNode value =>
      have ended := compatible.eq_nil_of_leaf
      refine ⟨.valueNode value, false, ?_, .valueNode value, placed⟩
      rw [ended]
      rfl
    | @shortNode run child flags childTree childExpands childPlaced flagsOk =>
      have proper : (Tree.short run childTree).Proper := canonical.resolve_left (by simp)
      by_cases starts : run <+: key.drop pos
      · -- the key runs through the short node's key: read on below it
        obtain ⟨rest, split⟩ := starts
        have restEq : key.drop (pos + run.length) = rest := by
          rw [← List.drop_drop, ← split, List.drop_left]
        have lengths := congrArg List.length split
        simp only [List.length_append, List.length_drop] at lengths
        have nonempty := List.length_pos_iff.mpr proper.1
        rw [← split] at compatible
        obtain ⟨child', resolved, read, childExpands', childPlaced'⟩ :=
          inductionHypothesis childExpands childPlaced (.inr proper.2.2) shaped.short
            (by rw [restEq]; exact compatible.short)
            (by have := child.cost_le_two; simp only [Node.cost] at enough; omega)
        refine ⟨if resolved then .shortNode run child' { flags with gen := t.cachegen } else .shortNode run child flags,
          resolved, ?_, ?_, ?_⟩
        · rw [Trie.tryGet, if_neg (mismatch_iff.not_left.mpr ⟨rest, split⟩), read, ← split, restEq]
          simp
        · cases resolved
          · exact .shortNode childExpands childPlaced flagsOk
          · exact .shortNode childExpands' childPlaced' (flagsOk.gen _)
        · cases resolved
          · exact placed
          · exact FlagsPlaced.gen placed _
      · -- the key leaves the short node's key: not found
        refine ⟨.shortNode run child flags, false, ?_, .shortNode childExpands childPlaced flagsOk, placed⟩
        rw [Trie.tryGet, if_pos (mismatch_iff.mpr starts), Tree.find_short, if_neg starts]
    | @fullNode children flags trees childrenExpand childrenPlaced beyond flagsOk =>
      have proper : (Tree.full trees).Proper := canonical.resolve_left (by simp)
      obtain ⟨symbol, rest, split⟩ := List.exists_cons_of_ne_nil (compatible.ne_nil_of_full proper)
      have at_ : key[pos]? = some symbol := by
        rw [← List.head?_drop, split]
        rfl
      have restEq : key.drop (pos + 1) = rest := by
        rw [← List.drop_drop, split]
        rfl
      have inKey : pos < key.length := (List.getElem?_eq_some_iff.mp at_).1
      have bounded := terminated.toNat_lt (List.mem_of_getElem? at_)
      obtain ⟨childExpands, childPlaced⟩ := child_at_symbol childrenExpand childrenPlaced bounded
      rw [split] at compatible
      obtain ⟨child', resolved, read, childExpands', childPlaced'⟩ :=
        inductionHypothesis childExpands childPlaced (proper.1 symbol) (shaped.full symbol)
          (by rw [restEq]; exact compatible.full)
          (by have := Node.cost_le_two (children ⟨symbol.toNat, bounded⟩); simp only [Node.cost] at enough; omega)
      have sameTrees : Function.update trees (UInt8.ofNat (⟨symbol.toNat, bounded⟩ : Fin 17).val) (trees symbol) = trees := by
        rw [ofNat_index bounded, Function.update_eq_self]
      refine ⟨if resolved then .fullNode (Function.update children ⟨symbol.toNat, bounded⟩ child')
          { flags with gen := t.cachegen } else .fullNode children flags, resolved, ?_, ?_, ?_⟩
      · rw [Trie.tryGet, at_]
        simp only [dif_pos bounded]
        rw [read, split, restEq]
        simp
      · cases resolved
        · exact .fullNode childrenExpand childrenPlaced beyond flagsOk
        · have updated := Expands.full_update ⟨symbol.toNat, bounded⟩
            (.fullNode childrenExpand childrenPlaced beyond flagsOk) childExpands' childPlaced'
            (by rw [sameTrees]; exact flagsOk.gen t.cachegen)
          rwa [sameTrees] at updated
      · cases resolved
        · exact placed
        · exact FlagsPlaced.gen placed _
    | hashNode nonempty notLeaf stored =>
      -- the hash node is resolved, and the key read from the node decoded
      obtain ⟨resolvedEq, resolvedExpands, proper, -⟩ :=
        t.resolveHash_of_expands sound fits (.hashNode nonempty notLeaf stored) canonical shaped (key.take pos)
      have placedResolved := placed_decoded_some t.cachegen proper notLeaf placed
      obtain ⟨n', resolved, read, expands', placed'⟩ :=
        inductionHypothesis resolvedExpands placedResolved canonical shaped compatible
          (by rw [cost_decoded proper]; simp only [Node.cost] at enough; omega)
      refine ⟨n', true, ?_, expands', placed'⟩
      rw [Trie.tryGet, resolvedEq]
      simp only
      rw [read]
      rfl

end Operations

/-! ### Writing -/

section Writing

variable {keccak : List UInt8 → Meshbox.Hash} {encodings : List UInt8 → Prop} {t : Trie}

/-- insert into nothing: the value itself at the end of the key, a new short
node of the key over it otherwise. -/
theorem Trie.insert_nil (fuel : Nat) (pfx key : List UInt8) (value : Node) :
    t.insert (fuel + 1) .nil pfx key value =
      some (.ok (true, if key.length = 0 then value else .shortNode key value t.newFlag)) := by
  rw [Trie.insert]
  by_cases empty : key.length = 0
  · rw [if_pos empty, if_pos empty]
  · rw [if_neg empty, if_neg empty]

/-- The node insert gives for a node hung below a run. -/
theorem expands_extend {node : Node} {tree : HexTree} (expands : Expands keccak t.db node tree)
    (placed : Placed keccak false tree node) (run : List UInt8) :
    Expands keccak t.db (if run.length = 0 then node else .shortNode run node t.newFlag) (Tree.extend run tree) ∧
      Placed keccak false (Tree.extend run tree) (if run.length = 0 then node else .shortNode run node t.newFlag) := by
  unfold Tree.extend
  by_cases empty : run = []
  · subst empty
    exact ⟨expands, placed⟩
  · rw [if_neg (by simpa using empty), if_neg empty]
    exact ⟨.shortNode expands placed (FlagsOk.newFlag t _), FlagsPlaced.newFlag t false _⟩

/-- insert at a short node whose key the key leaves before its end: the short
node is split into a full node with two children where the keys part, below a
new short node for what they share. -/
theorem Trie.insert_split (fuel : Nat) {run key pfx : List UInt8} {child : Node} {flags : nodeFlag}
    {childTree : HexTree} (childExpands : Expands keccak t.db child childTree)
    (childPlaced : Placed keccak false childTree child) (proper : (Tree.short run childTree).Proper)
    (shaped : HexShaped (Tree.short run childTree)) (compatible : (Tree.short run childTree).Compatible key)
    (terminated : Terminated key) (parted : matchLen key run ≠ run.length) (value : List UInt8) :
    ∃ n', t.insert (fuel + 2) (.shortNode run child flags) pfx key (.valueNode value) = some (.ok (true, n')) ∧
      Expands keccak t.db n' ((Tree.short run childTree).insert key value) ∧
      ∀ atRoot, Placed keccak atRoot ((Tree.short run childTree).insert key value) n' := by
  obtain ⟨runSymbol, keySymbol, runAt, keyAt⟩ := compatible.symbols_of_parted proper parted
  have runBounded := (isHex_run proper shaped).1.toNat_lt (List.mem_of_getElem? runAt)
  have keyBounded := terminated.toNat_lt (List.mem_of_getElem? keyAt)
  obtain ⟨symbol, rest, rfl⟩ := List.exists_cons_of_ne_nil (List.ne_nil_of_mem (List.mem_of_getElem? keyAt))
  -- the old child below what is left of its key, the value below what is left of the key
  obtain ⟨runExpands, runPlaced⟩ := expands_extend childExpands childPlaced (run.drop (matchLen (symbol :: rest) run + 1))
  obtain ⟨keyExpands, keyPlaced⟩ :=
    expands_extend (.valueNode value : Expands keccak t.db _ (.leaf value)) trivial
      ((symbol :: rest).drop (matchLen (symbol :: rest) run + 1))
  have branch := expands_branch runBounded keyBounded runExpands runPlaced keyExpands keyPlaced
    (FlagsOk.newFlag t _)
  rw [Trie.insert, if_neg (by simp)]
  simp only [prefixLen_eq_matchLen, if_neg parted, runAt, keyAt, dif_pos runBounded, dif_pos keyBounded,
    Trie.insert_nil, Option.bind_some, Option.map_some]
  simp only [Tree.insert, if_neg parted, runAt, keyAt]
  by_cases shared : matchLen (symbol :: rest) run = 0
  · simp only [if_pos shared]
    exact ⟨_, rfl, branch, fun atRoot => FlagsPlaced.newFlag t atRoot _⟩
  · simp only [if_neg shared]
    exact ⟨_, rfl, .shortNode branch (FlagsPlaced.newFlag t false _) (FlagsOk.newFlag t _),
      fun atRoot => FlagsPlaced.newFlag t atRoot _⟩

variable (sound : Sound keccak encodings t.db) (fits : ∀ enc, encodings enc → enc.length < 2 ^ 64)

include sound fits in
/-- insert leaves a node for the tree with the value put at the key. When it
reports no change, the tree held the value at the key already. -/
theorem Trie.insert_spec (value : List UInt8) (fuel : Nat) :
    ∀ {n : Node} {tree : HexTree} {pfx key : List UInt8} {atRoot : Bool},
      Expands keccak t.db n tree → Placed keccak atRoot tree n → tree.Canonical → HexShaped tree →
      tree.Compatible key → (key = [] ∨ Terminated key) → 2 * key.length + n.cost ≤ fuel →
      ∃ dirty n', t.insert fuel n pfx key (.valueNode value) = some (.ok (dirty, n')) ∧
        Expands keccak t.db n' (tree.insert key value) ∧ Placed keccak atRoot (tree.insert key value) n' ∧
        (dirty = false → tree.find key = some value) := by
  induction fuel with
  | zero =>
    intro n _ _ _ _ _ _ _ _ _ _ enough
    have := n.one_le_cost
    omega
  | succ fuel inductionHypothesis =>
    intro n tree pfx key atRoot expands placed canonical shaped compatible shape enough
    cases key with
    | nil =>
      -- the value takes the place of the empty tree or of the value there
      rw [Tree.insert_nil]
      rcases compatible.nil_cases canonical with rfl | leaf
      · cases expands with
        | nil => exact ⟨true, .valueNode value, by simp [Trie.insert], .valueNode value, trivial, (by simp)⟩
        | hashNode nonempty => exact absurd rfl nonempty
      · cases expands with
        | valueNode old =>
          refine ⟨decide (old ≠ value), .valueNode value, by simp [Trie.insert], .valueNode value, trivial, ?_⟩
          intro unchanged
          rw [decide_eq_false_iff_not, not_not] at unchanged
          rw [unchanged]
          rfl
        | hashNode _ notLeaf => rw [leaf] at notLeaf; cases notLeaf
        | nil => cases leaf
        | shortNode => cases leaf
        | fullNode => cases leaf
    | cons symbol rest =>
      have terminated : Terminated (symbol :: rest) := shape.resolve_left (List.cons_ne_nil _ _)
      cases expands with
      | nil =>
        refine ⟨true, .shortNode (symbol :: rest) (.valueNode value) t.newFlag, by rw [Trie.insert, if_neg (by simp)],
          .shortNode (.valueNode value) trivial (FlagsOk.newFlag t _), FlagsPlaced.newFlag t atRoot _, (by simp)⟩
      | valueNode old => exact absurd compatible.eq_nil_of_leaf (List.cons_ne_nil _ _)
      | @shortNode run child flags childTree childExpands childPlaced flagsOk =>
        have proper : (Tree.short run childTree).Proper := canonical.resolve_left (by simp)
        by_cases whole : matchLen (symbol :: rest) run = run.length
        · -- the key runs through the short node's key: insert below it
          obtain ⟨below, keyEq⟩ := matchLen_eq_length_iff.mp whole
          rw [← keyEq] at compatible terminated enough
          have belowShape := terminated.right_or_nil
          have nonempty := List.length_pos_iff.mpr proper.1
          obtain ⟨dirty, child', inserted, childExpands', childPlaced', unchanged⟩ :=
            inductionHypothesis childExpands childPlaced (.inr proper.2.2) shaped.short compatible.short belowShape
              (by have := child.cost_le_two; simp only [Node.cost, List.length_append] at enough; omega)
          have treeEq : (Tree.short run childTree).insert (symbol :: rest) value =
              .short run (childTree.insert below value) := by
            simp only [Tree.insert, if_pos whole]
            rw [whole, ← keyEq, List.drop_left]
          have codeEq : t.insert (fuel + 1) (.shortNode run child flags) pfx (symbol :: rest) (.valueNode value) =
              (t.insert fuel child (pfx ++ (run ++ below).take run.length) below (.valueNode value)).map fun result =>
                result >>= fun step =>
                  if !step.1 then .ok (false, .shortNode run child flags) else .ok (true, .shortNode run step.2 t.newFlag) := by
            rw [Trie.insert, if_neg (by simp)]
            simp only [prefixLen_eq_matchLen, if_pos whole]
            rw [whole, ← keyEq, List.drop_left]
          rw [treeEq, codeEq, inserted]
          cases dirty
          · -- nothing changed below, nor here
            have found := unchanged rfl
            rw [Tree.insert_of_find (.inr proper.2.2) compatible.short found]
            exact ⟨false, _, rfl, .shortNode childExpands childPlaced flagsOk, placed,
              fun _ => by rw [← keyEq, Tree.find_short_append, found]⟩
          · exact ⟨true, _, rfl, .shortNode childExpands' childPlaced' (FlagsOk.newFlag t _),
              FlagsPlaced.newFlag t atRoot _, (by simp)⟩
        · -- the key leaves the short node's key: split it
          obtain ⟨fuel, rfl⟩ : ∃ smaller, fuel = smaller + 1 :=
            Nat.exists_eq_add_one.mpr (by simp only [List.length_cons] at enough; omega)
          obtain ⟨n', split, expands', placed'⟩ :=
            t.insert_split fuel childExpands childPlaced proper shaped compatible terminated whole value
          exact ⟨true, n', split, expands', placed' atRoot, (by simp)⟩
      | @fullNode children flags trees childrenExpand childrenPlaced beyond flagsOk =>
        have proper : (Tree.full trees).Proper := canonical.resolve_left (by simp)
        have bounded := terminated.toNat_lt List.mem_cons_self
        obtain ⟨childExpands, childPlaced⟩ := child_at_symbol childrenExpand childrenPlaced bounded
        have restShape := (show Terminated ([symbol] ++ rest) from terminated).right_or_nil
        obtain ⟨dirty, child', inserted, childExpands', childPlaced', unchanged⟩ :=
          inductionHypothesis childExpands childPlaced (proper.1 symbol) (shaped.full symbol) compatible.full restShape
            (by have := Node.cost_le_two (children ⟨symbol.toNat, bounded⟩); simp only [Node.cost, List.length_cons] at enough; omega)
        have codeEq : t.insert (fuel + 1) (.fullNode children flags) pfx (symbol :: rest) (.valueNode value) =
            (t.insert fuel (children ⟨symbol.toNat, bounded⟩) (pfx ++ [symbol]) rest (.valueNode value)).map fun result =>
              result >>= fun step =>
                if !step.1 then .ok (false, .fullNode children flags)
                else .ok (true, .fullNode (Function.update children ⟨symbol.toNat, bounded⟩ step.2) t.newFlag) := by
          rw [Trie.insert, if_neg (by simp)]
          simp only [dif_pos bounded]
        rw [codeEq, inserted]
        cases dirty
        · -- nothing changed below, nor here
          have found := unchanged rfl
          have same : (Tree.full trees).insert (symbol :: rest) value = .full trees := by
            show Tree.full (Function.update trees symbol ((trees symbol).insert rest value)) = _
            rw [Tree.insert_of_find (proper.1 symbol) compatible.full found, Function.update_eq_self]
          rw [same]
          exact ⟨false, _, rfl, .fullNode childrenExpand childrenPlaced beyond flagsOk, placed, fun _ => found⟩
        · have updated := Expands.full_update ⟨symbol.toNat, bounded⟩
            (.fullNode childrenExpand childrenPlaced beyond flagsOk) childExpands' childPlaced' (FlagsOk.newFlag t _)
          rw [ofNat_index bounded] at updated
          exact ⟨true, _, rfl, updated, FlagsPlaced.newFlag t atRoot _, (by simp)⟩
      | hashNode nonempty notLeaf stored =>
        -- the hash node is resolved, and the value inserted into the node decoded
        obtain ⟨resolvedEq, resolvedExpands, proper, -⟩ :=
          t.resolveHash_of_expands sound fits (.hashNode nonempty notLeaf stored) canonical shaped pfx
        have placedResolved := placed_decoded_some t.cachegen proper notLeaf placed
        obtain ⟨dirty, n', inserted, expands', placed', unchanged⟩ :=
          inductionHypothesis resolvedExpands placedResolved canonical shaped compatible shape
            (by rw [cost_decoded proper]; simp only [Node.cost] at enough; omega)
        have codeEq : t.insert (fuel + 1) (.hashNode (hashOf keccak tree)) pfx (symbol :: rest) (.valueNode value) =
            (t.insert fuel (decoded keccak (some (hashOf keccak tree)) t.cachegen tree) pfx (symbol :: rest)
              (.valueNode value)).map fun result =>
                result >>= fun step =>
                  if !step.1 then .ok (false, decoded keccak (some (hashOf keccak tree)) t.cachegen tree)
                  else .ok (true, step.2) := by
          rw [Trie.insert, if_neg (by simp), resolvedEq]
        rw [codeEq, inserted]
        cases dirty
        · have found := unchanged rfl
          rw [Tree.insert_of_find canonical compatible found]
          exact ⟨false, _, rfl, resolvedExpands, placedResolved, fun _ => found⟩
        · exact ⟨true, n', rfl, expands', placed', (by simp)⟩

include sound fits in
/-- resolve gives a node for the same tree that is not a hash node. -/
theorem Trie.resolve_of_expands {n : Node} {tree : HexTree} (expands : Expands keccak t.db n tree)
    (canonical : tree.Canonical) (shaped : HexShaped tree) (pfx : List UInt8) :
    ∃ resolved, t.resolve n pfx = .ok resolved ∧ Expands keccak t.db resolved tree ∧
      ∀ hash, resolved ≠ .hashNode hash := by
  cases expands with
  | nil => exact ⟨_, rfl, .nil, (by simp)⟩
  | valueNode value => exact ⟨_, rfl, .valueNode value, (by simp)⟩
  | shortNode childExpands childPlaced flagsOk => exact ⟨_, rfl, .shortNode childExpands childPlaced flagsOk, (by simp)⟩
  | fullNode childrenExpand childrenPlaced beyond flagsOk =>
    exact ⟨_, rfl, .fullNode childrenExpand childrenPlaced beyond flagsOk, (by simp)⟩
  | hashNode nonempty notLeaf stored =>
    obtain ⟨resolvedEq, resolvedExpands, -, -⟩ :=
      t.resolveHash_of_expands sound fits (.hashNode nonempty notLeaf stored) canonical shaped pfx
    refine ⟨_, resolvedEq, resolvedExpands, ?_⟩
    cases tree <;> simp [decoded]

include sound fits in
/-- The end of delete at a full node: the node of the reduced tree, a short
node over the only child left, or the full node of the children when two are. -/
theorem Trie.deleteReduce_spec {children : Fin 17 → Node} {trees : UInt8 → HexTree} (pfx : List UInt8)
    (childrenExpand : ∀ index : Fin 17, Expands keccak t.db (children index) (trees (UInt8.ofNat index.val)))
    (childrenPlaced : ∀ index : Fin 17, Placed keccak false (trees (UInt8.ofNat index.val)) (children index))
    (beyond : ∀ symbol : UInt8, 16 < symbol → trees symbol = .empty)
    (canonical : ∀ symbol, (trees symbol).Canonical) (shaped : HexShaped (.full trees))
    (left : ∃ symbol, trees symbol ≠ .empty) :
    ∃ n', t.deleteReduce children pfx = .ok (true, n') ∧ Expands keccak t.db n' (Tree.reduce trees) ∧
      (∀ atRoot, Placed keccak atRoot (Tree.reduce trees) n') ∧ ∀ hash, n' ≠ .hashNode hash := by
  have occupiedAt : ∀ {symbol : UInt8} (bounded : symbol.toNat < 17),
      occupied children ⟨symbol.toNat, bounded⟩ = true ↔ trees symbol ≠ .empty := by
    intro symbol bounded
    have expands := childrenExpand ⟨symbol.toNat, bounded⟩
    rw [ofNat_index bounded] at expands
    exact occupied_iff children expands
  by_cases two : ∃ first second, first ≠ second ∧ trees first ≠ .empty ∧ trees second ≠ .empty
  · -- two children are left: the full node stays
    obtain ⟨first, second, distinct, firstNonempty, secondNonempty⟩ := two
    have firstBounded := toNat_lt_of_ne_empty beyond firstNonempty
    have secondBounded := toNat_lt_of_ne_empty beyond secondNonempty
    have pos : remainingChild children = -2 :=
      remainingChild_two children (fun same => distinct (UInt8.toNat_inj.mp (Fin.mk.inj_iff.mp same)))
        ((occupiedAt firstBounded).mpr firstNonempty) ((occupiedAt secondBounded).mpr secondNonempty)
    rw [Tree.reduce_of_two distinct firstNonempty secondNonempty]
    refine ⟨.fullNode children t.newFlag, ?_, .fullNode childrenExpand childrenPlaced beyond (FlagsOk.newFlag t _),
      fun atRoot => FlagsPlaced.newFlag t atRoot _, (by simp)⟩
    simp only [Trie.deleteReduce, pos]
    rfl
  · -- one child is left: the full node becomes a short node over it
    obtain ⟨only, onlyNonempty⟩ := left
    have others : ∀ other, other ≠ only → trees other = .empty := fun other different =>
      Classical.byContradiction fun nonempty => two ⟨other, only, different, nonempty, onlyNonempty⟩
    have bounded := toNat_lt_of_ne_empty beyond onlyNonempty
    have pos : remainingChild children = only.toNat := by
      refine remainingChild_single children ((occupiedAt bounded).mpr onlyNonempty) fun other different => ?_
      have otherExpands := childrenExpand other
      rw [Bool.eq_false_iff, ne_eq, occupied_iff children otherExpands, not_not]
      refine others _ fun same => different (Fin.ext ?_)
      show other.val = only.toNat
      rw [← same, UInt8.toNat_ofNat']
      have := other.isLt
      omega
    rw [Tree.reduce_of_single onlyNonempty others]
    have childExpands := childrenExpand ⟨only.toNat, bounded⟩
    have childPlaced := childrenPlaced ⟨only.toNat, bounded⟩
    rw [ofNat_index bounded] at childExpands childPlaced
    simp only [Trie.deleteReduce, pos, Int.toNat_natCast, Int.natCast_nonneg, bounded, UInt8.ofNat_toNat,
      if_true, dite_true]
    by_cases sixteen : only = 16
    · subst sixteen
      -- the terminator's child is a value, hung below a short node of the terminator
      obtain ⟨value, leaf⟩ : ∃ value, trees 16 = .leaf value := by
        rcases shaped.full_value_slot (canonical 16) with empty | isLeaf
        · exact absurd empty onlyNonempty
        · cases holds : trees 16 with
          | leaf value => exact ⟨value, rfl⟩
          | _ => rw [holds] at isLeaf; cases isLeaf
      rw [if_neg (by decide)]
      rw [leaf] at childExpands childPlaced ⊢
      exact ⟨_, rfl, .shortNode childExpands childPlaced (FlagsOk.newFlag t _), fun atRoot => FlagsPlaced.newFlag t atRoot _,
        (by simp)⟩
    · have notSixteen : (only.toNat : Int) ≠ 16 := by
        intro same
        exact sixteen (UInt8.toNat_inj.mp (by simp only [UInt8.reduceToNat]; omega))
      rw [if_pos notSixteen]
      obtain ⟨resolved, resolvedEq, resolvedExpands, notHash⟩ :=
        t.resolve_of_expands sound fits childExpands (canonical only) (shaped.full only) pfx
      rw [resolvedEq, Outcome.ok_bind]
      generalize trees only = childTree at onlyNonempty childExpands childPlaced resolvedExpands ⊢
      -- a short child is merged into the new short node, any other hung below it
      cases resolvedExpands with
      | nil => exact absurd rfl onlyNonempty
      | valueNode value =>
        exact ⟨_, rfl, .shortNode childExpands childPlaced (FlagsOk.newFlag t _), fun atRoot => FlagsPlaced.newFlag t atRoot _,
        (by simp)⟩
      | shortNode grandchildExpands grandchildPlaced =>
        exact ⟨_, rfl, .shortNode grandchildExpands grandchildPlaced (FlagsOk.newFlag t _),
          fun atRoot => FlagsPlaced.newFlag t atRoot _, (by simp)⟩
      | fullNode =>
        exact ⟨_, rfl, .shortNode childExpands childPlaced (FlagsOk.newFlag t _), fun atRoot => FlagsPlaced.newFlag t atRoot _,
        (by simp)⟩
      | hashNode => exact absurd rfl (notHash _)

include sound fits in
/-- delete leaves a node for the tree with the key removed. When it reports no
change, the tree did not hold the key; a node it reports changed is not a hash
node, so that its parent sees whether it is short. -/
theorem Trie.delete_spec (fuel : Nat) :
    ∀ {n : Node} {tree : HexTree} {pfx key : List UInt8} {atRoot : Bool},
      Expands keccak t.db n tree → Placed keccak atRoot tree n → tree.Canonical → HexShaped tree →
      tree.Compatible key → (key = [] ∨ Terminated key) → 2 * key.length + n.cost ≤ fuel →
      ∃ dirty n', t.delete fuel n pfx key = some (.ok (dirty, n')) ∧
        Expands keccak t.db n' (tree.delete key) ∧ Placed keccak atRoot (tree.delete key) n' ∧
        (dirty = false → tree.find key = none) ∧ (dirty = true → ∀ hash, n' ≠ .hashNode hash) := by
  induction fuel with
  | zero =>
    intro n _ _ _ _ _ _ _ _ _ _ enough
    have := n.one_le_cost
    omega
  | succ fuel inductionHypothesis =>
    intro n tree pfx key atRoot expands placed canonical shaped compatible shape enough
    cases expands with
    | nil => exact ⟨false, .nil, rfl, .nil, trivial, fun _ => rfl, (by simp)⟩
    | valueNode value => exact ⟨true, .nil, rfl, .nil, trivial, (by simp), (by simp)⟩
    | @shortNode run child flags childTree childExpands childPlaced flagsOk =>
      have proper : (Tree.short run childTree).Proper := canonical.resolve_left (by simp)
      by_cases whole : matchLen key run = run.length
      · obtain ⟨below, rfl⟩ := matchLen_eq_length_iff.mp whole
        by_cases ends : below = []
        · -- the key is the short node's key: the node goes
          subst ends
          rw [List.append_nil] at whole ⊢
          have codeEq : t.delete (fuel + 1) (.shortNode run child flags) pfx run = some (.ok (true, .nil)) := by
            rw [Trie.delete]
            simp only [prefixLen_eq_matchLen, whole, lt_irrefl, if_false, if_true]
          have treeEq : (Tree.short run childTree).delete run = .empty := by
            simp only [Tree.delete, whole, lt_irrefl, if_false, if_true]
          rw [codeEq, treeEq]
          exact ⟨true, .nil, rfl, .nil, trivial, (by simp), (by simp)⟩
        · -- the key runs on below the short node's key: delete below it
          have terminated : Terminated (run ++ below) := shape.resolve_left (by simp [ends])
          have nonempty := List.length_pos_iff.mpr proper.1
          obtain ⟨dirty, child', deleted, childExpands', childPlaced', unchanged, notHash⟩ :=
            inductionHypothesis childExpands childPlaced (.inr proper.2.2) shaped.short compatible.short
              (.inr (terminated.right ends))
              (by have := child.cost_le_two; simp only [Node.cost, List.length_append] at enough; omega)
          have longer : run.length ≠ (run ++ below).length := by
            have := List.length_pos_iff.mpr ends
            rw [List.length_append]
            omega
          rw [Trie.delete]
          simp only [prefixLen_eq_matchLen, whole, lt_irrefl, if_false, if_neg longer, List.drop_left]
          rw [deleted, Option.map_some, Outcome.ok_bind]
          cases dirty
          · -- nothing changed below, nor here
            have absent : (Tree.short run childTree).find (run ++ below) = none := by
              rw [Tree.find_short_append, unchanged rfl]
            rw [Tree.delete_of_find_none canonical compatible absent]
            exact ⟨false, _, rfl, .shortNode childExpands childPlaced flagsOk, placed, fun _ => absent, (by simp)⟩
          · -- a short child is merged into this node, any other hung below it
            simp only [Tree.delete, whole, lt_irrefl, if_false, if_neg longer, List.drop_left]
            generalize childTree.delete below = changed at childExpands' childPlaced' ⊢
            cases childExpands' with
            | nil =>
              exact ⟨true, _, rfl, .shortNode .nil trivial (FlagsOk.newFlag t _), FlagsPlaced.newFlag t atRoot _,
                (by simp), (by simp)⟩
            | valueNode value =>
              exact ⟨true, _, rfl, .shortNode (.valueNode value) trivial (FlagsOk.newFlag t _),
                FlagsPlaced.newFlag t atRoot _, (by simp), (by simp)⟩
            | shortNode grandchildExpands grandchildPlaced =>
              exact ⟨true, _, rfl, .shortNode grandchildExpands grandchildPlaced (FlagsOk.newFlag t _),
                FlagsPlaced.newFlag t atRoot _, (by simp), (by simp)⟩
            | fullNode childrenExpand childrenPlaced beyond childFlagsOk =>
              exact ⟨true, _, rfl, .shortNode (.fullNode childrenExpand childrenPlaced beyond childFlagsOk) childPlaced'
                (FlagsOk.newFlag t _), FlagsPlaced.newFlag t atRoot _, (by simp), (by simp)⟩
            | hashNode => exact absurd rfl (notHash rfl _)
      · -- the key leaves the short node's key: nothing to delete
        have parted : matchLen key run < run.length := lt_of_le_of_ne (matchLen_le_right _ _) whole
        have absent : (Tree.short run childTree).find key = none := by
          rw [Tree.find_short, if_neg (mt matchLen_eq_length_iff.mpr whole)]
        have codeEq : t.delete (fuel + 1) (.shortNode run child flags) pfx key =
            some (.ok (false, .shortNode run child flags)) := by
          rw [Trie.delete]
          simp only [prefixLen_eq_matchLen, if_pos parted]
        rw [codeEq, Tree.delete_of_find_none canonical compatible absent]
        exact ⟨false, _, rfl, .shortNode childExpands childPlaced flagsOk, placed, fun _ => absent, (by simp)⟩
    | @fullNode children flags trees childrenExpand childrenPlaced beyond flagsOk =>
      have proper : (Tree.full trees).Proper := canonical.resolve_left (by simp)
      obtain ⟨symbol, rest, rfl⟩ := List.exists_cons_of_ne_nil (compatible.ne_nil_of_full proper)
      have terminated : Terminated (symbol :: rest) := shape.resolve_left (List.cons_ne_nil _ _)
      have bounded := terminated.toNat_lt List.mem_cons_self
      obtain ⟨childExpands, childPlaced⟩ := child_at_symbol childrenExpand childrenPlaced bounded
      have restShape := (show Terminated ([symbol] ++ rest) from terminated).right_or_nil
      obtain ⟨dirty, child', deleted, childExpands', childPlaced', unchanged, -⟩ :=
        inductionHypothesis childExpands childPlaced (proper.1 symbol) (shaped.full symbol) compatible.full restShape
          (by
            have := Node.cost_le_two (children ⟨symbol.toNat, bounded⟩)
            simp only [Node.cost, List.length_cons] at enough
            omega)
      have codeEq : t.delete (fuel + 1) (.fullNode children flags) pfx (symbol :: rest) =
          (t.delete fuel (children ⟨symbol.toNat, bounded⟩) (pfx ++ [symbol]) rest).map fun result =>
            result >>= fun step =>
              if !step.1 then .ok (false, .fullNode children flags)
              else t.deleteReduce (Function.update children ⟨symbol.toNat, bounded⟩ step.2) pfx := by
        rw [Trie.delete]
        simp only [dif_pos bounded]
      rw [codeEq, deleted, Option.map_some, Outcome.ok_bind]
      cases dirty
      · -- nothing changed below, nor here
        have absent : (Tree.full trees).find (symbol :: rest) = none := unchanged rfl
        rw [Tree.delete_of_find_none canonical compatible absent]
        exact ⟨false, _, rfl, .fullNode childrenExpand childrenPlaced beyond flagsOk, placed, fun _ => absent, (by simp)⟩
      · -- the child replaced, and the full node reduced
        have updated := Expands.full_update ⟨symbol.toNat, bounded⟩
          (.fullNode childrenExpand childrenPlaced beyond flagsOk) childExpands' childPlaced' (FlagsOk.newFlag t _)
        rw [ofNat_index bounded] at updated
        have treeEq : (Tree.full trees).delete (symbol :: rest) =
            Tree.reduce (Function.update trees symbol ((trees symbol).delete rest)) := by
          rw [Tree.delete]
        have canonicalChildren : ∀ other, (Function.update trees symbol ((trees symbol).delete rest) other).Canonical := by
          intro other
          by_cases same : other = symbol
          · subst same
            rw [Function.update_self]
            exact Tree.canonical_delete (proper.1 other) compatible.full
          · rw [Function.update_of_ne same]
            exact proper.1 other
        have shapedChildren : HexShaped (.full (Function.update trees symbol ((trees symbol).delete rest))) := by
          refine (shaped.delete canonical compatible).of_find fun other value found => ?_
          rwa [treeEq, Tree.find_reduce]
        cases updated with
        | fullNode childrenExpand' childrenPlaced' beyond' =>
          obtain ⟨n', reduced, expands', placed', notHash⟩ :=
            t.deleteReduce_spec sound fits pfx childrenExpand' childrenPlaced' beyond' canonicalChildren shapedChildren
              (proper.exists_update_ne_empty symbol _)
          rw [treeEq]
          refine ⟨true, n', ?_, expands', placed' atRoot, (by simp), fun _ => notHash⟩
          rw [← reduced]
          rfl
    | hashNode nonempty notLeaf stored =>
      -- the hash node is resolved, and the key deleted from the node decoded
      obtain ⟨resolvedEq, resolvedExpands, proper, -⟩ :=
        t.resolveHash_of_expands sound fits (.hashNode nonempty notLeaf stored) canonical shaped pfx
      have placedResolved := placed_decoded_some t.cachegen proper notLeaf placed
      obtain ⟨dirty, n', deleted, expands', placed', unchanged, notHash⟩ :=
        inductionHypothesis resolvedExpands placedResolved canonical shaped compatible shape
          (by rw [cost_decoded proper]; simp only [Node.cost] at enough; omega)
      have codeEq : t.delete (fuel + 1) (.hashNode (hashOf keccak tree)) pfx key =
          (t.delete fuel (decoded keccak (some (hashOf keccak tree)) t.cachegen tree) pfx key).map fun result =>
            result >>= fun step =>
              if !step.1 then .ok (false, decoded keccak (some (hashOf keccak tree)) t.cachegen tree)
              else .ok (true, step.2) := by
        rw [Trie.delete, resolvedEq]
      rw [codeEq, deleted]
      cases dirty
      · have absent := unchanged rfl
        rw [Tree.delete_of_find_none canonical compatible absent]
        exact ⟨false, _, rfl, resolvedExpands, placedResolved, fun _ => absent, (by simp)⟩
      · exact ⟨true, n', rfl, expands', placed', (by simp), notHash⟩

end Writing

end Meshbox.Trie
