/-
What the hasher does to a trie that spells out a canonical tree. Hashing a node
gives its parent what hasher.go stores for it: the item of the node's encoding
when that is short, and the hash of the encoding when it is long or the node is
the root, hashed whatever its size. The node with its hash cached, which
replaces it, stands for the same tree, with flags that stay truthful.

When committing, every node that is hashed is written to the database under its
hash, and every node below it is then in the database too, so that a node the
commit unloads to its hash node is read back by resolveHash. The database only
grows, with encodings of nodes of the tree, so it stays sound.

The proof is by induction on how the node spells out its tree. A node with a
cached hash is not walked; a full node's nibble children are hashed one by one
in the loop of hashChildren, whose invariant says which children are done.
-/

import Meshbox.Trie.Operations
import Meshbox.Trie.Hasher

namespace Meshbox.Trie

open Meshbox.Rlp Radix

set_option linter.dupNamespace false

section Hashing

variable {keccak : List UInt8 → Meshbox.Hash} {encodings : List UInt8 → Prop}

/-! ### What hashing a node gives -/

variable (keccak encodings) in
/-- What hashing a node that spells out the tree over db gives, given the
database dbo the hasher writes to (none when only hashing): the node its parent
stores, the tree's hash node at the root or when big and the node's item
otherwise, never nil; a copy for the same tree over the database after, with its
flags in place; and, when committing, the tree below in that database, and the
tree itself when it was hashed. -/
structure Hashed (db : MemDatabase) (dbo : Option MemDatabase) (atRoot : Bool) (tree : HexTree)
    (result : HashResult) : Prop where
  collapsed : if atRoot then result.1 = .hashNode (hashOf keccak tree)
    else result.1.toItem = embed keccak (collapse keccak tree)
  notNil : result.1 ≠ .nil
  committing : result.2.2.isSome = dbo.isSome
  retains : Retains (dbo.getD db) (result.2.2.getD db)
  sound : Sound keccak encodings (result.2.2.getD db)
  expands : Expands keccak (result.2.2.getD db) result.2.1 tree
  placed : Placed keccak atRoot tree result.2.1
  stored : dbo.isSome → StoredBelow keccak (result.2.2.getD db) tree ∧
    (atRoot ∨ Big keccak tree → StoredTop keccak (result.2.2.getD db) tree)

/-- A hash node that stands for a big or root tree is what its parent stores. -/
theorem hashNode_collapsed {tree : HexTree} {atRoot : Bool} (big : atRoot = false → Big keccak tree) :
    if atRoot then Node.hashNode (hashOf keccak tree) = .hashNode (hashOf keccak tree)
    else (Node.hashNode (hashOf keccak tree)).toItem = embed keccak (collapse keccak tree) := by
  cases atRoot with
  | true => rfl
  | false => exact (embed_of_big keccak (big rfl)).symm

/-! ### Storing a node -/

/-- store hashes a short or full node of the tree when forced or big, under the
tree's hash, and writes its encoding there when committing; any other it keeps. -/
theorem hasher.store_eq {collapsed : Node} {tree : HexTree} (dbo : Option MemDatabase) (force : Bool)
    (notNil : collapsed ≠ .nil) (notHash : ∀ hash, collapsed ≠ .hashNode hash)
    (item : collapsed.toItem = collapse keccak tree)
    (cached : ∀ hash, collapsed.cache.1 = some hash → hash = hashOf keccak tree) :
    hasher.store keccak collapsed dbo force =
      if force ∨ Big keccak tree then
        (.hashNode (hashOf keccak tree), dbo.map (·.Put (hashOf keccak tree) (encoding keccak tree)))
      else (collapsed, dbo) := by
  have encoded : collapsed.toItem.encode = encoding keccak tree := by
    rw [item]
    rfl
  -- the key is the cached hash when there is one, the hash of the encoding otherwise
  have key : ∀ hash, (collapsed.cache.1 = some hash ∨
      collapsed.cache.1 = none ∧ hash = (keccak collapsed.toItem.encode).toList) → hash = hashOf keccak tree := by
    rintro hash (holds | ⟨-, rfl⟩)
    · exact cached hash holds
    · rw [encoded]
      rfl
  -- the decision to hash is the size of the encoding, unless forced
  have decision : ((encoding keccak tree).length < 32 ∧ (!force) = true) ↔ ¬ (force ∨ Big keccak tree) := by
    cases force <;> simp [Big]
  have chosen : ∀ hash, hash = hashOf keccak tree →
      (if (encoding keccak tree).length < 32 ∧ (!force) = true then (collapsed, dbo)
        else (.hashNode hash, dbo.map (·.Put hash (encoding keccak tree)))) =
      if force ∨ Big keccak tree then
        (.hashNode (hashOf keccak tree), dbo.map (·.Put (hashOf keccak tree) (encoding keccak tree)))
      else (collapsed, dbo) := by
    rintro hash rfl
    by_cases hashed : force ∨ Big keccak tree
    · rw [if_neg (mt decision.mp (not_not.mpr hashed)), if_pos hashed]
    · rw [if_pos (decision.mpr hashed), if_neg hashed]
  rcases cacheEq : collapsed.cache.1 with _ | hash
  · cases collapsed with
    | nil => exact absurd rfl notNil
    | hashNode hash => exact absurd rfl (notHash hash)
    | valueNode | shortNode | fullNode =>
      simp only [hasher.store, cacheEq, encoded]
      exact chosen _ (key _ (.inr ⟨cacheEq, by rw [encoded]⟩))
  · cases collapsed with
    | nil => exact absurd rfl notNil
    | hashNode hash => exact absurd rfl (notHash hash)
    | valueNode | shortNode | fullNode =>
      simp only [hasher.store, cacheEq, encoded]
      exact chosen _ (key _ (.inl cacheEq))

/-! ### The flags finish leaves -/

/-- The flags finish gives the node it hashed: the hash cached when the node was
hashed, and clean after a commit. -/
def markedFlags (flags : nodeFlag) (hashed : Node) (dbo : Option MemDatabase) : nodeFlag :=
  { flags with
    hash := match hashed with
      | .hashNode hash => some hash
      | _ => none
    dirty := if dbo.isSome then false else flags.dirty }

theorem hasher.finish_shortNode (collapsed : Node) (key : List UInt8) (val : Node) (flags : nodeFlag)
    (dbo dbo' : Option MemDatabase) (force : Bool) :
    hasher.finish keccak collapsed (.shortNode key val flags) dbo dbo' force =
      ((hasher.store keccak collapsed dbo' force).1,
        .shortNode key val (markedFlags flags (hasher.store keccak collapsed dbo' force).1 dbo),
        (hasher.store keccak collapsed dbo' force).2) :=
  rfl

theorem hasher.finish_fullNode (collapsed : Node) (children : Fin 17 → Node) (flags : nodeFlag)
    (dbo dbo' : Option MemDatabase) (force : Bool) :
    hasher.finish keccak collapsed (.fullNode children flags) dbo dbo' force =
      ((hasher.store keccak collapsed dbo' force).1,
        .fullNode children (markedFlags flags (hasher.store keccak collapsed dbo' force).1 dbo),
        (hasher.store keccak collapsed dbo' force).2) :=
  rfl

/-- The flags a walked node gets are truthful and fit its position. A node is
walked when only hashing only if it has no cached hash; a clean node below the
root without one is small, and a clean root has one, so the hash cached now is
in the database whenever the node stays clean. -/
theorem markedFlags_ok {flags : nodeFlag} {tree : HexTree} {db db₁ : MemDatabase} {dbo : Option MemDatabase}
    {atRoot : Bool} {collapsed hashed : Node} (notHash : ∀ hash, collapsed ≠ .hashNode hash)
    (chosen : hashed = if atRoot ∨ Big keccak tree then .hashNode (hashOf keccak tree) else collapsed)
    (ok : FlagsOk keccak db flags tree) (placed : FlagsPlaced keccak atRoot tree flags)
    (walked : dbo = none → flags.hash = none) (hashing : dbo = none → db₁ = db)
    (stored : dbo.isSome → StoredBelow keccak db₁ tree ∧ (atRoot ∨ Big keccak tree → StoredTop keccak db₁ tree)) :
    FlagsOk keccak db₁ (markedFlags flags hashed dbo) tree ∧ FlagsPlaced keccak atRoot tree (markedFlags flags hashed dbo) := by
  have cachedHash : (markedFlags flags hashed dbo).hash =
      if atRoot ∨ Big keccak tree then some (hashOf keccak tree) else none := by
    unfold markedFlags
    subst chosen
    by_cases hashes : atRoot = true ∨ Big keccak tree
    · rw [if_pos hashes, if_pos hashes]
    · rw [if_neg hashes, if_neg hashes]
      cases collapsed with
      | hashNode hash => exact absurd rfl (notHash hash)
      | _ => rfl
  have hashedIff : (markedFlags flags hashed dbo).hash.isSome ↔ (atRoot ∨ Big keccak tree) := by
    rw [cachedHash]
    by_cases hashes : atRoot = true ∨ Big keccak tree
    · rw [if_pos hashes]
      exact ⟨fun _ => hashes, fun _ => rfl⟩
    · rw [if_neg hashes]
      exact ⟨fun isSome => absurd isSome (by simp), fun holds => absurd holds hashes⟩
  refine ⟨⟨fun hash holds => ?_, fun clean => ?_⟩, ?_⟩
  · rw [cachedHash] at holds
    split at holds
    · exact (Option.some.inj holds).symm
    · cases holds
  · cases dbo with
    | some db' => exact ⟨(stored rfl).1, fun isSome => (stored rfl).2 (hashedIff.mp isSome)⟩
    | none =>
      -- only hashing: the node was clean before, with no cached hash
      rw [hashing rfl]
      have wasClean : flags.dirty = false := clean
      obtain ⟨below, top⟩ := ok.2 wasClean
      refine ⟨below, fun isSome => ?_⟩
      have noHash := walked rfl
      cases atRoot with
      | true => exact absurd (placed wasClean) (by simp [noHash])
      | false =>
        have small := placed.2 wasClean noHash
        exact absurd ((hashedIff.mp isSome).resolve_left (by simp)) small
  · cases atRoot with
    | true => exact fun _ => hashedIff.mpr (.inl rfl)
    | false =>
      refine ⟨fun isSome => (hashedIff.mp isSome).resolve_left (by simp), fun _ noHash big => ?_⟩
      have isSome := hashedIff.mpr (.inr big)
      rw [noHash] at isSome
      cases isSome

/-! ### Nodes with a cached hash -/

/-- useCache leaves a node to be walked only when it has no cached hash, or is
dirty and being committed. -/
theorem hasher.useCache_eq_none (h : hasher) {n : Node} {flags : nodeFlag} {dbo : Option MemDatabase}
    (walked : h.useCache n flags dbo = none) : dbo = none → flags.hash = none := by
  rintro rfl
  unfold hasher.useCache at walked
  split at walked
  · assumption
  · simp at walked

/-- A node that useCache does not walk gives its cached hash, which is the
tree's, and itself or, when committing, its hash node, both for the same tree. -/
theorem hasher.useCache_hashed (h : hasher) {db : MemDatabase} {n : Node} {flags : nodeFlag}
    {dbo : Option MemDatabase} {tree : HexTree} {atRoot : Bool} {result : HashResult}
    (used : h.useCache n flags dbo = some result) (expands : Expands keccak db n tree)
    (placed : Placed keccak atRoot tree n) (ok : FlagsOk keccak db flags tree)
    (flagsPlaced : FlagsPlaced keccak atRoot tree flags) (nonempty : tree ≠ .empty) (notLeaf : tree.IsLeaf = false)
    (retains : Retains db (dbo.getD db)) (sound : Sound keccak encodings (dbo.getD db)) :
    Hashed keccak encodings db dbo atRoot tree result := by
  unfold hasher.useCache at used
  split at used
  · cases used
  · next hash cachedHash =>
    have hashEq := ok.1 hash cachedHash
    subst hashEq
    have big : atRoot = false → Big keccak tree := by
      rintro rfl
      exact flagsPlaced.1 (by simp [cachedHash])
    -- a clean node and everything below it is in the database
    have clean : flags.dirty = false → Stored keccak (dbo.getD db) tree := fun dirty =>
      ⟨((ok.2 dirty).2 (by simp [cachedHash])).mono retains, (ok.2 dirty).1.mono retains⟩
    cases dbo with
    | none =>
      simp only [Option.isNone_none, if_true, Option.some.injEq] at used
      subst used
      exact ⟨hashNode_collapsed big, (by simp), rfl, Retains.refl _, sound, expands, placed, (by simp)⟩
    | some db₀ =>
      simp only [Option.isNone_some, Bool.false_eq_true, if_false] at used
      split at used
      · next unload =>
        cases used
        have stored := clean (by simp [nodeFlag.canUnload] at unload; exact unload.1)
        refine ⟨hashNode_collapsed big, (by simp), rfl, Retains.refl _, sound, .hashNode nonempty notLeaf stored, ?_,
          fun _ => ⟨stored.2, fun _ => stored.1⟩⟩
        cases atRoot with
        | true => exact .inl rfl
        | false => exact .inr (big rfl)
      · split at used
        · next notDirty =>
          cases used
          have stored := clean (by simpa using notDirty)
          exact ⟨hashNode_collapsed big, (by simp), rfl, Retains.refl _, sound, expands.mono retains, placed,
            fun _ => ⟨stored.2, fun _ => stored.1⟩⟩
        · cases used

/-! ### The loop over a full node's children -/

/-- The loop of hashChildren keeps an invariant indexed by the children still to
hash: a nil child is collapsed to the empty value, and any other is hashed. -/
theorem hashChildrenLoop_inv (hashChild : Fin 17 → Option MemDatabase → Option HashResult)
    (Inv : List (Fin 17) → (Fin 17 → Node) × (Fin 17 → Node) × Option MemDatabase → Prop)
    (emptyStep : ∀ index rest collapsed cached dbo, Inv (index :: rest) (collapsed, cached, dbo) →
      collapsed index = .nil → Inv rest (Function.update collapsed index (.valueNode []), cached, dbo))
    (hashStep : ∀ index rest collapsed cached dbo, Inv (index :: rest) (collapsed, cached, dbo) →
      collapsed index ≠ .nil → ∃ collapsedChild cachedChild dbo', hashChild index dbo = some (collapsedChild, cachedChild, dbo') ∧
        Inv rest (Function.update collapsed index collapsedChild, Function.update cached index cachedChild, dbo')) :
    ∀ indices state, Inv indices state → ∃ final, hashChildrenLoop hashChild indices state = some final ∧ Inv [] final := by
  intro indices
  induction indices with
  | nil => exact fun state holds => ⟨state, rfl, holds⟩
  | cons index rest inductionHypothesis =>
    rintro ⟨collapsed, cached, dbo⟩ holds
    by_cases empty : collapsed index = .nil
    · rw [hashChildrenLoop, empty]
      exact inductionHypothesis _ (emptyStep index rest collapsed cached dbo holds empty)
    · obtain ⟨collapsedChild, cachedChild, dbo', hashed, holds'⟩ := hashStep index rest collapsed cached dbo holds empty
      obtain ⟨final, loop, finalHolds⟩ := inductionHypothesis _ holds'
      refine ⟨final, ?_, finalHolds⟩
      rw [hashChildrenLoop]
      split
      · next isNil => exact absurd isNil empty
      · rw [hashed]
        exact loop

theorem nibbleIndices_nodup : nibbleIndices.Nodup := by
  decide

theorem nibbleIndices_ne_sixteen : ∀ index ∈ nibbleIndices, index.val ≠ 16 := by
  decide

theorem mem_nibbleIndices : ∀ index : Fin 17, index.val ≠ 16 → index ∈ nibbleIndices := by
  decide

/-- The symbol of a slot other than the value slot is a nibble. -/
theorem ofNat_index_lt_sixteen {index : Fin 17} (notSixteen : index.val ≠ 16) : UInt8.ofNat index.val < 16 := by
  rw [UInt8.lt_iff_toNat_lt, UInt8.toNat_ofNat']
  have := index.isLt
  simp only [UInt8.reduceToNat]
  omega

/-- Past the nibbles, a full node of a trie has nothing but its value slot,
empty or a value. -/
theorem HexShaped.full_slots {trees : UInt8 → HexTree} (shaped : HexShaped (Tree.full trees))
    (proper : (Tree.full trees).Proper) (beyond : ∀ symbol : UInt8, 16 < symbol → trees symbol = .empty) :
    ∀ symbol : UInt8, 16 ≤ symbol → trees symbol = .empty ∨ (trees symbol).IsLeaf := by
  intro symbol large
  rcases UInt8.le_iff_lt_or_eq.mp large with larger | same
  · exact .inl (beyond symbol larger)
  · subst same
    exact shaped.full_value_slot (proper.1 16)

variable (keccak) in
/-- A slot the loop has hashed: the collapsed child is what the parent stores,
and the cached child stands for the tree in the database, in place below its
parent; when committing, the tree below is stored, and the child too when its
parent refers to it by hash. -/
def SlotDone (current : MemDatabase) (committing : Bool) (tree : HexTree) (collapsedChild cachedChild : Node) : Prop :=
  collapsedChild.toItem = embed keccak (collapse keccak tree) ∧ Expands keccak current cachedChild tree ∧
    Placed keccak false tree cachedChild ∧ (committing → StoredRef keccak current tree ∧ StoredBelow keccak current tree)

theorem SlotDone.mono {current current' : MemDatabase} {committing : Bool} {tree : HexTree}
    {collapsedChild cachedChild : Node} (done : SlotDone keccak current committing tree collapsedChild cachedChild)
    (retains : Retains current current') : SlotDone keccak current' committing tree collapsedChild cachedChild :=
  ⟨done.1, done.2.1.mono retains, done.2.2.1, fun committing =>
    ⟨fun notLeaf big => ((done.2.2.2 committing).1 notLeaf big).mono retains, (done.2.2.2 committing).2.mono retains⟩⟩

/-- An empty slot is done once collapsed to the empty value. -/
theorem slotDone_empty (current : MemDatabase) (committing : Bool) :
    SlotDone keccak current committing .empty (.valueNode []) .nil :=
  ⟨rfl, .nil, trivial, fun _ => ⟨fun _ big => absurd big (not_big_empty keccak), trivial⟩⟩

/-- A slot hashed as a child below its parent is done. -/
theorem Hashed.slotDone {db : MemDatabase} {dbo : Option MemDatabase} {tree : HexTree} {result : HashResult}
    (hashed : Hashed keccak encodings db dbo false tree result) :
    SlotDone keccak (result.2.2.getD db) dbo.isSome tree result.1 result.2.1 :=
  ⟨hashed.collapsed, hashed.expands, hashed.placed, fun committing =>
    ⟨fun _ big => (hashed.stored committing).2 (.inr big), (hashed.stored committing).1⟩⟩

variable (keccak encodings) in
/-- The invariant of the loop over a full node's children, with rest the
children still to hash: they and the value slot are as they were, and the
others are done, in a database that grew from the one the hasher was given. -/
def ChildrenInv (db : MemDatabase) (dbo : Option MemDatabase) (children : Fin 17 → Node)
    (trees : UInt8 → HexTree) (rest : List (Fin 17))
    (state : (Fin 17 → Node) × (Fin 17 → Node) × Option MemDatabase) : Prop :=
  rest.Nodup ∧ (∀ index ∈ rest, index.val ≠ 16) ∧ state.2.2.isSome = dbo.isSome ∧
    Retains (dbo.getD db) (state.2.2.getD db) ∧ Sound keccak encodings (state.2.2.getD db) ∧
    ∀ index : Fin 17, (index ∈ rest ∨ index.val = 16 → state.1 index = children index ∧ state.2.1 index = children index) ∧
      (index ∉ rest → index.val ≠ 16 →
        SlotDone keccak (state.2.2.getD db) dbo.isSome (trees (UInt8.ofNat index.val)) (state.1 index) (state.2.1 index))

theorem Expands.eq_empty_of_nil {db : MemDatabase} {tree : HexTree} (expands : Expands keccak db .nil tree) :
    tree = .empty := by
  cases expands
  rfl

theorem Expands.ne_empty {db : MemDatabase} {n : Node} {tree : HexTree} (expands : Expands keccak db n tree)
    (notNil : n ≠ .nil) : tree ≠ .empty := by
  rintro rfl
  cases expands with
  | nil => exact notNil rfl
  | hashNode nonempty => exact nonempty rfl

/-- A slot still to hash is not the one being hashed. -/
theorem ne_of_untouched {index other : Fin 17} {rest : List (Fin 17)} (fresh : index ∉ rest)
    (indexSixteen : index.val ≠ 16) (untouched : other ∈ rest ∨ other.val = 16) : other ≠ index := by
  rintro rfl
  rcases untouched with member | sixteen
  · exact fresh member
  · exact indexSixteen sixteen

/-- The loop over the nibble children of a full node that spells out the trees
hashes them all, given that each child that is not nil hashes as a child below
its parent. -/
theorem hashChildren_done (h : hasher) (dbo : Option MemDatabase) {db : MemDatabase} {children : Fin 17 → Node}
    {trees : UInt8 → HexTree}
    (childrenExpand : ∀ index : Fin 17, Expands keccak db (children index) (trees (UInt8.ofNat index.val)))
    (sound : Sound keccak encodings (dbo.getD db)) (retains : Retains db (dbo.getD db))
    (childHashed : ∀ index : Fin 17, index.val ≠ 16 → children index ≠ .nil → ∀ dbo' : Option MemDatabase,
      Retains db (dbo'.getD db) → Sound keccak encodings (dbo'.getD db) →
      ∃ result, h.hash keccak (children index) dbo' false = some result ∧
        Hashed keccak encodings db dbo' false (trees (UInt8.ofNat index.val)) result) :
    ∃ collapsed cached dbo', hashChildrenLoop (fun index db => h.hash keccak (children index) db false)
        nibbleIndices (children, children, dbo) = some (collapsed, cached, dbo') ∧
      ChildrenInv keccak encodings db dbo children trees [] (collapsed, cached, dbo') := by
  have start : ChildrenInv keccak encodings db dbo children trees nibbleIndices (children, children, dbo) :=
    ⟨nibbleIndices_nodup, nibbleIndices_ne_sixteen, rfl, Retains.refl _, sound, fun index =>
      ⟨fun _ => ⟨rfl, rfl⟩, fun notIn notSixteen => absurd (mem_nibbleIndices index notSixteen) notIn⟩⟩
  -- a nil child stands for the empty tree, and is collapsed to the empty value
  have emptyStep : ∀ index rest collapsed cached dbo₁,
      ChildrenInv keccak encodings db dbo children trees (index :: rest) (collapsed, cached, dbo₁) →
      collapsed index = .nil →
      ChildrenInv keccak encodings db dbo children trees rest (Function.update collapsed index (.valueNode []), cached, dbo₁) := by
    rintro index rest collapsed cached dbo₁ ⟨nodup, notSixteen, committing, grown, sound₁, slots⟩ empty
    dsimp only at committing grown sound₁ slots
    have fresh := List.nodup_cons.mp nodup
    have indexSixteen := notSixteen index List.mem_cons_self
    refine ⟨fresh.2, fun other member => notSixteen other (List.mem_cons_of_mem _ member), committing, grown, sound₁,
      fun other => ⟨fun untouched => ?_, fun notIn otherSixteen => ?_⟩⟩
    · dsimp only
      rw [Function.update_of_ne (ne_of_untouched fresh.1 indexSixteen untouched)]
      exact (slots other).1 (untouched.imp_left (List.mem_cons_of_mem _))
    · dsimp only
      by_cases same : other = index
      · subst same
        obtain ⟨collapsedEq, cachedEq⟩ := (slots other).1 (.inl List.mem_cons_self)
        have childExpands := childrenExpand other
        rw [← collapsedEq, empty] at childExpands
        rw [Function.update_self, cachedEq, ← collapsedEq, empty, Expands.eq_empty_of_nil childExpands]
        exact slotDone_empty _ _
      · rw [Function.update_of_ne same]
        exact (slots other).2 (by simp [same, notIn]) otherSixteen
  -- any other child is hashed below its parent, in the database grown so far
  have hashStep : ∀ index rest collapsed cached dbo₁,
      ChildrenInv keccak encodings db dbo children trees (index :: rest) (collapsed, cached, dbo₁) →
      collapsed index ≠ .nil → ∃ collapsedChild cachedChild dbo₂,
        h.hash keccak (children index) dbo₁ false = some (collapsedChild, cachedChild, dbo₂) ∧
        ChildrenInv keccak encodings db dbo children trees rest
          (Function.update collapsed index collapsedChild, Function.update cached index cachedChild, dbo₂) := by
    rintro index rest collapsed cached dbo₁ ⟨nodup, notSixteen, committing, grown, sound₁, slots⟩ notEmpty
    dsimp only at committing grown sound₁ slots
    have fresh := List.nodup_cons.mp nodup
    have indexSixteen := notSixteen index List.mem_cons_self
    obtain ⟨collapsedEq, cachedEq⟩ := (slots index).1 (.inl List.mem_cons_self)
    obtain ⟨result, hashedEq, hashed⟩ :=
      childHashed index indexSixteen (collapsedEq ▸ notEmpty) dbo₁ (retains.trans grown) sound₁
    refine ⟨result.1, result.2.1, result.2.2, hashedEq, fresh.2,
      fun other member => notSixteen other (List.mem_cons_of_mem _ member), hashed.committing.trans committing,
      grown.trans hashed.retains, hashed.sound, fun other => ⟨fun untouched => ?_, fun notIn otherSixteen => ?_⟩⟩
    · have different := ne_of_untouched fresh.1 indexSixteen untouched
      dsimp only
      rw [Function.update_of_ne different, Function.update_of_ne different]
      exact (slots other).1 (untouched.imp_left (List.mem_cons_of_mem _))
    · dsimp only
      by_cases same : other = index
      · subst same
        rw [Function.update_self, Function.update_self, ← committing]
        exact hashed.slotDone
      · rw [Function.update_of_ne same, Function.update_of_ne same]
        exact ((slots other).2 (by simp [same, notIn]) otherSixteen).mono hashed.retains
  obtain ⟨⟨collapsed, cached, dbo'⟩, loop, final⟩ :=
    hashChildrenLoop_inv _ (ChildrenInv keccak encodings db dbo children trees) emptyStep hashStep nibbleIndices _ start
  exact ⟨collapsed, cached, dbo', loop, final⟩

/-! ### The end of a walk -/

section Finishing

variable (collisionless : Collisionless keccak encodings)

include collisionless in
/-- Writing a node's encoding under its hash keeps a database sound, and holds
the node there when committing. -/
theorem put_hashOf {db : MemDatabase} {dbo : Option MemDatabase} {tree : HexTree}
    (sound : Sound keccak encodings (dbo.getD db)) (allowed : encodings (encoding keccak tree)) :
    let stored := dbo.map (·.Put (hashOf keccak tree) (encoding keccak tree))
    Sound keccak encodings (stored.getD db) ∧ Retains (dbo.getD db) (stored.getD db) ∧
      (dbo.isSome → StoredTop keccak (stored.getD db) tree) := by
  cases dbo with
  | none => exact ⟨sound, Retains.refl _, (by simp)⟩
  | some current =>
    obtain ⟨sound', retains⟩ := Sound.put sound collisionless allowed
    exact ⟨sound', retains, fun _ => by simp [StoredTop, MemDatabase.Get_Put, hashOf]⟩

include collisionless in
/-- finish on a walked node of the tree: its collapsed form, of the tree's item,
is stored, and the node rebuilt with the flags finish gives it stands for the
tree over the database after. -/
theorem hasher.finish_hashed {collapsed : Node} {rebuild : nodeFlag → Node} {flags : nodeFlag} {db : MemDatabase}
    {dbo dbo' : Option MemDatabase} {atRoot : Bool} {tree : HexTree}
    (notNil : collapsed ≠ .nil) (notHash : ∀ hash, collapsed ≠ .hashNode hash)
    (item : collapsed.toItem = collapse keccak tree) (cached : collapsed.cache.1 = flags.hash)
    (ok : FlagsOk keccak db flags tree) (flagsPlaced : FlagsPlaced keccak atRoot tree flags)
    (walked : dbo = none → flags.hash = none) (committing : dbo'.isSome = dbo.isSome)
    (retains : Retains (dbo.getD db) (dbo'.getD db)) (sound : Sound keccak encodings (dbo'.getD db))
    (allowed : encodings (encoding keccak tree)) (below : dbo.isSome → StoredBelow keccak (dbo'.getD db) tree)
    (rebuilt : ∀ db₂, Retains (dbo'.getD db) db₂ → ∀ flags', FlagsOk keccak db₂ flags' tree →
      FlagsPlaced keccak atRoot tree flags' → Expands keccak db₂ (rebuild flags') tree ∧ Placed keccak atRoot tree (rebuild flags')) :
    Hashed keccak encodings db dbo atRoot tree
      ((hasher.store keccak collapsed dbo' atRoot).1,
        rebuild (markedFlags flags (hasher.store keccak collapsed dbo' atRoot).1 dbo),
        (hasher.store keccak collapsed dbo' atRoot).2) := by
  have cachedOk : ∀ hash, collapsed.cache.1 = some hash → hash = hashOf keccak tree := fun hash holds =>
    ok.1 hash (cached ▸ holds)
  have hashing : dbo = none → dbo' = none := fun none => by
    rw [none] at committing
    simpa using committing
  rw [hasher.store_eq dbo' atRoot notNil notHash item cachedOk]
  by_cases hashes : atRoot = true ∨ Big keccak tree
  · -- hashed: the tree's hash node, and the encoding written under the hash when committing
    simp only [if_pos hashes]
    obtain ⟨sound', retains', top⟩ := put_hashOf collisionless sound allowed
    have storedHere : dbo.isSome → StoredBelow keccak _ tree ∧ (atRoot ∨ Big keccak tree → StoredTop keccak _ tree) :=
      fun isSome => ⟨(below isSome).mono retains', fun _ => top (committing ▸ isSome)⟩
    obtain ⟨flagsOk, placed'⟩ := markedFlags_ok notHash (if_pos hashes).symm ok flagsPlaced walked
      (fun none => by rw [hashing none]; rfl) storedHere
    obtain ⟨expands, placed⟩ := rebuilt _ retains' _ flagsOk placed'
    refine ⟨hashNode_collapsed fun root => hashes.resolve_left (by simp [root]), (by simp), ?_, retains.trans retains',
      sound', expands, placed, storedHere⟩
    rw [Option.isSome_map, committing]
  · -- kept: the collapsed node itself, whose encoding is short
    simp only [if_neg hashes]
    have notRoot : atRoot = false := by simpa using fun root => hashes (.inl root)
    have storedHere : dbo.isSome → StoredBelow keccak (dbo'.getD db) tree ∧
        (atRoot ∨ Big keccak tree → StoredTop keccak (dbo'.getD db) tree) :=
      fun isSome => ⟨below isSome, fun holds => absurd holds hashes⟩
    obtain ⟨flagsOk, placed'⟩ := markedFlags_ok notHash (if_neg hashes).symm ok flagsPlaced walked
      (fun none => by rw [hashing none]; rfl) storedHere
    obtain ⟨expands, placed⟩ := rebuilt _ (Retains.refl _) _ flagsOk placed'
    refine ⟨?_, notNil, committing, retains, sound, expands, placed, storedHere⟩
    subst notRoot
    simp only [Bool.false_eq_true, if_false]
    rw [item, embed_of_small keccak fun big => hashes (.inr big)]

include collisionless in
/-- The walk of a short node: its child collapsed, as a value or by reference,
and hashed into the database grown so far. -/
theorem hasher.walk_short {run : List UInt8} {childTree : HexTree} {flags : nodeFlag} {db : MemDatabase}
    {dbo dbo' : Option MemDatabase} {atRoot : Bool} {collapsedVal cachedVal : Node}
    (ok : FlagsOk keccak db flags (.short run childTree))
    (flagsPlaced : FlagsPlaced keccak atRoot (.short run childTree) flags) (walked : dbo = none → flags.hash = none)
    (allowed : encodings (encoding keccak (.short run childTree)))
    (item : collapsedVal.toItem =
      if childTree.IsLeaf then collapse keccak childTree else embed keccak (collapse keccak childTree))
    (committing : dbo'.isSome = dbo.isSome) (retains : Retains (dbo.getD db) (dbo'.getD db))
    (sound : Sound keccak encodings (dbo'.getD db))
    (childExpands : Expands keccak (dbo'.getD db) cachedVal childTree) (childPlaced : Placed keccak false childTree cachedVal)
    (childStored : dbo.isSome → StoredRef keccak (dbo'.getD db) childTree ∧ StoredBelow keccak (dbo'.getD db) childTree) :
    Hashed keccak encodings db dbo atRoot (.short run childTree)
      (hasher.finish keccak (.shortNode (hexToCompact run) collapsedVal flags) (.shortNode run cachedVal flags) dbo dbo'
        atRoot) := by
  have nodeItem : (Node.shortNode (hexToCompact run) collapsedVal flags).toItem = collapse keccak (.short run childTree) := by
    simp only [Node.toItem, item, collapse]
  rw [hasher.finish_shortNode]
  exact hasher.finish_hashed collisionless (by simp) (by simp) nodeItem rfl ok flagsPlaced walked committing retains sound allowed
    childStored fun _ grown _ flagsOk placed => ⟨.shortNode (childExpands.mono grown) childPlaced flagsOk, placed⟩

/-- A full node's value slot, with nil collapsed to the empty value, is what the
node's item holds there. -/
theorem valueSlot_item {db : MemDatabase} {n : Node} {tree : HexTree} (expands : Expands keccak db n tree)
    (slot : tree = .empty ∨ tree.IsLeaf) :
    (n = .nil → (Node.valueNode []).toItem = collapse keccak tree) ∧ (n ≠ .nil → n.toItem = collapse keccak tree) := by
  cases expands with
  | nil => exact ⟨fun _ => rfl, fun notNil => absurd rfl notNil⟩
  | valueNode value => exact ⟨(by simp), fun _ => rfl⟩
  | shortNode | fullNode => simp [Tree.IsLeaf] at slot
  | hashNode nonempty notLeaf => simp [nonempty, notLeaf] at slot

/-- A child past the nibbles of a full node of a trie, empty or a value, needs
nothing stored. -/
theorem stored_of_slot {db : MemDatabase} {tree : HexTree} (slot : tree = .empty ∨ tree.IsLeaf) :
    StoredRef keccak db tree ∧ StoredBelow keccak db tree := by
  rcases slot with rfl | leaf
  · exact ⟨fun _ big => absurd big (not_big_empty keccak), trivial⟩
  · cases tree with
    | leaf value => exact ⟨fun notLeaf => absurd notLeaf (by simp [Tree.IsLeaf]), trivial⟩
    | _ => simp [Tree.IsLeaf] at leaf

/-- A full node whose nibble slots the loop has done and whose value slot holds
the tree's value slot has the tree's item. -/
theorem fullNode_item {collapsed patched cached : Fin 17 → Node} {trees : UInt8 → HexTree} (flags : nodeFlag)
    {current : MemDatabase} {committing : Bool}
    (slotsDone : ∀ index : Fin 17, index ∉ ([] : List (Fin 17)) → index.val ≠ 16 →
      SlotDone keccak current committing (trees (UInt8.ofNat index.val)) (collapsed index) (cached index))
    (nibbles : ∀ index : Fin 17, index.val ≠ 16 → patched index = collapsed index)
    (valueSlot : (patched 16).toItem = collapse keccak (trees 16)) :
    (Node.fullNode patched flags).toItem = collapse keccak (.full trees) := by
  simp only [Node.toItem, collapse]
  congr 1
  refine List.ofFn_inj.mpr (funext fun index => ?_)
  by_cases nibble : index.val < 16
  · rw [if_pos nibble, nibbles index (by omega)]
    exact (slotsDone index List.not_mem_nil (by omega)).1
  · have isSixteen : index = 16 := Fin.ext (by have := index.isLt; show index.val = 16; omega)
    subst isSixteen
    rw [if_neg nibble, valueSlot]

include collisionless in
/-- The walk of a full node: its nibble children hashed by the loop, and its
value slot kept, nil collapsed to the empty value. -/
theorem hasher.walk_full {children collapsed patched cached : Fin 17 → Node} {trees : UInt8 → HexTree}
    {flags : nodeFlag} {db : MemDatabase} {dbo dbo' : Option MemDatabase} {atRoot : Bool}
    (childrenExpand : ∀ index : Fin 17, Expands keccak db (children index) (trees (UInt8.ofNat index.val)))
    (childrenPlaced : ∀ index : Fin 17, Placed keccak false (trees (UInt8.ofNat index.val)) (children index))
    (beyond : ∀ symbol : UInt8, 16 < symbol → trees symbol = .empty)
    (slots : ∀ symbol : UInt8, 16 ≤ symbol → trees symbol = .empty ∨ (trees symbol).IsLeaf)
    (ok : FlagsOk keccak db flags (.full trees)) (flagsPlaced : FlagsPlaced keccak atRoot (.full trees) flags)
    (walked : dbo = none → flags.hash = none) (allowed : encodings (encoding keccak (.full trees)))
    (retains : Retains db (dbo.getD db))
    (done : ChildrenInv keccak encodings db dbo children trees [] (collapsed, cached, dbo'))
    (nibbles : ∀ index : Fin 17, index.val ≠ 16 → patched index = collapsed index)
    (valueSlot : (patched 16).toItem = collapse keccak (trees 16)) :
    Hashed keccak encodings db dbo atRoot (.full trees)
      (hasher.finish keccak (.fullNode patched flags) (.fullNode cached flags) dbo dbo' atRoot) := by
  obtain ⟨-, -, committing, grown, sound, slotsDone⟩ := done
  dsimp only at committing grown sound slotsDone
  -- the value slot is as it was
  have valueChild : cached 16 = children 16 := ((slotsDone 16).1 (.inr rfl)).2
  have nodeItem := fullNode_item flags (fun index => (slotsDone index).2) nibbles valueSlot
  have below : dbo.isSome → StoredBelow keccak (dbo'.getD db) (.full trees) := by
    intro isSome symbol
    by_cases nibble : symbol < 16
    · have bounded : symbol.toNat < 17 := by
        rw [UInt8.lt_iff_toNat_lt] at nibble
        simp only [UInt8.reduceToNat] at nibble
        omega
      have done := (slotsDone ⟨symbol.toNat, bounded⟩).2 List.not_mem_nil (by
        show symbol.toNat ≠ 16
        rw [UInt8.lt_iff_toNat_lt] at nibble
        simp only [UInt8.reduceToNat] at nibble
        omega)
      rw [ofNat_index bounded] at done
      exact done.2.2.2 isSome
    · exact stored_of_slot (slots symbol (UInt8.not_lt.mp nibble))
  rw [hasher.finish_fullNode]
  refine hasher.finish_hashed collisionless (by simp) (by simp) nodeItem rfl ok flagsPlaced walked committing grown sound
    allowed below fun db₂ grown₂ flags' flagsOk' placed' => ⟨.fullNode (fun index => ?_) (fun index => ?_) beyond flagsOk',
      placed'⟩
  · by_cases nibble : index.val = 16
    · have isSixteen : index = 16 := Fin.ext nibble
      subst isSixteen
      rw [valueChild]
      exact (childrenExpand 16).mono ((retains.trans grown).trans grown₂)
    · exact ((slotsDone index).2 List.not_mem_nil nibble).2.1.mono grown₂
  · by_cases nibble : index.val = 16
    · have isSixteen : index = 16 := Fin.ext nibble
      subst isSixteen
      rw [valueChild]
      exact childrenPlaced 16
    · exact ((slotsDone index).2 List.not_mem_nil nibble).2.2.1

end Finishing

/-! ### Hashing a node -/

theorem Expands.isLeaf_eq_false {db : MemDatabase} {n : Node} {tree : HexTree} (expands : Expands keccak db n tree)
    (notValue : ∀ value, n ≠ .valueNode value) : tree.IsLeaf = false := by
  cases expands with
  | valueNode value => exact absurd rfl (notValue value)
  | hashNode _ notLeaf => exact notLeaf
  | nil | shortNode | fullNode => rfl

variable (collisionless : Collisionless keccak encodings)

include collisionless in
/-- Hashing a node that spells out a canonical tree gives what its parent
stores and a copy for the same tree, and when committing writes the tree's
nodes to the database, as Hashed says. -/
theorem hasher.hash_spec (h : hasher) {db : MemDatabase} {n : Node} {tree : HexTree}
    (expands : Expands keccak db n tree) :
    ∀ {atRoot : Bool} (dbo : Option MemDatabase), Placed keccak atRoot tree n → tree.Canonical → HexShaped tree →
      tree ≠ .empty → tree.IsLeaf = false → (∀ node ∈ nodes tree, encodings (encoding keccak node)) →
      Retains db (dbo.getD db) → Sound keccak encodings (dbo.getD db) →
      ∃ result, h.hash keccak n dbo atRoot = some result ∧ Hashed keccak encodings db dbo atRoot tree result := by
  induction expands with
  | nil => exact fun _ _ _ _ nonempty => absurd rfl nonempty
  | valueNode value => exact fun _ _ _ _ _ notLeaf => absurd notLeaf (by simp [Tree.IsLeaf])
  | hashNode nonempty notLeaf stored =>
    -- a hash node is kept as it is
    intro atRoot dbo placed _ _ _ _ _ retains sound
    refine ⟨_, rfl, hashNode_collapsed fun root => placed.resolve_left (by simp [root]), (by simp), rfl, Retains.refl _,
      sound, (Expands.hashNode nonempty notLeaf stored).mono retains, placed,
      fun _ => ⟨stored.2.mono retains, fun _ => stored.1.mono retains⟩⟩
  | @shortNode run child flags childTree childExpands childPlaced flagsOk inductionHypothesis =>
    intro atRoot dbo placed canonical shaped nonempty notLeaf allowed retains sound
    have proper : (Tree.short run childTree).Proper := canonical.resolve_left nonempty
    have expands : Expands keccak db (.shortNode run child flags) (.short run childTree) :=
      .shortNode childExpands childPlaced flagsOk
    cases used : h.useCache (.shortNode run child flags) flags dbo with
    | some result =>
      refine ⟨result, ?_, h.useCache_hashed used expands placed flagsOk placed nonempty notLeaf retains sound⟩
      unfold hasher.hash
      rw [used]
    | none =>
      have walked := h.useCache_eq_none used
      unfold hasher.hash
      rw [used]
      dsimp only
      by_cases isValue : ∃ value, child = .valueNode value
      · -- a value child is kept as it is
        obtain ⟨value, rfl⟩ := isValue
        cases childExpands
        exact ⟨_, rfl, hasher.walk_short collisionless flagsOk placed walked (allowed _ List.mem_cons_self) rfl rfl
          (Retains.refl _) sound (.valueNode value) trivial fun _ => stored_of_slot (.inr rfl)⟩
      · -- any other child is hashed below its parent
        have notValue : ∀ value, child ≠ .valueNode value := fun value same => isValue ⟨value, same⟩
        have childNotLeaf := childExpands.isLeaf_eq_false notValue
        obtain ⟨⟨collapsedVal, cachedVal, dbo'⟩, hashedEq, hashed⟩ :=
          inductionHypothesis dbo childPlaced (.inr proper.2.2) shaped.short proper.2.2.ne_empty childNotLeaf
            (fun node member => allowed node (List.mem_cons_of_mem _ member)) retains sound
        have item : collapsedVal.toItem =
            if childTree.IsLeaf then collapse keccak childTree else embed keccak (collapse keccak childTree) := by
          rw [childNotLeaf]
          exact hashed.collapsed
        have childStored : dbo.isSome → StoredRef keccak (dbo'.getD db) childTree ∧
            StoredBelow keccak (dbo'.getD db) childTree := fun isSome =>
          ⟨fun _ big => (hashed.stored isSome).2 (.inr big), (hashed.stored isSome).1⟩
        have walk := hasher.walk_short collisionless flagsOk placed walked (allowed _ List.mem_cons_self) item
          hashed.committing hashed.retains hashed.sound hashed.expands hashed.placed childStored
        -- the child is not nil, so the walk stores it as hashed
        cases childExpands with
        | nil => exact absurd rfl proper.2.2.ne_empty
        | valueNode value => exact absurd rfl (notValue value)
        | shortNode | fullNode | hashNode =>
          dsimp only
          rw [hashedEq]
          dsimp only
          split
          · exact absurd rfl hashed.notNil
          · exact ⟨_, rfl, walk⟩
  | @fullNode children flags trees childrenExpand childrenPlaced beyond flagsOk inductionHypothesis =>
    intro atRoot dbo placed canonical shaped nonempty notLeaf allowed retains sound
    have proper : (Tree.full trees).Proper := canonical.resolve_left nonempty
    have expands : Expands keccak db (.fullNode children flags) (.full trees) :=
      .fullNode childrenExpand childrenPlaced beyond flagsOk
    cases used : h.useCache (.fullNode children flags) flags dbo with
    | some result =>
      refine ⟨result, ?_, h.useCache_hashed used expands placed flagsOk placed nonempty notLeaf retains sound⟩
      unfold hasher.hash
      rw [used]
    | none =>
      have walked := h.useCache_eq_none used
      -- each nibble child that is not nil hashes below its parent
      have childHashed : ∀ index : Fin 17, index.val ≠ 16 → children index ≠ .nil → ∀ dbo' : Option MemDatabase,
          Retains db (dbo'.getD db) → Sound keccak encodings (dbo'.getD db) →
          ∃ result, h.hash keccak (children index) dbo' false = some result ∧
            Hashed keccak encodings db dbo' false (trees (UInt8.ofNat index.val)) result := by
        intro index notSixteen notNil dbo' retains' sound'
        exact inductionHypothesis index dbo' (childrenPlaced index) (proper.1 _) (shaped.full _)
          ((childrenExpand index).ne_empty notNil) (shaped.full_nibble_not_leaf (ofNat_index_lt_sixteen notSixteen))
          (fun node member => allowed node (List.mem_cons_of_mem _ (List.mem_flatMap.mpr ⟨index, List.mem_finRange _, member⟩)))
          retains' sound'
      obtain ⟨collapsed, cached, dbo', loop, done⟩ := hashChildren_done h dbo childrenExpand sound retains childHashed
      -- past the nibbles a child is empty or a value
      have slots := shaped.full_slots proper beyond
      have valueChild : collapsed 16 = children 16 := ((done.2.2.2.2.2 16).1 (.inr rfl)).1
      have valueItem := valueSlot_item (childrenExpand 16) (slots 16 (UInt8.le_refl 16))
      unfold hasher.hash
      rw [used]
      dsimp only
      rw [loop]
      dsimp only
      -- the value slot: nil is collapsed to the empty value, a value kept
      split
      · next isNil =>
        refine ⟨_, rfl, hasher.walk_full collisionless childrenExpand childrenPlaced beyond slots flagsOk placed walked
          (allowed _ List.mem_cons_self) retains done (fun index notSixteen => ?_) ?_⟩
        · exact Function.update_of_ne (fun same => notSixteen (by rw [same]; rfl)) _ _
        · rw [Function.update_self]
          exact valueItem.1 (valueChild ▸ isNil)
      · next notNil =>
        refine ⟨_, rfl, hasher.walk_full collisionless childrenExpand childrenPlaced beyond slots flagsOk placed walked
          (allowed _ List.mem_cons_self) retains done (fun _ _ => rfl) ?_⟩
        rw [valueChild]
        exact valueItem.2 (valueChild ▸ notNil)

include collisionless in
/-- hashChildren, only hashing, on a short or full node that stands for a node
of the tree: the node with its children collapsed, of the tree's item and with
the node's cached hash, as Prove hashes the nodes of a path. -/
theorem hasher.hashChildren_spec (h : hasher) {db : MemDatabase} {n : Node} {tree : HexTree}
    (expands : Expands keccak db n tree) (notHash : ∀ hash, n ≠ .hashNode hash) (canonical : tree.Canonical)
    (shaped : HexShaped tree) (nonempty : tree ≠ .empty) (notLeaf : tree.IsLeaf = false)
    (allowed : ∀ node ∈ nodes tree, encodings (encoding keccak node)) (sound : Sound keccak encodings db) :
    ∃ collapsed cached, h.hashChildren keccak n none = some (collapsed, cached, none) ∧
      collapsed.toItem = collapse keccak tree ∧ collapsed.cache.1 = n.cache.1 ∧ collapsed ≠ .nil ∧
      ∀ hash, collapsed ≠ .hashNode hash := by
  cases expands with
  | nil => exact absurd rfl nonempty
  | valueNode value => cases notLeaf
  | hashNode => exact absurd rfl (notHash _)
  | @shortNode run child flags childTree childExpands childPlaced flagsOk =>
    have proper : (Tree.short run childTree).Proper := canonical.resolve_left nonempty
    by_cases isValue : ∃ value, child = .valueNode value
    · -- a value child is kept as it is
      obtain ⟨value, rfl⟩ := isValue
      cases childExpands
      exact ⟨_, _, rfl, rfl, rfl, (by simp), (by simp)⟩
    · -- any other child is hashed below its parent
      have notValue : ∀ value, child ≠ .valueNode value := fun value same => isValue ⟨value, same⟩
      have childNotLeaf := childExpands.isLeaf_eq_false notValue
      obtain ⟨⟨collapsedVal, cachedVal, dbo'⟩, hashedEq, hashed⟩ :=
        h.hash_spec collisionless childExpands none childPlaced (.inr proper.2.2) shaped.short
          proper.2.2.ne_empty childNotLeaf (fun node member => allowed node (List.mem_cons_of_mem _ member))
          (Retains.refl _) sound
      obtain rfl : dbo' = none := by simpa using hashed.committing
      have item : collapsedVal.toItem = embed keccak (collapse keccak childTree) := hashed.collapsed
      cases childExpands with
      | nil => exact absurd rfl proper.2.2.ne_empty
      | valueNode value => exact absurd rfl (notValue value)
      | shortNode | fullNode | hashNode =>
        unfold hasher.hashChildren
        dsimp only
        rw [hashedEq]
        dsimp only
        split
        · exact absurd rfl hashed.notNil
        · refine ⟨_, _, rfl, ?_, rfl, (by simp), (by simp)⟩
          simp only [Node.toItem, collapse, childNotLeaf, item]
          rfl
  | @fullNode children flags trees childrenExpand childrenPlaced beyond flagsOk =>
    have proper : (Tree.full trees).Proper := canonical.resolve_left nonempty
    -- each nibble child that is not nil hashes below its parent
    have childHashed : ∀ index : Fin 17, index.val ≠ 16 → children index ≠ .nil → ∀ dbo' : Option MemDatabase,
        Retains db (dbo'.getD db) → Sound keccak encodings (dbo'.getD db) →
        ∃ result, h.hash keccak (children index) dbo' false = some result ∧
          Hashed keccak encodings db dbo' false (trees (UInt8.ofNat index.val)) result := by
      intro index notSixteen notNil dbo' retains' sound'
      exact h.hash_spec collisionless (childrenExpand index) dbo' (childrenPlaced index) (proper.1 _) (shaped.full _)
        ((childrenExpand index).ne_empty notNil) (shaped.full_nibble_not_leaf (ofNat_index_lt_sixteen notSixteen))
        (fun node member => allowed node (List.mem_cons_of_mem _ (List.mem_flatMap.mpr ⟨index, List.mem_finRange _, member⟩)))
        retains' sound'
    obtain ⟨collapsed, cached, dbo', loop, done⟩ := hashChildren_done h none childrenExpand sound
      (Retains.refl _) childHashed
    obtain rfl : dbo' = none := by simpa using done.2.2.1
    have slotsDone := done.2.2.2.2.2
    have valueChild : collapsed 16 = children 16 := ((slotsDone 16).1 (.inr rfl)).1
    have valueItem := valueSlot_item (childrenExpand 16) (shaped.full_slots proper beyond 16 (UInt8.le_refl 16))
    unfold hasher.hashChildren
    dsimp only
    rw [loop]
    dsimp only
    -- the value slot: nil is collapsed to the empty value, a value kept
    split
    · next isNil =>
      refine ⟨_, _, rfl, fullNode_item flags (fun index => (slotsDone index).2) (fun index notSixteen => ?_) ?_, rfl,
        (by simp), (by simp)⟩
      · exact Function.update_of_ne (fun same => notSixteen (by rw [same]; rfl)) _ _
      · rw [Function.update_self]
        exact valueItem.1 (valueChild ▸ isNil)
    · next notNil =>
      refine ⟨_, _, rfl, fullNode_item flags (fun index => (slotsDone index).2) (fun _ _ => rfl) ?_, rfl,
        (by simp), (by simp)⟩
      rw [valueChild]
      exact valueItem.2 (valueChild ▸ notNil)

end Hashing

end Meshbox.Trie
