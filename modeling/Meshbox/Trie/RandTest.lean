/-
The random test of trie_test.go, runRandTest, as a run of operations on a trie
that New opens at the zero root over an empty database: updates, deletes and
gets, hashes and commits, a reset that commits and opens the trie again at the
committed root over the same database, and SetCacheLimit, under which a commit
unloads old subtrees to hash nodes that later calls resolve from the database.
The test's iterator and cache-invariant checks are left out.

Beside the trie the test keeps the map it should hold, here a list of pairs in
which a newer pair hides an older one of the same key. The trie refines it: at
every step it spells out the canonical tree of the map, so every get returns
what the map holds, and its root hash is that of the canonical tree, whatever
the history that led to the map.

The hash function is a parameter. The run needs it to have no collision among
the encodings of the nodes of the canonical trees the run passes through, and
none of them to hash to the zero root or the empty root, which New reads as an
empty trie; these encodings are computed from the operations alone.
-/

import Meshbox.Trie.EntryPoints

namespace Meshbox.Trie

open Radix

/-! ### The test -/

/-- The operations of runRandTest that act on the trie, and SetCacheLimit. -/
inductive Op
  | update (key value : List UInt8)
  | delete (key : List UInt8)
  | get (key : List UInt8)
  | commit
  | hash
  | reset
  | setCacheLimit (limit : UInt16)
deriving DecidableEq, Repr

/-- The fuel of a call with the key: two calls per HEX symbol and two more. -/
def opFuel (key : List UInt8) : Nat :=
  2 * (keybytesToHex key).length + 2

/-- The trie runRandTest starts from: New at the zero hash over an empty
database. -/
def startTrie : Outcome MissingNodeError Trie :=
  New zeroRoot NewMemDatabase

namespace Op

variable (keccak : List UInt8 → Meshbox.Hash)

/-- One operation on the trie: the trie after it, and the value a get returns.
none when the operation fails, as the test then stops. -/
def step (t : Trie) : Op → Option (Trie × Option (List UInt8))
  | .update key value =>
    match t.TryUpdate (opFuel key) key value with
    | some (.ok t') => some (t', none)
    | _ => none
  | .delete key =>
    match t.TryDelete (opFuel key) key with
    | some (.ok t') => some (t', none)
    | _ => none
  | .get key =>
    match t.TryGet (opFuel key) key with
    | some (.ok (value, t')) => some (t', value)
    | _ => none
  | .commit => (t.Commit keccak).map fun (_, t') => (t', none)
  | .hash => (t.Hash keccak).map fun (_, t') => (t', none)
  | .reset =>
    match t.Commit keccak with
    | some (root, t') =>
      match New root t'.db with
      | .ok reopened => some (reopened, none)
      | _ => none
    | none => none
  | .setCacheLimit limit => some (t.SetCacheLimit limit, none)

/-- The map the test keeps: an update with a value puts it in front, and an
update with the empty value or a delete removes the key. -/
def apply (pairs : List (List UInt8 × List UInt8)) : Op → List (List UInt8 × List UInt8)
  | .update key value => if value = [] then pairs.filter (fun pair => pair.1 ≠ key) else (key, value) :: pairs
  | .delete key => pairs.filter (fun pair => pair.1 ≠ key)
  | _ => pairs

/-- What an operation should return: a get the value the map holds. -/
def expected (pairs : List (List UInt8 × List UInt8)) : Op → Option (List UInt8)
  | .get key => pairs.lookup key
  | _ => none

end Op

/-- A run of operations from a trie: the value each returns, and the trie after
them; none when one fails. -/
def run (keccak : List UInt8 → Meshbox.Hash) : Trie → List Op → Option (List (Option (List UInt8)) × Trie)
  | t, [] => some ([], t)
  | t, op :: ops =>
    match op.step keccak t with
    | some (t', out) => (run keccak t' ops).map fun (outs, final) => (out :: outs, final)
    | none => none

/-- The map the test keeps after the operations. -/
def values (pairs : List (List UInt8 × List UInt8)) (ops : List Op) : List (List UInt8 × List UInt8) :=
  ops.foldl Op.apply pairs

/-- What the operations should return, from the map. -/
def expected : List (List UInt8 × List UInt8) → List Op → List (Option (List UInt8))
  | _, [] => []
  | pairs, op :: ops => op.expected pairs :: expected (op.apply pairs) ops

/-- The encodings of the nodes of the canonical trees of the maps of the run:
what the hasher may write to the database. -/
def runEncodings (keccak : List UInt8 → Meshbox.Hash) : List (List UInt8 × List UInt8) → List Op → List (List UInt8)
  | pairs, [] => (nodes (canonOf pairs)).map (encoding keccak)
  | pairs, op :: ops => (nodes (canonOf pairs)).map (encoding keccak) ++ runEncodings keccak (op.apply pairs) ops

/-- The root hash after the run from the start, by Trie.Hash. -/
def hashAfter (keccak : List UInt8 → Meshbox.Hash) (ops : List Op) : Option Meshbox.Hash :=
  match startTrie with
  | .ok t => (run keccak t ops).bind fun (_, final) => (final.Hash keccak).map Prod.fst
  | _ => none

/-! ### The canonical tree of the map -/

/-- The canonical tree of a list of pairs holds, at each key, the value of the
first pair whose key has that HEX form. -/
theorem find_canonOf (pairs : List (List UInt8 × List UInt8)) (nonempty : ∀ pair ∈ pairs, pair.2 ≠ [])
    (hex : List UInt8) :
    (canonOf pairs).find hex = (pairs.find? fun pair => decide (keybytesToHex pair.1 = hex)).map Prod.snd := by
  induction pairs with
  | nil => rfl
  | cons pair rest inductionHypothesis =>
    obtain ⟨canonical, keys, -⟩ := canonOf_spec rest fun other member => nonempty other (List.mem_cons_of_mem _ member)
    have compatible := keys.compatible (keybytesToHex_terminated pair.1)
    rw [canonOf, List.foldr_cons, ← canonOf, Tree.find_insert canonical compatible]
    by_cases same : hex = keybytesToHex pair.1
    · subst same
      simp
    · rw [Function.update_of_ne same, List.find?_cons_of_neg (by simpa using Ne.symm same),
        inductionHypothesis fun other member => nonempty other (List.mem_cons_of_mem _ member)]

/-- Removing a key's pairs from the map deletes its HEX key from the canonical
tree. -/
theorem canonOf_filter (pairs : List (List UInt8 × List UInt8)) (nonempty : ∀ pair ∈ pairs, pair.2 ≠ [])
    (key : List UInt8) :
    canonOf (pairs.filter fun pair => pair.1 ≠ key) = (canonOf pairs).delete (keybytesToHex key) := by
  have filteredNonempty : ∀ pair ∈ pairs.filter (fun pair => pair.1 ≠ key), pair.2 ≠ [] :=
    fun pair member => nonempty pair (List.mem_of_mem_filter member)
  obtain ⟨canonical, keys, -⟩ := canonOf_spec pairs nonempty
  have compatible := keys.compatible (keybytesToHex_terminated key)
  refine Tree.Canonical.eq_of_find_eq (canonOf_spec _ filteredNonempty).1 (Tree.canonical_delete canonical compatible)
    (funext fun hex => ?_)
  rw [find_canonOf _ filteredNonempty, Tree.find_delete canonical compatible, List.find?_filter]
  by_cases same : hex = keybytesToHex key
  · -- no pair left has the key's HEX form
    subst same
    rw [Function.update_self, Option.map_eq_none_iff, List.find?_eq_none]
    intro pair _ both
    simp only [Bool.decide_and, Bool.and_eq_true, decide_eq_true_eq] at both
    exact both.1 (keybytesToHex_injective both.2)
  · -- a pair of another HEX form has another key
    rw [Function.update_of_ne same, find_canonOf pairs nonempty]
    congr 2
    funext pair
    by_cases found : keybytesToHex pair.1 = hex
    · have different : pair.1 ≠ key := fun isKey => same (isKey ▸ found.symm)
      simp [found, different]
    · simp [found]

/-- Maps that hold the same values have the same canonical tree. -/
theorem canonOf_eq_of_lookup_eq {first second : List (List UInt8 × List UInt8)}
    (firstNonempty : ∀ pair ∈ first, pair.2 ≠ []) (secondNonempty : ∀ pair ∈ second, pair.2 ≠ [])
    (same : ∀ key, first.lookup key = second.lookup key) : canonOf first = canonOf second := by
  refine Tree.Canonical.eq_of_find_eq (canonOf_spec first firstNonempty).1 (canonOf_spec second secondNonempty).1
    (funext fun hex => ?_)
  by_cases image : ∃ key, keybytesToHex key = hex
  · obtain ⟨key, rfl⟩ := image
    rw [(canonOf_spec first firstNonempty).2.2 key, (canonOf_spec second secondNonempty).2.2 key, same key]
  · -- a key that is no HEX form of bytes is in neither tree
    have absent : ∀ pairs : List (List UInt8 × List UInt8),
        (pairs.find? fun pair => decide (keybytesToHex pair.1 = hex)) = none := fun pairs =>
      List.find?_eq_none.mpr fun pair _ found => image ⟨pair.1, by simpa using found⟩
    rw [find_canonOf first firstNonempty, find_canonOf second secondNonempty, absent, absent]

/-! ### One operation -/

theorem Op.apply_nonempty (op : Op) {pairs : List (List UInt8 × List UInt8)} (nonempty : ∀ pair ∈ pairs, pair.2 ≠ []) :
    ∀ pair ∈ op.apply pairs, pair.2 ≠ [] := by
  have filtered : ∀ key, ∀ pair ∈ pairs.filter (fun pair => pair.1 ≠ key), pair.2 ≠ [] :=
    fun _ pair member => nonempty pair (List.mem_of_mem_filter member)
  cases op with
  | update key value =>
    rw [Op.apply]
    split
    · exact filtered key
    · next written =>
      intro pair member
      rcases List.mem_cons.mp member with rfl | older
      · exact written
      · exact nonempty pair older
  | delete key => exact filtered key
  | get | commit | hash | reset | setCacheLimit => exact nonempty

/-- The canonical tree after an update is the tree with the value put at the
key's HEX form, or with it removed for the empty value. -/
theorem canonOf_apply_update {pairs : List (List UInt8 × List UInt8)} (nonempty : ∀ pair ∈ pairs, pair.2 ≠ [])
    (key value : List UInt8) :
    canonOf ((Op.update key value).apply pairs) =
      if value = [] then (canonOf pairs).delete (keybytesToHex key) else (canonOf pairs).insert (keybytesToHex key) value := by
  rw [Op.apply]
  split
  · exact canonOf_filter pairs nonempty key
  · rfl

section Steps

variable {keccak : List UInt8 → Meshbox.Hash} {encodings : List UInt8 → Prop}
  (collisionless : Collisionless keccak encodings) (fits : ∀ enc, encodings enc → enc.length < 2 ^ 64)

include collisionless fits in
/-- One operation on a trie that spells out the canonical tree of the map
returns what the map says and leaves a trie for the canonical tree of the map
after it. -/
theorem Op.step_spec (op : Op) {t : Trie} {pairs : List (List UInt8 × List UInt8)}
    (spells : t.Spells keccak encodings (canonOf pairs)) (nonempty : ∀ pair ∈ pairs, pair.2 ≠ [])
    (allowed : ∀ node ∈ nodes (canonOf pairs), encodings (encoding keccak node)) :
    ∃ t', op.step keccak t = some (t', op.expected pairs) ∧ t'.Spells keccak encodings (canonOf (op.apply pairs)) := by
  cases op with
  | update key value =>
    obtain ⟨t', updated, spells', -⟩ := Trie.TryUpdate_spec fits spells key value (Nat.le_refl (opFuel key))
    refine ⟨t', ?_, ?_⟩
    · rw [Op.step, updated]
      rfl
    · rw [canonOf_apply_update nonempty]
      exact spells'
  | delete key =>
    obtain ⟨t', deleted, spells', -⟩ := Trie.TryDelete_spec fits spells key (Nat.le_refl (opFuel key))
    refine ⟨t', ?_, ?_⟩
    · rw [Op.step, deleted]
      rfl
    · rw [Op.apply, canonOf_filter pairs nonempty]
      exact spells'
  | get key =>
    obtain ⟨t', read, spells', -⟩ := Trie.TryGet_spec fits spells key (Nat.le_refl (opFuel key))
    refine ⟨t', ?_, spells'⟩
    rw [Op.step, read, (canonOf_spec pairs nonempty).2.2 key]
    rfl
  | commit =>
    obtain ⟨t', committed, spells', -, -⟩ := Trie.Commit_spec collisionless spells allowed
    refine ⟨t', ?_, spells'⟩
    rw [Op.step, committed]
    rfl
  | hash =>
    obtain ⟨t', hashed, spells', -⟩ := Trie.Hash_spec collisionless spells allowed
    refine ⟨t', ?_, spells'⟩
    rw [Op.step, hashed]
    rfl
  | reset =>
    -- the committed root opens the same tree from the database
    obtain ⟨t', committed, spells', -, stored⟩ := Trie.Commit_spec collisionless spells allowed
    obtain ⟨reopened, opened, spells'', -⟩ :=
      New_spec collisionless fits spells'.sound spells'.canonical spells'.keys allowed stored
    refine ⟨reopened, ?_, spells''⟩
    rw [Op.step, committed]
    simp only
    rw [opened]
    rfl
  | setCacheLimit limit =>
    exact ⟨_, rfl, ⟨spells.expands, spells.placed, spells.canonical, spells.keys, spells.sound⟩⟩

/-! ### Whole runs -/

theorem startTrie_eq : startTrie = .ok ⟨.nil, NewMemDatabase, zeroRoot, 0, 0⟩ := by
  simp [startTrie, New]

/-- The empty trie spells out the empty tree, the canonical tree of the empty
map, over the empty database. -/
theorem start_spells {keccak : List UInt8 → Meshbox.Hash} {encodings : List UInt8 → Prop} :
    (⟨.nil, NewMemDatabase, zeroRoot, 0, 0⟩ : Trie).Spells keccak encodings (canonOf []) := by
  refine ⟨.nil, trivial, .inl rfl, fun _ _ found => (by cases found), fun _ _ held => ?_⟩
  simp [MemDatabase.Get, NewMemDatabase] at held


/-- The canonical tree at the end of the run is one the run passes through. -/
theorem encoding_mem_runEncodings (ops : List Op) :
    ∀ {pairs : List (List UInt8 × List UInt8)}, ∀ node ∈ nodes (canonOf (values pairs ops)),
      encoding keccak node ∈ runEncodings keccak pairs ops := by
  induction ops with
  | nil => exact fun node member => List.mem_map_of_mem member
  | cons op ops inductionHypothesis =>
    exact fun node member => List.mem_append_right _ (inductionHypothesis node member)

include collisionless fits in
/-- A run on a trie that spells out the canonical tree of the map returns what
the map says at every step, and ends with a trie for the canonical tree of the
map after the run. By induction on the operations, from the step lemma. -/
theorem run_spec (ops : List Op) :
    ∀ {t : Trie} {pairs : List (List UInt8 × List UInt8)}, t.Spells keccak encodings (canonOf pairs) →
      (∀ pair ∈ pairs, pair.2 ≠ []) → (∀ enc ∈ runEncodings keccak pairs ops, encodings enc) →
      ∃ final, run keccak t ops = some (expected pairs ops, final) ∧
        final.Spells keccak encodings (canonOf (values pairs ops)) := by
  induction ops with
  | nil => exact fun spells _ _ => ⟨_, rfl, spells⟩
  | cons op ops inductionHypothesis =>
    intro t pairs spells nonempty allowed
    have allowedHere : ∀ node ∈ nodes (canonOf pairs), encodings (encoding keccak node) :=
      fun node member => allowed _ (List.mem_append_left _ (List.mem_map_of_mem member))
    obtain ⟨t', stepped, spells'⟩ := op.step_spec collisionless fits spells nonempty allowedHere
    obtain ⟨final, ran, finalSpells⟩ :=
      inductionHypothesis spells' (op.apply_nonempty nonempty) fun enc member => allowed enc (List.mem_append_right _ member)
    refine ⟨final, ?_, finalSpells⟩
    rw [run, stepped]
    simp only
    rw [ran]
    rfl

theorem values_nonempty (ops : List Op) :
    ∀ {pairs : List (List UInt8 × List UInt8)}, (∀ pair ∈ pairs, pair.2 ≠ []) → ∀ pair ∈ values pairs ops, pair.2 ≠ [] := by
  induction ops with
  | nil => exact fun nonempty => nonempty
  | cons op ops inductionHypothesis => exact fun nonempty => inductionHypothesis (op.apply_nonempty nonempty)

include collisionless fits in
/-- After a run from the start, Hash gives the root hash of the canonical tree
of the map. -/
theorem hashAfter_spec (ops : List Op) (allowed : ∀ enc ∈ runEncodings keccak [] ops, encodings enc) :
    hashAfter keccak ops = some (rootHash keccak (canonOf (values [] ops))) := by
  obtain ⟨final, ran, spells⟩ := run_spec collisionless fits ops start_spells (by simp) allowed
  obtain ⟨t', hashed, -, -⟩ :=
    Trie.Hash_spec collisionless spells fun node member => allowed _ (encoding_mem_runEncodings ops node member)
  rw [hashAfter, startTrie_eq]
  simp only
  rw [ran, Option.bind_some]
  simp only
  rw [hashed]
  rfl

end Steps

/-- The hypotheses on the hash function, over a list of encodings: no two have
one hash, and none has the hash of the zero root or of the empty root. -/
theorem collisionless_of_list {keccak : List UInt8 → Meshbox.Hash} {encodings : List (List UInt8)}
    (distinct : ∀ first ∈ encodings, ∀ second ∈ encodings, keccak first = keccak second → first = second)
    (notRoots : ∀ enc ∈ encodings, keccak enc ≠ zeroRoot ∧ keccak enc ≠ emptyRoot) :
    Collisionless keccak (· ∈ encodings) :=
  ⟨fun first second firstMember secondMember same => distinct first firstMember second secondMember same, notRoots⟩

/-- The trie of runRandTest refines the map the test keeps: from the empty trie
New opens at the zero root, every run of updates, deletes, gets, hashes,
commits, resets and cache limits succeeds, and every get returns the value of
the key's last update with a value that no delete or empty update followed, and
nothing otherwise. The hash function has no collision on the encodings of the
run, none of them hashes to the zero or the empty root, and each fits RLP's
sizes. -/
theorem runRandTest_refines_map (keccak : List UInt8 → Meshbox.Hash) (ops : List Op)
    (distinct : ∀ first ∈ runEncodings keccak [] ops, ∀ second ∈ runEncodings keccak [] ops,
      keccak first = keccak second → first = second)
    (notRoots : ∀ enc ∈ runEncodings keccak [] ops, keccak enc ≠ zeroRoot ∧ keccak enc ≠ emptyRoot)
    (fits : ∀ enc ∈ runEncodings keccak [] ops, enc.length < 2 ^ 64) :
    ∃ t final, startTrie = .ok t ∧ run keccak t ops = some (expected [] ops, final) := by
  obtain ⟨final, ran, -⟩ :=
    run_spec (collisionless_of_list distinct notRoots) fits ops start_spells (by simp) fun _ member => member
  exact ⟨_, final, startTrie_eq, ran⟩

/-- A hash function given by a table of digests: the digest the table lists for
an input, zero for any other. -/
def digestTable (table : List (List UInt8 × Meshbox.Hash)) (enc : List UInt8) : Meshbox.Hash :=
  (table.lookup enc).getD (Vector.replicate 32 0)

/-- Keccak-256 on the encodings of the trees of the runs below. -/
def randTestKeccak : List UInt8 → Meshbox.Hash :=
  digestTable [
    ([0xc4, 0x82, 0x20, 0x01, 0x02],
      #v[0x40, 0xd0, 0xcb, 0x72, 0x09, 0x88, 0x92, 0x56, 0x0f, 0x0a, 0x6e, 0x34, 0x9b, 0xdc, 0x55, 0xb8,
        0x05, 0x01, 0x97, 0x8f, 0x96, 0x5f, 0x19, 0x94, 0xd0, 0x57, 0x08, 0x68, 0x50, 0xad, 0xab, 0xb7]),
    ([0xd7, 0x10, 0xd5, 0x80, 0xc2, 0x20, 0x02, 0x80, 0xc2, 0x20, 0x04] ++ List.replicate 13 0x80,
      #v[0x42, 0xa0, 0xb5, 0x64, 0x6c, 0x1b, 0xd4, 0xbb, 0xeb, 0x68, 0x75, 0xb7, 0xc7, 0xcd, 0x12, 0xab,
        0x84, 0xd1, 0x58, 0x04, 0x18, 0x65, 0x83, 0x9a, 0x2a, 0x5b, 0x4c, 0x21, 0xf2, 0xf1, 0xc3, 0xb0]),
    ([0xd5, 0x80, 0xc2, 0x20, 0x02, 0x80, 0xc2, 0x20, 0x04] ++ List.replicate 13 0x80,
      #v[0xe8, 0x50, 0x85, 0xfe, 0xfe, 0xca, 0x5c, 0x1d, 0x89, 0xdd, 0x02, 0x5f, 0x3c, 0xa8, 0xde, 0xc0,
        0xea, 0x73, 0x70, 0xcc, 0xaa, 0xf9, 0xf7, 0x4a, 0x8d, 0xbf, 0x79, 0x2b, 0x4f, 0x36, 0xd4, 0x5c]),
    ([0xc2, 0x20, 0x02],
      #v[0x1e, 0x11, 0x65, 0x69, 0xfc, 0x77, 0xf5, 0xd4, 0x72, 0x1a, 0xc6, 0x0c, 0xbb, 0xee, 0xe7, 0xbd,
        0xf4, 0x03, 0x44, 0x51, 0x1d, 0x9c, 0x4b, 0x1a, 0xc6, 0xac, 0x9e, 0x6a, 0x8a, 0xe3, 0xc4, 0xe7]),
    ([0xc2, 0x20, 0x04],
      #v[0x17, 0xa7, 0x0b, 0x53, 0x30, 0x5b, 0xe8, 0xed, 0x5a, 0x98, 0x79, 0x2c, 0xbb, 0xcc, 0x52, 0x77,
        0xf4, 0x39, 0x79, 0x42, 0xa3, 0x60, 0x00, 0xdf, 0x8d, 0xe4, 0x6d, 0x27, 0x78, 0x3d, 0xdc, 0x13]),
    ([0xc4, 0x82, 0x20, 0x03, 0x04],
      #v[0x5e, 0x27, 0x8c, 0x85, 0x22, 0xce, 0xdb, 0xec, 0x04, 0x6a, 0x80, 0x28, 0x70, 0x46, 0x0b, 0x5e,
        0x62, 0x4d, 0x85, 0x97, 0x89, 0x8a, 0x83, 0x1e, 0xfe, 0xa5, 0x68, 0xc9, 0xe5, 0x5e, 0x7b, 0x4b]),
    ([0xd7, 0x10, 0xd5, 0x80, 0xc2, 0x20, 0x05, 0x80, 0xc2, 0x20, 0x04] ++ List.replicate 13 0x80,
      #v[0x71, 0x82, 0xcc, 0x16, 0x2f, 0xab, 0xf2, 0x39, 0x8d, 0xc9, 0xe5, 0x59, 0x98, 0x1b, 0xaa, 0x61,
        0x71, 0xaf, 0x6e, 0x25, 0xba, 0x14, 0x4a, 0x0b, 0x65, 0xd5, 0x27, 0x28, 0x95, 0x22, 0xeb, 0xc5]),
    ([0xd5, 0x80, 0xc2, 0x20, 0x05, 0x80, 0xc2, 0x20, 0x04] ++ List.replicate 13 0x80,
      #v[0x72, 0x6e, 0xd7, 0x2b, 0x97, 0x19, 0xdb, 0x5d, 0x4f, 0x73, 0xd7, 0x6d, 0x50, 0x27, 0xda, 0x65,
        0x44, 0xcc, 0x7a, 0xc7, 0x91, 0x2a, 0x42, 0xff, 0x08, 0xe5, 0x7b, 0xbd, 0xad, 0x0c, 0xab, 0xa4]),
    ([0xc2, 0x20, 0x05],
      #v[0xd2, 0x1b, 0x3a, 0x1a, 0xda, 0x99, 0x87, 0xe5, 0x0e, 0x2b, 0x4d, 0xc8, 0x05, 0xbe, 0x4b, 0xea,
        0x8c, 0xe4, 0x45, 0xe5, 0x6f, 0x20, 0xff, 0x15, 0x36, 0x18, 0x8e, 0xdb, 0x1e, 0xf2, 0x8b, 0xc0])]

/-- A run that commits, unloads the root to its hash node under the cache limit
0, resolves it back on a get, reopens the trie at the committed root, and
deletes the key. -/
def unloadingRun : List Op :=
  [.update [1] [2], .get [1], .commit, .setCacheLimit 0, .commit, .get [1], .reset, .get [1], .delete [1], .get [1]]

example : expected [] unloadingRun = [none, some [2], none, none, none, some [2], none, some [2], none, none] := by
  decide

theorem runRandTest_refines_map_unloading :
    ∃ t final, startTrie = .ok t ∧ run randTestKeccak t unloadingRun = some (expected [] unloadingRun, final) :=
  runRandTest_refines_map randTestKeccak unloadingRun (by decide) (by decide) (by decide)

/-- The root hash is a function of the map alone: two runs from the empty trie
that leave the same map give the same root hash, the root hash of the canonical
tree of the map, whatever updates, deletes, hashes, commits, resets and cache
limits led there. The hash function is as in runRandTest_refines_map, over the
encodings of both runs. -/
theorem hashAfter_history_independent (keccak : List UInt8 → Meshbox.Hash) (first second : List Op)
    (distinct : ∀ a ∈ runEncodings keccak [] first ++ runEncodings keccak [] second,
      ∀ b ∈ runEncodings keccak [] first ++ runEncodings keccak [] second, keccak a = keccak b → a = b)
    (notRoots : ∀ enc ∈ runEncodings keccak [] first ++ runEncodings keccak [] second,
      keccak enc ≠ zeroRoot ∧ keccak enc ≠ emptyRoot)
    (fits : ∀ enc ∈ runEncodings keccak [] first ++ runEncodings keccak [] second, enc.length < 2 ^ 64)
    (sameMap : ∀ key, (values [] first).lookup key = (values [] second).lookup key) :
    hashAfter keccak first = some (rootHash keccak (canonOf (values [] first))) ∧
      hashAfter keccak second = hashAfter keccak first := by
  have collisionless := collisionless_of_list distinct notRoots
  have firstHash := hashAfter_spec collisionless fits first fun _ member => List.mem_append_left _ member
  have secondHash := hashAfter_spec collisionless fits second fun _ member => List.mem_append_right _ member
  have sameTree : canonOf (values [] second) = canonOf (values [] first) :=
    (canonOf_eq_of_lookup_eq (values_nonempty first (by simp)) (values_nonempty second (by simp)) sameMap).symm
  rw [secondHash, firstHash, sameTree]
  exact ⟨rfl, rfl⟩

/-- Two histories of one map: the keys put in the other order, the first key
overwritten, and a hash in between. -/
def firstHistory : List Op :=
  [.update [1] [2], .update [3] [4]]

def secondHistory : List Op :=
  [.update [3] [4], .hash, .update [1] [5], .commit, .update [1] [2]]

theorem values_histories : values [] firstHistory = [([3], [4]), ([1], [2])] ∧
    values [] secondHistory = [([1], [2]), ([1], [5]), ([3], [4])] := by
  decide

theorem lookup_histories (key : List UInt8) :
    (values [] firstHistory).lookup key = (values [] secondHistory).lookup key := by
  rw [values_histories.1, values_histories.2]
  by_cases one : key = [1]
  · subst one
    decide
  · by_cases three : key = [3]
    · subst three
      decide
    · simp only [List.lookup, beq_false_of_ne one, beq_false_of_ne three]

theorem hashAfter_history_independent_two_histories :
    hashAfter randTestKeccak firstHistory = some (rootHash randTestKeccak (canonOf (values [] firstHistory))) ∧
      hashAfter randTestKeccak secondHistory = hashAfter randTestKeccak firstHistory :=
  hashAfter_history_independent randTestKeccak firstHistory secondHistory (by decide) (by decide) (by decide)
    lookup_histories

end Meshbox.Trie
