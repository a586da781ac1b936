/-
Insertion into and deletion from a radix tree, done the way a path-compressed
trie does them in place. Insertion follows the run of a short node as far as
the key agrees with it; where they part, the short node is split into a full
node with two children, under a short node for the run they share. Deletion
removes the key's leaf and restores the canonical form on the way up: a full
node left with one child becomes a short node, and a short node whose child
became short absorbs the child's run.

Both are correct for keys of which none is a proper prefix of another, the
only keys a radix tree whose values sit at leaves can hold: the tree then
holds the map updated at the key, and stays canonical. Insertion needs no
choice and computes; deletion decides whether a full node has one child left
over an arbitrary alphabet, which is classical.
-/

import Meshbox.Library.Radix
import Mathlib.Logic.Function.Basic

namespace Radix

variable {α V : Type} [DecidableEq α]

/-- The length of the longest common prefix of two keys. -/
def matchLen : List α → List α → Nat
  | x :: xs, y :: ys => if x = y then matchLen xs ys + 1 else 0
  | _, _ => 0

/-! ### Common prefixes -/

theorem matchLen_nil_left (b : List α) : matchLen [] b = 0 := rfl

theorem matchLen_nil_right (a : List α) : matchLen a [] = 0 := by
  cases a <;> rfl

theorem matchLen_cons_cons (x y : α) (xs ys : List α) :
    matchLen (x :: xs) (y :: ys) = if x = y then matchLen xs ys + 1 else 0 := rfl

theorem matchLen_le_right (a b : List α) : matchLen a b ≤ b.length := by
  induction a generalizing b with
  | nil => simp [matchLen_nil_left]
  | cons x xs inductionHypothesis =>
    cases b with
    | nil => simp [matchLen_nil_right]
    | cons y ys =>
      rw [matchLen_cons_cons]
      split
      · simpa using inductionHypothesis ys
      · simp

/-- Both keys agree up to their common length. -/
theorem take_matchLen (a b : List α) : a.take (matchLen a b) = b.take (matchLen a b) := by
  induction a generalizing b with
  | nil => simp [matchLen_nil_left]
  | cons x xs inductionHypothesis =>
    cases b with
    | nil => simp [matchLen_nil_right]
    | cons y ys =>
      rw [matchLen_cons_cons]
      split
      · next same => simp [same, inductionHypothesis ys]
      · simp

/-- The keys differ right after their common prefix. -/
theorem getElem?_matchLen_ne {a b : List α} {x y : α} (first : a[matchLen a b]? = some x)
    (second : b[matchLen a b]? = some y) : x ≠ y := by
  induction a generalizing b with
  | nil => simp [matchLen_nil_left] at first
  | cons head tail inductionHypothesis =>
    cases b with
    | nil => simp [matchLen_nil_right] at second
    | cons other rest =>
      by_cases same : head = other
      · rw [matchLen_cons_cons, if_pos same] at first second
        exact inductionHypothesis first second
      · rw [matchLen_cons_cons, if_neg same] at first second
        simp only [List.getElem?_cons_zero, Option.some.injEq] at first second
        rw [← first, ← second]
        exact same

/-- The whole of run is common to key exactly when run starts key. -/
theorem matchLen_eq_length_iff {key run : List α} : matchLen key run = run.length ↔ run <+: key := by
  induction key generalizing run with
  | nil => cases run <;> simp [matchLen_nil_left]
  | cons head tail inductionHypothesis =>
    cases run with
    | nil => simp [matchLen_nil_right]
    | cons other rest =>
      by_cases same : head = other
      · subst same
        simp [matchLen_cons_cons, inductionHypothesis]
      · simp [matchLen_cons_cons, same, Ne.symm same]

namespace Tree

/-- A tree hung below a run of symbols: a short node, or the tree itself when
the run is empty. -/
def extend (run : List α) (child : Tree α V) : Tree α V :=
  if run = [] then child else short run child

/-- The tree with value put at key. A key that leaves a short node's run splits
it at the first symbol where they differ; a key that runs into a leaf is not
one the tree can hold, and leaves it unchanged. -/
def insert : Tree α V → List α → V → Tree α V
  | _, [], value => leaf value
  | empty, key@(_ :: _), value => short key (leaf value)
  | leaf old, _ :: _, _ => leaf old
  | short run child, key@(_ :: _), value =>
    let common := matchLen key run
    if common = run.length then short run (child.insert (key.drop common) value)
    else
      match run[common]?, key[common]? with
      | some runSymbol, some keySymbol =>
        let branch := full (Function.update (Function.update (fun _ => empty) runSymbol
          (extend (run.drop (common + 1)) child)) keySymbol (extend (key.drop (common + 1)) (leaf value)))
        if common = 0 then branch else short (key.take common) branch
      | _, _ => short run child
  | full children, symbol :: rest, value =>
    full (Function.update children symbol ((children symbol).insert rest value))

/-- The node that replaces a full node left with one child, at symbol: a short
child takes the symbol in front of its run, any other child gets a short node
of the symbol above it. -/
def merge (symbol : α) : Tree α V → Tree α V
  | short run child => short (symbol :: run) child
  | other => short [symbol] other

open Classical in
/-- A full node after a deletion below it: merged into a short node when at
most one child is left, kept otherwise. -/
noncomputable def reduce (children : α → Tree α V) : Tree α V :=
  if only : ∃ symbol, ∀ other, other ≠ symbol → children other = empty then
    merge only.choose (children only.choose)
  else full children

/-- The tree with key removed. A leaf the key reaches is removed with its short
node; a full node whose child shrank is reduced, and a short node whose child
became short absorbs its run. -/
noncomputable def delete : Tree α V → List α → Tree α V
  | empty, _ => empty
  | leaf _, _ => empty
  | short run child, key =>
    let common := matchLen key run
    if common < run.length then short run child
    else if common = key.length then empty
    else
      match child.delete (key.drop run.length) with
      | short childRun grandchild => short (run ++ childRun) grandchild
      | other => short run other
  | full children, [] => full children
  | full children, symbol :: rest =>
    reduce (Function.update children symbol ((children symbol).delete rest))

/-- No key the tree holds is a proper prefix of key, nor key a proper prefix of
one of them. -/
def Compatible (tree : Tree α V) (key : List α) : Prop :=
  ∀ other value, tree.find other = some value → other <+: key ∨ key <+: other → other = key

/-! ### Lookups through the new nodes -/

@[simp] theorem find_short_nil (child : Tree α V) : (short [] child).find = child.find := by
  funext key
  simp [find_short]

theorem find_extend (run : List α) (child : Tree α V) :
    (extend run child).find = (short run child).find := by
  unfold extend
  split
  · next isEmpty =>
    rw [isEmpty, find_short_nil]
  · rfl

/-- A short node below a short node finds what one short node of both runs
finds. -/
theorem find_short_short (first second : List α) (child : Tree α V) :
    (short first (short second child)).find = (short (first ++ second) child).find := by
  funext key
  by_cases starts : first <+: key
  · obtain ⟨rest, rfl⟩ := starts
    simp [find_short, List.prefix_append_right_inj]
  · have notBoth : ¬ (first ++ second) <+: key := fun both =>
      starts ((List.prefix_append first second).trans both)
    simp [find_short, starts, notBoth]

theorem find_merge (symbol : α) (child : Tree α V) :
    (merge symbol child).find = (short [symbol] child).find := by
  cases child with
  | short run grandchild => exact (find_short_short [symbol] run grandchild).symm
  | _ => rfl

/-- A short node of one symbol finds what a full node with one child finds. -/
theorem find_short_singleton (symbol : α) (child : Tree α V) :
    (short [symbol] child).find = (full (Function.update (fun _ => empty) symbol child)).find := by
  funext key
  match key with
  | [] => simp [find_short]
  | first :: rest =>
    by_cases same : first = symbol
    · subst same
      simp [find_short]
    · simp [find_short, Ne.symm same, same]

/-- Reducing a full node keeps what it finds. -/
theorem find_reduce (children : α → Tree α V) : (reduce children).find = (full children).find := by
  unfold reduce
  split
  · next only =>
    have single : children = Function.update (fun _ => empty) only.choose (children only.choose) := by
      funext other
      by_cases same : other = only.choose
      · rw [same, Function.update_self]
      · rw [Function.update_of_ne same, only.choose_spec other same]
    rw [find_merge, find_short_singleton, ← single]
  · rfl

theorem find_short_congr {first second : Tree α V} (same : first.find = second.find) (run : List α) :
    (short run first).find = (short run second).find := by
  funext key
  simp only [find_short, same]

theorem find_full_congr {first second : α → Tree α V} (same : ∀ symbol, (first symbol).find = (second symbol).find) :
    (full first).find = (full second).find := by
  funext key
  cases key with
  | nil => rfl
  | cons symbol rest => simp only [find_full_cons, same]

/-- A short node over a leaf holds one key. -/
theorem find_short_leaf (run : List α) (value : V) :
    (short run (leaf value)).find = Function.update (fun _ => none) run (some value) := by
  funext key
  by_cases starts : run <+: key
  · obtain ⟨rest, rfl⟩ := starts
    cases rest with
    | nil => simpa using find_short_append run (leaf value) []
    | cons symbol below => simp
  · have different : key ≠ run := fun same => starts (same ▸ List.prefix_refl run)
    simp [find_short, starts, Function.update_of_ne different]

/-- A change below a short node is the change at the key through its run. -/
theorem find_short_update {child changed : Tree α V} {rest : List α} {result : Option V}
    (change : changed.find = Function.update child.find rest result) (run : List α) :
    (short run changed).find = Function.update (short run child).find (run ++ rest) result := by
  funext key
  by_cases starts : run <+: key
  · obtain ⟨below, rfl⟩ := starts
    simp [change, Function.update_apply]
  · have different : key ≠ run ++ rest := fun same => starts (same ▸ List.prefix_append run rest)
    simp [find_short, starts, Function.update_of_ne different]

/-- A change below one child of a full node is the change at the key through
the child's symbol. -/
theorem find_full_update {children : α → Tree α V} {symbol : α} {changed : Tree α V} {rest : List α}
    {result : Option V} (change : changed.find = Function.update (children symbol).find rest result) :
    (full (Function.update children symbol changed)).find =
      Function.update (full children).find (symbol :: rest) result := by
  funext key
  cases key with
  | nil => simp
  | cons first below =>
    by_cases same : first = symbol
    · subst same
      simp [change, Function.update_apply]
    · simp [same]

/-! ### Compatible keys -/

namespace Compatible

variable {tree : Tree α V} {key : List α}

theorem short {run rest : List α} {child : Tree α V}
    (compatible : (Tree.short run child).Compatible (run ++ rest)) : child.Compatible rest := by
  intro other value found related
  have inParent : (Tree.short run child).find (run ++ other) = some value := by
    rw [find_short_append, found]
  have lifted : run ++ other <+: run ++ rest ∨ run ++ rest <+: run ++ other := by
    simpa only [List.prefix_append_right_inj] using related
  simpa using compatible _ _ inParent lifted

theorem full {children : α → Tree α V} {symbol : α} {rest : List α}
    (compatible : (Tree.full children).Compatible (symbol :: rest)) :
    (children symbol).Compatible rest := by
  intro other value found related
  have inParent : (Tree.full children).find (symbol :: other) = some value := by
    rw [find_full_cons, found]
  have lifted : symbol :: other <+: symbol :: rest ∨ symbol :: rest <+: symbol :: other := by
    simpa only [List.cons_prefix_cons, true_and] using related
  simpa using compatible _ _ inParent lifted

/-- Nor does the tree hold a key that extends key. -/
theorem find_of_extends (compatible : tree.Compatible key) {other : List α}
    (extended : key <+: other) (different : other ≠ key) : tree.find other = none := by
  cases found : tree.find other with
  | none => rfl
  | some value => exact absurd (compatible other value found (.inr extended)) different

/-- A key compatible with a leaf is the empty key, which the leaf holds. -/
theorem eq_nil_of_leaf {value : V} (compatible : (Tree.leaf value : Tree α V).Compatible key) : key = [] :=
  (compatible [] value rfl (.inl List.nil_prefix)).symm

/-- A key compatible with a proper full node is not empty: the empty key is a
prefix of every key the node holds, none of which is empty. -/
theorem ne_nil_of_full {children : α → Tree α V} (proper : (Tree.full children).Proper)
    (compatible : (Tree.full children).Compatible key) : key ≠ [] := by
  rintro rfl
  obtain ⟨other, value, found⟩ := proper.exists_find
  have same := compatible other value found (.inr List.nil_prefix)
  subst same
  simp at found

/-- A canonical tree compatible with the empty key holds no other key: it is
empty or a leaf. -/
theorem nil_cases (canonical : tree.Canonical) (compatible : tree.Compatible []) :
    tree = .empty ∨ tree.IsLeaf = true := by
  rcases canonical with isEmpty | proper
  · exact .inl isEmpty
  · obtain ⟨other, value, found⟩ := proper.exists_find
    have same := compatible other value found (.inr List.nil_prefix)
    subst same
    cases tree with
    | empty => exact .inl rfl
    | leaf old => exact .inr rfl
    | short run child =>
      rw [find_short] at found
      split at found
      · rename_i starts
        exact absurd (List.prefix_nil.mp starts) proper.1
      · cases found
    | full children => simp at found

end Compatible

/-! ### Insertion -/

@[simp] theorem insert_nil (tree : Tree α V) (value : V) : tree.insert [] value = leaf value := by
  cases tree <;> rfl

/-- At the empty key the tree becomes a leaf, which holds what it did: no other
key can be compatible with the empty one. -/
theorem find_insert_nil {tree : Tree α V} (compatible : tree.Compatible []) (value : V) :
    (tree.insert [] value).find = Function.update tree.find [] (some value) := by
  funext key
  cases key with
  | nil => simp
  | cons symbol rest =>
    have nothing := compatible.find_of_extends List.nil_prefix (List.cons_ne_nil symbol rest)
    rw [insert_nil, find_leaf_cons, Function.update_of_ne (List.cons_ne_nil symbol rest), nothing]

omit [DecidableEq α] in
/-- A list is its part before index common, the symbol there, and the rest. -/
theorem eq_take_append_cons {key : List α} {common : Nat} {symbol : α}
    (at_ : key[common]? = some symbol) :
    key = key.take common ++ symbol :: key.drop (common + 1) := by
  obtain ⟨bounded, rfl⟩ := List.getElem?_eq_some_iff.mp at_
  rw [← List.drop_eq_getElem_cons bounded, List.take_append_drop]

/-- The full node a split makes holds the short node's keys and the new one. -/
theorem find_split {run key : List α} {child : Tree α V} {runSymbol keySymbol : α}
    (runAt : run[matchLen key run]? = some runSymbol) (keyAt : key[matchLen key run]? = some keySymbol)
    (value : V) :
    (extend (key.take (matchLen key run)) (full (Function.update (Function.update (fun _ => empty)
        runSymbol (extend (run.drop (matchLen key run + 1)) child)) keySymbol
        (extend (key.drop (matchLen key run + 1)) (leaf value))))).find =
      Function.update (short run child).find key (some value) := by
  set common := matchLen key run with commonEq
  have different : keySymbol ≠ runSymbol := getElem?_matchLen_ne keyAt runAt
  have shared : key.take common = run.take common := take_matchLen key run
  have runSplit := eq_take_append_cons runAt
  have keySplit := eq_take_append_cons keyAt
  rw [← shared] at runSplit
  -- the old short node, seen as a full node with one child below the shared run
  set old : α → Tree α V := Function.update (fun _ => empty) runSymbol (short (run.drop (common + 1)) child)
  have oldFind : (short run child).find = (short (key.take common) (full old)).find := by
    rw [runSplit, ← find_short_short]
    refine find_short_congr ?_ _
    rw [← List.singleton_append, ← find_short_short, find_short_singleton]
  have branchFind : (full (Function.update (Function.update (fun _ => empty) runSymbol
      (extend (run.drop (common + 1)) child)) keySymbol (extend (key.drop (common + 1)) (leaf value)))).find =
      Function.update (full old).find (keySymbol :: key.drop (common + 1)) (some value) := by
    have keyChild : (extend (key.drop (common + 1)) (leaf value)).find =
        Function.update (Function.update (fun _ => empty) runSymbol
          (extend (run.drop (common + 1)) child) keySymbol).find (key.drop (common + 1)) (some value) := by
      rw [find_extend, find_short_leaf, Function.update_of_ne different]
      rfl
    rw [find_full_update keyChild]
    congr 1
    refine find_full_congr fun symbol => ?_
    by_cases same : symbol = runSymbol
    · subst same
      simp only [old, Function.update_self, find_extend]
    · simp only [old, Function.update_of_ne same]
  rw [oldFind, find_extend]
  have lifted := find_short_update branchFind (key.take common)
  rwa [← keySplit] at lifted

omit [DecidableEq α] in
/-- A split at index common of a non-empty key hangs the full node below the
shared run, or puts it in place when nothing is shared. -/
theorem extend_take {key : List α} (nonempty : key ≠ []) (common : Nat) (branch : Tree α V) :
    (if common = 0 then branch else short (key.take common) branch) = extend (key.take common) branch := by
  simp [extend, List.take_eq_nil_iff, nonempty]

/-- A compatible key that leaves a short node's run does so at a symbol of its
own: ending inside the run, it would be a proper prefix of the keys below. -/
theorem Compatible.symbols_of_parted {run key : List α} {child : Tree α V}
    (compatible : (Tree.short run child).Compatible key) (proper : (Tree.short run child).Proper)
    (parted : matchLen key run ≠ run.length) :
    ∃ runSymbol keySymbol, run[matchLen key run]? = some runSymbol ∧
      key[matchLen key run]? = some keySymbol := by
  have shorter : matchLen key run < run.length := Nat.lt_of_le_of_ne (matchLen_le_right _ _) parted
  have keyAt : (key[matchLen key run]?).isSome := by
    by_contra keyEnds
    have ends : key.length ≤ matchLen key run := by simpa using keyEnds
    have keyPrefix : key <+: run := by
      have shared := take_matchLen key run
      rw [List.take_of_length_le ends] at shared
      rw [shared]
      exact List.take_prefix _ _
    obtain ⟨below, found, inChild⟩ := proper.2.2.exists_find
    have inTree : (Tree.short run child).find (run ++ below) = some found := by
      rw [find_short_append, inChild]
    have same := compatible _ _ inTree (.inr (keyPrefix.trans (List.prefix_append run below)))
    have lengths := congrArg List.length same
    simp only [List.length_append] at lengths
    omega
  exact ⟨_, _, List.getElem?_eq_getElem shorter, (Option.some_get keyAt).symm⟩

/-- Insertion puts the value at the key and keeps every other key. -/
theorem find_insert {tree : Tree α V} {key : List α} (canonical : tree.Canonical)
    (compatible : tree.Compatible key) (value : V) :
    (tree.insert key value).find = Function.update tree.find key (some value) := by
  induction tree generalizing key with
  | empty =>
    cases key with
    | nil => exact find_insert_nil compatible value
    | cons symbol rest =>
      rw [insert, find_short_leaf]
      rfl
  | leaf old =>
    cases key with
    | nil => exact find_insert_nil compatible value
    | cons symbol rest => cases compatible [] old rfl (.inl List.nil_prefix)
  | short run child inductionHypothesis =>
    cases key with
    | nil => exact find_insert_nil compatible value
    | cons symbol rest =>
      have proper : (short run child).Proper := canonical.resolve_left (by simp)
      simp only [insert]
      split
      · -- the key runs through the whole run: insert below it
        next whole =>
        obtain ⟨below, keyEq⟩ := matchLen_eq_length_iff.mp whole
        rw [whole, ← keyEq, List.drop_left]
        rw [← keyEq] at compatible
        exact find_short_update (inductionHypothesis (.inr proper.2.2) compatible.short) run
      · next parted =>
        split
        · next runSymbol keySymbol runAt keyAt =>
          rw [← find_split runAt keyAt value, extend_take (List.cons_ne_nil symbol rest)]
        · next noSymbols =>
          obtain ⟨runSymbol, keySymbol, runAt, keyAt⟩ := compatible.symbols_of_parted proper parted
          exact (noSymbols runSymbol keySymbol runAt keyAt).elim
  | full children inductionHypothesis =>
    cases key with
    | nil => exact find_insert_nil compatible value
    | cons symbol rest =>
      have proper : (full children).Proper := canonical.resolve_left (by simp)
      have childCanonical : (children symbol).Canonical := proper.1 symbol
      exact find_full_update (inductionHypothesis symbol childCanonical compatible.full)

/-! ### Insertion keeps the tree canonical -/

omit [DecidableEq α] in
theorem Proper.ne_empty {tree : Tree α V} (proper : tree.Proper) : tree ≠ empty := by
  rintro rfl
  exact proper

omit [DecidableEq α] in
/-- A proper tree that is not short stays proper below any run. -/
theorem proper_extend {child : Tree α V} (proper : child.Proper) (notShort : child.IsShort = false)
    (run : List α) : (extend run child).Proper := by
  unfold extend
  split
  · exact proper
  · next nonempty => exact ⟨nonempty, notShort, proper⟩

/-- Inserting into a tree that is neither empty nor short gives no short node. -/
theorem isShort_insert {tree : Tree α V} (notShort : tree.IsShort = false) (nonempty : tree ≠ empty)
    (key : List α) (value : V) : (tree.insert key value).IsShort = false := by
  cases tree <;> cases key <;> simp_all [insert, IsShort]

/-- The full node of a split is proper: it has the two children where the runs
part. -/
theorem proper_split {run key : List α} {child : Tree α V} {runSymbol keySymbol : α}
    (childProper : child.Proper) (notShort : child.IsShort = false) (different : keySymbol ≠ runSymbol)
    (value : V) :
    (full (Function.update (Function.update (fun _ => empty) runSymbol (extend run child)) keySymbol
      (extend key (leaf value)))).Proper := by
  have runProper := proper_extend childProper notShort run
  have keyProper := proper_extend (show (leaf value : Tree α V).Proper from trivial) rfl key
  refine ⟨fun symbol => ?_, keySymbol, runSymbol, different, ?_, ?_⟩
  · by_cases atKey : symbol = keySymbol
    · subst atKey
      exact .inr (by simpa using keyProper)
    · by_cases atRun : symbol = runSymbol
      · subst atRun
        exact .inr (by simpa [atKey] using runProper)
      · exact .inl (by simp [atKey, atRun])
  · simpa using keyProper.ne_empty
  · simpa [Ne.symm different] using runProper.ne_empty

/-- Insertion into a canonical tree at a compatible key gives a proper tree. -/
theorem proper_insert {tree : Tree α V} {key : List α} (canonical : tree.Canonical)
    (compatible : tree.Compatible key) (value : V) : (tree.insert key value).Proper := by
  induction tree generalizing key with
  | empty =>
    cases key with
    | nil => trivial
    | cons symbol rest => exact ⟨List.cons_ne_nil symbol rest, rfl, trivial⟩
  | leaf old =>
    cases key with
    | nil => trivial
    | cons symbol rest => cases compatible [] old rfl (.inl List.nil_prefix)
  | short run child inductionHypothesis =>
    cases key with
    | nil => trivial
    | cons symbol rest =>
      have proper : (short run child).Proper := canonical.resolve_left (by simp)
      simp only [insert]
      split
      · next whole =>
        obtain ⟨below, keyEq⟩ := matchLen_eq_length_iff.mp whole
        rw [whole, ← keyEq, List.drop_left]
        rw [← keyEq] at compatible
        exact ⟨proper.1, isShort_insert proper.2.1 proper.2.2.ne_empty _ _,
          inductionHypothesis (.inr proper.2.2) compatible.short⟩
      · next parted =>
        split
        · next runSymbol keySymbol runAt keyAt =>
          rw [extend_take (List.cons_ne_nil symbol rest)]
          exact proper_extend (proper_split proper.2.2 proper.2.1 (getElem?_matchLen_ne keyAt runAt) value)
            rfl _
        · next noSymbols =>
          obtain ⟨runSymbol, keySymbol, runAt, keyAt⟩ := compatible.symbols_of_parted proper parted
          exact (noSymbols runSymbol keySymbol runAt keyAt).elim
  | full children inductionHypothesis =>
    cases key with
    | nil => trivial
    | cons symbol rest =>
      have proper : (full children).Proper := canonical.resolve_left (by simp)
      have childProper := inductionHypothesis symbol (proper.1 symbol) compatible.full
      obtain ⟨childrenCanonical, first, second, distinct, firstNonempty, secondNonempty⟩ := proper
      have stillNonempty (other : α) (nonempty : children other ≠ empty) :
          Function.update children symbol ((children symbol).insert rest value) other ≠ empty := by
        by_cases same : other = symbol
        · subst same
          simpa using childProper.ne_empty
        · simpa [same] using nonempty
      refine ⟨fun other => ?_, first, second, distinct, stillNonempty first firstNonempty,
        stillNonempty second secondNonempty⟩
      by_cases same : other = symbol
      · subst same
        exact .inr (by simpa using childProper)
      · simpa [same] using childrenCanonical other

/-- Inserting the value a canonical tree already holds at the key changes
nothing. -/
theorem insert_of_find {tree : Tree α V} {key : List α} {value : V} (canonical : tree.Canonical)
    (compatible : tree.Compatible key) (found : tree.find key = some value) :
    tree.insert key value = tree := by
  refine Canonical.eq_of_find_eq (.inr (proper_insert canonical compatible value)) canonical ?_
  rw [find_insert canonical compatible, ← found, Function.update_eq_self]

/-! ### Deletion -/

/-- The short node a deletion leaves above a changed child finds what the
short node over the child would. -/
theorem find_absorb (run : List α) (child : Tree α V) :
    (match child with
      | short childRun grandchild => short (run ++ childRun) grandchild
      | other => short run other).find = (short run child).find := by
  cases child with
  | short childRun grandchild => exact (find_short_short run childRun grandchild).symm
  | _ => rfl

/-- Deletion removes the key and keeps every other key. -/
theorem find_delete {tree : Tree α V} {key : List α} (canonical : tree.Canonical)
    (compatible : tree.Compatible key) : (tree.delete key).find = Function.update tree.find key none := by
  induction tree generalizing key with
  | empty =>
    rw [delete]
    exact (Function.update_eq_self_iff.mpr rfl).symm
  | leaf old =>
    have keyEmpty : key = [] := (compatible [] old rfl (.inl List.nil_prefix)).symm
    subst keyEmpty
    funext other
    cases other <;> simp [delete]
  | short run child inductionHypothesis =>
    have proper : (short run child).Proper := canonical.resolve_left (by simp)
    simp only [delete]
    split
    · -- the key leaves the run: nothing to delete
      next parted =>
      have absent : (short run child).find key = none := by
        rw [find_short, if_neg (fun starts => by
          rw [← matchLen_eq_length_iff] at starts
          omega)]
      rw [← absent, Function.update_eq_self]
    · next whole =>
      have starts : run <+: key :=
        matchLen_eq_length_iff.mp (Nat.le_antisymm (matchLen_le_right _ _) (Nat.le_of_not_lt whole))
      obtain ⟨rest, rfl⟩ := starts
      split
      · -- the key is the run: the short node holds it alone
        next ends =>
        have restEmpty : rest = [] := by
          have bounded := matchLen_le_right (run ++ rest) run
          simp only [List.length_append] at ends
          exact List.length_eq_zero_iff.mp (by omega)
        subst restEmpty
        funext other
        by_cases same : other = run ++ []
        · simp [same]
        · rw [Function.update_of_ne same]
          by_cases starts : run <+: other
          · exact (compatible.find_of_extends (by simpa using starts) same).symm
          · simp [find_short, starts]
      · next continues =>
        rw [find_absorb, List.drop_left]
        exact find_short_update (inductionHypothesis (.inr proper.2.2) compatible.short) run
  | full children inductionHypothesis =>
    have proper : (full children).Proper := canonical.resolve_left (by simp)
    cases key with
    | nil =>
      rw [delete]
      exact (Function.update_eq_self_iff.mpr rfl).symm
    | cons symbol rest =>
      rw [delete, find_reduce]
      exact find_full_update (inductionHypothesis symbol (proper.1 symbol) compatible.full)

/-! ### Deletion keeps the tree canonical -/

omit [DecidableEq α] in
theorem proper_merge {child : Tree α V} (proper : child.Proper) (symbol : α) :
    (merge symbol child).Proper := by
  cases child with
  | empty => exact proper.elim
  | short run grandchild => exact ⟨List.cons_ne_nil _ _, proper.2.1, proper.2.2⟩
  | leaf value => exact ⟨List.cons_ne_nil _ _, rfl, proper⟩
  | full children => exact ⟨List.cons_ne_nil _ _, rfl, proper⟩

/-- A full node keeps a child when one of its children is replaced. -/
theorem Proper.exists_update_ne_empty {children : α → Tree α V} (proper : (full children).Proper) (symbol : α)
    (changed : Tree α V) : ∃ other, Function.update children symbol changed other ≠ empty := by
  -- of the two children the node had, one is not the replaced one
  obtain ⟨-, first, second, distinct, firstNonempty, secondNonempty⟩ := proper
  by_cases same : first = symbol
  · refine ⟨second, ?_⟩
    rw [Function.update_of_ne (fun other => distinct (same.trans other.symm))]
    exact secondNonempty
  · exact ⟨first, by simpa [same] using firstNonempty⟩

/-- A full node with one child left reduces to the merge of that child. -/
theorem reduce_of_single {children : α → Tree α V} {symbol : α} (nonempty : children symbol ≠ empty)
    (others : ∀ other, other ≠ symbol → children other = empty) :
    reduce children = merge symbol (children symbol) := by
  have only : ∃ symbol, ∀ other, other ≠ symbol → children other = empty := ⟨symbol, others⟩
  unfold reduce
  rw [dif_pos only]
  have chosen : only.choose = symbol := by
    by_contra different
    exact nonempty (only.choose_spec symbol (Ne.symm different))
  rw [chosen]

/-- A full node with two children left stays. -/
theorem reduce_of_two {children : α → Tree α V} {first second : α} (distinct : first ≠ second)
    (firstNonempty : children first ≠ empty) (secondNonempty : children second ≠ empty) :
    reduce children = full children := by
  unfold reduce
  rw [dif_neg]
  rintro ⟨symbol, others⟩
  by_cases same : first = symbol
  · subst same
    exact secondNonempty (others second (Ne.symm distinct))
  · exact firstNonempty (others first same)

/-- A full node of canonical children with some child left reduces to a proper
tree: a short node over its only child, or a full node with two. -/
theorem proper_reduce {children : α → Tree α V} (canonical : ∀ symbol, (children symbol).Canonical)
    (nonempty : ∃ symbol, children symbol ≠ empty) : (reduce children).Proper := by
  obtain ⟨first, firstNonempty⟩ := nonempty
  unfold reduce
  split
  · next only =>
    have onlyNonempty : children only.choose ≠ empty := by
      intro isEmpty
      by_cases same : first = only.choose
      · exact firstNonempty (same ▸ isEmpty)
      · exact firstNonempty (only.choose_spec first same)
    exact proper_merge ((canonical _).resolve_left onlyNonempty) _
  · next notOnly =>
    have second : ∃ second, second ≠ first ∧ children second ≠ empty := by
      by_contra noSecond
      exact notOnly ⟨first, fun other different =>
        Classical.byContradiction fun nonempty => noSecond ⟨other, different, nonempty⟩⟩
    obtain ⟨second, distinct, secondNonempty⟩ := second
    exact ⟨canonical, second, first, distinct, secondNonempty, firstNonempty⟩

omit [DecidableEq α] in
theorem merge_ne_empty (symbol : α) (child : Tree α V) : merge symbol child ≠ empty := by
  cases child <;> simp [merge]

omit [DecidableEq α] in
theorem reduce_ne_empty (children : α → Tree α V) : reduce children ≠ empty := by
  unfold reduce
  split
  · exact merge_ne_empty _ _
  · simp

/-- Deleting below a full node leaves a node, never the empty tree. -/
theorem delete_full_ne_empty (children : α → Tree α V) (key : List α) :
    (full children).delete key ≠ empty := by
  cases key with
  | nil => simp [delete]
  | cons symbol rest =>
    rw [delete]
    exact reduce_ne_empty _

/-- Deletion from a canonical tree at a compatible key gives a canonical tree. -/
theorem canonical_delete {tree : Tree α V} {key : List α} (canonical : tree.Canonical)
    (compatible : tree.Compatible key) : (tree.delete key).Canonical := by
  induction tree generalizing key with
  | empty => exact .inl (by rw [delete])
  | leaf old => exact .inl (by rw [delete])
  | short run child inductionHypothesis =>
    have proper : (short run child).Proper := canonical.resolve_left (by simp)
    simp only [delete]
    split
    · exact canonical
    · next whole =>
      obtain ⟨rest, rfl⟩ : run <+: key :=
        matchLen_eq_length_iff.mp (Nat.le_antisymm (matchLen_le_right _ _) (Nat.le_of_not_lt whole))
      split
      · exact .inl rfl
      · next continues =>
        rw [List.drop_left]
        have childCanonical := inductionHypothesis (.inr proper.2.2) compatible.short
        -- a leaf child holds the run itself, of which the key would be a proper extension
        have changedNonempty : child.delete rest ≠ empty := by
          cases child with
          | empty => exact proper.2.2.elim
          | short childRun grandchild => cases proper.2.1
          | full children => exact delete_full_ne_empty children rest
          | leaf value =>
            have holds : (short run (leaf value)).find run = some value := by
              simpa using find_short_append run (leaf value) []
            have restEmpty := compatible run value holds (.inl (List.prefix_append run rest))
            rw [eq_comm, List.append_right_eq_self] at restEmpty
            subst restEmpty
            exact absurd (matchLen_eq_length_iff.mpr (List.prefix_refl run)) (by simpa using continues)
        have changedProper := childCanonical.resolve_left changedNonempty
        right
        split
        · next childRun grandchild isShort =>
          rw [isShort] at changedProper
          exact ⟨by simp [proper.1], changedProper.2.1, changedProper.2.2⟩
        · next notShort =>
          refine ⟨proper.1, ?_, changedProper⟩
          cases changed : child.delete rest with
          | short childRun grandchild => exact absurd changed (notShort childRun grandchild)
          | _ => rfl
  | full children inductionHypothesis =>
    have proper : (full children).Proper := canonical.resolve_left (by simp)
    cases key with
    | nil => exact canonical
    | cons symbol rest =>
      rw [delete]
      refine .inr (proper_reduce (fun other => ?_) ?_)
      · by_cases same : other = symbol
        · subst same
          simpa using inductionHypothesis other (proper.1 other) compatible.full
        · rw [Function.update_of_ne same]
          exact proper.1 other
      · exact proper.exists_update_ne_empty symbol _

/-- Deleting a key a canonical tree does not hold changes nothing. -/
theorem delete_of_find_none {tree : Tree α V} {key : List α} (canonical : tree.Canonical)
    (compatible : tree.Compatible key) (absent : tree.find key = none) : tree.delete key = tree := by
  refine Canonical.eq_of_find_eq (canonical_delete canonical compatible) canonical ?_
  rw [find_delete canonical compatible, ← absent, Function.update_eq_self]

end Tree

end Radix
