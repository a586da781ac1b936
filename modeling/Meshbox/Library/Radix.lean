/-
A radix tree maps keys, lists of symbols, to values. A leaf holds the value of
the empty key; a short node holds a run of symbols that every key below it
starts with; a full node branches on the first symbol. A key reaches a value
only where it ends at a leaf.

The canonical trees are those with no node that could be merged away: every
short node has a non-empty run and a child that is neither empty nor short,
and every full node branches at least two ways. A map has at most one
canonical tree: two canonical trees that hold the same keys and values are
equal. This is what makes a hash computed from the tree's shape a function of
the map alone.
-/

import Mathlib.Data.List.Basic

namespace Radix

/-- A radix tree over symbols α with values V. -/
inductive Tree (α V : Type) where
  | empty
  | leaf (value : V)
  | short (key : List α) (child : Tree α V)
  | full (children : α → Tree α V)

namespace Tree

variable {α V : Type} [DecidableEq α]

/-- The value a key reaches: a short node passes on what follows its run, a
full node what follows the first symbol, and a leaf holds the empty key. -/
def find : Tree α V → List α → Option V
  | .empty, _ => none
  | .leaf value, key => if key = [] then some value else none
  | .short run child, key => if run <+: key then child.find (key.drop run.length) else none
  | .full children, key =>
    match key with
    | [] => none
    | symbol :: rest => (children symbol).find rest

/-- Whether a tree is a short node. -/
def IsShort : Tree α V → Bool
  | .short .. => true
  | _ => false

/-- Whether a tree is a leaf. -/
def IsLeaf : Tree α V → Bool
  | .leaf _ => true
  | _ => false

/-- A canonical tree that holds at least one key. -/
def Proper : Tree α V → Prop
  | .empty => False
  | .leaf _ => True
  | .short run child => run ≠ [] ∧ child.IsShort = false ∧ child.Proper
  | .full children => (∀ symbol, children symbol = .empty ∨ (children symbol).Proper) ∧
      ∃ first second, first ≠ second ∧ children first ≠ .empty ∧ children second ≠ .empty

/-- A canonical tree: empty, or proper. -/
def Canonical (tree : Tree α V) : Prop :=
  tree = .empty ∨ tree.Proper

/-! ### Looking keys up -/

@[simp] theorem find_empty (key : List α) : (empty : Tree α V).find key = none := rfl

@[simp] theorem find_leaf_nil (value : V) : (leaf value : Tree α V).find [] = some value := rfl

@[simp] theorem find_leaf_cons (value : V) (symbol : α) (rest : List α) :
    (leaf value : Tree α V).find (symbol :: rest) = none := rfl

theorem find_short (run : List α) (child : Tree α V) (key : List α) :
    (short run child).find key = if run <+: key then child.find (key.drop run.length) else none :=
  rfl

@[simp] theorem find_short_append (run : List α) (child : Tree α V) (rest : List α) :
    (short run child).find (run ++ rest) = child.find rest := by
  simp [find_short]

@[simp] theorem find_full_nil (children : α → Tree α V) : (full children).find [] = none := rfl

@[simp] theorem find_full_cons (children : α → Tree α V) (symbol : α) (rest : List α) :
    (full children).find (symbol :: rest) = (children symbol).find rest := rfl

/-- A key a short node holds starts with its run, and the rest is held below. -/
theorem find_short_eq_some {run : List α} {child : Tree α V} {key : List α} {value : V}
    (found : (short run child).find key = some value) :
    ∃ rest, key = run ++ rest ∧ child.find rest = some value := by
  rw [find_short] at found
  split at found
  · rename_i isPrefix
    obtain ⟨rest, rfl⟩ := isPrefix
    exact ⟨rest, rfl, by simpa using found⟩
  · cases found

/-! ### Proper trees -/

/-- A proper tree holds some key. -/
theorem Proper.exists_find {tree : Tree α V} (proper : tree.Proper) :
    ∃ key value, tree.find key = some value := by
  induction tree with
  | empty => exact proper.elim
  | leaf value => exact ⟨[], value, rfl⟩
  | short run child inductionHypothesis =>
    obtain ⟨key, value, found⟩ := inductionHypothesis proper.2.2
    exact ⟨run ++ key, value, by rw [find_short_append, found]⟩
  | full children inductionHypothesis =>
    obtain ⟨childCanonical, first, -, -, nonempty, -⟩ := proper
    have childProper : (children first).Proper := (childCanonical first).resolve_left nonempty
    obtain ⟨key, value, found⟩ := inductionHypothesis first childProper
    exact ⟨first :: key, value, found⟩

/-- A tree with no key is empty, when it is canonical. -/
theorem Canonical.eq_empty_of_find {tree : Tree α V} (canonical : tree.Canonical)
    (nothing : ∀ key, tree.find key = none) : tree = .empty := by
  rcases canonical with isEmpty | proper
  · exact isEmpty
  · obtain ⟨key, value, found⟩ := proper.exists_find
    rw [nothing key] at found
    cases found

/-- A full node of a proper tree holds keys that start with two different
symbols. -/
theorem Proper.full_two_keys {children : α → Tree α V} (proper : (full children).Proper) :
    ∃ first firstRest firstValue second secondRest secondValue, first ≠ second ∧
      (children first).find firstRest = some firstValue ∧
      (children second).find secondRest = some secondValue := by
  obtain ⟨childCanonical, first, second, distinct, firstNonempty, secondNonempty⟩ := proper
  obtain ⟨firstRest, firstValue, firstFound⟩ :=
    ((childCanonical first).resolve_left firstNonempty).exists_find
  obtain ⟨secondRest, secondValue, secondFound⟩ :=
    ((childCanonical second).resolve_left secondNonempty).exists_find
  exact ⟨first, firstRest, firstValue, second, secondRest, secondValue, distinct, firstFound,
    secondFound⟩

/-- The keys of a proper tree that is not a short node do not all start with
one symbol. -/
theorem Proper.exists_key_not_starting {tree : Tree α V} (proper : tree.Proper)
    (notShort : tree.IsShort = false) (symbol : α) :
    ∃ key value, tree.find key = some value ∧ ¬ [symbol] <+: key := by
  cases tree with
  | empty => exact proper.elim
  | leaf value => exact ⟨[], value, rfl, by simp⟩
  | short run child => cases notShort
  | full children =>
    obtain ⟨first, firstRest, firstValue, second, secondRest, secondValue, distinct, firstFound,
      secondFound⟩ := proper.full_two_keys
    by_cases startsFirst : symbol = first
    · refine ⟨second :: secondRest, secondValue, secondFound, ?_⟩
      simp only [List.cons_prefix_cons, List.nil_prefix, and_true]
      intro same
      exact distinct (startsFirst ▸ same)
    · refine ⟨first :: firstRest, firstValue, firstFound, ?_⟩
      simp only [List.cons_prefix_cons, List.nil_prefix, and_true]
      exact startsFirst

/-- Two proper short nodes that hold the same keys have the same run: a longer
run would make every key of the other node's child start with one symbol. -/
theorem Proper.run_le_of_find_eq {firstRun secondRun : List α} {firstChild secondChild : Tree α V}
    (firstProper : (short firstRun firstChild).Proper)
    (same : (short firstRun firstChild).find = (short secondRun secondChild).find)
    (comparable : secondRun <+: firstRun ∨ firstRun <+: secondRun) :
    secondRun.length ≤ firstRun.length := by
  by_contra longer
  have isPrefix : firstRun <+: secondRun := by
    rcases comparable with shorter | isPrefix
    · exact absurd (shorter.length_le) longer
    · exact isPrefix
  obtain ⟨extra, rfl⟩ := isPrefix
  cases extra with
  | nil => simp at longer
  | cons symbol rest =>
    obtain ⟨key, value, found, notPrefix⟩ :=
      firstProper.2.2.exists_key_not_starting firstProper.2.1 symbol
    have inSecond : (short (firstRun ++ symbol :: rest) secondChild).find (firstRun ++ key) =
        some value := by
      rw [← same, find_short_append, found]
    obtain ⟨below, split, -⟩ := find_short_eq_some inSecond
    rw [List.append_assoc, List.append_right_inj] at split
    exact notPrefix ⟨rest ++ below, by rw [split]; rfl⟩

/-- Proper trees that hold the same keys and values are equal. -/
theorem Proper.eq_of_find_eq {first second : Tree α V} (firstProper : first.Proper)
    (secondProper : second.Proper) (same : first.find = second.find) : first = second := by
  induction first generalizing second with
  | empty => exact firstProper.elim
  | leaf value =>
    cases second with
    | empty => exact secondProper.elim
    | leaf other =>
      have found := congrFun same []
      simp only [find_leaf_nil, Option.some.injEq] at found
      rw [found]
    | short run child =>
      have found := congrFun same []
      rw [find_leaf_nil] at found
      obtain ⟨rest, split, -⟩ := find_short_eq_some found.symm
      exact absurd (List.append_eq_nil_iff.mp split.symm).1 secondProper.1
    | full children => cases congrFun same []
  | short run child inductionHypothesis =>
    cases second with
    | empty => exact secondProper.elim
    | leaf other =>
      have found := congrFun same []
      rw [find_leaf_nil] at found
      obtain ⟨rest, split, -⟩ := find_short_eq_some found
      exact absurd (List.append_eq_nil_iff.mp split.symm).1 firstProper.1
    | short otherRun otherChild =>
      obtain ⟨key, value, found⟩ := firstProper.2.2.exists_find
      have inSecond := (congrFun same (run ++ key)).symm.trans (by rw [find_short_append, found])
      obtain ⟨below, split, -⟩ := find_short_eq_some inSecond
      have comparable : otherRun <+: run ∨ run <+: otherRun :=
        ( List.prefix_or_prefix_of_prefix ⟨below, split.symm⟩ (List.prefix_append run key))
      have runEq : run = otherRun := by
        have shorter := firstProper.run_le_of_find_eq same comparable
        have longer := secondProper.run_le_of_find_eq same.symm comparable.symm
        rcases comparable with isPrefix | isPrefix
        · exact (isPrefix.eq_of_length (by omega)).symm
        · exact isPrefix.eq_of_length (by omega)
      subst runEq
      have childSame : child.find = otherChild.find := by
        funext rest
        have atRest := congrFun same (run ++ rest)
        rwa [find_short_append, find_short_append] at atRest
      rw [inductionHypothesis firstProper.2.2 secondProper.2.2 childSame]
    | full children =>
      obtain ⟨first, firstRest, firstValue, second, secondRest, secondValue, distinct, firstFound,
        secondFound⟩ := secondProper.full_two_keys
      have startsWithRun (symbol : α) (rest : List α) (value : V)
          (found : (children symbol).find rest = some value) : run <+: symbol :: rest := by
        have inFirst := (congrFun same (symbol :: rest)).trans found
        obtain ⟨below, split, -⟩ := find_short_eq_some inFirst
        exact ⟨below, split.symm⟩
      obtain ⟨head, tail, runSplit⟩ := List.exists_cons_of_ne_nil firstProper.1
      have firstHead := (startsWithRun first firstRest firstValue firstFound)
      have secondHead := (startsWithRun second secondRest secondValue secondFound)
      rw [runSplit, List.cons_prefix_cons] at firstHead secondHead
      exact absurd (firstHead.1.symm.trans secondHead.1) distinct
  | full children inductionHypothesis =>
    cases second with
    | empty => exact secondProper.elim
    | leaf other => cases congrFun same []
    | short run child =>
      obtain ⟨first, firstRest, firstValue, second, secondRest, secondValue, distinct, firstFound,
        secondFound⟩ := firstProper.full_two_keys
      have startsWithRun (symbol : α) (rest : List α) (value : V)
          (found : (children symbol).find rest = some value) : run <+: symbol :: rest := by
        have inSecond := (congrFun same (symbol :: rest)).symm.trans found
        obtain ⟨below, split, -⟩ := find_short_eq_some inSecond
        exact ⟨below, split.symm⟩
      obtain ⟨head, tail, runSplit⟩ := List.exists_cons_of_ne_nil secondProper.1
      have firstHead := (startsWithRun first firstRest firstValue firstFound)
      have secondHead := (startsWithRun second secondRest secondValue secondFound)
      rw [runSplit, List.cons_prefix_cons] at firstHead secondHead
      exact absurd (firstHead.1.symm.trans secondHead.1) distinct
    | full otherChildren =>
      congr
      funext symbol
      have childSame : (children symbol).find = (otherChildren symbol).find := by
        funext rest
        exact congrFun same (symbol :: rest)
      rcases firstProper.1 symbol with firstEmpty | firstChildProper
      · rw [firstEmpty] at childSame ⊢
        refine (Canonical.eq_empty_of_find (secondProper.1 symbol) fun rest => ?_).symm
        rw [← childSame, find_empty]
      · rcases secondProper.1 symbol with secondEmpty | secondChildProper
        · rw [secondEmpty] at childSame ⊢
          exact Canonical.eq_empty_of_find (.inr firstChildProper) fun rest => by
            rw [childSame, find_empty]
        · exact inductionHypothesis symbol firstChildProper secondChildProper childSame

/-- A map has at most one canonical tree. -/
theorem Canonical.eq_of_find_eq {first second : Tree α V} (firstCanonical : first.Canonical)
    (secondCanonical : second.Canonical) (same : first.find = second.find) : first = second := by
  rcases firstCanonical with firstEmpty | firstProper
  · rw [firstEmpty]
    exact (secondCanonical.eq_empty_of_find fun key => by rw [← same, firstEmpty, find_empty]).symm
  · rcases secondCanonical with secondEmpty | secondProper
    · rw [secondEmpty]
      exact Canonical.eq_empty_of_find (.inr firstProper) fun key => by
        rw [same, secondEmpty, find_empty]
    · exact firstProper.eq_of_find_eq secondProper same

end Tree

end Radix
