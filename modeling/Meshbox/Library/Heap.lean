/-
This file develops the binary heap of a heap package that keeps its entries in
an array and orders them by a comparison less on entries: the root is an entry
no other entry is less than, and every entry's parent, at (j - 1) / 2, is not
less than it. down sifts an entry towards the leaves, swapping it with the
lesser of its children while that child is less than it; up sifts it towards
the root; init sifts every inner position down, the last first; pop moves the
root to the end, sifts down the entry that took its place and removes the end;
fix sifts a changed entry down or, if it did not move, up.

The comparison is only ever asked about entries at two different positions.
The correctness results assume that there it agrees with a rank in a linear
order, the entry of higher rank being less: a comparison that misbehaves on an
entry compared with itself, or on entries that never meet in one heap, is
allowed.
-/

import Mathlib

namespace Heap

variable {α : Type}

/-! ### The operations -/

/-- The parent of position j. -/
def parent (j : Nat) : Nat := (j - 1) / 2

/-- Swap: the entries at i and j exchanged. -/
def swap (h : List α) (i j : Nat) : List α :=
  match h[i]?, h[j]? with
  | some x, some y => (h.set i y).set j x
  | _, _ => h

/-- Less on the entries at positions i and j. -/
def lessAt (less : α → α → Bool) (h : List α) (i j : Nat) : Bool :=
  match h[i]?, h[j]? with
  | some x, some y => less x y
  | _, _ => false

/-- The child of i that down compares with i, among the first n entries: the
right child when it is there and less than the left, the left otherwise. -/
def lesserChild (less : α → α → Bool) (h : List α) (i n : Nat) : Nat :=
  let j1 := 2 * i + 1
  if j1 + 1 < n ∧ lessAt less h (j1 + 1) j1 = true then j1 + 1 else j1

/-- The loop of down from position i, among the first n entries: the heap
and the position where the entry stopped. -/
def downLoop (less : α → α → Bool) (h : List α) (i n : Nat) : List α × Nat :=
  if n ≤ 2 * i + 1 then (h, i)
  else
    let j := lesserChild less h i n
    if lessAt less h j i then downLoop less (swap h i j) j n else (h, i)
termination_by n - i
decreasing_by
  simp only [lesserChild]
  split <;> omega

/-- down: the entry at i0 sifted down among the first n entries, and whether it
moved. -/
def down (less : α → α → Bool) (h : List α) (i0 n : Nat) : List α × Bool :=
  let result := downLoop less h i0 n
  (result.1, decide (i0 < result.2))

/-- up: the entry at j sifted up towards the root. -/
def up (less : α → α → Bool) (h : List α) (j : Nat) : List α :=
  let i := parent j
  if i = j ∨ lessAt less h j i = false then h else up less (swap h i j) i
termination_by j
decreasing_by
  rename_i notStopped
  have moves : parent j ≠ j := fun same => notStopped (Or.inl same)
  simp only [parent] at moves ⊢
  omega

/-- Init: every inner position sifted down, the last first. -/
def init (less : α → α → Bool) (h : List α) : List α :=
  let n := h.length
  (List.range (n / 2)).reverse.foldl (fun h i => (down less h i n).1) h

/-- Pop: the root moved to the end and the entry that took its place sifted
down; the last entry is removed and returned. -/
def pop (less : α → α → Bool) (h : List α) : List α × Option α :=
  let n := h.length - 1
  let sifted := (down less (swap h 0 n) 0 n).1
  (sifted.dropLast, sifted.getLast?)

/-- Push: the entry appended and sifted up. -/
def push (less : α → α → Bool) (h : List α) (x : α) : List α :=
  up less (h ++ [x]) h.length

/-- Remove: the entry at i swapped with the last one, which is sifted down and
then up among the others; the last entry is removed and returned. -/
def remove (less : α → α → Bool) (h : List α) (i : Nat) : List α × Option α :=
  let n := h.length - 1
  let h := if n ≠ i then up less (down less (swap h i n) i n).1 i else h
  (h.dropLast, h.getLast?)

/-- Fix: the entry at i sifted down, or up when it did not move down. -/
def fix (less : α → α → Bool) (h : List α) (i : Nat) : List α :=
  let result := down less h i h.length
  if result.2 then result.1 else up less result.1 i

/-! ### Positions -/

theorem parent_lt {j : Nat} (positive : 0 < j) : parent j < j := by
  unfold parent
  omega

theorem parent_of_child {i c : Nat} (isChild : c = 2 * i + 1 ∨ c = 2 * i + 2) : parent c = i := by
  unfold parent
  omega

theorem lesserChild_isChild (less : α → α → Bool) (h : List α) (i n : Nat) :
    lesserChild less h i n = 2 * i + 1 ∨ lesserChild less h i n = 2 * i + 2 := by
  simp only [lesserChild]
  split <;> simp

theorem lesserChild_lt {less : α → α → Bool} {h : List α} {i n : Nat} (notLeaf : ¬ n ≤ 2 * i + 1) :
    lesserChild less h i n < n := by
  simp only [lesserChild]
  split <;> omega

/-! ### Swaps -/

/-- Where the entry at k after swapping i and j came from. -/
def swapIndex (i j k : Nat) : Nat :=
  if k = j then i else if k = i then j else k

theorem swapIndex_injective {i j a b : Nat} (different : a ≠ b) : swapIndex i j a ≠ swapIndex i j b := by
  unfold swapIndex
  split_ifs <;> omega

@[simp] theorem length_swap (h : List α) (i j : Nat) : (swap h i j).length = h.length := by
  unfold swap
  split <;> simp

theorem swap_perm (h : List α) (i j : Nat) : (swap h i j).Perm h := by
  unfold swap
  split
  · next x y atI atJ =>
    obtain ⟨inI, rfl⟩ := List.getElem?_eq_some_iff.mp atI
    obtain ⟨inJ, rfl⟩ := List.getElem?_eq_some_iff.mp atJ
    exact List.set_set_perm inI inJ
  · exact List.Perm.refl h

theorem getElem?_swap {h : List α} {i j : Nat} (inI : i < h.length) (inJ : j < h.length) (k : Nat) :
    (swap h i j)[k]? = h[swapIndex i j k]? := by
  simp only [swap, List.getElem?_eq_getElem inI, List.getElem?_eq_getElem inJ, List.getElem?_set,
    List.length_set, swapIndex]
  by_cases atJ : k = j
  · subst atJ
    simp [inI, inJ]
  · by_cases atI : k = i
    · subst atI
      simp [Ne.symm atJ, atJ, inI, inJ]
    · simp [Ne.symm atJ, Ne.symm atI, atJ, atI]

/-- A swap of two positions below n leaves the entries from n on. -/
theorem getElem?_swap_of_le {h : List α} {i j n k : Nat} (inI : i < n) (inJ : j < n) (above : n ≤ k) :
    (swap h i j)[k]? = h[k]? := by
  unfold swap
  split
  · rw [List.getElem?_set_ne (by omega), List.getElem?_set_ne (by omega)]
  · rfl

/-! ### Sifting down, one step at a time -/

section Steps

variable {less : α → α → Bool} {h : List α} {i n : Nat}

/-- One turn of down's loop, unfolded once for the lemmas below. -/
theorem downLoop_eq : downLoop less h i n =
    if n ≤ 2 * i + 1 then (h, i)
    else if lessAt less h (lesserChild less h i n) i then
      downLoop less (swap h i (lesserChild less h i n)) (lesserChild less h i n) n
    else (h, i) := by
  rw [downLoop]

theorem downLoop_leaf (leaf : n ≤ 2 * i + 1) : downLoop less h i n = (h, i) := by
  rw [downLoop_eq, if_pos leaf]

theorem downLoop_swap (notLeaf : ¬ n ≤ 2 * i + 1) (moves : lessAt less h (lesserChild less h i n) i = true) :
    downLoop less h i n = downLoop less (swap h i (lesserChild less h i n)) (lesserChild less h i n) n := by
  rw [downLoop_eq, if_neg notLeaf]
  simp only [moves, if_true]

theorem downLoop_stop (notLeaf : ¬ n ≤ 2 * i + 1) (stays : lessAt less h (lesserChild less h i n) i = false) :
    downLoop less h i n = (h, i) := by
  rw [downLoop_eq, if_neg notLeaf]
  simp only [stays, Bool.false_eq_true, if_false]

end Steps

theorem downLoop_perm (less : α → α → Bool) (h : List α) (i n : Nat) : (downLoop less h i n).1.Perm h := by
  induction h, i using downLoop.induct less n with
  | case1 h i leaf =>
    rw [downLoop_leaf leaf]
  | case2 h i notLeaf j moves inductionHypothesis =>
    rw [downLoop_swap notLeaf moves]
    exact inductionHypothesis.trans (swap_perm h i j)
  | case3 h i notLeaf j stays =>
    rw [downLoop_stop notLeaf (by simpa using stays)]

@[simp] theorem length_downLoop (less : α → α → Bool) (h : List α) (i n : Nat) :
    (downLoop less h i n).1.length = h.length :=
  (downLoop_perm less h i n).length_eq

/-- down touches only the first n entries. -/
theorem getElem?_downLoop_of_le (less : α → α → Bool) (h : List α) (i n : Nat) {k : Nat} (above : n ≤ k) :
    (downLoop less h i n).1[k]? = h[k]? := by
  induction h, i using downLoop.induct less n with
  | case1 h i leaf => rw [downLoop_leaf leaf]
  | case2 h i notLeaf j moves inductionHypothesis =>
    rw [downLoop_swap notLeaf moves, inductionHypothesis]
    exact getElem?_swap_of_le (by omega) (lesserChild_lt notLeaf) above
  | case3 h i notLeaf j stays => rw [downLoop_stop notLeaf (by simpa using stays)]

/-- One turn of up, unfolded once for the lemmas about it. -/
theorem up_eq (less : α → α → Bool) (h : List α) (j : Nat) :
    up less h j = if parent j = j ∨ lessAt less h j (parent j) = false then h
      else up less (swap h (parent j) j) (parent j) := by
  rw [up]

theorem up_zero (less : α → α → Bool) (h : List α) : up less h 0 = h := by
  rw [up_eq]
  simp [parent]

/-- Fix at the root is down from the root. -/
theorem fix_zero (less : α → α → Bool) (h : List α) : fix less h 0 = (downLoop less h 0 h.length).1 := by
  simp only [fix, down, up_zero]
  split <;> rfl

theorem perm_foldl_down (less : α → α → Bool) (n : Nat) (is : List Nat) (h : List α) :
    (is.foldl (fun h i => (down less h i n).1) h).Perm h := by
  induction is generalizing h with
  | nil => exact List.Perm.refl h
  | cons i is inductionHypothesis => exact (inductionHypothesis _).trans (downLoop_perm less h i n)

theorem init_perm (less : α → α → Bool) (h : List α) : (init less h).Perm h :=
  perm_foldl_down less _ _ h

@[simp] theorem length_init (less : α → α → Bool) (h : List α) : (init less h).length = h.length :=
  (init_perm less h).length_eq

@[simp] theorem length_pop (less : α → α → Bool) (h : List α) : (pop less h).1.length = h.length - 1 := by
  simp [pop, down]

/-- Pop returns the root. -/
theorem pop_snd (less : α → α → Bool) (h : List α) : (pop less h).2 = h[0]? := by
  cases h with
  | nil => simp [pop, down, swap, downLoop_leaf]
  | cons r rest =>
    simp only [pop, down, List.length_cons, Nat.add_sub_cancel]
    rw [List.getLast?_eq_getElem?, length_downLoop, length_swap, List.length_cons, Nat.add_sub_cancel,
      getElem?_downLoop_of_le less _ 0 rest.length (Nat.le_refl _),
      getElem?_swap (by simp) (by simp)]
    simp [swapIndex]

/-- What pop leaves is the rest of the heap, in some order. -/
theorem pop_perm (less : α → α → Bool) (r : α) (rest : List α) : (pop less (r :: rest)).1.Perm rest := by
  have popped := pop_snd less (r :: rest)
  simp only [pop, down, List.length_cons, Nat.add_sub_cancel, List.getElem?_cons_zero] at popped ⊢
  have perm := (downLoop_perm less (swap (r :: rest) 0 rest.length) 0 rest.length).trans
    (swap_perm (r :: rest) 0 rest.length)
  generalize (downLoop less (swap (r :: rest) 0 rest.length) 0 rest.length).1 = sifted at popped perm ⊢
  have nonempty : sifted ≠ [] := fun empty => by simp [empty] at popped
  have last : sifted.getLast nonempty = r := by
    rw [List.getLast?_eq_some_getLast nonempty, Option.some_inj] at popped
    exact popped
  have split := List.dropLast_append_getLast nonempty
  rw [last] at split
  rw [← split] at perm
  exact List.Perm.cons_inv ((List.perm_append_singleton r _).symm.trans perm)

theorem fix_zero_perm (less : α → α → Bool) (h : List α) : (fix less h 0).Perm h := by
  rw [fix_zero]
  exact downLoop_perm less h 0 h.length

/-! ### Comparison by rank -/

section Ranked

variable {β : Type} [LinearOrder β] {less : α → α → Bool} {rank : α → β}

/-- less compares entries at two different positions of h by rank, the entry
of higher rank being less. -/
def RanksBy (less : α → α → Bool) (rank : α → β) (h : List α) : Prop :=
  ∀ (i j : Nat) (x y : α), i ≠ j → h[i]? = some x → h[j]? = some y → less x y = decide (rank y < rank x)

theorem RanksBy.swap {h : List α} (ranks : RanksBy less rank h) (i j : Nat) :
    RanksBy less rank (swap h i j) := by
  by_cases inBoth : i < h.length ∧ j < h.length
  · intro a b x y different atA atB
    rw [getElem?_swap inBoth.1 inBoth.2] at atA atB
    exact ranks _ _ x y (swapIndex_injective different) atA atB
  · have same : Heap.swap h i j = h := by
      unfold Heap.swap
      split
      · next x y atI atJ =>
        exact absurd ⟨(List.getElem?_eq_some_iff.mp atI).1, (List.getElem?_eq_some_iff.mp atJ).1⟩ inBoth
      · rfl
    rwa [same]

theorem lessAt_eq {h : List α} (ranks : RanksBy less rank h) {i j : Nat} {x y : α} (different : i ≠ j)
    (atI : h[i]? = some x) (atJ : h[j]? = some y) : lessAt less h i j = decide (rank y < rank x) := by
  rw [lessAt, atI, atJ]
  exact ranks i j x y different atI atJ

/-- The lesser child has the highest rank of the children of i below n. -/
theorem rank_le_lesserChild {h : List α} (ranks : RanksBy less rank h) {i n c : Nat} {x y : α}
    (isChild : c = 2 * i + 1 ∨ c = 2 * i + 2) (inside : c < n)
    (atC : h[c]? = some x) (atChild : h[lesserChild less h i n]? = some y) : rank x ≤ rank y := by
  simp only [lesserChild] at atChild
  split at atChild
  · next right =>
    rcases isChild with rfl | rfl
    · obtain ⟨_, lessRight⟩ := right
      have atLeft : h[2 * i + 1 + 1]? = some y := atChild
      rw [lessAt_eq ranks (by omega) atLeft atC, decide_eq_true_eq] at lessRight
      exact le_of_lt lessRight
    · cases atChild.symm.trans atC
      exact le_refl _
  · next notRight =>
    rcases isChild with rfl | rfl
    · cases atChild.symm.trans atC
      exact le_refl _
    · have atRight : h[2 * i + 1 + 1]? = some x := atC
      rw [lessAt_eq ranks (by omega) atRight atChild] at notRight
      simpa [inside] using notRight

theorem RanksBy.downLoop {h : List α} (ranks : RanksBy less rank h) (i n : Nat) :
    RanksBy less rank (downLoop less h i n).1 := by
  induction h, i using downLoop.induct less n with
  | case1 h i leaf => rwa [downLoop_leaf leaf]
  | case2 h i notLeaf j moves inductionHypothesis =>
    rw [downLoop_swap notLeaf moves]
    exact inductionHypothesis (ranks.swap i j)
  | case3 h i notLeaf j stays => rwa [downLoop_stop notLeaf (by simpa using stays)]

/-! ### Heap order -/

/-- The entries at positions k below n whose parent is at least lo have rank
at most their parent's. -/
def OrderedFrom (rank : α → β) (h : List α) (lo n : Nat) : Prop :=
  ∀ k x y, 0 < k → k < n → lo ≤ parent k → h[k]? = some x → h[parent k]? = some y → rank x ≤ rank y

/-- What down keeps while the entry it sifts is at cur, having started at lo:
the positions below n whose parent is at least lo, and not cur, are in order,
and once the entry has left lo the children of cur have rank at most the
entry at cur's parent. -/
def Sifting (rank : α → β) (h : List α) (lo cur n : Nat) : Prop :=
  (∀ k x y, 0 < k → k < n → lo ≤ parent k → parent k ≠ cur → h[k]? = some x → h[parent k]? = some y →
    rank x ≤ rank y) ∧
  (lo < cur → ∀ c x y, 0 < c → c < n → parent c = cur → h[c]? = some x → h[parent cur]? = some y →
    rank x ≤ rank y)

theorem exists_getElem? {h : List α} {k : Nat} (inside : k < h.length) : ∃ x, h[k]? = some x :=
  ⟨h[k], List.getElem?_eq_getElem inside⟩

/-- Swapping the entry at cur with its lesser child, when that child is of
higher rank, moves the sifting to the child. -/
theorem Sifting.swap {h : List α} {lo cur n : Nat} (sifting : Sifting rank h lo cur n) (bounded : n ≤ h.length)
    (ranks : RanksBy less rank h) (notLeaf : ¬ n ≤ 2 * cur + 1)
    (moves : lessAt less h (lesserChild less h cur n) cur = true) :
    Sifting rank (Heap.swap h cur (lesserChild less h cur n)) lo (lesserChild less h cur n) n := by
  obtain ⟨others, grand⟩ := sifting
  have isChild := lesserChild_isChild less h cur n
  have childBelow : lesserChild less h cur n < n := lesserChild_lt notLeaf
  have siblingRank : ∀ c x y, (c = 2 * cur + 1 ∨ c = 2 * cur + 2) → c < n → h[c]? = some x →
      h[lesserChild less h cur n]? = some y → rank x ≤ rank y :=
    fun _ _ _ isC inside atC atChild => rank_le_lesserChild ranks isC inside atC atChild
  generalize lesserChild less h cur n = j at isChild childBelow moves siblingRank ⊢
  have parentJ : parent j = cur := parent_of_child isChild
  have inCur : cur < h.length := by omega
  have inJ : j < h.length := by omega
  obtain ⟨e, atCur⟩ := exists_getElem? inCur
  obtain ⟨z, atJ⟩ := exists_getElem? inJ
  -- the child is of higher rank than the entry it swaps with
  have higher : rank e < rank z := by
    rw [lessAt_eq ranks (by omega) atJ atCur, decide_eq_true_eq] at moves
    exact moves
  have swapped : ∀ k, (Heap.swap h cur j)[k]? = h[swapIndex cur j k]? := getElem?_swap inCur inJ
  constructor
  · intro k x y positive below fromLo notJ atK atParent
    rw [swapped] at atK atParent
    by_cases kIsJ : k = j
    · -- the entry that was at cur is now below the child
      subst kIsJ
      simp only [swapIndex, ↓reduceIte] at atK
      simp only [swapIndex, parentJ, if_neg (show cur ≠ k by omega), ↓reduceIte] at atParent
      rw [atCur, Option.some_inj] at atK
      rw [atJ, Option.some_inj] at atParent
      subst atK atParent
      exact le_of_lt higher
    by_cases kIsCur : k = cur
    · -- the child moved up to cur is not above cur's parent
      subst kIsCur
      have parentBelow := parent_lt positive
      simp only [swapIndex, if_neg kIsJ, ↓reduceIte] at atK
      simp only [swapIndex, if_neg (show parent k ≠ j by omega), if_neg (show parent k ≠ k by omega)] at atParent
      exact grand (by omega) j x y (by omega) childBelow parentJ atK atParent
    by_cases siblingOfJ : parent k = cur
    · -- the sibling of the child is not above the child, now at cur
      simp only [swapIndex, if_neg kIsJ, if_neg kIsCur] at atK
      simp only [swapIndex, siblingOfJ, if_neg (show cur ≠ j by omega)] at atParent
      exact siblingRank k x y (by unfold parent at siblingOfJ; omega) below atK atParent
    · simp only [swapIndex, if_neg kIsJ, if_neg kIsCur] at atK
      simp only [swapIndex, if_neg notJ, if_neg siblingOfJ] at atParent
      exact others k x y positive below fromLo siblingOfJ atK atParent
  · intro _ c x y positive below parentC atC atParent
    have childAbove : j < c := by
      unfold parent at parentC
      omega
    rw [swapped] at atC atParent
    simp only [swapIndex, if_neg (show c ≠ j by omega), if_neg (show c ≠ cur by omega)] at atC
    simp only [swapIndex, parentJ, if_neg (show cur ≠ j by omega)] at atParent
    exact others c x y positive below (by omega) (by omega) atC (parentC ▸ atParent)

/-- down from cur leaves every position below n whose parent is at least lo
in order. Induction along the loop of down. -/
theorem downLoop_ordered {lo : Nat} (n : Nat) (h : List α) (cur : Nat) (bounded : n ≤ h.length)
    (ranks : RanksBy less rank h) (above : lo ≤ cur) (sifting : Sifting rank h lo cur n) :
    OrderedFrom rank (downLoop less h cur n).1 lo n := by
  induction h, cur using downLoop.induct less n with
  | case1 h cur leaf =>
    rw [downLoop_leaf leaf]
    intro k x y positive below fromLo atK atParent
    have notChild : parent k ≠ cur := by
      unfold parent
      omega
    exact sifting.1 k x y positive below fromLo notChild atK atParent
  | case2 h cur notLeaf j moves inductionHypothesis =>
    rw [downLoop_swap notLeaf moves]
    exact inductionHypothesis (by simpa using bounded) (ranks.swap cur j)
      (Nat.le_trans above (by have := lesserChild_isChild less h cur n; omega))
      (sifting.swap bounded ranks notLeaf moves)
  | case3 h cur notLeaf j stays =>
    have stopsHere : lessAt less h (lesserChild less h cur n) cur = false := by simpa using stays
    rw [downLoop_stop notLeaf stopsHere]
    intro k x y positive below fromLo atK atParent
    by_cases childOfCur : parent k = cur
    · -- the children of cur are not above its lesser child, which is not above cur
      have childBelow : lesserChild less h cur n < n := lesserChild_lt notLeaf
      obtain ⟨z, atChild⟩ := exists_getElem? (show lesserChild less h cur n < h.length by omega)
      rw [childOfCur] at atParent
      have stopped : rank z ≤ rank y := by
        rw [lessAt_eq ranks (by have := lesserChild_isChild less h cur n; omega) atChild atParent,
          decide_eq_false_iff_not, not_lt] at stopsHere
        exact stopsHere
      exact le_trans (rank_le_lesserChild ranks (by unfold parent at childOfCur; omega) below atK atChild)
        stopped
    · exact sifting.1 k x y positive below fromLo childOfCur atK atParent

/-- The first n entries in order: every entry below n is not above its parent. -/
theorem OrderedFrom.mono {h : List α} {lo n m : Nat} (ordered : OrderedFrom rank h lo n) (le : m ≤ n) :
    OrderedFrom rank h lo m :=
  fun k x y positive below => ordered k x y positive (Nat.lt_of_lt_of_le below le)

theorem OrderedFrom.sifting {h : List α} {i n : Nat} (ordered : OrderedFrom rank h (i + 1) n) :
    Sifting rank h i i n :=
  ⟨fun k x y positive below fromLo notCur => ordered k x y positive below (by omega),
    fun away => absurd away (Nat.lt_irrefl i)⟩

/-- A heap whose entries other than the root were left in place sifts from the root. -/
theorem OrderedFrom.sifting_root {h h' : List α} {n : Nat} (ordered : OrderedFrom rank h 0 n)
    (same : ∀ k, 0 < k → k < n → h'[k]? = h[k]?) : Sifting rank h' 0 0 n := by
  refine ⟨fun k x y positive below _ notRoot atK atParent => ?_, fun away => absurd away (Nat.lt_irrefl 0)⟩
  have parentBelow := parent_lt positive
  rw [same k positive below] at atK
  rw [same (parent k) (Nat.pos_of_ne_zero notRoot) (by omega)] at atParent
  exact ordered k x y positive below (Nat.zero_le _) atK atParent

/-- In a heap no entry is above the root. Strong induction along the parents. -/
theorem OrderedFrom.root_max {h : List α} {n : Nat} (ordered : OrderedFrom rank h 0 n)
    (bounded : n ≤ h.length) {r : α} (atRoot : h[0]? = some r) :
    ∀ k x, k < n → h[k]? = some x → rank x ≤ rank r := by
  intro k
  induction k using Nat.strongRecOn with
  | _ k inductionHypothesis =>
    intro x below atK
    rcases Nat.eq_zero_or_pos k with root | positive
    · subst root
      rw [atRoot, Option.some_inj] at atK
      rw [atK]
    · have parentBelow := parent_lt positive
      obtain ⟨y, atParent⟩ := exists_getElem? (show parent k < h.length by omega)
      exact le_trans (ordered k x y positive below (Nat.zero_le _) atK atParent)
        (inductionHypothesis (parent k) parentBelow y (by omega) atParent)

/-! ### Init -/

theorem orderedFrom_half (h : List α) (n : Nat) : OrderedFrom rank h (n / 2) n := by
  intro k x y positive below fromLo
  unfold parent at fromLo
  omega

/-- Sifting down the positions below m, the last first, orders a heap whose
positions with parent at least m were in order. -/
theorem foldl_down_ordered (n : Nat) (m : Nat) (h : List α) (bounded : n ≤ h.length)
    (ranks : RanksBy less rank h) (ordered : OrderedFrom rank h m n) :
    OrderedFrom rank ((List.range m).reverse.foldl (fun h i => (down less h i n).1) h) 0 n := by
  induction m generalizing h with
  | zero => simpa using ordered
  | succ m inductionHypothesis =>
    rw [List.range_succ, List.reverse_append, List.reverse_singleton, List.singleton_append,
      List.foldl_cons]
    exact inductionHypothesis _ (by simpa [down] using bounded) (ranks.downLoop m n)
      (downLoop_ordered n h m bounded ranks (Nat.le_refl _) ordered.sifting)

theorem RanksBy.foldl_down {h : List α} (ranks : RanksBy less rank h) (n : Nat) (is : List Nat) :
    RanksBy less rank (is.foldl (fun h i => (down less h i n).1) h) := by
  induction is generalizing h with
  | nil => exact ranks
  | cons i is inductionHypothesis => exact inductionHypothesis (ranks.downLoop i n)

theorem init_ordered {h : List α} (ranks : RanksBy less rank h) :
    OrderedFrom rank (init less h) 0 (init less h).length := by
  rw [length_init]
  exact foldl_down_ordered h.length (h.length / 2) h (Nat.le_refl _) ranks (orderedFrom_half h h.length)

theorem RanksBy.init {h : List α} (ranks : RanksBy less rank h) : RanksBy less rank (Heap.init less h) :=
  ranks.foldl_down h.length _

/-! ### Pop -/

theorem RanksBy.dropLast {h : List α} (ranks : RanksBy less rank h) : RanksBy less rank h.dropLast := by
  intro i j x y different atI atJ
  rw [List.getElem?_dropLast] at atI atJ
  split at atI <;> split at atJ <;> first | cases atI | cases atJ | exact ranks i j x y different atI atJ

theorem getElem?_dropLast_of_lt {h : List α} {k : Nat} (below : k < h.length - 1) :
    h.dropLast[k]? = h[k]? := by
  rw [List.getElem?_dropLast, if_pos below]

theorem RanksBy.pop {h : List α} (ranks : RanksBy less rank h) : RanksBy less rank (Heap.pop less h).1 :=
  ((ranks.swap 0 (h.length - 1)).downLoop 0 (h.length - 1)).dropLast

/-- Pop leaves the heap order on what remains. -/
theorem pop_ordered {h : List α} (ranks : RanksBy less rank h) (ordered : OrderedFrom rank h 0 h.length) :
    OrderedFrom rank (Heap.pop less h).1 0 (Heap.pop less h).1.length := by
  rw [length_pop]
  have leftInPlace : ∀ k, 0 < k → k < h.length - 1 → (swap h 0 (h.length - 1))[k]? = h[k]? := by
    intro k positive below
    rw [getElem?_swap (by omega) (by omega)]
    simp only [swapIndex, if_neg (show k ≠ h.length - 1 by omega), if_neg (show k ≠ 0 by omega)]
  have sifted := downLoop_ordered (h.length - 1) (swap h 0 (h.length - 1)) 0 (by simp) (ranks.swap 0 _)
    (Nat.le_refl _) ((ordered.mono (by omega)).sifting_root leftInPlace)
  intro k x y positive below fromLo atK atParent
  simp only [Heap.pop, down] at atK atParent
  rw [getElem?_dropLast_of_lt (by simp; omega)] at atK
  rw [getElem?_dropLast_of_lt (by have := parent_lt positive; simp; omega)] at atParent
  exact sifted k x y positive below fromLo atK atParent

/-! ### Fix at the root -/

theorem RanksBy.fix_zero {h : List α} (ranks : RanksBy less rank h) : RanksBy less rank (Heap.fix less h 0) := by
  rw [Heap.fix_zero]
  exact ranks.downLoop 0 h.length

/-- Replacing the root and fixing it keeps the heap order. -/
theorem fix_set_zero_ordered {h : List α} (x : α) (ranks : RanksBy less rank (h.set 0 x))
    (ordered : OrderedFrom rank h 0 h.length) :
    OrderedFrom rank (Heap.fix less (h.set 0 x) 0) 0 (Heap.fix less (h.set 0 x) 0).length := by
  rw [(fix_zero_perm less _).length_eq, Heap.fix_zero, List.length_set]
  have leftInPlace : ∀ k, 0 < k → k < h.length → (h.set 0 x)[k]? = h[k]? :=
    fun k positive _ => List.getElem?_set_ne (by omega)
  exact downLoop_ordered h.length (h.set 0 x) 0 (by simp) ranks (Nat.le_refl _) (ordered.sifting_root leftInPlace)

end Ranked

end Heap
