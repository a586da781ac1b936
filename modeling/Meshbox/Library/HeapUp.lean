/-
This file proves that the heap operations that sift an entry up keep the heap
order and the entries: push, which appends an entry and sifts it up, and
remove, which moves the last entry into the place of the one removed, sifts it
down and then up.

While up moves an entry, every position but the entry's own is in order with
its parent, and the entry's children are not above its parent. A swap with the
parent moves this to the parent, and once the entry is not less than its parent
the heap is in order. For remove, an entry that is above its new parent is above
its new children too, so down leaves it and up moves it; any other entry is
ordered by down, and up then leaves it.
-/

import Meshbox.Library.Heap

namespace Heap

variable {α : Type}

theorem parent_le (j : Nat) : parent j ≤ j := by
  unfold parent
  omega

@[simp] theorem parent_zero : parent 0 = 0 := rfl

/-! ### Sifting up, one step at a time -/

section Steps

variable {less : α → α → Bool} {h : List α} {j : Nat}

theorem up_stop (stops : parent j = j ∨ lessAt less h j (parent j) = false) : up less h j = h := by
  rw [up_eq]
  exact if_pos stops

theorem up_swap (moves : ¬ (parent j = j ∨ lessAt less h j (parent j) = false)) :
    up less h j = up less (swap h (parent j) j) (parent j) := by
  rw [up_eq]
  exact if_neg moves

end Steps

theorem up_perm (less : α → α → Bool) (h : List α) (j : Nat) : (up less h j).Perm h := by
  induction h, j using up.induct less with
  | case1 h j _ stops => rw [up_stop stops]
  | case2 h j _ moves inductionHypothesis =>
    rw [up_swap moves]
    exact inductionHypothesis.trans (swap_perm h _ j)

@[simp] theorem length_up (less : α → α → Bool) (h : List α) (j : Nat) : (up less h j).length = h.length :=
  (up_perm less h j).length_eq

/-- up touches only the positions up to the one it starts from. -/
theorem getElem?_up_of_lt (less : α → α → Bool) (h : List α) (j : Nat) {k : Nat} (above : j < k) :
    (up less h j)[k]? = h[k]? := by
  induction h, j using up.induct less with
  | case1 h j _ stops => rw [up_stop stops]
  | case2 h j _ moves inductionHypothesis =>
    rw [up_swap moves, inductionHypothesis (Nat.lt_of_le_of_lt (parent_le j) above)]
    exact getElem?_swap_of_le (Nat.lt_of_le_of_lt (parent_le j) above) above (Nat.le_refl k)

/-- What is left after the last entry is taken off, with the last entry put
back in front, is the list again. -/
theorem perm_cons_dropLast {h : List α} {x : α} (last : h.getLast? = some x) : (x :: h.dropLast).Perm h := by
  have nonempty : h ≠ [] := fun empty => by simp [empty] at last
  have split := List.dropLast_append_getLast nonempty
  rw [List.getLast?_eq_some_getLast nonempty, Option.some_inj] at last
  rw [last] at split
  calc (x :: h.dropLast).Perm (h.dropLast ++ [x]) := (List.perm_append_singleton x _).symm
    _ = h := split

theorem push_perm (less : α → α → Bool) (h : List α) (x : α) : (push less h x).Perm (x :: h) :=
  (up_perm less _ _).trans (List.perm_append_singleton x h)

@[simp] theorem length_push (less : α → α → Bool) (h : List α) (x : α) :
    (push less h x).length = h.length + 1 := by
  simp [(push_perm less h x).length_eq]

/-! ### Remove -/

/-- The list remove sifts: the entry at i swapped with the last one, which is
sifted down among the others and then up. -/
theorem remove_of_ne (less : α → α → Bool) (h : List α) {i : Nat} (notLast : h.length - 1 ≠ i) :
    remove less h i =
      ((up less (downLoop less (swap h i (h.length - 1)) i (h.length - 1)).1 i).dropLast,
        (up less (downLoop less (swap h i (h.length - 1)) i (h.length - 1)).1 i).getLast?) := by
  simp only [remove, down, ne_eq, notLast, not_false_eq_true, if_true]

theorem remove_of_last (less : α → α → Bool) (h : List α) {i : Nat} (last : h.length - 1 = i) :
    remove less h i = (h.dropLast, h.getLast?) := by
  simp only [remove, ne_eq, last, not_true_eq_false, if_false]

@[simp] theorem length_remove (less : α → α → Bool) (h : List α) (i : Nat) :
    (remove less h i).1.length = h.length - 1 := by
  by_cases last : h.length - 1 = i
  · simp [remove_of_last less h last]
  · simp [remove_of_ne less h last]

/-- Remove returns the entry at i. -/
theorem remove_snd (less : α → α → Bool) (h : List α) {i : Nat} (inside : i < h.length) :
    (remove less h i).2 = h[i]? := by
  by_cases last : h.length - 1 = i
  · rw [remove_of_last less h last, List.getLast?_eq_getElem?, last]
  · rw [remove_of_ne less h last, List.getLast?_eq_getElem?, length_up, length_downLoop, length_swap,
      getElem?_up_of_lt less _ i (by omega), getElem?_downLoop_of_le less _ i _ (Nat.le_refl _),
      getElem?_swap inside (by omega)]
    simp [swapIndex]

/-- What remove leaves is the rest of the heap, in some order. -/
theorem remove_perm (less : α → α → Bool) (h : List α) {i : Nat} (inside : i < h.length) :
    (h[i] :: (remove less h i).1).Perm h := by
  have last : (remove less h i).2 = some h[i] := by
    rw [remove_snd less h inside, List.getElem?_eq_getElem inside]
  by_cases atEnd : h.length - 1 = i
  · rw [remove_of_last less h atEnd] at last ⊢
    exact perm_cons_dropLast last
  · rw [remove_of_ne less h atEnd] at last ⊢
    exact (perm_cons_dropLast last).trans
      (((up_perm less _ i).trans (downLoop_perm less _ i _)).trans (swap_perm h i _))

/-! ### Comparison by rank -/

section Ranked

variable {β : Type} [LinearOrder β] {less : α → α → Bool} {rank : α → β}

theorem RanksBy.up {h : List α} (ranks : RanksBy less rank h) (j : Nat) :
    RanksBy less rank (Heap.up less h j) := by
  induction h, j using up.induct less with
  | case1 h j _ stops => rwa [up_stop stops]
  | case2 h j _ moves inductionHypothesis =>
    rw [up_swap moves]
    exact inductionHypothesis (ranks.swap _ j)

theorem RanksBy.remove {h : List α} (ranks : RanksBy less rank h) (i : Nat) :
    RanksBy less rank (Heap.remove less h i).1 := by
  by_cases last : h.length - 1 = i
  · rw [remove_of_last less h last]
    exact ranks.dropLast
  · rw [remove_of_ne less h last]
    exact (((ranks.swap i _).downLoop i _).up i).dropLast

/-- The first n entries of a list in order stay in order when the last entry
is taken off a list of n + 1. -/
theorem OrderedFrom.dropLast {h : List α} {lo n : Nat} (ordered : OrderedFrom rank h lo n)
    (bounded : n ≤ h.length - 1) : OrderedFrom rank h.dropLast lo n := by
  intro k x y positive below fromLo atK atParent
  rw [getElem?_dropLast_of_lt (by omega)] at atK
  rw [getElem?_dropLast_of_lt (by have := parent_lt positive; omega)] at atParent
  exact ordered k x y positive below fromLo atK atParent

/-! ### Sifting up -/

/-- What up keeps while the entry it sifts is at cur: the positions below n
other than cur are in order, and the children of cur have rank at most the
entry at cur's parent. -/
structure UpSifting (rank : α → β) (h : List α) (cur n : Nat) : Prop where
  others : ∀ k x y, 0 < k → k < n → k ≠ cur → h[k]? = some x → h[parent k]? = some y → rank x ≤ rank y
  grand : 0 < cur → ∀ c x y, c < n → parent c = cur → h[c]? = some x → h[parent cur]? = some y →
    rank x ≤ rank y

/-- An entry that up stops at orders the heap. -/
theorem UpSifting.ordered {h : List α} {cur n : Nat} (sifting : UpSifting rank h cur n)
    (ranks : RanksBy less rank h) (stops : parent cur = cur ∨ lessAt less h cur (parent cur) = false) :
    OrderedFrom rank h 0 n := by
  intro k x y positive below _ atK atParent
  by_cases atCur : k = cur
  · subst atCur
    have parentBelow := parent_lt positive
    rcases stops with root | notLess
    · exact absurd root (Nat.ne_of_lt parentBelow)
    · rw [lessAt_eq ranks (Nat.ne_of_gt parentBelow) atK atParent, decide_eq_false_iff_not, not_lt] at notLess
      exact notLess
  · exact sifting.others k x y positive below atCur atK atParent

/-- Swapping the entry at cur with its parent, when it is of higher rank, moves
the sifting to the parent. -/
theorem UpSifting.swap {h : List α} {cur n : Nat} (sifting : UpSifting rank h cur n) (inside : cur < n)
    (bounded : n ≤ h.length) (ranks : RanksBy less rank h)
    (moves : ¬ (parent cur = cur ∨ lessAt less h cur (parent cur) = false)) :
    UpSifting rank (Heap.swap h (parent cur) cur) (parent cur) n := by
  obtain ⟨others, grand⟩ := sifting
  obtain ⟨notRoot, lessThere⟩ := not_or.mp moves
  have positive : 0 < cur := by
    apply Nat.pos_of_ne_zero
    rintro rfl
    exact notRoot rfl
  have parentBelow := parent_lt positive
  obtain ⟨x, atCur⟩ := exists_getElem? (show cur < h.length by omega)
  obtain ⟨y, atParent⟩ := exists_getElem? (show parent cur < h.length by omega)
  -- the entry is of higher rank than its parent
  have higher : rank y < rank x := by
    rw [lessAt_eq ranks (Nat.ne_of_gt parentBelow) atCur atParent, Bool.not_eq_false, decide_eq_true_eq]
      at lessThere
    exact lessThere
  have swapped : ∀ k, (Heap.swap h (parent cur) cur)[k]? = h[swapIndex (parent cur) cur k]? :=
    getElem?_swap (by omega) (by omega)
  constructor
  · intro k a b positiveK below notParent atK atKParent
    rw [swapped] at atK atKParent
    by_cases kIsCur : k = cur
    · -- the parent's entry, moved down to cur, is below the entry moved up
      subst kIsCur
      simp only [swapIndex, ↓reduceIte, atParent, Option.some_inj] at atK
      simp only [swapIndex, if_neg (Nat.ne_of_lt parentBelow), ↓reduceIte, atCur, Option.some_inj] at atKParent
      subst atK atKParent
      exact le_of_lt higher
    simp only [swapIndex, if_neg kIsCur, if_neg notParent] at atK
    by_cases childOfCur : parent k = cur
    · -- a child of cur is below the parent's entry, now at cur
      simp only [swapIndex, childOfCur, ↓reduceIte] at atKParent
      exact grand positive k a b below childOfCur atK atKParent
    by_cases siblingOfCur : parent k = parent cur
    · -- a sibling of cur is below the parent's entry, below the entry moved up
      simp only [swapIndex, siblingOfCur, if_neg (Nat.ne_of_lt parentBelow), ↓reduceIte, atCur,
        Option.some_inj] at atKParent
      subst atKParent
      exact le_trans (others k a y positiveK below kIsCur atK (siblingOfCur ▸ atParent)) (le_of_lt higher)
    · simp only [swapIndex, if_neg childOfCur, if_neg siblingOfCur] at atKParent
      exact others k a b positiveK below kIsCur atK atKParent
  · intro parentPositive c a b below parentC atC atGrand
    have grandBelow := parent_lt parentPositive
    rw [swapped] at atC atGrand
    simp only [swapIndex, if_neg (show parent (parent cur) ≠ cur by omega),
      if_neg (Nat.ne_of_lt grandBelow)] at atGrand
    -- the parent's entry was not above the grandparent's
    have parentEdge : rank y ≤ rank b :=
      others (parent cur) y b parentPositive (by omega) (Nat.ne_of_lt parentBelow) atParent atGrand
    by_cases cIsCur : c = cur
    · subst cIsCur
      simp only [swapIndex, ↓reduceIte, atParent, Option.some_inj] at atC
      subst atC
      exact parentEdge
    · have notParent : c ≠ parent cur := by
        rintro rfl
        exact Nat.ne_of_lt grandBelow parentC
      have positiveC : 0 < c := by
        apply Nat.pos_of_ne_zero
        rintro rfl
        exact Nat.ne_of_gt parentPositive (parentC.symm.trans parent_zero)
      simp only [swapIndex, if_neg cIsCur, if_neg notParent] at atC
      exact le_trans (others c a y positiveC below cIsCur atC (parentC ▸ atParent)) parentEdge

/-- up from cur orders a heap that sifts up from cur. Induction along the loop
of up. -/
theorem up_ordered {n : Nat} (h : List α) (cur : Nat) (bounded : n ≤ h.length) (inside : cur < n)
    (ranks : RanksBy less rank h) (sifting : UpSifting rank h cur n) :
    OrderedFrom rank (up less h cur) 0 n := by
  induction h, cur using up.induct less with
  | case1 h cur _ stops =>
    rw [up_stop stops]
    exact sifting.ordered ranks stops
  | case2 h cur _ moves inductionHypothesis =>
    rw [up_swap moves]
    exact inductionHypothesis (by simpa using bounded) (Nat.lt_of_le_of_lt (parent_le cur) inside)
      (ranks.swap _ cur) (sifting.swap inside bounded ranks moves)

/-- In a heap, up may start from any entry. -/
theorem OrderedFrom.upSifting {h : List α} {n : Nat} (ordered : OrderedFrom rank h 0 n) (bounded : n ≤ h.length)
    {cur : Nat} (inside : cur < n) : UpSifting rank h cur n where
  others k x y positive below _ := ordered k x y positive below (Nat.zero_le _)
  grand positive c x y below parentC atC atGrand := by
    obtain ⟨z, atCur⟩ := exists_getElem? (show cur < h.length by omega)
    have positiveC : 0 < c := by
      apply Nat.pos_of_ne_zero
      rintro rfl
      exact Nat.ne_of_gt positive (parentC.symm.trans parent_zero)
    exact le_trans (ordered c x z positiveC below (Nat.zero_le _) atC (parentC ▸ atCur))
      (ordered cur z y positive inside (Nat.zero_le _) atCur atGrand)

/-! ### Push -/

theorem RanksBy.push {h : List α} {x : α} (ranks : RanksBy less rank (h ++ [x])) :
    RanksBy less rank (Heap.push less h x) :=
  ranks.up h.length

/-- Push keeps the heap order. -/
theorem push_ordered {h : List α} {x : α} (ranks : RanksBy less rank (h ++ [x]))
    (ordered : OrderedFrom rank h 0 h.length) :
    OrderedFrom rank (Heap.push less h x) 0 (Heap.push less h x).length := by
  rw [length_push]
  -- the new entry is at the end: it has no children, and every other edge was in order
  have appended : UpSifting rank (h ++ [x]) h.length (h.length + 1) := by
    refine ⟨fun k y z positive below notLast atK atParent => ?_, fun positive c y z below parentC => ?_⟩
    · have parentBelow := parent_lt positive
      rw [List.getElem?_append_left (by omega)] at atK atParent
      exact ordered k y z positive (by omega) (Nat.zero_le _) atK atParent
    · unfold parent at parentC
      omega
  exact up_ordered _ _ (by simp) (by omega) ranks appended

/-! ### Remove -/

/-- Replacing the entry at i of the first n entries of a heap, sifting it down
among them and then up orders them again. -/
theorem up_downLoop_ordered {h h' : List α} {i n : Nat} (inside : i < n) (bounded : n ≤ h.length)
    (bounded' : n ≤ h'.length) (ranks : RanksBy less rank h') (ordered : OrderedFrom rank h 0 n)
    (same : ∀ k, k < n → k ≠ i → h'[k]? = h[k]?) :
    OrderedFrom rank (up less (downLoop less h' i n).1 i) 0 n := by
  obtain ⟨x, atI⟩ := exists_getElem? (show i < h'.length by omega)
  -- the children of i are not above the entry at i's parent, through the entry i held
  have grand : 0 < i → ∀ c a b, c < n → parent c = i → h'[c]? = some a → h'[parent i]? = some b →
      rank a ≤ rank b := by
    intro positive c a b below parentC atC atGrand
    obtain ⟨z, atOld⟩ := exists_getElem? (show i < h.length by omega)
    have childAbove : i < c := by
      unfold parent at parentC
      omega
    have parentBelow := parent_lt positive
    rw [same c below (by omega)] at atC
    rw [same (parent i) (by omega) (by omega)] at atGrand
    exact le_trans (ordered c a z (by omega) below (Nat.zero_le _) atC (parentC ▸ atOld))
      (ordered i z b positive inside (Nat.zero_le _) atOld atGrand)
  have unchanged : ∀ k a b, 0 < k → k < n → k ≠ i → parent k ≠ i → h'[k]? = some a → h'[parent k]? = some b →
      rank a ≤ rank b := by
    intro k a b positive below notI parentNotI atK atParent
    rw [same k below notI] at atK
    rw [same (parent k) (by have := parent_lt positive; omega) parentNotI] at atParent
    exact ordered k a b positive below (Nat.zero_le _) atK atParent
  by_cases climbs : 0 < i ∧ ∃ y, h'[parent i]? = some y ∧ rank y < rank x
  · -- the entry is above its parent and so above its children: down leaves it, up moves it
    obtain ⟨positive, y, atParent, above⟩ := climbs
    have childrenBelow : ∀ c a, c < n → parent c = i → h'[c]? = some a → rank a < rank x :=
      fun c a below parentC atC => lt_of_le_of_lt (grand positive c a y below parentC atC atParent) above
    have stays : (downLoop less h' i n).1 = h' := by
      by_cases leaf : n ≤ 2 * i + 1
      · rw [downLoop_leaf leaf]
      · have childBelow : lesserChild less h' i n < n := lesserChild_lt leaf
        have isChild := lesserChild_isChild less h' i n
        obtain ⟨z, atChild⟩ := exists_getElem? (show lesserChild less h' i n < h'.length by omega)
        have notAbove := childrenBelow _ z childBelow (parent_of_child isChild) atChild
        have stops : lessAt less h' (lesserChild less h' i n) i = false := by
          rw [lessAt_eq ranks (by omega) atChild atI, decide_eq_false_iff_not, not_lt]
          exact le_of_lt notAbove
        rw [downLoop_stop leaf stops]
    rw [stays]
    refine up_ordered h' i bounded' inside ranks ⟨?_, fun _ => grand positive⟩
    intro k a b positiveK below notI atK atKParent
    by_cases childOfI : parent k = i
    · rw [childOfI, atI, Option.some_inj] at atKParent
      subst atKParent
      exact le_of_lt (childrenBelow k a below childOfI atK)
    · exact unchanged k a b positiveK below notI childOfI atK atKParent
  · -- the entry is not above its parent: down orders the heap, and up leaves it
    have sifting : Sifting rank h' 0 i n := by
      refine ⟨fun k a b positive below _ parentNotI atK atParent => ?_,
        fun positive c a b _ below parentC atC atGrand => grand positive c a b below parentC atC atGrand⟩
      by_cases kIsI : k = i
      · subst kIsI
        rw [atI, Option.some_inj] at atK
        subst atK
        exact not_lt.mp fun higher => climbs ⟨positive, b, atParent, higher⟩
      · exact unchanged k a b positive below kIsI parentNotI atK atParent
    have sifted := downLoop_ordered n h' i bounded' ranks (Nat.zero_le _) sifting
    exact up_ordered _ i (by simpa using bounded') inside (ranks.downLoop i n)
      (sifted.upSifting (by simpa using bounded') inside)

/-- Remove keeps the heap order. -/
theorem remove_ordered {h : List α} {i : Nat} (inside : i < h.length) (ranks : RanksBy less rank h)
    (ordered : OrderedFrom rank h 0 h.length) :
    OrderedFrom rank (Heap.remove less h i).1 0 (Heap.remove less h i).1.length := by
  rw [length_remove]
  by_cases last : h.length - 1 = i
  · rw [remove_of_last less h last]
    exact (ordered.mono (by omega)).dropLast (Nat.le_refl _)
  · rw [remove_of_ne less h last]
    -- the swap changes, among the first n entries, only the one at i
    have same : ∀ k, k < h.length - 1 → k ≠ i → (swap h i (h.length - 1))[k]? = h[k]? := by
      intro k below notI
      rw [getElem?_swap inside (by omega)]
      simp only [swapIndex, if_neg (Nat.ne_of_lt below), if_neg notI]
    exact (up_downLoop_ordered (by omega) (by omega) (by simp) (ranks.swap i _) (ordered.mono (by omega))
      same).dropLast (by simp)

end Ranked

end Heap
