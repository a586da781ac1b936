import Mathlib.Data.List.FinRange

/-
This file develops Go's sort.Search: the bisection that finds, in the range
[0, n), the first index at which a predicate holds, or n. The loop keeps the
predicate false below its lower bound and true from its upper bound on; for a
predicate that is false and then true over the range, the index it returns is
the first at which the predicate holds, and over a list it is the list's
findIdx.
-/

namespace SortSearch

/-- The bisection of sort.Search on [i, j), for at most fuel halvings. -/
def searchLoop (f : Nat → Bool) : Nat → Nat → Nat → Nat
  | 0, i, _ => i
  | fuel + 1, i, j =>
    if i < j then
      let h := (i + j) / 2
      if !f h then searchLoop f fuel (h + 1) j else searchLoop f fuel i h
    else i

/-- sort.Search: every turn shrinks the range, so n turns are enough. -/
def Search (n : Nat) (f : Nat → Bool) : Nat := searchLoop f n 0 n

variable {f : Nat → Bool} {n : Nat}

/-- The loop's invariant on [i, j): f is false below i and true from j on. -/
structure Bracket (f : Nat → Bool) (n i j : Nat) : Prop where
  le : i ≤ j
  bounded : j ≤ n
  below : ∀ k, k < i → f k = false
  above : ∀ k, j ≤ k → k < n → f k = true

/-- f is false and then true over [0, n). -/
def Monotone (f : Nat → Bool) (n : Nat) : Prop := ∀ a b, a ≤ b → b < n → f a = true → f b = true

theorem Bracket.step_false {i j : Nat} (bracket : Bracket f n i j) (nonempty : i < j)
    (mono : Monotone f n) (false_at : f ((i + j) / 2) = false) : Bracket f n ((i + j) / 2 + 1) j := by
  refine ⟨by omega, bracket.bounded, fun k below => ?_, bracket.above⟩
  -- an index at or below the midpoint where f held would make f hold at the midpoint
  by_contra holds
  have atMid := mono k ((i + j) / 2) (by omega) (by have := bracket.bounded; omega) (by simpa using holds)
  rw [false_at] at atMid
  exact Bool.false_ne_true atMid

theorem Bracket.step_true {i j : Nat} (bracket : Bracket f n i j) (nonempty : i < j)
    (mono : Monotone f n) (true_at : f ((i + j) / 2) = true) : Bracket f n i ((i + j) / 2) := by
  refine ⟨by omega, by have := bracket.bounded; omega, bracket.below, fun k above bounded => ?_⟩
  exact mono ((i + j) / 2) k above bounded true_at

/-- With fuel for the whole range the loop returns the point where the bracket closes. -/
theorem searchLoop_bracket (mono : Monotone f n) :
    ∀ fuel i j, Bracket f n i j → j - i ≤ fuel → Bracket f n (searchLoop f fuel i j) (searchLoop f fuel i j) := by
  intro fuel
  induction fuel with
  | zero =>
    intro i j bracket width
    have closed : j = i := by have := bracket.le; omega
    subst closed
    exact bracket
  | succ fuel inductionHypothesis =>
    intro i j bracket width
    simp only [searchLoop]
    by_cases nonempty : i < j
    · rw [if_pos nonempty]
      cases atMid : f ((i + j) / 2) with
      | false =>
        simp only [Bool.not_false, if_true]
        exact inductionHypothesis _ _ (bracket.step_false nonempty mono atMid) (by omega)
      | true =>
        simp only [Bool.not_true]
        exact inductionHypothesis _ _ (bracket.step_true nonempty mono atMid) (by omega)
    · rw [if_neg nonempty]
      have closed : j = i := by have := bracket.le; omega
      subst closed
      exact bracket

/-- For a predicate false and then true over [0, n), Search returns an index
of [0, n] below which f is false and from which it is true. -/
theorem Search_spec (mono : Monotone f n) : Bracket f n (Search n f) (Search n f) := by
  have initial : Bracket f n 0 n :=
    ⟨Nat.zero_le n, le_rfl, fun _ below => absurd below (Nat.not_lt_zero _),
      fun _ above bounded => absurd bounded (Nat.not_lt.mpr above)⟩
  exact searchLoop_bracket mono n 0 n initial (by omega)

/-- Over a list along which p, once true, stays true, Search on the indexes of
the list finds the first entry where p holds. -/
theorem Search_eq_findIdx {α : Type} (l : List α) (p : α → Bool)
    (mono : l.Pairwise fun a b => p a = true → p b = true) (agree : ∀ i (inside : i < l.length), f i = p l[i]) :
    Search l.length f = l.findIdx p := by
  have monotone : Monotone f l.length := by
    intro a b le bounded holds
    rcases Nat.lt_or_eq_of_le le with lt | rfl
    · rw [agree a (by omega)] at holds
      rw [agree b bounded]
      exact List.pairwise_iff_getElem.mp mono a b (by omega) bounded lt holds
    · exact holds
  have bracket := Search_spec monotone
  by_cases inside : Search l.length f < l.length
  · refine ((List.findIdx_eq inside).mpr ⟨?_, fun j before => ?_⟩).symm
    · rw [← agree _ inside]
      exact bracket.above _ le_rfl inside
    · rw [← agree j (by omega)]
      exact bracket.below j before
  · have atEnd : Search l.length f = l.length := le_antisymm bracket.bounded (Nat.not_lt.mp inside)
    rw [atEnd, eq_comm, List.findIdx_eq_length]
    intro x member
    obtain ⟨j, bounded, rfl⟩ := List.getElem_of_mem member
    rw [← agree j bounded]
    exact bracket.below j (by omega)

end SortSearch
