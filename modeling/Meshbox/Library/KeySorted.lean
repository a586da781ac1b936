/-
Lists sorted by a key. Sorting entries whose keys are distinct gives the one
permutation of them in strictly increasing key order, so it commutes with
filtering and with taking the keys, and the entry of least key comes first. In
a list in increasing key order, a filter that keeps every entry below one it
keeps takes a prefix and leaves the rest.
-/

import Mathlib.Data.List.Sort

namespace KeySorted

variable {α β : Type} [LinearOrder β]

/-- The entries in increasing order of their keys. -/
def sortBy (key : α → β) (xs : List α) : List α := xs.mergeSort fun a b => decide (key a ≤ key b)

variable {key : α → β}

theorem sortBy_perm (xs : List α) : (sortBy key xs).Perm xs := List.mergeSort_perm _ _

theorem pairwise_sortBy {xs : List α} (distinct : (xs.map key).Nodup) :
    (sortBy key xs).Pairwise fun a b => key a < key b := by
  have sorted : (sortBy key xs).Pairwise fun a b => decide (key a ≤ key b) = true :=
    List.pairwise_mergeSort (fun a b c ab bc => by simp only [decide_eq_true_eq] at ab bc ⊢; exact le_trans ab bc)
      (fun a b => by simpa using le_total (key a) (key b)) xs
  have keysDistinct : (sortBy key xs).Pairwise fun a b => key a ≠ key b :=
    List.pairwise_map.mp (((sortBy_perm xs).map key).nodup_iff.mpr distinct)
  exact (sorted.and keysDistinct).imp fun ⟨below, different⟩ => lt_of_le_of_ne (by simpa using below) different

/-- Sorting entries of distinct keys gives the one permutation of them in
strictly increasing key order. -/
theorem sortBy_eq {xs asc : List α} (distinct : (xs.map key).Nodup) (perm : asc.Perm xs)
    (increasing : asc.Pairwise fun a b => key a < key b) : sortBy key xs = asc := by
  refine @List.Perm.eq_of_pairwise α (fun a b => key a < key b) _ _ ?_ (pairwise_sortBy distinct) increasing
    ((sortBy_perm xs).trans perm.symm)
  intro a b _ _ below above
  exact absurd (lt_trans below above) (lt_irrefl _)

theorem sortBy_filter {xs : List α} (distinct : (xs.map key).Nodup) (p : α → Bool) :
    sortBy key (xs.filter p) = (sortBy key xs).filter p :=
  sortBy_eq ((List.filter_sublist.map key).nodup distinct) ((sortBy_perm xs).filter p)
    ((pairwise_sortBy distinct).filter p)

/-- The entry of least key comes first. -/
theorem sortBy_eq_cons {xs : List α} {x : α} (distinct : (xs.map key).Nodup) (mem : x ∈ xs)
    (least : ∀ y ∈ xs, key x ≤ key y) :
    sortBy key xs = x :: sortBy key (xs.filter fun y => key y ≠ key x) := by
  rw [sortBy_filter distinct]
  have increasing := pairwise_sortBy distinct
  have memSorted : x ∈ sortBy key xs := (sortBy_perm xs).mem_iff.mpr mem
  obtain ⟨a, rest, split⟩ := List.exists_cons_of_ne_nil (List.ne_nil_of_mem memSorted)
  have first : a ∈ xs := (sortBy_perm xs).mem_iff.mp (split ▸ List.mem_cons_self)
  rw [split] at increasing memSorted ⊢
  -- the first entry has the least key of the sorted list, and x the least of all
  have same : a = x := by
    rcases List.mem_cons.mp memSorted with same | later
    · exact same.symm
    · exact absurd (List.rel_of_pairwise_cons increasing later) (not_lt.mpr (least a first))
  subst same
  have restAbove : ∀ y ∈ rest, key y ≠ key a := fun y later => ne_of_gt (List.rel_of_pairwise_cons increasing later)
  rw [List.filter_cons_of_neg (by simp), List.filter_eq_self.mpr (fun y later => by simpa using restAbove y later)]

/-- In a list in increasing key order, a filter that keeps every entry below
one it keeps takes a prefix of the list, and the entries it drops are the
rest. -/
theorem filter_append_filter_not {l : List α} {p : α → Bool} (increasing : l.Pairwise fun a b => key a < key b)
    (closed : ∀ a ∈ l, ∀ b ∈ l, key a < key b → p b = true → p a = true) :
    l.filter p ++ l.filter (fun a => !p a) = l := by
  induction l with
  | nil => rfl
  | cons a rest inductionHypothesis =>
    have restIncreasing := List.Pairwise.of_cons increasing
    have restClosed : ∀ a ∈ rest, ∀ b ∈ rest, key a < key b → p b = true → p a = true :=
      fun a first b second => closed a (List.mem_cons_of_mem _ first) b (List.mem_cons_of_mem _ second)
    by_cases keeps : p a = true
    · rw [List.filter_cons_of_pos keeps, List.filter_cons_of_neg (by simpa using keeps), List.cons_append,
        inductionHypothesis restIncreasing restClosed]
    · -- no entry after a dropped one is kept
      have dropsRest : ∀ b ∈ rest, p b = false := by
        intro b later
        by_contra kept
        exact keeps (closed a List.mem_cons_self b (List.mem_cons_of_mem _ later)
          (List.rel_of_pairwise_cons increasing later) (by simpa using kept))
      have keptNone : rest.filter p = [] :=
        List.filter_eq_nil_iff.mpr fun b later => by simp [dropsRest b later]
      have droppedAll : rest.filter (fun a => !p a) = rest :=
        List.filter_eq_self.mpr fun b later => by simp [dropsRest b later]
      rw [List.filter_cons_of_neg keeps, List.filter_cons_of_pos (by simpa using keeps), keptNone, droppedAll,
        List.nil_append]

/-- The entries such a filter drops are those past the ones it keeps. -/
theorem drop_length_filter {l : List α} {p : α → Bool} (increasing : l.Pairwise fun a b => key a < key b)
    (closed : ∀ a ∈ l, ∀ b ∈ l, key a < key b → p b = true → p a = true) :
    l.drop (l.filter p).length = l.filter fun a => !p a :=
  calc l.drop (l.filter p).length = (l.filter p ++ l.filter fun a => !p a).drop (l.filter p).length := by
        rw [filter_append_filter_not increasing closed]
    _ = l.filter fun a => !p a := List.drop_left

theorem filter_prefix {l : List α} {p : α → Bool} (increasing : l.Pairwise fun a b => key a < key b)
    (closed : ∀ a ∈ l, ∀ b ∈ l, key a < key b → p b = true → p a = true) : l.filter p <+: l :=
  ⟨_, filter_append_filter_not increasing closed⟩

/-- Dropping from a list of distinct keys the entries whose keys are among
those from position n on leaves the first n. -/
theorem filter_not_mem_drop {l : List α} (distinct : (l.map key).Nodup) (n : Nat) :
    l.filter (fun a => key a ∉ (l.drop n).map key) = l.take n := by
  generalize dropped : (l.drop n).map key = keys
  have disjoint : ∀ a ∈ l.take n, key a ∉ keys := by
    rw [← List.take_append_drop n l, List.map_append, List.nodup_append] at distinct
    intro a first later
    rw [← dropped] at later
    exact distinct.2.2 (key a) (List.mem_map_of_mem first) (key a) later rfl
  conv_lhs => rw [← List.take_append_drop n l]
  rw [List.filter_append, List.filter_eq_self.mpr (fun a first => by simpa using disjoint a first),
    List.filter_eq_nil_iff.mpr (fun a later => by simpa [← dropped] using List.mem_map_of_mem later),
    List.append_nil]

end KeySorted
