import Mathlib.Data.List.Sort

/-
This file develops insertion into a list kept in order of a key and cut to a
bound: each entry goes after those whose key is not greater, and the list
then keeps its first k entries. Cutting after every insertion gives the same
list as inserting everything and cutting once, so the result is the first k
entries of the stable sort, and an entry left out is at least as far as every
entry kept.
-/

namespace BoundedInsert

variable {α β : Type} [LinearOrder β] (key : α → β)

/-- An entry goes before the first entry of greater key. -/
abbrev before (a b : α) : Prop := key a < key b

/-- The insertion of a into l at the first entry where r holds. -/
theorem orderedInsert_eq_take_findIdx (r : α → α → Prop) [DecidableRel r] (a : α) (l : List α) :
    l.orderedInsert r a = l.take (l.findIdx fun b => decide (r a b)) ++ a :: l.drop (l.findIdx fun b => decide (r a b)) := by
  induction l with
  | nil => rfl
  | cons b rest inductionHypothesis =>
    by_cases goesFirst : r a b
    · simp [List.orderedInsert, goesFirst, List.findIdx_cons]
    · simp [List.orderedInsert, goesFirst, List.findIdx_cons, inductionHypothesis]

/-- Cutting the list before inserting makes no difference once the result is
cut to the same bound. -/
theorem take_orderedInsert_take (r : α → α → Prop) [DecidableRel r] (a : α) :
    ∀ (l : List α) (k : Nat), ((l.take k).orderedInsert r a).take k = (l.orderedInsert r a).take k := by
  intro l
  induction l with
  | nil => intro k; simp
  | cons b rest inductionHypothesis =>
    intro k
    cases k with
    | zero => simp
    | succ k =>
      by_cases goesFirst : r a b
      · -- a lands in front: both sides keep a and the first k of b :: rest
        simp only [List.orderedInsert, goesFirst, if_true, List.take_succ_cons]
        congr 1
        cases k with
        | zero => rfl
        | succ k => simp [List.take_take]
      · simp [List.orderedInsert, goesFirst, inductionHypothesis]

/-- Inserting every entry, cutting after each insertion, is inserting them all
and cutting once. -/
theorem foldl_take_orderedInsert (r : α → α → Prop) [DecidableRel r] (k : Nat) :
    ∀ (entries acc : List α), entries.foldl (fun acc a => (acc.orderedInsert r a).take k) (acc.take k) =
      (entries.foldl (fun acc a => acc.orderedInsert r a) acc).take k := by
  intro entries
  induction entries with
  | nil => intro acc; rfl
  | cons a rest inductionHypothesis =>
    intro acc
    simp only [List.foldl_cons]
    rw [take_orderedInsert_take, ← inductionHypothesis]

/-- Insertion after the entries of smaller or equal key keeps the key order. -/
theorem pairwise_orderedInsert (a : α) :
    ∀ l : List α, l.Pairwise (fun x y => key x ≤ key y) →
      (l.orderedInsert (before key) a).Pairwise fun x y => key x ≤ key y := by
  intro l
  induction l with
  | nil => intro _; simp
  | cons b rest inductionHypothesis =>
    intro sorted
    have restSorted := List.Pairwise.of_cons sorted
    have bFirst : ∀ c ∈ rest, key b ≤ key c := fun c later => List.rel_of_pairwise_cons sorted later
    by_cases goesFirst : key a < key b
    · rw [List.orderedInsert_cons, if_pos goesFirst]
      refine List.Pairwise.cons (fun c member => ?_) sorted
      rcases List.mem_cons.mp member with rfl | later
      · exact le_of_lt goesFirst
      · exact le_trans (le_of_lt goesFirst) (bFirst _ later)
    · rw [List.orderedInsert_cons, if_neg goesFirst]
      refine List.Pairwise.cons (fun c member => ?_) (inductionHypothesis restSorted)
      rcases List.mem_cons.mp ((List.perm_orderedInsert _ a rest).mem_iff.mp member) with rfl | later
      · exact not_lt.mp goesFirst
      · exact bFirst _ later

/-- The entries inserted one after the other, in order of their keys. -/
def inserted (entries : List α) : List α := entries.foldl (fun acc a => acc.orderedInsert (before key) a) []

theorem inserted_perm (entries : List α) : (inserted key entries).Perm entries := by
  unfold inserted
  suffices general : ∀ acc : List α, (entries.foldl (fun acc a => acc.orderedInsert (before key) a) acc).Perm
      (acc ++ entries) by simpa using general []
  induction entries with
  | nil => intro acc; simp
  | cons a rest inductionHypothesis =>
    intro acc
    simp only [List.foldl_cons]
    have insertedFirst : (acc.orderedInsert (before key) a ++ rest).Perm (a :: (acc ++ rest)) :=
      (List.perm_orderedInsert _ a acc).append_right rest
    exact (inductionHypothesis _).trans (insertedFirst.trans List.perm_middle.symm)

theorem pairwise_inserted (entries : List α) : (inserted key entries).Pairwise fun x y => key x ≤ key y := by
  unfold inserted
  suffices general : ∀ acc : List α, acc.Pairwise (fun x y => key x ≤ key y) →
      (entries.foldl (fun acc a => acc.orderedInsert (before key) a) acc).Pairwise fun x y => key x ≤ key y from
    general [] List.Pairwise.nil
  induction entries with
  | nil => intro acc sorted; exact sorted
  | cons a rest inductionHypothesis =>
    intro acc sorted
    exact inductionHypothesis _ (pairwise_orderedInsert key a acc sorted)

/-- The first k entries of a list in key order: none of the entries left out
has a smaller key than the last one kept. -/
theorem le_of_not_mem_take {l : List α} (sorted : l.Pairwise fun x y => key x ≤ key y) (k : Nat) {x last : α}
    (member : x ∈ l) (outside : x ∉ l.take k) (lastKept : last ∈ (l.take k).getLast?) : key last ≤ key x := by
  have dropped : x ∈ l.drop k := by
    rw [← List.take_append_drop k l, List.mem_append] at member
    exact member.resolve_left outside
  have kept : last ∈ l.take k := List.mem_of_getLast? lastKept
  rw [← List.take_append_drop k l] at sorted
  exact (List.pairwise_append.mp sorted).2.2 last kept x dropped

end BoundedInsert
