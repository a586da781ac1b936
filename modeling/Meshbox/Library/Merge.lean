/-
This file states what it is to merge keyed queues greedily by rank: each step
takes the head of one queue, and no head of any queue has a higher rank than
the entry taken; the merge ends when every queue is empty. Such a merge
outputs each entry of the queues once, keeps each queue's own order, and
starts with a head of greatest rank.
-/

import Mathlib

namespace Merge

variable {κ α β : Type}

/-- The heads of the queues that are not empty. -/
def heads (queues : List (κ × List α)) : List α :=
  queues.filterMap (fun queue => queue.2.head?)

/-- Every entry of every queue. -/
def entries (queues : List (κ × List α)) : List α :=
  (queues.map Prod.snd).flatten

section Greedy

variable [LinearOrder β] (rank : α → β)

/-- One greedy step: the head x of queue i is taken, and no head of any queue
has a higher rank. -/
inductive Step : List (κ × List α) → α → List (κ × List α) → Prop
  | take {queues : List (κ × List α)} {i : Nat} {k : κ} {x : α} {rest : List α}
      (atI : queues[i]? = some (k, x :: rest)) (greatest : ∀ y ∈ heads queues, rank y ≤ rank x) :
      Step queues x (queues.set i (k, rest))

/-- A greedy merge of the queues into out: greedy steps until every queue is
empty. -/
inductive Greedy : List (κ × List α) → List α → Prop
  | done {queues : List (κ × List α)} (empty : ∀ queue ∈ queues, queue.2 = []) : Greedy queues []
  | step {queues queues' : List (κ × List α)} {x : α} {out : List α}
      (first : Step rank queues x queues') (rest : Greedy queues' out) : Greedy queues (x :: out)

end Greedy

/-! ### Lists with one position replaced -/

theorem filterMap_cons_eq_append {γ : Type} (f : α → Option γ) (a : α) (l : List α) :
    (a :: l).filterMap f = (f a).toList ++ l.filterMap f := by
  cases fa : f a <;> simp [fa]

/-- Replacing the entry at i changes only what f keeps of that entry. -/
theorem filterMap_set_perm {γ : Type} (f : α → Option γ) {l : List α} {i : Nat} {a : α}
    (atI : l[i]? = some a) :
    ∃ others : List γ, (l.filterMap f).Perm ((f a).toList ++ others) ∧
      ∀ b, ((l.set i b).filterMap f).Perm ((f b).toList ++ others) := by
  induction l generalizing i with
  | nil => simp at atI
  | cons head tail inductionHypothesis =>
    cases i with
    | zero =>
      simp only [List.getElem?_cons_zero, Option.some_inj] at atI
      subst atI
      refine ⟨tail.filterMap f, ?_, fun b => ?_⟩
      · rw [filterMap_cons_eq_append]
      · rw [List.set_cons_zero, filterMap_cons_eq_append]
    | succ i =>
      obtain ⟨others, before, after⟩ := inductionHypothesis (by simpa using atI)
      -- the head stays; what f keeps of it moves behind the replaced entry
      refine ⟨(f head).toList ++ others, ?_, fun b => ?_⟩
      · rw [filterMap_cons_eq_append]
        exact (before.append_left _).trans (List.perm_append_comm_assoc _ _ _)
      · rw [List.set_cons_succ, filterMap_cons_eq_append]
        exact ((after b).append_left _).trans (List.perm_append_comm_assoc _ _ _)

/-- Taking the head of the list at i takes one entry from the flattening. -/
theorem flatten_set_perm {ls : List (List α)} {i : Nat} {x : α} {rest : List α}
    (atI : ls[i]? = some (x :: rest)) : ls.flatten.Perm (x :: (ls.set i rest).flatten) := by
  induction ls generalizing i with
  | nil => simp at atI
  | cons head tail inductionHypothesis =>
    cases i with
    | zero =>
      simp only [List.getElem?_cons_zero, Option.some_inj] at atI
      subst atI
      simp
    | succ i =>
      rw [List.set_cons_succ, List.flatten_cons, List.flatten_cons]
      exact ((inductionHypothesis (by simpa using atI)).append_left head).trans List.perm_middle

theorem mem_set_of_ne {l : List α} {i : Nat} {p q : α} (member : q ∈ l) (atI : l[i]? = some p)
    (other : q ≠ p) (b : α) : q ∈ l.set i b := by
  obtain ⟨j, atJ⟩ := List.mem_iff_getElem?.mp member
  have moved : i ≠ j := by
    rintro rfl
    exact other (Option.some_inj.mp (atJ.symm.trans atI))
  exact List.mem_of_getElem? ((List.getElem?_set_ne moved).trans atJ)

/-! ### Heads and entries -/

theorem heads_eq_nil {queues : List (κ × List α)} : heads queues = [] ↔ ∀ queue ∈ queues, queue.2 = [] := by
  simp [heads, List.filterMap_eq_nil_iff]

theorem mem_heads {queues : List (κ × List α)} {x : α} :
    x ∈ heads queues ↔ ∃ k rest, (k, x :: rest) ∈ queues := by
  simp only [heads, List.mem_filterMap]
  constructor
  · rintro ⟨⟨k, l⟩, member, first⟩
    cases l with
    | nil => cases first
    | cons y rest =>
      cases first
      exact ⟨k, rest, member⟩
  · rintro ⟨k, rest, member⟩
    exact ⟨(k, x :: rest), member, rfl⟩

theorem heads_cons (queue : κ × List α) (rest : List (κ × List α)) :
    heads (queue :: rest) = queue.2.head?.toList ++ heads rest :=
  filterMap_cons_eq_append _ queue rest

theorem entries_cons (queue : κ × List α) (rest : List (κ × List α)) :
    entries (queue :: rest) = queue.2 ++ entries rest := by
  simp [entries]

theorem heads_sublist_entries (queues : List (κ × List α)) : (heads queues).Sublist (entries queues) := by
  induction queues with
  | nil => exact List.Sublist.slnil
  | cons queue rest inductionHypothesis =>
    rw [heads_cons, entries_cons]
    have headFirst : queue.2.head?.toList.Sublist queue.2 := by
      cases queue.2 with
      | nil => exact List.Sublist.slnil
      | cons x more => simp
    exact headFirst.append inductionHypothesis

theorem heads_set_perm {queues : List (κ × List α)} {i : Nat} {k : κ} {x : α} {rest : List α}
    (atI : queues[i]? = some (k, x :: rest)) :
    ∃ others, (heads queues).Perm (x :: others) ∧
      ∀ rest', (heads (queues.set i (k, rest'))).Perm (rest'.head?.toList ++ others) := by
  obtain ⟨others, before, after⟩ := filterMap_set_perm (fun queue : κ × List α => queue.2.head?) atI
  exact ⟨others, before, fun rest' => after (k, rest')⟩

theorem entries_set_perm {queues : List (κ × List α)} {i : Nat} {k : κ} {x : α} {rest : List α}
    (atI : queues[i]? = some (k, x :: rest)) :
    (entries queues).Perm (x :: entries (queues.set i (k, rest))) := by
  unfold entries
  rw [List.map_set]
  exact flatten_set_perm (by simp [atI])

theorem keys_set {queues : List (κ × List α)} {i : Nat} {k : κ} {l l' : List α}
    (atI : queues[i]? = some (k, l)) : (queues.set i (k, l')).map Prod.fst = queues.map Prod.fst := by
  apply List.ext_getElem?
  intro j
  rw [List.getElem?_map, List.getElem?_map]
  by_cases same : i = j
  · subst same
    have inside : i < queues.length := (List.getElem?_eq_some_iff.mp atI).1
    rw [List.getElem?_set_self inside, atI, Option.map_some, Option.map_some]
  · rw [List.getElem?_set_ne same]

/-! ### What a greedy merge outputs -/

section Greedy

variable [LinearOrder β] {rank : α → β}

/-- What a step is: the head of one queue, of greatest rank, taken off it. -/
theorem Step.inv {queues queues' : List (κ × List α)} {x : α} (step : Step rank queues x queues') :
    ∃ i k rest, queues[i]? = some (k, x :: rest) ∧ (∀ y ∈ heads queues, rank y ≤ rank x) ∧
      queues' = queues.set i (k, rest) := by
  cases step with
  | take atI greatest => exact ⟨_, _, _, atI, greatest, rfl⟩

theorem Step.entries_perm {queues queues' : List (κ × List α)} {x : α} (step : Step rank queues x queues') :
    (entries queues).Perm (x :: entries queues') := by
  obtain ⟨i, k, rest, atI, _, rfl⟩ := step.inv
  exact entries_set_perm atI

theorem Step.keys {queues queues' : List (κ × List α)} {x : α} (step : Step rank queues x queues') :
    queues'.map Prod.fst = queues.map Prod.fst := by
  obtain ⟨i, k, rest, atI, _, rfl⟩ := step.inv
  exact keys_set atI

/-- A greedy merge outputs every entry of the queues, each once. -/
theorem Greedy.perm {queues : List (κ × List α)} {out : List α} (merge : Greedy rank queues out) :
    out.Perm (entries queues) := by
  induction merge with
  | @done queues empty =>
    have noEntries : entries queues = [] := by
      simp only [entries, List.flatten_eq_nil_iff, List.mem_map]
      rintro l ⟨queue, member, rfl⟩
      exact empty queue member
    rw [noEntries]
  | step first _ inductionHypothesis => exact (inductionHypothesis.cons _).trans first.entries_perm.symm

/-- A greedy merge starts with a head of greatest rank. -/
theorem Greedy.first_greatest {queues : List (κ × List α)} {x : α} {out : List α}
    (merge : Greedy rank queues (x :: out)) : x ∈ heads queues ∧ ∀ y ∈ heads queues, rank y ≤ rank x := by
  cases merge with
  | step first _ =>
    obtain ⟨i, k, rest, atI, greatest, _⟩ := first.inv
    exact ⟨mem_heads.mpr ⟨k, rest, List.mem_of_getElem? atI⟩, greatest⟩

/-- A greedy merge keeps each queue's order: when the queues have distinct keys
and key tells which queue an entry is from, the output's entries of a queue's
key are that queue. Induction along the merge. -/
theorem Greedy.filter_key [DecidableEq κ] (key : α → κ) {queues : List (κ × List α)} {out : List α}
    (merge : Greedy rank queues out) (distinct : (queues.map Prod.fst).Nodup)
    (keyed : ∀ queue ∈ queues, ∀ x ∈ queue.2, key x = queue.1) :
    ∀ queue ∈ queues, out.filter (fun x => key x = queue.1) = queue.2 := by
  induction merge with
  | done empty =>
    intro queue member
    simp [empty queue member]
  | @step queues _ x _ first _ inductionHypothesis =>
    obtain ⟨i, k, rest, atI, _, rfl⟩ := first.inv
    have memberI : (k, x :: rest) ∈ queues := List.mem_of_getElem? atI
    have keyX : key x = k := keyed _ memberI x List.mem_cons_self
    have distinct' : ((queues.set i (k, rest)).map Prod.fst).Nodup := by
      rwa [keys_set atI]
    have keyed' : ∀ queue ∈ queues.set i (k, rest), ∀ y ∈ queue.2, key y = queue.1 := by
      intro queue member y inQueue
      rcases List.mem_or_eq_of_mem_set member with old | new
      · exact keyed queue old y inQueue
      · subst new
        exact keyed _ memberI y (List.mem_cons_of_mem _ inQueue)
    intro queue member
    by_cases sameKey : queue.1 = k
    · -- the queue x came from: its key is x's, and the merge goes on with its rest
      have isI : queue = (k, x :: rest) := List.inj_on_of_nodup_map distinct member memberI sameKey
      subst isI
      have inside : i < queues.length := (List.getElem?_eq_some_iff.mp atI).1
      rw [List.filter_cons_of_pos (by simpa using keyX),
        inductionHypothesis distinct' keyed' (k, rest) (List.mem_set inside _)]
    · have other : queue ≠ (k, x :: rest) := fun same => sameKey (by rw [same])
      rw [List.filter_cons_of_neg (by simpa [keyX] using Ne.symm sameKey)]
      exact inductionHypothesis distinct' keyed' queue (mem_set_of_ne member atI other _)

end Greedy

end Merge
