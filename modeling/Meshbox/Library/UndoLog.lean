/-
This file develops undo logs: a state that records, for each change made to it,
an entry whose undo puts back what the change replaced. Reverting undoes the
entries of a log, the latest first. The rules here are how the undos of two
stretches of a log compose, and the simulation rule proofs about a journal use:
when each undo moves a view of the state by an undo of the view's own, a run of
undos moves the view by the same run of the view's undos.
-/

import Mathlib.Logic.Function.Basic

namespace UndoLog

variable {σ ε : Type} (undo : ε → σ → σ)

/-- The entries undone, the latest first. -/
def undoAll (entries : List ε) (state : σ) : σ :=
  entries.reverse.foldl (fun state entry => undo entry state) state

@[simp] theorem undoAll_nil (state : σ) : undoAll undo [] state = state := rfl

@[simp] theorem undoAll_singleton (entry : ε) (state : σ) : undoAll undo [entry] state = undo entry state :=
  rfl

/-- Undoing an entry and what was logged after it: the later ones first. -/
theorem undoAll_cons (entry : ε) (entries : List ε) (state : σ) :
    undoAll undo (entry :: entries) state = undo entry (undoAll undo entries state) := by
  rw [undoAll, List.reverse_cons, List.foldl_append]
  rfl

/-- Undoing two stretches of a log: the later stretch first. -/
theorem undoAll_append (entries later : List ε) (state : σ) :
    undoAll undo (entries ++ later) state = undoAll undo entries (undoAll undo later state) := by
  rw [undoAll, List.reverse_append, List.foldl_append]
  rfl

/-- A view that each undo moves by an undo of the view's own, in the states a
predicate keeps, is moved by a run of undos as the run of the view's undos
moves it. The induction is on the entries, the earliest outermost. -/
theorem undoAll_simulates {β : Type} (view : σ → β) (undoView : ε → β → β) (keep : σ → Prop)
    (keeps : ∀ entry state, keep state → keep (undo entry state))
    (moves : ∀ entry state, keep state → view (undo entry state) = undoView entry (view state)) :
    ∀ (entries : List ε) (state : σ), keep state →
      keep (undoAll undo entries state) ∧ view (undoAll undo entries state) = undoAll undoView entries (view state) := by
  intro entries
  induction entries with
  | nil => exact fun _ kept => ⟨kept, rfl⟩
  | cons entry entries inductionHypothesis =>
    intro state kept
    obtain ⟨keptAfter, viewAfter⟩ := inductionHypothesis state kept
    rw [undoAll_cons, undoAll_cons, moves entry _ keptAfter, viewAfter]
    exact ⟨keeps entry _ keptAfter, rfl⟩

end UndoLog
