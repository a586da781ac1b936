/-
This file develops loops that run a body until it returns. A loop with no
bound, such as a Go for loop without a condition, is given by its body, which
either returns a result or continues from a new state, and is run for at most a
given number of turns; running out of turns gives none, which is how a loop
that never returns shows up. The rules here are the ones proofs about such
loops use: how one turn unfolds, and that a loop whose body keeps an invariant
and always continues from it runs out of every amount of fuel.
-/

import Meshbox.Library.Outcome

namespace Loop

variable {σ ε α : Type}

/-- Runs body from state for at most fuel turns: the result of the turn that
returns, or none when every turn continued. -/
def run (body : σ → Outcome ε (α ⊕ σ)) : Nat → σ → Option (Outcome ε α)
  | 0, _ => none
  | fuel + 1, state =>
    match body state with
    | .ok (.inl result) => some (.ok result)
    | .ok (.inr next) => run body fuel next
    | .error err => some (.error err)
    | .panic => some .panic

variable {body : σ → Outcome ε (α ⊕ σ)}

@[simp] theorem run_zero (state : σ) : run body 0 state = none := rfl

/-- One turn of the loop, as the definition takes it. -/
theorem run_succ (fuel : Nat) (state : σ) :
    run body (fuel + 1) state =
      match body state with
      | .ok (.inl result) => some (.ok result)
      | .ok (.inr next) => run body fuel next
      | .error err => some (.error err)
      | .panic => some .panic :=
  rfl

theorem run_succ_of_continue {state next : σ} (fuel : Nat)
    (continues : body state = .ok (.inr next)) : run body (fuel + 1) state = run body fuel next := by
  rw [run_succ, continues]

theorem run_succ_of_return {state : σ} {result : α} (fuel : Nat)
    (returns : body state = .ok (.inl result)) : run body (fuel + 1) state = some (.ok result) := by
  rw [run_succ, returns]

theorem run_succ_of_panic {state : σ} (fuel : Nat) (panics : body state = .panic) :
    run body (fuel + 1) state = some .panic := by
  rw [run_succ, panics]

/-- A loop whose body, from every state of an invariant, continues to a state
of the invariant never returns. -/
theorem run_eq_none_of_invariant (invariant : σ → Prop)
    (continues : ∀ state, invariant state → ∃ next, body state = .ok (.inr next) ∧ invariant next) :
    ∀ fuel state, invariant state → run body fuel state = none := by
  intro fuel
  induction fuel with
  | zero => intro state _; rfl
  | succ fuel inductionHypothesis =>
    intro state holds
    obtain ⟨next, step, holdsNext⟩ := continues state holds
    rw [run_succ_of_continue fuel step]
    exact inductionHypothesis next holdsNext

/-- A loop whose body, from every state of an invariant, returns a result of
post or continues to a state of the invariant of smaller measure, returns a
result of post once it has more turns than the measure. -/
theorem run_of_measure (invariant : σ → Prop) (measure : σ → Nat) (post : α → Prop)
    (step : ∀ state, invariant state → (∃ result, body state = .ok (.inl result) ∧ post result) ∨
      ∃ next, body state = .ok (.inr next) ∧ invariant next ∧ measure next < measure state) :
    ∀ fuel state, invariant state → measure state < fuel →
      ∃ result, run body fuel state = some (.ok result) ∧ post result := by
  intro fuel
  induction fuel with
  | zero => intro state _ bound; omega
  | succ fuel inductionHypothesis =>
    intro state holds bound
    rcases step state holds with ⟨result, returns, holdsResult⟩ | ⟨next, continues, holdsNext, smaller⟩
    · exact ⟨result, run_succ_of_return fuel returns, holdsResult⟩
    · rw [run_succ_of_continue fuel continues]
      exact inductionHypothesis next holdsNext (by omega)

/-- A loop whose body keeps an invariant, and returns only results of post from
its states, returns normally only with a result of post. -/
theorem post_of_run (invariant : σ → Prop) (post : α → Prop)
    (returns : ∀ state result, invariant state → body state = .ok (.inl result) → post result)
    (continues : ∀ state next, invariant state → body state = .ok (.inr next) → invariant next) :
    ∀ fuel state result, invariant state → run body fuel state = some (.ok result) → post result := by
  intro fuel
  induction fuel with
  | zero => intro state result _ ran; cases ran
  | succ fuel inductionHypothesis =>
    intro state result holds ran
    rw [run_succ] at ran
    split at ran
    · next returned stepped =>
      cases ran
      exact returns state _ holds stepped
    · next next stepped => exact inductionHypothesis next result (continues state next holds stepped) ran
    · cases ran
    · cases ran

/-- post_of_run from one fact about a turn: from every state of the invariant
the body fails, returns a result of post, or continues to a state of the
invariant. -/
theorem post_of_turn (invariant : σ → Prop) (post : α → Prop)
    (turn : ∀ state, invariant state → (∃ err, body state = .error err) ∨
      (∃ result, body state = .ok (.inl result) ∧ post result) ∨
      ∃ next, body state = .ok (.inr next) ∧ invariant next) :
    ∀ fuel state result, invariant state → run body fuel state = some (.ok result) → post result := by
  refine post_of_run invariant post (fun state result holds stepped => ?_) (fun state next holds stepped => ?_)
  · -- a turn that returns is the second case of the turn
    rcases turn state holds with ⟨err, failed⟩ | ⟨other, answered, holdsOther⟩ | ⟨next, continued, -⟩
    · rw [stepped] at failed
      cases failed
    · rw [stepped] at answered
      cases answered
      exact holdsOther
    · rw [stepped] at continued
      cases continued
  · -- and a turn that continues the third
    rcases turn state holds with ⟨err, failed⟩ | ⟨other, answered, -⟩ | ⟨following, continued, holdsNext⟩
    · rw [stepped] at failed
      cases failed
    · rw [stepped] at answered
      cases answered
    · rw [stepped] at continued
      cases continued
      exact holdsNext

/-- A loop whose body, from states of an invariant it keeps, does what another
loop's body does on a part of its state, and returns a part of its result from
what the other returns, runs as the other does on that part. -/
theorem run_project {σ' α' : Type} {body' : σ' → Outcome ε (α' ⊕ σ')} (invariant : σ' → Prop)
    (part : σ' → σ) (resultPart : α' → α)
    (projects : ∀ current, invariant current →
      (body' current >>= fun turn => .ok (Sum.map resultPart part turn)) = body (part current))
    (keeps : ∀ current next, invariant current → body' current = .ok (.inr next) → invariant next) :
    ∀ fuel current, invariant current →
      (run body' fuel current).map (fun outcome => outcome >>= fun value => .ok (resultPart value)) =
        run body fuel (part current) := by
  intro fuel
  induction fuel with
  | zero => intro current _; rfl
  | succ fuel inductionHypothesis =>
    intro current holds
    have agrees := projects current holds
    -- the turn of the projected loop is the image of this loop's turn
    cases stepped : body' current with
    | ok turn =>
      rw [stepped, Outcome.ok_bind] at agrees
      cases turn with
      | inl value => rw [run_succ, stepped, run_succ_of_return fuel agrees.symm]; rfl
      | inr next =>
        rw [run_succ, stepped, run_succ_of_continue fuel agrees.symm]
        exact inductionHypothesis next (keeps current next holds stepped)
    | error err =>
      rw [stepped, Outcome.error_bind] at agrees
      rw [run_succ, stepped, run_succ, ← agrees]
      rfl
    | panic =>
      rw [stepped, Outcome.panic_bind] at agrees
      rw [run_succ, stepped, run_succ_of_panic fuel agrees.symm]
      rfl

/-- The state after turns turns that all continue, none when one does not. -/
def iterate (body : σ → Outcome ε (α ⊕ σ)) : Nat → σ → Option σ
  | 0, state => some state
  | turns + 1, state =>
    match body state with
    | .ok (.inr next) => iterate body turns next
    | _ => none

/-- A loop that reaches, by turns that continue, a state from which it never
returns, never returns. -/
theorem run_eq_none_of_iterate {state final : σ} (turns : Nat)
    (reaches : iterate body turns state = some final) (diverges : ∀ fuel, run body fuel final = none) :
    ∀ fuel, run body fuel state = none := by
  induction turns generalizing state with
  | zero =>
    cases reaches
    exact diverges
  | succ turns inductionHypothesis =>
    intro fuel
    rw [iterate] at reaches
    split at reaches
    · rename_i next continues
      cases fuel with
      | zero => rfl
      | succ fuel => rw [run_succ_of_continue fuel continues]; exact inductionHypothesis reaches fuel
    · cases reaches

end Loop
