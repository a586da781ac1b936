/-
This file gives the result type of a computation that either returns a value,
returns an error value, or aborts. It is the shape of a function in a language
with error returns and run-time aborts: the error is data the caller inspects,
the abort is not. Composition short-circuits on both, and the inversion lemmas
below peel a successful composite apart without unfolding the pieces.
-/

import Mathlib.Order.Basic

/-- A computation's result: a value, an error returned to the caller, or an abort. -/
inductive Outcome (ε α : Type) where
  | ok (value : α)
  | error (err : ε)
  | panic
deriving DecidableEq, Repr

namespace Outcome

variable {ε α β γ : Type}

/-- Sequencing: an error or an abort of the first step is the result of the whole. -/
def bind : Outcome ε α → (α → Outcome ε β) → Outcome ε β
  | .ok value, next => next value
  | .error err, _ => .error err
  | .panic, _ => .panic

instance : Monad (Outcome ε) where
  pure := .ok
  bind := bind

/-- Lifts an error-returning result; it never aborts. -/
def ofExcept : Except ε α → Outcome ε α
  | .ok value => .ok value
  | .error err => .error err

/-- Lifts a result that aborts where it is undefined; it never returns an error. -/
def ofOption : Option α → Outcome ε α
  | some value => .ok value
  | none => .panic

/-- Rewrites the error of a result, as a wrapping error message does. -/
def mapError (wrap : ε → ε) : Outcome ε α → Outcome ε α
  | .ok value => .ok value
  | .error err => .error (wrap err)
  | .panic => .panic

/-- The result did not abort. -/
def NoPanic : Outcome ε α → Prop
  | .panic => False
  | _ => True

instance : DecidablePred (NoPanic : Outcome ε α → Prop) := fun result =>
  match result with
  | .ok _ => isTrue trivial
  | .error _ => isTrue trivial
  | .panic => isFalse id

/-! ### Computation rules -/

@[simp] theorem pure_eq (value : α) : (pure value : Outcome ε α) = .ok value := rfl

@[simp] theorem ok_bind (value : α) (next : α → Outcome ε β) :
    (Outcome.ok value >>= next) = next value := rfl

@[simp] theorem error_bind (err : ε) (next : α → Outcome ε β) :
    (Outcome.error err >>= next) = .error err := rfl

@[simp] theorem panic_bind (next : α → Outcome ε β) :
    ((Outcome.panic : Outcome ε α) >>= next) = .panic := rfl

@[simp] theorem bind_ok (result : Outcome ε α) : (result >>= Outcome.ok) = result := by
  cases result <;> rfl

theorem bind_assoc (result : Outcome ε α) (first : α → Outcome ε β)
    (second : β → Outcome ε γ) :
    (result >>= first >>= second) = (result >>= fun value => first value >>= second) := by
  cases result <;> rfl

@[simp] theorem ofExcept_ok (value : α) : (ofExcept (.ok value) : Outcome ε α) = .ok value := rfl

@[simp] theorem ofExcept_error (err : ε) : (ofExcept (.error err) : Outcome ε α) = .error err :=
  rfl

@[simp] theorem ofOption_some (value : α) : (ofOption (some value) : Outcome ε α) = .ok value :=
  rfl

@[simp] theorem ofOption_none : (ofOption none : Outcome ε α) = .panic := rfl

@[simp] theorem mapError_ok (wrap : ε → ε) (value : α) :
    mapError wrap (.ok value) = .ok value := rfl

@[simp] theorem mapError_error (wrap : ε → ε) (err : ε) :
    (mapError wrap (.error err) : Outcome ε α) = .error (wrap err) := rfl

@[simp] theorem mapError_panic (wrap : ε → ε) : (mapError wrap .panic : Outcome ε α) = .panic :=
  rfl

/-! ### Inversion -/

/-- A successful composite comes from a successful first step. -/
theorem bind_eq_ok {result : Outcome ε α} {next : α → Outcome ε β} {final : β} :
    (result >>= next) = .ok final ↔ ∃ value, result = .ok value ∧ next value = .ok final := by
  cases result with
  | ok value => simp
  | error err => simp
  | panic => simp

@[simp] theorem noPanic_ok (value : α) : NoPanic (Outcome.ok value : Outcome ε α) := trivial

@[simp] theorem noPanic_error (err : ε) : NoPanic (Outcome.error err : Outcome ε α) := trivial

@[simp] theorem not_noPanic_panic : ¬ NoPanic (Outcome.panic : Outcome ε α) := id

end Outcome
