/-
This file develops ledgers: an amount held by each party, changed by credits
whose amount may be negative (a debit), and the total held by all parties. The
rules here are the ones conservation proofs use: a credit changes the total by
its amount, so a debit and a credit of one amount leave it unchanged, and a
credit that leaves its party non-negative keeps a ledger with no negative
holding free of them.
-/

import Mathlib.Algebra.BigOperators.Group.Finset.Piecewise
import Mathlib.Algebra.Order.Ring.Int
import Mathlib.Data.Fintype.Basic

namespace Ledger

variable {α : Type} [DecidableEq α]

/-- The ledger after adding amount to the holding of party. -/
def credit (holding : α → ℤ) (party : α) (amount : ℤ) : α → ℤ :=
  Function.update holding party (holding party + amount)

/-- No party holds a negative amount. -/
def Solvent (holding : α → ℤ) : Prop :=
  ∀ party, 0 ≤ holding party

variable {holding : α → ℤ} {party : α} {amount : ℤ}

@[simp] theorem credit_self : credit holding party amount party = holding party + amount := by
  simp [credit]

theorem credit_other {other : α} (distinct : other ≠ party) :
    credit holding party amount other = holding other := by
  simp [credit, distinct]

/-- A credit that leaves its party non-negative keeps the ledger solvent. -/
theorem solvent_credit (solvent : Solvent holding) (nonneg : 0 ≤ holding party + amount) :
    Solvent (credit holding party amount) := by
  intro other
  by_cases same : other = party
  · rw [same, credit_self]
    exact nonneg
  · rw [credit_other same]
    exact solvent other

/-- A non-negative credit keeps the ledger solvent. -/
theorem solvent_credit_of_nonneg (solvent : Solvent holding) (nonneg : 0 ≤ amount) :
    Solvent (credit holding party amount) :=
  solvent_credit solvent (add_nonneg (solvent party) nonneg)

section Total

variable [Fintype α]

/-- The total held by all parties. -/
def total (holding : α → ℤ) : ℤ :=
  ∑ party, holding party

/-- A credit changes the total by its amount. -/
theorem total_credit : total (credit holding party amount) = total holding + amount := by
  unfold total credit
  rw [Finset.sum_update_of_mem (Finset.mem_univ party),
    ← Finset.add_sum_erase _ _ (Finset.mem_univ party), Finset.sdiff_singleton_eq_erase]
  exact add_right_comm _ _ _

end Total

end Ledger
