/-
This file gives the account view of a state database that message execution
reads and writes through the vm.StateDB interface of core/vm: the balance of
each address, a big integer that a debit may take below zero; its nonce;
whether the account exists; and the refund counter. An address with no account
reads as balance and nonce zero, an invariant the view carries. Writing a
balance or a nonce creates the account first, as GetOrNewStateObject does, and
CreateAccount resets the nonce but carries the balance over.

Balances form a ledger over all addresses (Library/Ledger), so that a
statement about value can speak of the total held by every account.
-/

import Meshbox.Library.Ledger
import Meshbox.Common.Types

namespace Meshbox.State

/-- The accounts as message execution sees them. -/
structure World where
  balance : Address → Int
  nonce : Address → Nat
  live : Address → Bool
  refund : Nat
  dead_empty : ∀ addr, live addr = false → balance addr = 0 ∧ nonce addr = 0

namespace World

/-- The state of an empty trie: no accounts. -/
def empty : World where
  balance _ := 0
  nonce _ := 0
  live _ := false
  refund := 0
  dead_empty _ _ := ⟨rfl, rfl⟩

/-- Exist: whether an account exists at addr. -/
def Exist (world : World) (addr : Address) : Bool :=
  world.live addr

/-- GetBalance: the balance at addr, zero without an account. -/
def GetBalance (world : World) (addr : Address) : Int :=
  world.balance addr

/-- GetNonce: the nonce at addr, zero without an account. -/
def GetNonce (world : World) (addr : Address) : Nat :=
  world.nonce addr

/-- GetRefund: the refund counter. -/
def GetRefund (world : World) : Nat :=
  world.refund

/-- Only the address written to comes alive. -/
theorem live_of_update {live : Address → Bool} {addr other : Address}
    (dead : Function.update live addr true other = false) : other ≠ addr ∧ live other = false := by
  by_cases same : other = addr
  · rw [same, Function.update_self] at dead
    cases dead
  · rw [Function.update_of_ne same] at dead
    exact ⟨same, dead⟩

/-- CreateAccount: a new account at addr, with nonce zero and the balance of the
account it replaces. -/
def CreateAccount (world : World) (addr : Address) : World where
  balance := world.balance
  nonce := Function.update world.nonce addr 0
  live := Function.update world.live addr true
  refund := world.refund
  dead_empty := by
    intro other dead
    obtain ⟨distinct, wasDead⟩ := live_of_update dead
    rw [Function.update_of_ne distinct]
    exact world.dead_empty other wasDead

/-- AddBalance: amount added to the balance at addr. -/
def AddBalance (world : World) (addr : Address) (amount : Int) : World where
  balance := Ledger.credit world.balance addr amount
  nonce := world.nonce
  live := Function.update world.live addr true
  refund := world.refund
  dead_empty := by
    intro other dead
    obtain ⟨distinct, wasDead⟩ := live_of_update dead
    rw [Ledger.credit_other distinct]
    exact world.dead_empty other wasDead

/-- SubBalance: amount taken from the balance at addr, below zero if need be. -/
def SubBalance (world : World) (addr : Address) (amount : Int) : World where
  balance := Ledger.credit world.balance addr (-amount)
  nonce := world.nonce
  live := Function.update world.live addr true
  refund := world.refund
  dead_empty := by
    intro other dead
    obtain ⟨distinct, wasDead⟩ := live_of_update dead
    rw [Ledger.credit_other distinct]
    exact world.dead_empty other wasDead

/-- SetNonce: the nonce at addr set. -/
def SetNonce (world : World) (addr : Address) (nonce : Nat) : World where
  balance := world.balance
  nonce := Function.update world.nonce addr nonce
  live := Function.update world.live addr true
  refund := world.refund
  dead_empty := by
    intro other dead
    obtain ⟨distinct, wasDead⟩ := live_of_update dead
    rw [Function.update_of_ne distinct]
    exact world.dead_empty other wasDead

/-- Suicide: the account at addr marked for deletion and its balance cleared.
The account stays until the state is finalised, so it stays alive here. -/
def Suicide (world : World) (addr : Address) : World where
  balance := Function.update world.balance addr 0
  nonce := world.nonce
  live := world.live
  refund := world.refund
  dead_empty := by
    intro other dead
    by_cases same : other = addr
    · rw [same, Function.update_self]
      exact ⟨rfl, (world.dead_empty addr (same ▸ dead)).2⟩
    · rw [Function.update_of_ne same]
      exact world.dead_empty other dead

/-- AddRefund: gas added to the refund counter. -/
def AddRefund (world : World) (gas : Nat) : World :=
  { world with refund := world.refund + gas }

/-! ### Balances under the writes -/

variable {world : World} {addr : Address}

@[simp] theorem balance_CreateAccount : (world.CreateAccount addr).balance = world.balance := rfl

@[simp] theorem balance_SetNonce {nonce : Nat} : (world.SetNonce addr nonce).balance = world.balance :=
  rfl

@[simp] theorem balance_AddBalance {amount : Int} :
    (world.AddBalance addr amount).balance = Ledger.credit world.balance addr amount := rfl

@[simp] theorem balance_SubBalance {amount : Int} :
    (world.SubBalance addr amount).balance = Ledger.credit world.balance addr (-amount) := rfl

@[simp] theorem GetBalance_eq : world.GetBalance addr = world.balance addr := rfl

@[simp] theorem GetNonce_SetNonce {nonce : Nat} : (world.SetNonce addr nonce).GetNonce addr = nonce := by
  simp [GetNonce, SetNonce]

@[simp] theorem Exist_CreateAccount : (world.CreateAccount addr).Exist addr = true := by
  simp [Exist, CreateAccount]

end World

end Meshbox.State
