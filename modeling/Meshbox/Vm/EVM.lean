/-
This file gives the interface of the EVM of core/vm as the state transition
uses it: the block context it runs in, and the two entry points Call and
Create, each taking the state, the caller, the input, the gas and the value to
transfer, and returning the output, the gas left over, the error and the state
after. Their bodies are not modelled here; the facts of evm.go that message
execution relies on are stated as EVM.Sound.

At the top level both entry points check first that the caller can pay the
value, and return ErrInsufficientBalance with the state and gas untouched
exactly when it cannot (errors of nested frames never surface as that error:
the CALL and CREATE instructions turn them into a zero on the stack). They
never hand back more gas than they were given. From a state with no negative
balance, the transfers, creations and self-destructs they perform make no value
and take no balance below zero, but they may destroy value: opSuicide credits
the beneficiary with the contract's balance and Suicide then clears the
contract's balance, so a contract that self-destructs to itself burns what it
held (instructions.go opSuicide, statedb.go Suicide).
-/

import Mathlib
import Meshbox.State.World

namespace Meshbox.Vm

open Meshbox.State

/-- The errors of EVM execution, as vm/errors.go names them. -/
inductive VmError where
  | ErrOutOfGas
  | ErrCodeStoreOutOfGas
  | ErrDepth
  | ErrInsufficientBalance
  | ErrContractAddressCollision
  | ErrExecutionReverted
  | ErrMaxCodeSizeExceeded
  | ErrInvalidJump
  | ErrWriteProtection
  | ErrReturnDataOutOfBounds
  | ErrGasUintOverflow
  | ErrInvalidOpCode
  | ErrStackUnderflow
  | ErrStackOverflow
deriving DecidableEq, Repr

/-- What Call and Create return. -/
structure CallResult where
  ret : List UInt8
  leftOverGas : Nat
  err : Option VmError
  state : World

/-- EVM: the block context (Context.BlockNumber and Context.Coinbase) and the
entry points Call (caller, address, input, gas, value) and Create (caller,
code, gas, value). -/
structure EVM where
  BlockNumber : Nat
  Coinbase : Address
  Call : World → Address → Address → List UInt8 → Nat → Nat → CallResult
  Create : World → Address → List UInt8 → Nat → Nat → CallResult

/-- What an entry point does at the top level, for a state, a caller and a
value: ErrInsufficientBalance, with state and gas untouched, exactly when the
caller cannot pay; never more gas out than in; and from a state with no
negative balance, no value made (some may be burnt by a self-destruct) and no
balance taken below zero. -/
structure EntrySound (entry : World → Address → Nat → CallResult) (gas : Nat) : Prop where
  insufficient : ∀ (world : World) (caller : Address) (value : Nat),
    world.GetBalance caller < value →
      entry world caller value = ⟨[], gas, some .ErrInsufficientBalance, world⟩
  sufficient : ∀ (world : World) (caller : Address) (value : Nat),
    (value : Int) ≤ world.GetBalance caller →
      (entry world caller value).err ≠ some .ErrInsufficientBalance
  leftOverGas_le : ∀ (world : World) (caller : Address) (value : Nat),
    (entry world caller value).leftOverGas ≤ gas
  total_le : ∀ (world : World) (caller : Address) (value : Nat), Ledger.Solvent world.balance →
    Ledger.total (entry world caller value).state.balance ≤ Ledger.total world.balance
  solvent : ∀ (world : World) (caller : Address) (value : Nat), Ledger.Solvent world.balance →
    Ledger.Solvent (entry world caller value).state.balance

/-- EVM.Sound: Call and Create behave at the top level as evm.go makes them,
for every address, input and amount of gas. -/
structure EVM.Sound (evm : EVM) : Prop where
  call : ∀ (addr : Address) (input : List UInt8) (gas : Nat),
    EntrySound (fun world caller value => evm.Call world caller addr input gas value) gas
  create : ∀ (code : List UInt8) (gas : Nat),
    EntrySound (fun world caller value => evm.Create world caller code gas value) gas

/-- EVM.GasBounded: Call and Create never hand back more gas than they were
given, the one fact of them the gas accounting of a message needs. -/
structure EVM.GasBounded (evm : EVM) : Prop where
  call : ∀ (world : World) (caller addr : Address) (input : List UInt8) (gas value : Nat),
    (evm.Call world caller addr input gas value).leftOverGas ≤ gas
  create : ∀ (world : World) (caller : Address) (code : List UInt8) (gas value : Nat),
    (evm.Create world caller code gas value).leftOverGas ≤ gas

/-- EVM.IsEntry evm data gas entry: entry is one of the two entry points given
data and gas, Create with data as init code or Call to some address with data
as input. -/
def EVM.IsEntry (evm : EVM) (data : List UInt8) (gas : Nat)
    (entry : World → Address → Nat → CallResult) : Prop :=
  entry = (fun world caller value => evm.Create world caller data gas value) ∨
    ∃ addr, entry = fun world caller value => evm.Call world caller addr data gas value

section Entry

variable {evm : EVM} {data : List UInt8} {gas : Nat} {entry : World → Address → Nat → CallResult}

theorem EVM.GasBounded.leftOverGas_le (bounded : evm.GasBounded) (isEntry : evm.IsEntry data gas entry)
    (world : World) (caller : Address) (value : Nat) : (entry world caller value).leftOverGas ≤ gas := by
  rcases isEntry with rfl | ⟨addr, rfl⟩
  · exact bounded.create world caller data gas value
  · exact bounded.call world caller addr data gas value

end Entry

/-- Transfer (core/evm.go): amount taken from sender and given to recipient. -/
def Transfer (db : World) (sender recipient : Address) (amount : Nat) : World :=
  (db.SubBalance sender amount).AddBalance recipient amount

/-- A transfer moves value: the total stays. -/
theorem total_Transfer (db : World) (sender recipient : Address) (amount : Nat) :
    Ledger.total (Transfer db sender recipient amount).balance = Ledger.total db.balance := by
  rw [Transfer, World.balance_AddBalance, World.balance_SubBalance, Ledger.total_credit,
    Ledger.total_credit]
  exact neg_add_cancel_right _ _

/-- A transfer the sender can afford takes no balance below zero. -/
theorem solvent_Transfer {db : World} {sender : Address} {amount : Nat}
    (solvent : Ledger.Solvent db.balance) (enough : ¬ db.GetBalance sender < amount)
    (recipient : Address) : Ledger.Solvent (Transfer db sender recipient amount).balance := by
  rw [Transfer, World.balance_AddBalance, World.balance_SubBalance]
  have paid : 0 ≤ db.balance sender + -(amount : Int) := by
    simp only [World.GetBalance_eq, not_lt] at enough
    omega
  exact Ledger.solvent_credit_of_nonneg (Ledger.solvent_credit solvent paid) (Int.natCast_nonneg _)

/-! ### An EVM without code -/

/-- The EVM of a chain without contract code, in the block context given: a call
only moves the value, after the transfer check, and returns all its gas; a
creation, after the same check, fails and uses up its gas. -/
def transferEVM (number : Nat) (coinbase : Address) : EVM where
  BlockNumber := number
  Coinbase := coinbase
  Call world caller addr _ gas value :=
    if world.GetBalance caller < value then ⟨[], gas, some .ErrInsufficientBalance, world⟩
    else ⟨[], gas, none, (world.SubBalance caller value).AddBalance addr value⟩
  Create world caller _ gas value :=
    if world.GetBalance caller < value then ⟨[], gas, some .ErrInsufficientBalance, world⟩
    else ⟨[], 0, some .ErrCodeStoreOutOfGas, world⟩

theorem transferEVM_sound (number : Nat) (coinbase : Address) :
    (transferEVM number coinbase).Sound := by
  refine ⟨fun addr input gas => ⟨?_, ?_, ?_, ?_, ?_⟩, fun code gas => ⟨?_, ?_, ?_, ?_, ?_⟩⟩
  all_goals intro world caller value
  all_goals simp only [transferEVM]
  · intro poor
    rw [if_pos poor]
  · intro enough
    rw [if_neg (not_lt.mpr enough)]
    simp
  · split <;> exact Nat.le_refl gas
  · intro _
    split
    · exact le_refl _
    · exact le_of_eq (total_Transfer world caller addr value)
  · intro solvent
    split
    · exact solvent
    · rename_i enough
      exact solvent_Transfer solvent enough addr
  · intro poor
    rw [if_pos poor]
  · intro enough
    rw [if_neg (not_lt.mpr enough)]
    simp
  · split
    · exact Nat.le_refl gas
    · exact Nat.zero_le gas
  · intro _
    split <;> exact le_refl _
  · intro solvent
    split <;> exact solvent

end Meshbox.Vm
