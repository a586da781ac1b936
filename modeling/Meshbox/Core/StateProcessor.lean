/-
This file models core/state_processor.go: ApplyTransaction applies one
transaction of a block and writes its receipt, and StateProcessor.Process
applies the transactions of a block in order, with a gas pool filled to the
block's gas limit, and stops at the first invalid one.

ApplyTransaction hands ApplyMessage the number of the chain's current head,
bc.currentBlock.Number(), not the number of the block being applied, and it
tests that number again to decide whether a chief update's gas goes back to the
pool or counts as used. So Process reads one input besides the block and the
state: currentNumber, the head the node has when it processes the block.

The EVM a transaction runs in is built by NewEVM from the block's header and
the message (the block number, the coinbase the engine recovers, the origin and
the gas price); vmenv stands for it. Logs, blooms, intermediate roots, the
contract address of a creation and the engine's Finalize after the last
transaction are not modelled.
-/

import Meshbox.Core.StateTransition

namespace Meshbox.Core

open Meshbox.Params Meshbox.State Meshbox.Vm

/-- Receipt: whether the EVM failed, the gas used by the block so far, and the
gas the transaction used, which a chief update leaves unset. -/
structure Receipt where
  Failed : Bool
  CumulativeGasUsed : Nat
  GasUsed : Option Nat
deriving DecidableEq, Repr

/-- The block as Process reads it: its number, its gas limit and its
transactions, each with its sender recovered. -/
structure Block where
  Number : Nat
  GasLimit : Nat
  Transactions : List Message

/-- What ApplyTransaction changes through its pointers: the block's gas pool,
the state, and the gas the block has used so far. -/
structure Pools where
  gp : Nat
  statedb : World
  usedGas : Nat

/-- ApplyTransaction: ApplyMessage at the head's number; a chief update there
gives its gas back to the pool and leaves the receipt's GasUsed unset, any
other transaction adds its gas to the block's. It returns the receipt and the
gas, or the error that makes the block invalid. -/
def ApplyTransaction (config : ChainConfig) (vmenv : EVM) (currentNumber : Nat) (pools : Pools)
    (tx : Message) : Except TxError (Receipt × Nat × Pools) :=
  match ApplyMessage config vmenv tx pools.gp pools.statedb currentNumber with
  | (_, .error err) => .error err
  | ((gp, statedb), .ok (_, gas, failed)) =>
    let payback := chiefUpdateExempt config currentNumber tx
    let pools : Pools :=
      if payback then ⟨GasPool.AddGas gp gas, statedb, pools.usedGas⟩
      else ⟨gp, statedb, pools.usedGas + gas⟩
    .ok (⟨failed, pools.usedGas, if payback then none else some gas⟩, gas, pools)

/-- Process: the block's transactions applied in order from a pool holding the
block's gas limit; the receipts, the gas used and the state after them, or the
first error. -/
def Process (config : ChainConfig) (vmenv : Message → EVM) (currentNumber : Nat) (block : Block)
    (statedb : World) : Except TxError (List Receipt × Nat × World) := do
  let (receipts, pools) ← block.Transactions.foldlM
    (fun (receipts, pools) tx => do
      let (receipt, _, pools) ← ApplyTransaction config (vmenv tx) currentNumber pools tx
      pure (receipts ++ [receipt], pools))
    (([] : List Receipt), (⟨block.GasLimit, statedb, 0⟩ : Pools))
  pure (receipts, pools.usedGas, pools.statedb)

/-- On the test network, a chief update in block 176222, the first SIP001
block, from an account holding 100000: processed on the block's parent as head
it is charged 21272 gas, processed with a head at the block's own height it is
free, and the receipts and the gas used differ. -/
theorem Process_depends_on_head :
    let chiefUpdate : Message :=
      ⟨Vector.replicate 20 1, some TestnetChief004Address, 1, 30000, 0, 0, true, chiefUpdateSelector⟩
    let block : Block := ⟨176222, 4712388, [chiefUpdate]⟩
    let process := fun head =>
      (Process TestnetChainConfig (fun _ => transferEVM 176222 (Vector.replicate 20 9)) head block
        (World.empty.AddBalance (Vector.replicate 20 1) 100000)).map fun result => (result.1, result.2.1)
    process 176221 = .ok ([⟨false, 21272, some 21272⟩], 21272) ∧
      process 176222 = .ok ([⟨false, 0, none⟩], 0) := by
  decide

end Meshbox.Core
