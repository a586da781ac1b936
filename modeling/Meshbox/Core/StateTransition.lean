/-
This file models core/state_transition.go and core/gaspool.go: how one message
is applied to the state. preCheck checks the nonce and buys the gas: the
message's gas comes out of the block's gas pool and gas times gas price out of
the sender's balance. TransitionDb then charges the intrinsic gas, runs the
EVM, refunds the gas left over (plus the capped refund counter) to the sender
and the pool, and pays the gas used to the coinbase, or back to the sender when
the message goes to a chief contract.

Three tests depend on the block number the transition is given (blockNumber,
which ApplyTransaction takes from the chain's current head): a chief update
message buys no gas and pays no intrinsic gas from SIP001, the pool is only
drawn on from SIP001, and from SIP100 a message to a chief contract skips the
balance check. The gas is taken from the pool before the balance is checked,
and nothing gives it back when a later check fails.

The fee only moves value between the sender, the pool's beneficiary and back,
so what a message does to the total held by all accounts is what its EVM run
does. An EVM that behaves at the top level as evm.go's Call and Create do
makes no value, but it can destroy some: a contract that self-destructs to
itself (burnerEVM) clears the balance it was just credited with.
-/

import Mathlib
import Meshbox.Vm.EVM
import Meshbox.Vm.Interpreter
import Meshbox.Params.Config

namespace Meshbox.Core

open Meshbox.Params Meshbox.State Meshbox.Vm

/-- Message: a transaction with its sender recovered, as the state transition
reads it. A contract creation has no recipient. -/
structure Message where
  From : Address
  To : Option Address
  GasPrice : Nat
  Gas : Nat
  Value : Nat
  Nonce : Nat
  CheckNonce : Bool
  Data : List UInt8

/-- The errors that make a message invalid: ErrNonceTooHigh, ErrNonceTooLow and
ErrGasLimitReached of core/error.go, errInsufficientBalanceForGas, and the EVM's
ErrOutOfGas and ErrInsufficientBalance. -/
inductive TxError where
  | ErrNonceTooHigh
  | ErrNonceTooLow
  | ErrGasLimitReached
  | errInsufficientBalanceForGas
  | ErrOutOfGas
  | ErrInsufficientBalance
deriving DecidableEq, Repr

/-! ### Gas -/

def TxGas : Nat := 21000

def TxGasContractCreation : Nat := 53000

def TxDataZeroGas : Nat := 4

def TxDataNonZeroGas : Nat := 68

/-- IntrinsicGas: the gas a message pays before execution: the base cost and a
cost per byte of data, higher for non-zero bytes. -/
def IntrinsicGas (data : List UInt8) (contractCreation homestead : Bool) : Nat :=
  let igas := if contractCreation ∧ homestead then TxGasContractCreation else TxGas
  if 0 < data.length then
    let nz := (data.filter (· ≠ 0)).length
    igas + nz * TxDataNonZeroGas + (data.length - nz) * TxDataZeroGas
  else igas

/-! The block's gas pool, core.GasPool, is the gas still available to the
transactions of a block: a natural number here. -/

/-- AddGas: gas made available again. -/
def GasPool.AddGas (gp : Nat) (amount : Nat) : Nat :=
  gp + amount

/-- SubGas: gas taken from the pool, ErrGasLimitReached when there is not
enough. -/
def GasPool.SubGas (gp : Nat) (amount : Nat) : Except TxError Nat :=
  if gp < amount then .error .ErrGasLimitReached else .ok (gp - amount)

theorem GasPool.SubGas_eq_ok {gp gp' : Nat} {amount : Nat} :
    GasPool.SubGas gp amount = .ok gp' ↔ amount ≤ gp ∧ gp' = gp - amount := by
  unfold GasPool.SubGas
  split
  · rename_i short
    simp only [reduceCtorEq, false_iff, not_and]
    intro enough
    exact absurd short (Nat.not_lt.mpr enough)
  · rename_i enough
    simp only [Except.ok.injEq]
    exact ⟨fun taken => ⟨Nat.not_lt.mp enough, taken.symm⟩, fun taken => taken.2.symm⟩

/-- The chief update exemption, tested alike in buyGas, TransitionDb and
ApplyTransaction at the block number each is given: from SIP001, a call to a
chief contract whose data starts with the update selector. -/
def chiefUpdateExempt (config : ChainConfig) (number : Nat) (msg : Message) : Bool :=
  IsSIP001Block config number &&
    (match msg.To with
      | some recipient => IsChiefAddress config recipient
      | none => false) &&
    IsChiefUpdate msg.Data

/-! ### The state transition -/

/-- StateTransition: the block's gas pool, the message, the gas left to it and
the gas bought for it, the state, and the block number the fork tests use. -/
structure StateTransition where
  gp : Nat
  msg : Message
  gas : Nat
  initialGas : Nat
  state : World
  blockNumber : Nat

/-- What TransitionDb returns besides the error: the output, the gas used before
the refund, the gas used after it, and whether the EVM failed. -/
structure ExecutionResult where
  ret : List UInt8
  requiredGas : Nat
  usedGas : Nat
  failed : Bool
deriving DecidableEq, Repr

namespace StateTransition

variable (config : ChainConfig) (evm : EVM)

/-- from: the sender, whose account is created if it does not exist. -/
def «from» (st : StateTransition) : StateTransition :=
  if st.state.Exist st.msg.From then st else { st with state := st.state.CreateAccount st.msg.From }

/-- to: the recipient, whose account is created if it does not exist; the zero
address for a contract creation. -/
def «to» (st : StateTransition) : Address × StateTransition :=
  match st.msg.To with
  | none => (zeroAddress, st)
  | some recipient =>
    (recipient,
      if st.state.Exist recipient then st else { st with state := st.state.CreateAccount recipient })

/-- useGas: amount taken from the gas left; none is ErrOutOfGas. -/
def useGas (st : StateTransition) (amount : Nat) : Option StateTransition :=
  if st.gas < amount then none else some { st with gas := st.gas - amount }

/-- IsChiefSIP100: whether the message goes to a chief contract under SIP100.
Each of the two tests of the recipient asks for it with to; the conjunction
stops before the first when the block is before SIP100. -/
def IsChiefSIP100 (st : StateTransition) : Bool × StateTransition :=
  if IsSIP100Block config st.blockNumber then
    let (recipient, st) := st.to
    if recipient ≠ zeroAddress then
      let (recipient, st) := st.to
      (IsChiefAddress config recipient, st)
    else (false, st)
  else (false, st)

/-- The gas buyGas buys: the message's gas, none for an exempt chief update. -/
def mgas (st : StateTransition) : Nat :=
  if chiefUpdateExempt config st.blockNumber st.msg then 0 else st.msg.Gas

/-- buyGas: the message's gas taken from the pool from SIP001 on and credited to
the message, then gas times gas price taken from the sender, after a balance
check that chief messages skip from SIP100. -/
def buyGas (st : StateTransition) : StateTransition × Option TxError :=
  let mgas := st.mgas config
  if 2 ^ 64 ≤ mgas then (st, some .ErrOutOfGas)
  else
    let mgval : Int := mgas * st.msg.GasPrice
    let st := st.from
    let pool := if IsSIP001Block config st.blockNumber then GasPool.SubGas st.gp mgas else .ok st.gp
    match pool with
    | .error err => (st, some err)
    | .ok gp =>
      let st := { st with gp := gp, gas := st.gas + mgas, initialGas := mgas }
      let (chief, st) := st.IsChiefSIP100 config
      if ¬chief ∧ st.state.GetBalance st.msg.From < mgval then
        (st, some .errInsufficientBalanceForGas)
      else ({ st with state := st.state.SubBalance st.msg.From mgval }, none)

/-- preCheck: the sender's nonce must be the message's, when it is checked;
then buyGas. -/
def preCheck (st : StateTransition) : StateTransition × Option TxError :=
  let st := st.from
  if st.msg.CheckNonce then
    let nonce := st.state.GetNonce st.msg.From
    if nonce < st.msg.Nonce then (st, some .ErrNonceTooHigh)
    else if nonce > st.msg.Nonce then (st, some .ErrNonceTooLow)
    else st.buyGas config
  else st.buyGas config

/-- gasUsed: the gas bought less the gas left. -/
def gasUsed (st : StateTransition) : Nat :=
  st.initialGas - st.gas

/-- refundGas: the refund counter, capped at half the gas used, added to the gas
left, which is then paid back to the sender at the gas price and returned to
the pool. -/
def refundGas (st : StateTransition) : StateTransition :=
  let refund := min (st.gasUsed / 2) st.state.GetRefund
  let st := { st with gas := st.gas + refund }
  let remaining : Int := st.gas * st.msg.GasPrice
  { st with state := st.state.AddBalance st.msg.From remaining, gp := GasPool.AddGas st.gp st.gas }

/-- The EVM run of TransitionDb: a creation runs the data as init code; a call
first increments the sender's nonce. It returns the output, the transition with
the EVM's state and gas left, and the EVM's error. -/
def execute (st : StateTransition) : List UInt8 × StateTransition × Option VmError :=
  let sender := st.msg.From
  match st.msg.To with
  | none =>
    let result := evm.Create st.state sender st.msg.Data st.gas st.msg.Value
    (result.ret, { st with state := result.state, gas := result.leftOverGas }, result.err)
  | some _ =>
    let st := { st with state := st.state.SetNonce sender (st.state.GetNonce sender + 1) }
    let (recipient, st) := st.to
    let result := evm.Call st.state sender recipient st.msg.Data st.gas st.msg.Value
    (result.ret, { st with state := result.state, gas := result.leftOverGas }, result.err)

/-- The intrinsic gas TransitionDb charges: none for an exempt chief update. -/
def intrinsicGas (st : StateTransition) : Nat :=
  let homestead := config.IsHomestead evm.BlockNumber
  let contractCreation := st.msg.To.isNone
  if chiefUpdateExempt config st.blockNumber st.msg then 0
  else IntrinsicGas st.msg.Data contractCreation homestead

/-- TransitionDb: applies the message. An error leaves the transition as far as
it got; only the EVM's ErrInsufficientBalance among the EVM's errors is one. -/
def TransitionDb (st : StateTransition) : StateTransition × Except TxError ExecutionResult :=
  match st.preCheck config with
  | (st, some err) => (st, .error err)
  | (st, none) =>
    let st := st.from
    let sender := st.msg.From
    let intrinsicGas := st.intrinsicGas config evm
    if 2 ^ 64 ≤ intrinsicGas then (st, .error .ErrOutOfGas)
    else
      match st.useGas intrinsicGas with
      | none => (st, .error .ErrOutOfGas)
      | some st =>
        let (ret, st, vmerr) := st.execute evm
        if vmerr = some .ErrInsufficientBalance then (st, .error .ErrInsufficientBalance)
        else
          let requiredGas := st.gasUsed
          let st := st.refundGas
          let reward : Int := st.gasUsed * st.msg.GasPrice
          let (recipient, st) := st.to
          let beneficiary := if IsChiefAddress config recipient then sender else evm.Coinbase
          ({ st with state := st.state.AddBalance beneficiary reward },
            .ok ⟨ret, requiredGas, st.gasUsed, vmerr.isSome⟩)

/-! ### What from and to leave alone

Both create an account at most: that keeps every balance, and nothing else of
the transition changes. -/

/-- Frame st st': st' is st with at most some accounts created. -/
structure Frame (st st' : StateTransition) : Prop where
  gp : st'.gp = st.gp
  msg : st'.msg = st.msg
  gas : st'.gas = st.gas
  initialGas : st'.initialGas = st.initialGas
  blockNumber : st'.blockNumber = st.blockNumber
  balance : st'.state.balance = st.state.balance

theorem Frame.refl (st : StateTransition) : Frame st st :=
  ⟨rfl, rfl, rfl, rfl, rfl, rfl⟩

theorem Frame.trans {st st' st'' : StateTransition} (first : Frame st st')
    (second : Frame st' st'') : Frame st st'' :=
  ⟨second.gp.trans first.gp, second.msg.trans first.msg, second.gas.trans first.gas,
    second.initialGas.trans first.initialGas, second.blockNumber.trans first.blockNumber,
    second.balance.trans first.balance⟩

theorem Frame.createAccount (st : StateTransition) (addr : Address) :
    Frame st { st with state := st.state.CreateAccount addr } :=
  ⟨rfl, rfl, rfl, rfl, rfl, rfl⟩

theorem frame_from (st : StateTransition) : Frame st st.from := by
  unfold «from»
  split
  · exact Frame.refl st
  · exact Frame.createAccount st _

/-- from keeps the sender's nonce: an address without an account reads as
nonce zero, which is the nonce CreateAccount gives it. -/
theorem from_nonce (st : StateTransition) :
    st.from.state.GetNonce st.msg.From = st.state.GetNonce st.msg.From := by
  unfold «from»
  split
  · rfl
  · rename_i absent
    show (st.state.CreateAccount st.msg.From).nonce st.msg.From = st.state.nonce st.msg.From
    simp only [World.CreateAccount, Function.update_self]
    exact (st.state.dead_empty _ (Bool.eq_false_iff.mpr absent)).2.symm

theorem frame_to (st : StateTransition) : Frame st st.to.2 := by
  unfold «to»
  split
  · exact Frame.refl st
  · split
    · exact Frame.refl st
    · exact Frame.createAccount st _

theorem frame_IsChiefSIP100 (st : StateTransition) : Frame st (st.IsChiefSIP100 config).2 := by
  unfold IsChiefSIP100
  split
  · show Frame st (if st.to.1 ≠ zeroAddress then (_, st.to.2.to.2) else (false, st.to.2)).2
    split
    · exact (frame_to st).trans (frame_to _)
    · exact frame_to st
  · exact Frame.refl st

theorem mgas_of_frame {st st' : StateTransition} (frame : Frame st st') :
    st'.mgas config = st.mgas config := by
  simp only [mgas, frame.msg, frame.blockNumber]

theorem to_fst (st : StateTransition) : st.to.1 = st.msg.To.getD zeroAddress := by
  unfold «to»
  split
  · rename_i creation
    rw [creation]
    rfl
  · rename_i recipient call
    rw [call]
    rfl

/-! A message is ordinary when its recipient, if it has one, is no chief
contract: it buys all its gas and has its balance checked. -/

section Ordinary

variable {st : StateTransition}
  (ordinary : ∀ recipient, st.msg.To = some recipient → IsChiefAddress config recipient = false)
include ordinary

theorem IsChiefSIP100_of_ordinary : (st.IsChiefSIP100 config).1 = false := by
  unfold IsChiefSIP100
  split
  · show (if st.to.1 ≠ zeroAddress then (IsChiefAddress config st.to.2.to.1, st.to.2.to.2)
      else (false, st.to.2)).1 = false
    split
    · rename_i nonzero
      rw [to_fst, (frame_to st).msg]
      rw [to_fst] at nonzero
      cases call : st.msg.To with
      | none =>
        rw [call] at nonzero
        exact absurd rfl nonzero
      | some recipient => exact ordinary recipient call
    · rfl
  · rfl

theorem mgas_of_ordinary : st.mgas config = st.msg.Gas := by
  unfold mgas chiefUpdateExempt
  cases call : st.msg.To with
  | none => simp
  | some recipient => simp [ordinary recipient call]

end Ordinary

/-! ### Buying the gas -/

/-- Bought st st': what a successful buyGas has done to st. st' holds the gas
bought, the pool has given it from SIP001 on, and the sender has paid gas times
gas price for it. -/
structure Bought (st st' : StateTransition) : Prop where
  small : st.mgas config < 2 ^ 64
  msg : st'.msg = st.msg
  blockNumber : st'.blockNumber = st.blockNumber
  gas : st'.gas = st.gas + st.mgas config
  initialGas : st'.initialGas = st.mgas config
  pool : IsSIP001Block config st.blockNumber = true →
    st.mgas config ≤ st.gp ∧ st'.gp = st.gp - st.mgas config
  poolBefore : IsSIP001Block config st.blockNumber = false → st'.gp = st.gp
  balance : st'.state.balance =
    Ledger.credit st.state.balance st.msg.From (-((st.mgas config : Int) * st.msg.GasPrice))

/-- A frame before a successful buyGas changes nothing it bought. -/
theorem Bought.of_frame {st st' st'' : StateTransition} (frame : Frame st st')
    (bought : Bought config st' st'') : Bought config st st'' where
  small := mgas_of_frame config frame ▸ bought.small
  msg := bought.msg.trans frame.msg
  blockNumber := bought.blockNumber.trans frame.blockNumber
  gas := by rw [bought.gas, frame.gas, mgas_of_frame config frame]
  initialGas := by rw [bought.initialGas, mgas_of_frame config frame]
  pool := by
    rw [← frame.blockNumber, ← frame.gp, ← mgas_of_frame config frame]
    exact bought.pool
  poolBefore := by
    rw [← frame.blockNumber, ← frame.gp]
    exact bought.poolBefore
  balance := by rw [bought.balance, frame.balance, frame.msg, mgas_of_frame config frame]

theorem buyGas_eq_none {st st' : StateTransition} (bought : st.buyGas config = (st', none)) :
    Bought config st st' := by
  unfold buyGas at bought
  dsimp only at bought
  split at bought
  · cases bought
  rename_i small
  -- the pool draw, then the recipient test, then the balance check
  split at bought
  · cases bought
  rename_i gp drawn
  split at bought
  · cases bought
  rename_i enough
  obtain ⟨rfl, -⟩ := Prod.mk.inj bought
  have touched := frame_IsChiefSIP100 config
    { gp := gp, msg := st.from.msg, gas := st.from.gas + mgas config st, initialGas := mgas config st,
      state := st.from.state, blockNumber := st.from.blockNumber }
  have start := frame_from st
  refine ⟨not_le.mp small, ?_, ?_, ?_, ?_, ?_, ?_, ?_⟩
  all_goals simp only [touched.gp, touched.msg, touched.gas, touched.initialGas, touched.blockNumber,
    touched.balance, World.balance_SubBalance]
  · exact start.msg
  · exact start.blockNumber
  · rw [start.gas]
  · intro sip001
    rw [start.blockNumber, start.gp, if_pos sip001] at drawn
    exact GasPool.SubGas_eq_ok.mp drawn
  · intro before
    rw [start.blockNumber, start.gp, if_neg (Bool.eq_false_iff.mp before)] at drawn
    exact (Except.ok.inj drawn).symm
  · rw [start.balance, start.msg]

theorem preCheck_eq_none {st st' : StateTransition} (checked : st.preCheck config = (st', none)) :
    Bought config st st' := by
  unfold preCheck at checked
  dsimp only at checked
  -- both nonce errors are errors; what is left is buyGas after from
  have bought : st.from.buyGas config = (st', none) := by
    split at checked
    · split at checked
      · cases checked
      · split at checked
        · cases checked
        · exact checked
    · exact checked
  exact Bought.of_frame config (frame_from st) (buyGas_eq_none config bought)

/-- preCheck goes on to buyGas when the nonce is right or not checked. -/
theorem preCheck_of_nonce {st : StateTransition}
    (nonce : st.msg.CheckNonce = true → st.from.state.GetNonce st.msg.From = st.msg.Nonce) :
    st.preCheck config = st.from.buyGas config := by
  unfold preCheck
  dsimp only
  rw [(frame_from st).msg]
  split
  · rename_i checked
    rw [nonce checked, if_neg (Nat.lt_irrefl _), if_neg (Nat.lt_irrefl _)]
  · rfl

/-- From SIP001, buyGas takes an ordinary message's gas from the pool before it
finds that the sender cannot pay for it, and returns the error with the pool
drawn on. -/
theorem buyGas_insufficient {st : StateTransition}
    (ordinary : ∀ recipient, st.msg.To = some recipient → IsChiefAddress config recipient = false)
    (sip001 : IsSIP001Block config st.blockNumber = true) (small : st.msg.Gas < 2 ^ 64)
    (available : st.msg.Gas ≤ st.gp)
    (poor : st.state.GetBalance st.msg.From < st.msg.Gas * st.msg.GasPrice) :
    (st.buyGas config).2 = some .errInsufficientBalanceForGas ∧
      (st.buyGas config).1.gp = st.gp - st.msg.Gas := by
  have start := frame_from st
  have drawn : GasPool.SubGas st.from.gp st.msg.Gas = .ok (st.gp - st.msg.Gas) := by
    rw [start.gp]
    exact GasPool.SubGas_eq_ok.mpr ⟨available, rfl⟩
  unfold buyGas
  dsimp only
  rw [mgas_of_ordinary config ordinary, if_neg (Nat.not_le.mpr small), start.blockNumber,
    if_pos sip001, drawn]
  dsimp only
  split
  · exact ⟨rfl, (frame_IsChiefSIP100 config _).gp⟩
  · rename_i checked
    exfalso
    apply checked
    constructor
    · rw [Bool.not_eq_true]
      apply IsChiefSIP100_of_ordinary
      rw [start.msg]
      exact ordinary
    · rw [World.GetBalance_eq, (frame_IsChiefSIP100 config _).balance,
        (frame_IsChiefSIP100 config _).msg]
      dsimp only
      rw [start.balance, start.msg]
      exact poor

/-! ### Running the message -/

theorem useGas_eq_some {st st' : StateTransition} {amount : Nat}
    (used : st.useGas amount = some st') : amount ≤ st.gas ∧ st' = { st with gas := st.gas - amount } := by
  unfold useGas at used
  split at used
  · cases used
  · rename_i enough
    exact ⟨Nat.not_lt.mp enough, (Option.some.inj used).symm⟩

/-- The account the recipient test may create changes nothing else. -/
theorem to_eq (st : StateTransition) : st.to.2 = { st with state := st.to.2.state } := by
  unfold «to»
  split
  · rfl
  · split <;> rfl

/-- The EVM run of TransitionDb is one entry point of the EVM, given the data
and the gas of st and started, with the sender and the value of the message, on
a state with the balances of st; its state and gas left replace those of st. -/
theorem execute_entry (st : StateTransition) :
    ∃ (entry : World → Address → Nat → CallResult) (world : World),
      evm.IsEntry st.msg.Data st.gas entry ∧ world.balance = st.state.balance ∧
      st.execute evm = ((entry world st.msg.From st.msg.Value).ret,
        { st with state := (entry world st.msg.From st.msg.Value).state,
                  gas := (entry world st.msg.From st.msg.Value).leftOverGas },
        (entry world st.msg.From st.msg.Value).err) := by
  unfold execute
  split
  · exact ⟨_, st.state, .inl rfl, rfl, rfl⟩
  · -- a call: the nonce and the recipient's account leave every balance as it is
    dsimp only
    have frame := frame_to { st with
      state := st.state.SetNonce st.msg.From (st.state.GetNonce st.msg.From + 1) }
    have same := to_eq { st with
      state := st.state.SetNonce st.msg.From (st.state.GetNonce st.msg.From + 1) }
    generalize StateTransition.to { st with
      state := st.state.SetNonce st.msg.From (st.state.GetNonce st.msg.From + 1) } = touched at frame same ⊢
    obtain ⟨recipient, touched⟩ := touched
    dsimp only at frame same ⊢
    rw [same]
    exact ⟨_, touched.state, .inr ⟨recipient, rfl⟩, frame.balance, rfl⟩

/-- Executed st ran: what the EVM run of TransitionDb does to the transition
under an EVM that hands back no more gas than it gets. It keeps the pool, the
message and the gas bought, and leaves no more gas than st had. -/
structure Executed (st ran : StateTransition) : Prop where
  gp : ran.gp = st.gp
  msg : ran.msg = st.msg
  initialGas : ran.initialGas = st.initialGas
  gas_le : ran.gas ≤ st.gas

theorem execute_executed {evm : EVM} (bounded : evm.GasBounded) (st : StateTransition) :
    Executed st (st.execute evm).2.1 := by
  obtain ⟨entry, world, isEntry, -, ran⟩ := execute_entry evm st
  rw [ran]
  exact ⟨rfl, rfl, rfl, bounded.leftOverGas_le isEntry _ _ _⟩

section Refund

variable (st : StateTransition)

@[simp] theorem refundGas_gas : st.refundGas.gas = st.gas + min (st.gasUsed / 2) st.state.GetRefund :=
  rfl

@[simp] theorem refundGas_gp : st.refundGas.gp = st.gp + st.refundGas.gas := rfl

@[simp] theorem refundGas_msg : st.refundGas.msg = st.msg := rfl

@[simp] theorem refundGas_initialGas : st.refundGas.initialGas = st.initialGas := rfl

/-- The refund never gives back more gas than was bought: it is capped at half
the gas used. -/
theorem refundGas_gas_le (within : st.gas ≤ st.initialGas) : st.refundGas.gas ≤ st.initialGas := by
  have capped : min (st.gasUsed / 2) st.state.GetRefund ≤ st.gasUsed / 2 := Nat.min_le_left _ _
  rw [refundGas_gas]
  unfold gasUsed at capped ⊢
  omega

end Refund

/-- A successful TransitionDb, phase by phase: preCheck bought the gas, the
intrinsic gas was used, the EVM ran without ErrInsufficientBalance, the gas
left was refunded, and the gas used was paid to a beneficiary. -/
theorem TransitionDb_eq_ok {st st' : StateTransition} {result : ExecutionResult}
    (transition : st.TransitionDb config evm = (st', .ok result)) :
    ∃ bought used intrinsic beneficiary, st.preCheck config = (bought, none) ∧
      bought.from.useGas intrinsic = some used ∧
      (used.execute evm).2.2 ≠ some .ErrInsufficientBalance ∧
      st'.gp = (used.execute evm).2.1.refundGas.gp ∧
      st'.state.balance = Ledger.credit (used.execute evm).2.1.refundGas.state.balance beneficiary
        ((used.execute evm).2.1.refundGas.gasUsed * (used.execute evm).2.1.msg.GasPrice) ∧
      result.usedGas = (used.execute evm).2.1.refundGas.gasUsed := by
  unfold TransitionDb at transition
  rcases checked : st.preCheck config with ⟨bought, _ | err⟩
  · rw [checked] at transition
    dsimp only at transition
    -- the intrinsic gas fits in 64 bits and is there to use
    generalize bought.from.intrinsicGas config evm = intrinsic at transition
    split at transition
    · cases transition
    split at transition
    · cases transition
    rename_i used usedEq
    -- the EVM did not fail on the transfer
    split at transition
    · cases transition
    rename_i succeeded
    obtain ⟨final, reported⟩ := Prod.mk.inj transition
    subst final
    cases Except.ok.inj reported
    have paid := frame_to (used.execute evm).2.1.refundGas
    refine ⟨bought, used, intrinsic, if IsChiefAddress config (used.execute evm).2.1.refundGas.to.1
      then bought.from.msg.From else evm.Coinbase, rfl, usedEq, succeeded, paid.gp, ?_, ?_⟩
    · simp only [World.balance_AddBalance, paid.balance, refundGas_msg]
    · simp only [gasUsed, paid.initialGas, paid.gas]
  · rw [checked] at transition
    cases transition

theorem TransitionDb_of_preCheck_error {st st' : StateTransition} {err : TxError}
    (checked : st.preCheck config = (st', some err)) :
    st.TransitionDb config evm = (st', .error err) := by
  unfold TransitionDb
  rw [checked]

end StateTransition

/-- NewStateTransition: a transition of the message against the state, with
the block's gas pool and the block number for the fork tests, and no gas yet. -/
def NewStateTransition (msg : Message) (gp : Nat) (state : World) (blockNumber : Nat) :
    StateTransition :=
  { gp := gp, msg := msg, gas := 0, initialGas := 0, state := state, blockNumber := blockNumber }

/-- ApplyMessage: TransitionDb on a new transition. It returns the pool and the
state after it, and the output, the gas used and whether the EVM failed, or the
error. -/
def ApplyMessage (config : ChainConfig) (evm : EVM) (msg : Message) (gp : Nat) (state : World)
    (blockNumber : Nat) : (Nat × World) × Except TxError (List UInt8 × Nat × Bool) :=
  let (st, result) :=
    StateTransition.TransitionDb config evm (NewStateTransition msg gp state blockNumber)
  ((st.gp, st.state), result.map fun r => (r.ret, r.usedGas, r.failed))

/-! ### Applying a message -/

namespace StateTransition

variable {config : ChainConfig} {evm : EVM}

theorem ApplyMessage_eq_ok {msg : Message} {gp : Nat} {state : World} {blockNumber : Nat}
    {after : Nat × World} {output : List UInt8 × Nat × Bool}
    (applied : ApplyMessage config evm msg gp state blockNumber = (after, .ok output)) :
    ∃ st' result, (NewStateTransition msg gp state blockNumber).TransitionDb config evm =
      (st', .ok result) ∧ after = (st'.gp, st'.state) ∧ output = (result.ret, result.usedGas, result.failed) := by
  unfold ApplyMessage at applied
  generalize (NewStateTransition msg gp state blockNumber).TransitionDb config evm = transition at applied
  obtain ⟨st', _ | result⟩ := transition
  · cases applied
  · obtain ⟨after, output⟩ := Prod.mk.inj applied
    exact ⟨st', result, rfl, after.symm, (Except.ok.inj output).symm⟩

/-- A successful run of a new transition, under an EVM that hands back no more
gas than it gets. The sender has paid for the gas bought; the EVM ran on the
bought state, as far as balances go, without ErrInsufficientBalance; and the gas
left after the refund is at most the gas bought. -/
theorem TransitionDb_new_ok (bounded : evm.GasBounded) {msg : Message} {gp : Nat} {state : World}
    {blockNumber : Nat} {st' : StateTransition} {result : ExecutionResult}
    (transition : (NewStateTransition msg gp state blockNumber).TransitionDb config evm =
      (st', .ok result)) :
    ∃ (bought used : StateTransition) (beneficiary : Address),
      (NewStateTransition msg gp state blockNumber).preCheck config = (bought, none) ∧
      Bought config (NewStateTransition msg gp state blockNumber) bought ∧
      used.msg = msg ∧ used.state.balance = bought.state.balance ∧
      (used.execute evm).2.2 ≠ some .ErrInsufficientBalance ∧
      (used.execute evm).2.1.msg = msg ∧ (used.execute evm).2.1.gp = bought.gp ∧
      (used.execute evm).2.1.initialGas = bought.initialGas ∧
      (used.execute evm).2.1.refundGas.gas ≤ bought.initialGas ∧
      st'.gp = (used.execute evm).2.1.refundGas.gp ∧
      st'.state.balance = Ledger.credit (used.execute evm).2.1.refundGas.state.balance beneficiary
        ((used.execute evm).2.1.refundGas.gasUsed * msg.GasPrice) ∧
      result.usedGas = (used.execute evm).2.1.refundGas.gasUsed := by
  obtain ⟨bought, used, intrinsic, beneficiary, checked, usedEq, succeeded, gpEq, balanceEq, usedGasEq⟩ :=
    TransitionDb_eq_ok config evm transition
  have paid := preCheck_eq_none config checked
  have start := frame_from bought
  -- the intrinsic gas comes out of the gas bought, and nothing else changes
  obtain ⟨-, usedIs⟩ := useGas_eq_some usedEq
  have usedMsg : used.msg = msg := by
    rw [usedIs]
    exact start.msg.trans paid.msg
  have usedGas : used.gas ≤ bought.initialGas := by
    rw [usedIs]
    show bought.from.gas - intrinsic ≤ _
    rw [start.gas, paid.gas, paid.initialGas]
    simp only [NewStateTransition, Nat.zero_add, Nat.sub_le]
  have executed := execute_executed bounded used
  have ranInitial : (used.execute evm).2.1.initialGas = bought.initialGas := by
    rw [executed.initialGas, usedIs]
    exact start.initialGas
  rw [executed.msg, usedMsg] at balanceEq
  refine ⟨bought, used, beneficiary, checked, paid, usedMsg, ?_, succeeded, executed.msg.trans usedMsg,
    ?_, ranInitial, ?_, gpEq, balanceEq, usedGasEq⟩
  · rw [usedIs]
    exact start.balance
  · rw [executed.gp, usedIs]
    exact start.gp
  · rw [← ranInitial]
    apply refundGas_gas_le
    rw [ranInitial]
    exact Nat.le_trans executed.gas_le usedGas

/-- Before SIP001 the pool is not drawn on, but a message that TransitionDb
accepts still returns to it the gas left after the refund. -/
theorem ApplyMessage_gasPool_before_SIP001 (bounded : evm.GasBounded) {msg : Message} {gp : Nat}
    {state : World} {blockNumber : Nat} {after : Nat × World} {output : List UInt8 × Nat × Bool}
    (before : IsSIP001Block config blockNumber = false)
    (applied : ApplyMessage config evm msg gp state blockNumber = (after, .ok output)) :
    after.1 = gp + ((NewStateTransition msg gp state blockNumber).mgas config - output.2.1) := by
  obtain ⟨st', result, transition, rfl, rfl⟩ := ApplyMessage_eq_ok applied
  obtain ⟨bought, used, -, -, paid, -, -, -, -, ranGp, ranInitial, refunded, gpEq, -, usedGas⟩ :=
    TransitionDb_new_ok bounded transition
  have kept := paid.poolBefore before
  simp only [gasUsed, refundGas_initialGas] at usedGas
  simp only [refundGas_gp, ranGp] at gpEq
  rw [paid.initialGas] at ranInitial refunded
  simp only [NewStateTransition] at kept ranInitial refunded ⊢
  show st'.gp = gp + (_ - result.usedGas)
  omega

/-- From SIP001, an ordinary message with the right nonce whose sender cannot
pay for its gas is rejected, and the pool keeps the loss of the gas it was to
buy. -/
theorem ApplyMessage_insufficient_keeps_draw (evm : EVM) {msg : Message} {gp : Nat} {state : World}
    {blockNumber : Nat}
    (ordinary : ∀ recipient, msg.To = some recipient → IsChiefAddress config recipient = false)
    (nonce : msg.CheckNonce = true → state.GetNonce msg.From = msg.Nonce)
    (sip001 : IsSIP001Block config blockNumber = true) (small : msg.Gas < 2 ^ 64)
    (available : msg.Gas ≤ gp) (poor : state.GetBalance msg.From < msg.Gas * msg.GasPrice) :
    (ApplyMessage config evm msg gp state blockNumber).1.1 = gp - msg.Gas ∧
      (ApplyMessage config evm msg gp state blockNumber).2 = .error .errInsufficientBalanceForGas := by
  have start := frame_from (NewStateTransition msg gp state blockNumber)
  have checked := @preCheck_of_nonce config (NewStateTransition msg gp state blockNumber) (by
    rw [from_nonce]
    exact nonce)
  obtain ⟨rejected, drawn⟩ := @buyGas_insufficient config (NewStateTransition msg gp state blockNumber).from
    (by rw [start.msg]; exact ordinary) (by rw [start.blockNumber]; exact sip001)
    (by rw [start.msg]; exact small) (by rw [start.msg, start.gp]; exact available)
    (by rw [World.GetBalance_eq, start.balance, start.msg]; exact poor)
  have failed : (NewStateTransition msg gp state blockNumber).preCheck config =
      (((NewStateTransition msg gp state blockNumber).from.buyGas config).1,
        some .errInsufficientBalanceForGas) := by
    rw [checked, ← rejected]
  unfold ApplyMessage
  rw [TransitionDb_of_preCheck_error config evm failed]
  dsimp only
  rw [drawn, start.gp, start.msg]
  exact ⟨rfl, rfl⟩

/-- On the main network a transfer from an address that holds nothing is
rejected for its gas, and the block's gas pool has still lost the 21000 gas the
message was to buy. -/
theorem ApplyMessage_rejected_keeps_gas_drawn (evm : EVM) :
    let run := ApplyMessage MainnetChainConfig evm
      ⟨Vector.replicate 20 1, some (Vector.replicate 20 2), 1, 21000, 0, 0, true, []⟩
      4712388 World.empty 1000
    run.1.1 = 4691388 ∧ run.2 = .error .errInsufficientBalanceForGas := by
  intro run
  exact ApplyMessage_insufficient_keeps_draw evm (by rintro recipient ⟨⟩; decide) (fun _ => rfl)
    (by decide) (by decide) (by decide) (by decide)

end StateTransition

end Meshbox.Core
