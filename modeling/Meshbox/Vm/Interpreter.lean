/-
This file models the execution of contract code in core/vm: EVM.Call and run
of evm.go, Interpreter.Run of interpreter.go, and the instructions STOP, ADD,
POP, JUMP, JUMPDEST, PUSH1 to PUSH32 and CALL with their gas from jump_table.go
and gas_table.go. Other opcodes are not modelled; they read as undefined.

Go runs a nested call by a recursive call of Interpreter.Run on the same
interpreter. Here the machine holds the stack of running frames instead, the
innermost first, and a step either executes one instruction of the innermost
frame, enters a frame for a CALL, or ends the frame and resumes its caller;
Loop.run runs the steps. What the Go frames share is a field of the machine:
the state, the call depth, callGasTemp, the return data of the last call, and
the interpreter's configuration flag DisableGasMetering. run sets that flag
when a frame starts, from whether the frame's contract is a chief contract or a
contract a chief calls, and nothing sets it back when the frame ends; each
instruction is charged its gas only while the flag is clear.

Contract creation, and with it the createSync set, is not modelled: run reads
createSync only for the callers of a creation.
-/

import Meshbox.Vm.EVM
import Meshbox.Params.Config
import Meshbox.Library.BigEndian
import Meshbox.Library.Loop

namespace Meshbox.Vm

open Meshbox.Params Meshbox.State

/-! ### Gas and limits -/

def GasQuickStep : Nat := 2

def GasFastestStep : Nat := 3

def GasMidStep : Nat := 8

def JumpdestGas : Nat := 1

def CallGasFrontier : Nat := 40

def CallGasEIP150 : Nat := 700

def CallStipend : Nat := 2300

def CallValueTransferGas : Nat := 9000

def CallNewAccountGas : Nat := 25000

def MemoryGas : Nat := 3

def QuadCoeffDiv : Nat := 512

def CallCreateDepth : Nat := 1024

def StackLimit : Nat := 1024

/-- The chain rules the fragment depends on. -/
structure Rules where
  IsEIP150 : Bool
  IsEIP158 : Bool

/-- A precompiled contract: the gas it requires for an input, and its output. -/
structure Precompile where
  RequiredGas : List UInt8 → Nat
  Run : List UInt8 → Except VmError (List UInt8)

/-- What execution reads and never writes: the chain configuration and rules,
the code of every account, and the precompiled contracts. -/
structure Env where
  config : ChainConfig
  rules : Rules
  code : Address → List UInt8
  precompile : Address → Option Precompile

/-- The low 20 bytes of a stack word, as Bytes20 reads an address. -/
def toAddress (word : Nat) : Address :=
  Vector.ofFn fun index => (word / 256 ^ (19 - index.val) % 256).toUInt8

/-! ### Contracts, memory and frames -/

/-- Contract: the caller, the account whose code runs, that code, the input,
the gas left and the value. -/
structure Contract where
  CallerAddress : Address
  self : Address
  Code : List UInt8
  Input : List UInt8
  Gas : Nat
  value : Nat

/-- UseGas: gas taken from the contract, none when there is not enough. -/
def Contract.UseGas (contract : Contract) (gas : Nat) : Option Contract :=
  if contract.Gas < gas then none else some { contract with Gas := contract.Gas - gas }

/-- GetOp: the byte at n, STOP past the end of the code. -/
def Contract.GetOp (contract : Contract) (n : Nat) : UInt8 :=
  contract.Code.getD n 0

/-- Whether an opcode byte is one of PUSH1 to PUSH32. -/
def isPush (op : UInt8) : Bool :=
  0x60 ≤ op ∧ op ≤ 0x7f

/-- codeBitmap: for each position of the code, whether it holds an opcode
rather than data of a push; skip counts the push data still to pass. -/
def codeSegments : List UInt8 → Nat → List Bool
  | [], _ => []
  | op :: rest, 0 => true :: codeSegments rest (if isPush op then op.toNat - 0x5f else 0)
  | _ :: rest, skip + 1 => false :: codeSegments rest skip

/-- validJumpdest: a JUMPDEST within the code that is not push data. -/
def Contract.validJumpdest (contract : Contract) (dest : Nat) : Bool :=
  dest < contract.Code.length ∧ contract.Code.getD dest 0 = 0x5b ∧
    (codeSegments contract.Code 0).getD dest false

/-- Memory: the bytes, and the total memory fee paid so far. -/
structure Memory where
  store : List UInt8
  lastGasCost : Nat

/-- Resize: the memory grown with zero bytes to size. -/
def Memory.Resize (mem : Memory) (size : Nat) : Memory :=
  if mem.store.length < size then
    { mem with store := mem.store ++ List.replicate (size - mem.store.length) 0 }
  else mem

/-- Set: value copied to offset, at most size bytes. -/
def Memory.Set (mem : Memory) (offset size : Nat) (value : List UInt8) : Memory :=
  if size = 0 then mem
  else
    let copied := value.take size
    { mem with store := mem.store.take offset ++ copied ++ mem.store.drop (offset + copied.length) }

/-- toWordSize: the number of 32-byte words that hold size bytes. -/
def toWordSize (size : Nat) : Nat :=
  (size + 31) / 32

/-- memoryGasCost: the fee for growing the memory to newMemSize, and the memory
with its fee total updated; none is ErrGasUintOverflow. -/
def memoryGasCost (mem : Memory) (newMemSize : Nat) : Option (Nat × Memory) :=
  if newMemSize = 0 then some (0, mem)
  else if 0x1FFFFFFFE0 < newMemSize then none
  else
    let newMemSizeWords := toWordSize newMemSize
    if mem.store.length < newMemSizeWords * 32 then
      let newTotalFee := newMemSizeWords * MemoryGas + newMemSizeWords * newMemSizeWords / QuadCoeffDiv
      some (newTotalFee - mem.lastGasCost, { mem with lastGasCost := newTotalFee })
    else some (0, mem)

/-- calcMemSize64: offset plus length, zero for no length; none when it does
not fit in 64 bits. -/
def calcMemSize64 (off l : Nat) : Option Nat :=
  if 2 ^ 64 ≤ l then none
  else if l = 0 then some 0
  else if 2 ^ 64 ≤ off then none
  else if 2 ^ 64 ≤ off + l then none
  else some (off + l)

/-- memoryCall: the memory CALL needs for its output and its input. -/
def memoryCall (stack : List Nat) : Option Nat := do
  let x ← calcMemSize64 (stack.getD 5 0) (stack.getD 6 0)
  let y ← calcMemSize64 (stack.getD 3 0) (stack.getD 4 0)
  pure (max x y)

/-- The memory size an operation needs, rounded up to words; none when that
does not fit in 64 bits. -/
def memoryWords (size : Nat) : Option Nat :=
  if 2 ^ 64 ≤ toWordSize size * 32 then none else some (toWordSize size * 32)

/-- callGas: the gas a CALL passes on. From EIP150 at most all but a 64th of
what is left after the call's own cost; none is ErrGasUintOverflow. -/
def callGas (isEip150 : Bool) (availableGas base callCost : Nat) : Option Nat :=
  let capped := if isEip150 then
      let availableGas := availableGas - base
      let gas := availableGas - availableGas / 64
      if 2 ^ 64 ≤ callCost ∨ gas < callCost then some gas else none
    else none
  match capped with
  | some gas => some gas
  | none => if 2 ^ 64 ≤ callCost then none else some callCost

/-- The opcodes of the modelled fragment. -/
inductive OpCode where
  | STOP
  | ADD
  | POP
  | JUMP
  | JUMPDEST
  | PUSH (size : Nat)
  | CALL
deriving DecidableEq, Repr

/-- The jump table: the operation of a byte, none for an undefined one. -/
def OpCode.ofByte (byte : UInt8) : Option OpCode :=
  if byte = 0x00 then some .STOP
  else if byte = 0x01 then some .ADD
  else if byte = 0x50 then some .POP
  else if byte = 0x56 then some .JUMP
  else if byte = 0x5b then some .JUMPDEST
  else if isPush byte then some (.PUSH (byte.toNat - 0x5f))
  else if byte = 0xf1 then some .CALL
  else none

def OpCode.constantGas (rules : Rules) : OpCode → Nat
  | .STOP => 0
  | .ADD => GasFastestStep
  | .POP => GasQuickStep
  | .JUMP => GasMidStep
  | .JUMPDEST => JumpdestGas
  | .PUSH _ => GasFastestStep
  | .CALL => if rules.IsEIP150 then CallGasEIP150 else CallGasFrontier

/-- The items an operation pops and pushes. -/
def OpCode.stackChange : OpCode → Nat × Nat
  | .STOP => (0, 0)
  | .ADD => (2, 1)
  | .POP => (1, 0)
  | .JUMP => (1, 0)
  | .JUMPDEST => (0, 0)
  | .PUSH _ => (0, 1)
  | .CALL => (7, 1)

def OpCode.minStack (op : OpCode) : Nat :=
  op.stackChange.1

def OpCode.maxStack (op : OpCode) : Nat :=
  StackLimit + op.stackChange.1 - op.stackChange.2

/-- Frame: a running contract with its program counter, stack (top first) and
memory; the state its Call reverts to if it fails; and where its caller wants
the output. -/
structure Frame where
  contract : Contract
  pc : Nat
  stack : List Nat
  memory : Memory
  snapshot : World
  retOffset : Nat
  retSize : Nat

/-- The machine: the state and what the frames share, and the frames running,
the innermost first. -/
structure Machine where
  world : World
  DisableGasMetering : Bool
  depth : Nat
  callGasTemp : Nat
  returnData : List UInt8
  frames : List Frame

/-! ### Calls -/

/-- A call either ends before any code runs, with its output, gas left, error
and machine, or starts a frame. -/
inductive Entered where
  | done (ret : List UInt8) (gas : Nat) (err : Option VmError) (m : Machine)
  | running (m : Machine)

/-- The end of Call: on an error the state reverted to the snapshot and, unless
the code reverted, the gas left used up. -/
def callResult (snapshot : World) (m : Machine) (ret : List UInt8) (gas : Nat) (err : Option VmError) :
    List UInt8 × Nat × Option VmError × Machine :=
  match err with
  | none => (ret, gas, none, m)
  | some err =>
    let m := { m with world := snapshot }
    (ret, if err = .ErrExecutionReverted then gas else 0, some err, m)

variable (env : Env)

/-- RunPrecompiledContract: the required gas taken, then the precompile run. -/
def RunPrecompiledContract (p : Precompile) (input : List UInt8) (contract : Contract) :
    List UInt8 × Nat × Option VmError :=
  match contract.UseGas (p.RequiredGas input) with
  | none => ([], contract.Gas, some .ErrOutOfGas)
  | some contract =>
    match p.Run input with
    | .ok ret => (ret, contract.Gas, none)
    | .error err => ([], contract.Gas, some err)

/-- run and the start of Interpreter.Run: a precompile runs at once; otherwise
DisableGasMetering is set for the contract, the depth goes up and the return
data is cleared, and a contract without code returns at once. -/
def run (m : Machine) (contract : Contract) (snapshot : World) (retOffset retSize : Nat) :
    Entered :=
  match env.precompile contract.self with
  | some p =>
    let (ret, gas, err) := RunPrecompiledContract p contract.Input contract
    let (ret, gas, err, m) := callResult snapshot m ret gas err
    .done ret gas err m
  | none =>
    let chief := IsChiefAddress env.config contract.self ||
      IsChiefCalled contract.CallerAddress contract.self
    let m := { m with DisableGasMetering := chief }
    if contract.Code = [] then
      let (ret, gas, err, m) := callResult snapshot m [] contract.Gas none
      .done ret gas err m
    else
      .running { m with
        depth := m.depth + 1
        returnData := []
        frames := ⟨contract, 0, [], ⟨[], 0⟩, snapshot, retOffset, retSize⟩ :: m.frames }

/-- Call: the depth and balance checks, the recipient's account created unless
a call of no value to a missing account ends at once, the value transferred,
and the recipient's code run. -/
def Call (m : Machine) (caller addr : Address) (input : List UInt8) (gas value : Nat)
    (retOffset retSize : Nat) : Entered :=
  if CallCreateDepth < m.depth then .done [] gas (some .ErrDepth) m
  else if m.world.GetBalance caller < value then .done [] gas (some .ErrInsufficientBalance) m
  else
    let snapshot := m.world
    if !m.world.Exist addr && (env.precompile addr).isNone && env.rules.IsEIP158 && value = 0 then
      .done [] gas none m
    else
      let world := if m.world.Exist addr then m.world else m.world.CreateAccount addr
      let world := (world.SubBalance caller value).AddBalance addr value
      run env { m with world := world } ⟨caller, addr, env.code addr, input, gas, value⟩ snapshot
        retOffset retSize

/-- The end of opCall in the caller's frame: 1 or 0 pushed for the call's
success, its output copied to memory unless it failed, its gas left returned,
and its output kept as the return data. -/
def resume (frame : Frame) (m : Machine) (ret : List UInt8) (gas : Nat) (err : Option VmError) :
    Frame × Machine :=
  let memory := if err = none ∨ err = some .ErrExecutionReverted then
      frame.memory.Set frame.retOffset frame.retSize ret
    else frame.memory
  let frame := { frame with
    stack := (if err = none then 1 else 0) :: frame.stack
    memory := memory
    contract := { frame.contract with Gas := frame.contract.Gas + gas }
    pc := frame.pc + 1 }
  (frame, { m with returnData := ret })

/-- What a step hands on: the result of the outermost call, or the machine. -/
abbrev StepResult := CallResult ⊕ Machine

/-- A call's end passed outwards: the result of the outermost call, or the
caller resumed. -/
def returnTo (callers : List Frame) (ret : List UInt8) (gas : Nat) (err : Option VmError)
    (m : Machine) : StepResult :=
  match callers with
  | [] => .inl ⟨ret, gas, err, m.world⟩
  | caller :: outer =>
    let (caller, m) := resume caller m ret gas err
    .inr { m with frames := caller :: outer }

/-- The end of the innermost frame, with the output and error Interpreter.Run
returns: the depth restored, the end of Call, and the caller resumed. -/
def halt (m : Machine) (frame : Frame) (callers : List Frame) (ret : List UInt8)
    (err : Option VmError) : StepResult :=
  let m := { m with depth := m.depth - 1, frames := callers }
  let (ret, gas, err, m) := callResult frame.snapshot m ret frame.contract.Gas err
  returnTo callers ret gas err m

/-- A call entered from a frame: ended at once and the frame resumed, or the
new frame running. -/
def enter (callers : List Frame) : Entered → StepResult
  | .done ret gas err m => returnTo callers ret gas err m
  | .running m => .inr m

/-! ### One step -/

/-- The pushed value: n bytes after the opcode, zero past the end of the code. -/
def pushValue (code : List UInt8) (pc n : Nat) : Nat :=
  let bytes := (code.drop (pc + 1)).take n
  BigEndian.ofBytes (bytes ++ List.replicate (n - bytes.length) 0)

/-- gasCall: the cost of a new account and of a value transfer, the memory
fee, and the gas passed on, which is kept as callGasTemp. -/
def gasCall (m : Machine) (frame : Frame) (memorySize : Nat) : Option (Nat × Memory × Machine) := do
  let transfersValue := frame.stack.getD 2 0 ≠ 0
  let address := toAddress (frame.stack.getD 1 0)
  let newAccount := if env.rules.IsEIP158 then
      transfersValue ∧ m.world.GetBalance address = 0 ∧ m.world.GetNonce address = 0 ∧
        env.code address = []
    else !m.world.Exist address
  let gas := (if newAccount then CallNewAccountGas else 0) +
    (if transfersValue then CallValueTransferGas else 0)
  let (memoryGas, memory) ← memoryGasCost frame.memory memorySize
  let gas := gas + memoryGas
  if 2 ^ 64 ≤ gas then none
  else
    let callGasTemp ← callGas env.rules.IsEIP150 frame.contract.Gas gas (frame.stack.getD 0 0)
    let gas := gas + callGasTemp
    if 2 ^ 64 ≤ gas then none else some (gas, memory, { m with callGasTemp := callGasTemp })

/-- opCall: the arguments popped, the gas kept in callGasTemp passed on with the
stipend for a value, and the callee entered. -/
def opCall (m : Machine) (frame : Frame) (callers : List Frame) : StepResult :=
  match frame.stack with
  | _ :: addr :: value :: inOffset :: inSize :: retOffset :: retSize :: rest =>
    let args := ((frame.memory.store.drop inOffset).take inSize)
    let gas := if value = 0 then m.callGasTemp else m.callGasTemp + CallStipend
    let frame := { frame with stack := rest, retOffset := retOffset, retSize := retSize }
    enter callers (Call env { m with frames := frame :: callers } frame.contract.self (toAddress addr)
      args gas value retOffset retSize)
  | _ => halt m frame callers [] (some .ErrStackUnderflow)

/-- The execution of an instruction after its gas: the frame after it, a
called frame, or the frame's end. -/
def execute (m : Machine) (frame : Frame) (callers : List Frame) : OpCode → StepResult
  | .STOP => halt m frame callers [] none
  | .ADD =>
    match frame.stack with
    | x :: y :: rest => .inr { m with frames := { frame with
        stack := (x + y) % 2 ^ 256 :: rest, pc := frame.pc + 1 } :: callers }
    | _ => halt m frame callers [] (some .ErrStackUnderflow)
  | .POP =>
    .inr { m with frames := { frame with stack := frame.stack.tail, pc := frame.pc + 1 } :: callers }
  | .JUMP =>
    match frame.stack with
    | pos :: rest =>
      if frame.contract.validJumpdest pos then
        .inr { m with frames := { frame with stack := rest, pc := pos } :: callers }
      else halt m frame callers [] (some .ErrInvalidJump)
    | [] => halt m frame callers [] (some .ErrStackUnderflow)
  | .JUMPDEST => .inr { m with frames := { frame with pc := frame.pc + 1 } :: callers }
  | .PUSH n =>
    .inr { m with frames := { frame with
      stack := pushValue frame.contract.Code frame.pc n :: frame.stack, pc := frame.pc + n + 1 } :: callers }
  | .CALL => opCall env m frame callers

/-- One turn of Interpreter.Run's loop on the innermost frame: the operation
looked up and its stack checked, its constant gas, memory size and dynamic gas
charged unless DisableGasMetering is set, the memory grown, and the operation
run. -/
def step (m : Machine) : Outcome Empty StepResult :=
  match m.frames with
  | [] => .ok (.inl ⟨[], 0, none, m.world⟩)
  | frame :: callers =>
    .ok <| match OpCode.ofByte (frame.contract.GetOp frame.pc) with
    | none => halt m frame callers [] (some .ErrInvalidOpCode)
    | some op =>
      if frame.stack.length < op.minStack then halt m frame callers [] (some .ErrStackUnderflow)
      else if op.maxStack < frame.stack.length then halt m frame callers [] (some .ErrStackOverflow)
      else
        let charged := if m.DisableGasMetering then some frame.contract
          else frame.contract.UseGas (op.constantGas env.rules)
        match charged with
        | none => halt m frame callers [] (some .ErrOutOfGas)
        | some contract =>
          let frame := { frame with contract := contract }
          let memorySize := if op = .CALL then (memoryCall frame.stack).bind memoryWords else some 0
          match memorySize with
          | none => halt m frame callers [] (some .ErrGasUintOverflow)
          | some memorySize =>
            let dynamic := if m.DisableGasMetering || op ≠ .CALL then some (0, frame.memory, m)
              else gasCall env m frame memorySize
            match dynamic with
            | none => halt m frame callers [] (some .ErrOutOfGas)
            | some (cost, memory, m) =>
              match contract.UseGas cost with
              | none => halt m frame callers [] (some .ErrOutOfGas)
              | some contract =>
                let frame := { frame with contract := contract, memory := memory.Resize memorySize }
                execute env m frame callers op

/-- The top-level EVM.Call of a message, run for at most fuel steps. -/
def runCall (fuel : Nat) (world : World) (caller addr : Address) (input : List UInt8) (gas value : Nat) :
    Option (Outcome Empty CallResult) :=
  let m : Machine := ⟨world, false, 0, 0, [], []⟩
  match Call env m caller addr input gas value 0 0 with
  | .done ret gas err m => some (.ok ⟨ret, gas, err, m.world⟩)
  | .running m => Loop.run (step env) fuel m

/-! ### Steps without metering -/

@[simp] theorem Contract.UseGas_zero (contract : Contract) : contract.UseGas 0 = some contract := by
  simp [Contract.UseGas]

@[simp] theorem Memory.Resize_zero (mem : Memory) : mem.Resize 0 = mem := by
  simp [Memory.Resize]

/-- While DisableGasMetering is set, a step runs an instruction other than CALL
without charging any gas for it. -/
theorem step_unmetered {m : Machine} {frame : Frame} {callers : List Frame} {op : OpCode}
    (running : m.frames = frame :: callers) (unmetered : m.DisableGasMetering = true)
    (decoded : OpCode.ofByte (frame.contract.GetOp frame.pc) = some op) (notCall : op ≠ .CALL)
    (enough : op.minStack ≤ frame.stack.length) (room : frame.stack.length ≤ op.maxStack) :
    step env m = .ok (execute env m frame callers op) := by
  unfold step
  rw [running]
  simp only [decoded, if_neg (Nat.not_lt.mpr enough), if_neg (Nat.not_lt.mpr room), unmetered,
    if_true, if_neg notCall, Bool.true_or, Contract.UseGas_zero, Memory.Resize_zero]

/-! ### A loop behind a call to a chief -/

/-- The message's sender and the contract it calls. -/
def sender : Address := Vector.replicate 20 1

def looper : Address := Vector.replicate 20 7

/-- The looper's code: a CALL of callee with no gas, no value and no data, its
result dropped, and then a loop of JUMPDEST at 35, PUSH1 35 and JUMP. -/
def loopAfterCall (callee : Address) : List UInt8 :=
  [0x60, 0, 0x60, 0, 0x60, 0, 0x60, 0, 0x60, 0, 0x73] ++ callee.toList ++
    [0x60, 0, 0xf1, 0x50, 0x5b, 0x60, 35, 0x56]

/-- The main network's rules, with the looper's code, and callee's code a
single STOP. -/
def loopEnv (callee : Address) : Env :=
  ⟨MainnetChainConfig, ⟨true, true⟩,
    fun addr => if addr = looper then loopAfterCall callee else if addr = callee then [0x00] else [],
    fun _ => none⟩

/-- A sender holding 10^6, and accounts for callee and the looper. -/
def loopWorld (callee : Address) : World :=
  ((World.empty.AddBalance sender 1000000).AddBalance callee 0).AddBalance looper 0

/-- The points of the loop, unmetered: the looper's frame alone at JUMPDEST,
at PUSH1 35, or at JUMP with 35 on the stack. -/
def loopPoint (m : Machine) : Bool :=
  m.DisableGasMetering &&
    match m.frames with
    | [frame] =>
      decide (frame.contract.Code = loopAfterCall MainnetChief100Address) &&
        (decide (frame.pc = 35 ∧ frame.stack = []) || decide (frame.pc = 36 ∧ frame.stack = []) ||
          decide (frame.pc = 38 ∧ frame.stack = [35]))
    | _ => false

/-- The call's start as a machine, when it starts a frame. -/
def Entered.machine? : Entered → Option Machine
  | .done .. => none
  | .running m => some m

/-- From each point of the loop, unmetered, a step goes on to the next point:
no instruction of the loop is charged. -/
theorem loopPoint_step {m : Machine} (looping : loopPoint m = true) :
    ∃ next, step (loopEnv MainnetChief100Address) m = .ok (.inr next) ∧ loopPoint next = true := by
  unfold loopPoint at looping
  obtain ⟨unmetered, rest⟩ := Bool.and_eq_true_iff.mp looping
  match running : m.frames, rest with
  | [frame], rest =>
    simp only [Bool.and_eq_true, decide_eq_true_eq, Bool.or_eq_true] at rest
    obtain ⟨code, points⟩ := rest
    have fetch : ∀ pc, frame.contract.GetOp pc = (loopAfterCall MainnetChief100Address).getD pc 0 := by
      intro pc
      rw [Contract.GetOp, code]
    rcases points with (⟨pc, stack⟩ | ⟨pc, stack⟩) | ⟨pc, stack⟩
    · -- JUMPDEST at 35
      have decoded : OpCode.ofByte (frame.contract.GetOp frame.pc) = some .JUMPDEST := by
        rw [fetch, pc]
        decide
      rw [step_unmetered _ running unmetered decoded (by decide) (by simp [stack, OpCode.minStack,
        OpCode.stackChange]) (by simp [stack, OpCode.maxStack, OpCode.stackChange, StackLimit])]
      exact ⟨_, rfl, by simp [loopPoint, unmetered, code, pc, stack]⟩
    · -- PUSH1 35 at 36
      have decoded : OpCode.ofByte (frame.contract.GetOp frame.pc) = some (.PUSH 1) := by
        rw [fetch, pc]
        decide
      rw [step_unmetered _ running unmetered decoded (by decide) (by simp [stack, OpCode.minStack,
        OpCode.stackChange]) (by simp [stack, OpCode.maxStack, OpCode.stackChange, StackLimit])]
      refine ⟨_, rfl, ?_⟩
      have pushed : pushValue (loopAfterCall MainnetChief100Address) 36 1 = 35 := by decide
      simp [loopPoint, unmetered, code, pc, stack, pushed]
    · -- JUMP to 35 at 38
      have decoded : OpCode.ofByte (frame.contract.GetOp frame.pc) = some .JUMP := by
        rw [fetch, pc]
        decide
      rw [step_unmetered _ running unmetered decoded (by decide) (by simp [stack, OpCode.minStack,
        OpCode.stackChange]) (by simp [stack, OpCode.maxStack, OpCode.stackChange, StackLimit])]
      have valid : frame.contract.validJumpdest 35 = true := by
        rw [Contract.validJumpdest, code]
        decide
      refine ⟨_, by simp only [execute, stack, valid, if_true]; rfl, ?_⟩
      simp [loopPoint, unmetered, code]
  | [], rest => simp at rest
  | _ :: _ :: _, rest => simp at rest

/-- On the main network, a message with 1000 gas to the looper, an ordinary
contract that no chief calls, whose code calls the chief 1.0.0 contract and
then loops. The chief's frame sets DisableGasMetering and nothing clears it
when the frame returns, so no turn of the looper's loop is charged and the
call does not end for any fuel. The same code calling an ordinary account
instead runs out of gas. -/
theorem runCall_loops_after_chief_call :
    IsChiefAddress MainnetChainConfig looper = false ∧ IsChiefCalled sender looper = false ∧
      (∀ fuel, runCall (loopEnv MainnetChief100Address) fuel (loopWorld MainnetChief100Address)
        sender looper [] 1000 0 = none) ∧
      ((runCall (loopEnv (Vector.replicate 20 9)) 100 (loopWorld (Vector.replicate 20 9))
        sender looper [] 1000 0).bind fun
          | .ok result => some (result.leftOverGas, result.err)
          | _ => none) = some (0, some .ErrOutOfGas) := by
  let env := loopEnv MainnetChief100Address
  -- ten steps run the call of the chief and its return, and reach the loop
  have reach : ((Call env ⟨loopWorld MainnetChief100Address, false, 0, 0, [], []⟩ sender looper [] 1000 0
      0 0).machine?.bind (Loop.iterate (step env) 10)).any loopPoint = true := by
    decide
  have diverges : ∀ fuel, runCall env fuel (loopWorld MainnetChief100Address)
      sender looper [] 1000 0 = none := by
    intro fuel
    match entered : Call env ⟨loopWorld MainnetChief100Address, false, 0, 0, [], []⟩ sender looper [] 1000 0
      0 0, reach with
    | .done .., reach => simp [Entered.machine?] at reach
    | .running m, reach =>
      rw [Entered.machine?, Option.bind_some, Option.any_eq_true] at reach
      obtain ⟨looping, iterated, atLoop⟩ := reach
      simp only [runCall, entered]
      exact Loop.run_eq_none_of_iterate 10 iterated
        (fun fuel => Loop.run_eq_none_of_invariant (fun m => loopPoint m = true)
          (fun _ holds => loopPoint_step holds) fuel looping atLoop) fuel
  exact ⟨by decide, by decide, diverges, by decide⟩

end Meshbox.Vm
