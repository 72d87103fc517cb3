import Nmos6502.Cpu.State
import Nmos6502.Instruction.Effect

/-! # Accesses

Every micro-operation makes one access to the bus. Here is which one, and what happens before it: a
counter moves, an address or a value is chosen. -/

namespace Nmos6502

inductive Access where
  | read (addr : UInt16)
  | write (addr : UInt16) (value : UInt8)
deriving Repr, DecidableEq

def Pushed.value (r : Registers) : Pushed → UInt8
  | pcHigh => highByte r.pc
  | pcLow => lowByte r.pc
  | accumulator => r.a
  | statusBreak => r.p.pushedByBreak
  | statusInterrupt => r.p.pushedByInterrupt

namespace Cpu

/-! ### The next micro-operation -/

def microOpAt (position : Nat) (cpu : Cpu) : Except Fault MicroOp :=
  match cpu.program[position]? with
  | some op => .ok op
  | none => .error (.pastProgramEnd cpu.program.length position)

/-- The micro-operation of the next cycle, and the machine with its place moved past it. A page
correction that is not needed takes no cycle. -/
def next (cpu : Cpu) : Except Fault (MicroOp × Cpu) :=
  match cpu.phase with
  | .fetch => .ok (.fetchOpcode, cpu)
  | .jammed => .ok (.stuck, cpu)
  | .execute => do
    let op ← cpu.microOpAt cpu.step
    if op = .fixPageIfCrossed ∧ cpu.crossed = false then
      let op ← cpu.microOpAt (cpu.step + 1)
      return (op, { cpu with step := cpu.step + 2 })
    else
      return (op, { cpu with step := cpu.step + 1 })

theorem next_fetch {cpu : Cpu} (h : cpu.phase = .fetch) : cpu.next = .ok (.fetchOpcode, cpu) := by
  simp [next, h]

theorem next_stuck {cpu : Cpu} (h : cpu.phase = .jammed) : cpu.next = .ok (.stuck, cpu) := by
  simp [next, h]

/-! ### Before the access -/

def uncorrected (cpu : Cpu) : UInt16 :=
  if cpu.crossed then cpu.address - 256 else cpu.address

/-- What an unstable store writes: its source masked with one more than the high byte of the address
before indexing. -/
def unstableValue (op : StoreOp) (cpu : Cpu) : UInt8 :=
  op.source cpu.regs &&& (highByte cpu.uncorrected + 1)

/-- When indexing carries, an unstable store also uses what it writes as the high byte of the
address. -/
def prepareStore (op : StoreOp) (cpu : Cpu) : Cpu × Access :=
  if op.isUnstable then
    let value := cpu.unstableValue op
    let address := if cpu.crossed then addressOf (lowByte cpu.address) value else cpu.address
    ({ cpu with regs := op.apply cpu.regs, address := address }, .write address value)
  else
    (cpu, .write cpu.address (op.source cpu.regs))

/-- A pending NMI takes over the vector of a BRK or IRQ. -/
def stealVector (cpu : Cpu) : Cpu :=
  if cpu.handler = .irq ∧ cpu.nmiPending then { cpu with handler := .nmi, nmiPending := false }
  else cpu

/-- The machine as it makes the access of a micro-operation, and the access. -/
def prepare (op : MicroOp) (cpu : Cpu) : Cpu × Access :=
  match op with
  | .fetchOpcode => ({ cpu with regs := cpu.regs.advance, pins.sync := true }, .read cpu.regs.pc)
  | .discard | .implied _ | .accumulator _ | .jump | .branchTaken => (cpu, .read cpu.regs.pc)
  | .immediate _ | .skip | .addressLow | .addressHigh | .addressHighIndexed _ | .branchOffset _ =>
    ({ cpu with regs := cpu.regs.advance }, .read cpu.regs.pc)
  | .indexZeroPage _ | .pointerLow | .read _ | .modifyRead => (cpu, .read cpu.address)
  | .pointerHigh | .pointerHighIndexed _ | .jumpIndirect =>
    (cpu, .read (nextInPage cpu.address))
  | .fixPageIfCrossed | .fixPage => (cpu, .read cpu.uncorrected)
  | .write op => cpu.prepareStore op
  | .modifyHold _ | .modifyWrite => (cpu, .write cpu.address cpu.operand)
  | .peekStack => (cpu, .read (stackAddress cpu.regs.s))
  | .push what =>
    ({ cpu with regs := cpu.regs.push }, .write (stackAddress cpu.regs.s) (what.value cpu.regs))
  | .pullAccumulator | .pullStatus | .pullPcLow | .pullPcHigh =>
    ({ cpu with regs := cpu.regs.pull }, .read (stackAddress cpu.regs.pull.s))
  | .vectorLow => (cpu.stealVector, .read cpu.stealVector.handler.vector)
  | .vectorHigh => (cpu, .read (cpu.handler.vector + 1))
  | .branchFixPage => (cpu, .read (addressOf (lowByte cpu.address) (highByte cpu.regs.pc)))
  | .jam | .stuck => (cpu, .read 0xFFFF)

end Cpu

end Nmos6502
