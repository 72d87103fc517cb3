import Nmos6502.Cpu.State
import Nmos6502.Instruction.Effect

/-! # Completion

What a micro-operation does once its access is made. When it was the last of its program a pending
interrupt is started, or the next cycle fetches an opcode. -/

namespace Nmos6502.Cpu

/-! ### Programs -/

def start (program : List MicroOp) (handler : Handler) (polls : Bool) (cpu : Cpu) : Cpu :=
  { cpu with
    phase := .execute, program := program, step := 0, crossed := false
    handler := handler, polls := polls }

def decode (opcode : UInt8) (cpu : Cpu) : Cpu :=
  let i := Instruction.ofOpcode opcode
  { cpu.start i.program .irq i.polls with instruction := i }

def interrupt (handler : Handler) (cpu : Cpu) : Cpu :=
  cpu.start interruptProgram handler false

/-- Leave out the rest of the program. -/
def finish (cpu : Cpu) : Cpu := { cpu with step := cpu.program.length }

/-! ### After the access -/

/-- Point the address latch at `base` plus an index. -/
def index (base : UInt16) (offset : UInt8) (cpu : Cpu) : Cpu :=
  let address := base + offset.toUInt16
  { cpu with address := address, crossed := !samePage base address }

/-- What a micro-operation does with the byte on the data bus. -/
def apply (op : MicroOp) (byte : UInt8) (cpu : Cpu) : Cpu :=
  match op with
  | .fetchOpcode => { cpu with pins.sync := false }.decode byte
  | .implied op => { cpu with regs := op.apply cpu.regs }
  | .accumulator op => { cpu with regs := op.applyA cpu.regs }
  | .immediate op | .read op => { cpu with regs := op.apply cpu.decimalAdder byte cpu.regs }
  | .addressLow => { cpu with address := zeroPage byte }
  | .addressHigh => { cpu with address := addressOf (lowByte cpu.address) byte }
  | .addressHighIndexed i => cpu.index (addressOf (lowByte cpu.address) byte) (i.value cpu.regs)
  | .indexZeroPage i =>
    { cpu with address := zeroPage (lowByte cpu.address + i.value cpu.regs) }
  | .pointerLow | .modifyRead | .pullPcLow => { cpu with operand := byte }
  | .pointerHigh => { cpu with address := addressOf cpu.operand byte }
  | .pointerHighIndexed i => cpu.index (addressOf cpu.operand byte) (i.value cpu.regs)
  | .modifyHold op =>
    let (result, regs) := op.apply cpu.decimalAdder cpu.operand cpu.regs
    { cpu with operand := result, regs := regs }
  | .pullAccumulator => { cpu with regs := cpu.regs.loadA byte }
  | .pullStatus => { cpu with regs.p := Status.pulled byte }
  | .pullPcHigh | .jumpIndirect | .vectorHigh =>
    { cpu with regs.pc := addressOf cpu.operand byte }
  | .jump => { cpu with regs.pc := addressOf (lowByte cpu.address) byte }
  | .vectorLow => { cpu with operand := byte, regs.p := cpu.regs.p.setIrqDisable true }
  | .branchOffset condition =>
    let cpu := { cpu with operand := byte }
    if condition.holds cpu.regs.p then cpu else cpu.finish
  | .branchTaken =>
    let target := cpu.regs.pc + signExtend cpu.operand
    if samePage target cpu.regs.pc then { cpu with regs.pc := target }.finish
    else { cpu with address := target }
  | .branchFixPage => { cpu with regs.pc := cpu.address }
  | .jam => { cpu with phase := .jammed }
  | .discard | .skip | .fixPageIfCrossed | .fixPage | .write _ | .modifyWrite | .peekStack
  | .push _ | .stuck => cpu

/-! ### The end of a program -/

/-- Start a pending interrupt or go back to fetching opcodes. NMI comes first and cannot be
masked. -/
def poll (cpu : Cpu) : Cpu :=
  if cpu.nmiPending then { cpu with nmiPending := false }.interrupt .nmi
  else if cpu.pins.irq ∧ cpu.irqMasked = false then cpu.interrupt .irq
  else { cpu with phase := .fetch }

/-- Deal with the end of the program, if it has been reached. `masked` is the interrupt mask as it
was when the cycle began, so an instruction that changes it in its last cycle acts one instruction
late. -/
def settle (masked : Bool) (cpu : Cpu) : Cpu :=
  if cpu.phase = .execute ∧ cpu.program.length ≤ cpu.step then
    let cpu := { cpu with irqMasked := masked }
    if cpu.polls then cpu.poll else { cpu with phase := .fetch }
  else cpu

def complete (op : MicroOp) (cpu : Cpu) : Cpu :=
  match op with
  | .fetchOpcode => cpu.apply op cpu.pins.data
  | _ => (cpu.apply op cpu.pins.data).settle cpu.regs.p.irqDisable

/-- What there is to tell the host once a micro-operation is complete. -/
def notice? (op : MicroOp) (cpu : Cpu) : Option Notice :=
  match op with
  | .fetchOpcode => some (.fetched (cpu.regs.pc - 1) cpu.pins.data)
  | .jam => some (.jammed (cpu.regs.pc - 1))
  | _ =>
    if cpu.phase = .execute ∧ cpu.step = 0 then some (.interrupted cpu.handler cpu.regs.pc)
    else none

end Nmos6502.Cpu
