import Nmos6502.Instruction.Opcode
import Nmos6502.MicroOp
import Nmos6502.Notice
import Nmos6502.Pins
import Nmos6502.Registers
import Nmos6502.Ticks
import Nmos6502.Variant

/-! # The state of the processor

The registers, the pins as the last cycle left them, and what an instruction in progress needs to go
on: its program, the place in it and the latches. The machine owns no memory. -/

namespace Nmos6502

inductive Phase where
  | fetch
  | execute
  /-- The machine has locked up and waits for a reset. -/
  | jammed
deriving Repr, DecidableEq

structure Cpu where
  regs : Registers
  pins : Pins
  decimalAdder : Bool
  phase : Phase
  instruction : Instruction
  program : List MicroOp
  /-- The position of the next micro-operation. -/
  step : Nat
  /-- The address latch. -/
  address : UInt16
  /-- The operand latch. -/
  operand : UInt8
  /-- Indexing has carried into the page of the address. -/
  crossed : Bool
  /-- The handler that a vector is fetched for. -/
  handler : Handler
  /-- Interrupts are polled when the program ends. They are not after BRK and after an interrupt,
  so that the first instruction of a handler always runs. -/
  polls : Bool
  /-- NMI has risen and has not been served. -/
  nmiPending : Bool
  /-- The interrupt mask as it stood when IRQ was last polled. -/
  irqMasked : Bool
  ticks : UInt32
  total : Ticks
  /-- What stopped the last run, if a trap did. -/
  trapId : Option Int32
deriving Repr, DecidableEq

namespace Cpu

def powerOn (variant : Variant) : Cpu where
  regs := Registers.powerOn
  pins := Pins.reading
  decimalAdder := variant.decimalAdder
  phase := .fetch
  instruction := .implied .nop
  program := []
  step := 0
  address := 0
  operand := 0
  crossed := false
  handler := .irq
  polls := true
  nmiPending := false
  irqMasked := true
  ticks := 0
  total := Ticks.zero
  trapId := none

def atBoundary (cpu : Cpu) : Bool := cpu.phase = .fetch

def isJammed (cpu : Cpu) : Bool := cpu.phase = .jammed

/-! ### Changes from outside, between cycles -/

def setA (v : UInt8) (cpu : Cpu) : Cpu := { cpu with regs.a := v }

def setX (v : UInt8) (cpu : Cpu) : Cpu := { cpu with regs.x := v }

def setY (v : UInt8) (cpu : Cpu) : Cpu := { cpu with regs.y := v }

def setS (v : UInt8) (cpu : Cpu) : Cpu := { cpu with regs.s := v }

def setP (v : UInt8) (cpu : Cpu) : Cpu := { cpu with regs.p := Status.write v }

def setPc (v : UInt16) (cpu : Cpu) : Cpu := { cpu with regs.pc := v }

/-- Take over pins from outside: the end of a bus cycle, or lines that change between cycles. A
rising NMI is remembered until it is served. -/
def latchPins (pins : Pins) (cpu : Cpu) : Cpu :=
  { cpu with pins := pins, nmiPending := cpu.nmiPending || (pins.nmi && !cpu.pins.nmi) }

end Cpu

end Nmos6502
