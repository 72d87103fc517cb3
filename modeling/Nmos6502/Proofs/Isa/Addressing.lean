import Nmos6502.Proofs.Ram

/-! # Addressing modes

The instruction set as a programmer sees it has registers and memory, and nothing in between. Here
is where an instruction finds its operand. -/

namespace Nmos6502.Isa

structure State where
  regs : Registers
  memory : Memory

/-- The address whose low and high byte are at the given addresses. -/
def State.word (s : State) (low high : UInt16) : UInt16 := addressOf (s.memory low) (s.memory high)

/-- The pointer at an address of page zero. Both of its bytes lie in page zero. -/
def State.pointer (s : State) (zz : UInt8) : UInt16 := s.word (zeroPage zz) (zeroPage (zz + 1))

/-- The byte after the opcode. -/
def State.zz (s : State) : UInt8 := s.memory (s.regs.pc + 1)

def State.absolute (s : State) : UInt16 := s.word (s.regs.pc + 1) (s.regs.pc + 2)

inductive AddressingMode where
  | implied
  | accumulator
  | immediate
  | zeroPage
  | zeroPageX
  | zeroPageY
  | absolute
  | absoluteX
  | absoluteY
  | indirect
  | indexedIndirect
  | indirectIndexed
  | relative
deriving Repr, DecidableEq

namespace AddressingMode

def length : AddressingMode → UInt16
  | implied | accumulator => 1
  | absolute | absoluteX | absoluteY | indirect => 3
  | _ => 2

def address (mode : AddressingMode) (s : State) : UInt16 :=
  match mode with
  | implied | accumulator | immediate | relative => s.regs.pc + 1
  | zeroPage => Nmos6502.zeroPage s.zz
  | zeroPageX => Nmos6502.zeroPage (s.zz + s.regs.x)
  | zeroPageY => Nmos6502.zeroPage (s.zz + s.regs.y)
  | absolute => s.absolute
  | absoluteX => s.absolute + s.regs.x.toUInt16
  | absoluteY => s.absolute + s.regs.y.toUInt16
  | indirect => s.word s.absolute (nextInPage s.absolute)
  | indexedIndirect => s.pointer (s.zz + s.regs.x)
  | indirectIndexed => s.pointer s.zz + s.regs.y.toUInt16

def operand (mode : AddressingMode) (s : State) : UInt8 :=
  match mode with
  | accumulator => s.regs.a
  | _ => s.memory (mode.address s)

end AddressingMode

/-- A branch offset is a signed byte. -/
def displacement (offset : UInt8) : UInt16 :=
  if offset < 128 then offset.toUInt16 else offset.toUInt16 - 256

/-- The registers with the program counter past the instruction. -/
def State.past (s : State) (mode : AddressingMode) : Registers :=
  { s.regs with pc := s.regs.pc + mode.length }

end Nmos6502.Isa
