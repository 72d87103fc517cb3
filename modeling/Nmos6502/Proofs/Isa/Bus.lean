import Nmos6502.Proofs.Isa.Addressing

/-! # The bus during an instruction

Every cycle of an instruction is an access to the bus, and most opcodes say in their bits which: the
five low bits give the addressing mode, the three high bits and the two low bits what is done with
the operand. -/

namespace Nmos6502.Isa

namespace AddressingMode

/-- The reads of the bytes after the opcode and of a pointer. -/
def fetches (mode : AddressingMode) (s : State) : List Access :=
  match mode with
  | implied | accumulator | immediate | relative | zeroPage => [.read (s.regs.pc + 1)]
  | zeroPageX | zeroPageY => [.read (s.regs.pc + 1), .read (Nmos6502.zeroPage s.zz)]
  | absolute | absoluteX | absoluteY | indirect =>
    [.read (s.regs.pc + 1), .read (s.regs.pc + 2)]
  | indexedIndirect =>
    [.read (s.regs.pc + 1), .read (Nmos6502.zeroPage s.zz),
      .read (Nmos6502.zeroPage (s.zz + s.regs.x)), .read (Nmos6502.zeroPage (s.zz + s.regs.x + 1))]
  | indirectIndexed =>
    [.read (s.regs.pc + 1), .read (Nmos6502.zeroPage s.zz), .read (Nmos6502.zeroPage (s.zz + 1))]

/-- An index may carry into the page of the address. -/
def mayCross : AddressingMode → Bool
  | absoluteX | absoluteY | indirectIndexed => true
  | _ => false

/-- The address before such an index is added. -/
def base (mode : AddressingMode) (s : State) : UInt16 :=
  match mode with
  | absoluteX | absoluteY => s.absolute
  | indirectIndexed => s.pointer s.zz
  | _ => mode.address s

def crosses (mode : AddressingMode) (s : State) : Bool :=
  highByte (mode.base s) != highByte (mode.address s)

/-- The low byte of the address in the page of the base. -/
def unfixed (mode : AddressingMode) (s : State) : UInt16 :=
  addressOf (lowByte (mode.address s)) (highByte (mode.base s))

/-- The read in the page of the base: always, or only when the index carries. -/
def correction (mode : AddressingMode) (always : Bool) (s : State) : List Access :=
  if mode.mayCross && (always || mode.crosses s) then [.read (mode.unfixed s)] else []

end AddressingMode

/-! ### What the bits of an opcode say -/

def jams : List UInt8 := [0x02, 0x12, 0x22, 0x32, 0x42, 0x52, 0x62, 0x72, 0x92, 0xB2, 0xD2, 0xF2]

/-- The addressing mode of a column of the opcode matrix. Where X is loaded or stored, Y is the
index. -/
def column (op : UInt8) : AddressingMode :=
  match op.toNat % 32 with
  | 0x00 | 0x02 | 0x09 | 0x0B => .immediate
  | 0x01 | 0x03 => .indexedIndirect
  | 0x04 | 0x05 | 0x06 | 0x07 => .zeroPage
  | 0x0C | 0x0D | 0x0E | 0x0F => .absolute
  | 0x10 => .relative
  | 0x11 | 0x13 => .indirectIndexed
  | 0x14 | 0x15 => .zeroPageX
  | 0x16 | 0x17 => if op.toNat / 64 = 2 then .zeroPageY else .zeroPageX
  | 0x19 | 0x1B => .absoluteY
  | 0x1C | 0x1D => .absoluteX
  | 0x1E | 0x1F => if op.toNat / 64 = 2 then .absoluteY else .absoluteX
  | _ => .implied

inductive Traffic where
  | read
  | write
  | modify
deriving Repr, DecidableEq

def traffic (op : UInt8) : Traffic :=
  if op.toNat / 32 = 4 then .write
  else if op.toNat / 32 = 5 ∨ op.toNat % 4 < 2 then .read
  else .modify

def stored (op : UInt8) (r : Registers) : UInt8 :=
  match op.toNat % 4 with
  | 0 => r.y
  | 1 => r.a
  | 2 => r.x
  | _ => r.a &&& r.x

/-- SHA, TAS, SHY and SHX: the high byte of the address takes part in what is stored. -/
def unstable (op : UInt8) : Bool := op ∈ [0x93, 0x9B, 0x9C, 0x9E, 0x9F]

def modified (op v : UInt8) (carry : Bool) : UInt8 :=
  match op.toNat / 32 with
  | 0 => v <<< 1
  | 1 => v <<< 1 ||| (if carry then 0x01 else 0)
  | 2 => v >>> 1
  | 3 => v >>> 1 ||| (if carry then 0x80 else 0)
  | 6 => v - 1
  | _ => v + 1

def taken (op : UInt8) (p : Status) : Bool :=
  let flag := match op.toNat / 64 with
    | 0 => p.negative
    | 1 => p.overflow
    | 2 => p.carry
    | _ => p.zero
  flag == (op.toNat / 32 % 2 == 1)

/-! ### Traces -/

inductive Pattern where
  /-- Registers only, or an operand that follows the opcode. -/
  | single
  | memory (mode : AddressingMode)
  | branch
  | push
  | pull
  | brk
  | jsr
  | rts
  | rti
  | jmp
  | jmpIndirect
deriving Repr, DecidableEq

def pattern (op : UInt8) : Pattern :=
  match op.toNat with
  | 0x00 => .brk
  | 0x20 => .jsr
  | 0x40 => .rti
  | 0x60 => .rts
  | 0x08 | 0x48 => .push
  | 0x28 | 0x68 => .pull
  | 0x4C => .jmp
  | 0x6C => .jmpIndirect
  | _ =>
    match column op with
    | .relative => .branch
    | .implied | .immediate => .single
    | mode => .memory mode

def operandAccesses (op : UInt8) (mode : AddressingMode) (s : State) : List Access :=
  let a := mode.address s
  let v := stored op s.regs
  let masked := v &&& (highByte (mode.base s) + 1)
  match traffic op with
  | .read => [.read a]
  | .write =>
    if unstable op then
      [.write (if mode.crosses s then addressOf (lowByte a) masked else a) masked]
    else [.write a v]
  | .modify =>
    [.read a, .write a (s.memory a), .write a (modified op (s.memory a) s.regs.p.carry)]

/-- The accesses after the opcode has been read. -/
def accesses (op : UInt8) (s : State) : List Access :=
  let pc := s.regs.pc
  let sp := s.regs.s
  let status := { s.regs.p with brk := true, unused := true }.toByte
  match pattern op with
  | .single => [.read (pc + 1)]
  | .memory mode =>
    mode.fetches s ++ mode.correction (traffic op != .read) s ++ operandAccesses op mode s
  | .branch =>
    let target := pc + 2 + displacement s.zz
    if taken op s.regs.p then
      if highByte target = highByte (pc + 2) then [.read (pc + 1), .read (pc + 2)]
      else [.read (pc + 1), .read (pc + 2),
        .read (addressOf (lowByte target) (highByte (pc + 2)))]
    else [.read (pc + 1)]
  | .push =>
    [.read (pc + 1), .write (stackAddress sp) (if op = 0x08 then status else s.regs.a)]
  | .pull => [.read (pc + 1), .read (stackAddress sp), .read (stackAddress (sp + 1))]
  | .brk =>
    [.read (pc + 1), .write (stackAddress sp) (highByte (pc + 2)),
      .write (stackAddress (sp - 1)) (lowByte (pc + 2)), .write (stackAddress (sp - 2)) status,
      .read 0xFFFE, .read 0xFFFF]
  | .jsr =>
    [.read (pc + 1), .read (stackAddress sp), .write (stackAddress sp) (highByte (pc + 2)),
      .write (stackAddress (sp - 1)) (lowByte (pc + 2)), .read (pc + 2)]
  | .rts =>
    [.read (pc + 1), .read (stackAddress sp), .read (stackAddress (sp + 1)),
      .read (stackAddress (sp + 2)),
      .read (s.word (stackAddress (sp + 1)) (stackAddress (sp + 2)))]
  | .rti =>
    [.read (pc + 1), .read (stackAddress sp), .read (stackAddress (sp + 1)),
      .read (stackAddress (sp + 2)), .read (stackAddress (sp + 3))]
  | .jmp => [.read (pc + 1), .read (pc + 2)]
  | .jmpIndirect =>
    [.read (pc + 1), .read (pc + 2), .read s.absolute, .read (nextInPage s.absolute)]

/-- All accesses of the instruction at the program counter. -/
def busTrace (s : State) : List Access :=
  .read s.regs.pc :: accesses (s.memory s.regs.pc) s

end Nmos6502.Isa
