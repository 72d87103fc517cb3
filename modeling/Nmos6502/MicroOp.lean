import Nmos6502.Instruction

/-! # Micro-operations

After its opcode has been fetched an instruction is a program of micro-operations, one bus cycle
each. The machine keeps its place in the program between cycles. Two latches carry data from one
cycle to the next: the address latch and the operand latch. -/

namespace Nmos6502

inductive Pushed where
  | pcHigh
  | pcLow
  | accumulator
  /-- The status register with the break flag set. -/
  | statusBreak
  /-- The status register with the break flag clear. -/
  | statusInterrupt
deriving Repr, DecidableEq

inductive MicroOp where
  /-- Read the opcode and move past it. Never part of a program. -/
  | fetchOpcode
  /-- Read PC and discard the byte. -/
  | discard
  | implied (op : RegisterOp)
  | accumulator (op : Shift)
  | immediate (op : ReadOp)
  /-- Read a byte and move past it. -/
  | skip
  | addressLow
  | addressHigh
  | addressHighIndexed (index : Index)
  /-- Read the address, discard the byte, add the index inside page zero. -/
  | indexZeroPage (index : Index)
  /-- Read the low byte of a pointer into the operand latch. -/
  | pointerLow
  /-- Read the high byte of a pointer, in the same page: the address is the pointer. -/
  | pointerHigh
  | pointerHighIndexed (index : Index)
  /-- Read the address before its page was corrected; takes no cycle if the page is right. -/
  | fixPageIfCrossed
  | fixPage
  | read (op : ReadOp)
  | write (op : StoreOp)
  /-- Read the address into the operand latch. -/
  | modifyRead
  /-- Write the operand latch back as it is, then modify it. -/
  | modifyHold (op : ModifyOp)
  | modifyWrite
  | peekStack
  | push (what : Pushed)
  | pullAccumulator
  | pullStatus
  | pullPcLow
  | pullPcHigh
  /-- Read the high byte of the target: PC is the target. -/
  | jump
  /-- Read the high byte of the target through the address, in the same page. -/
  | jumpIndirect
  /-- Read the low byte of the vector and mask interrupts. -/
  | vectorLow
  | vectorHigh
  /-- Read the branch offset; the instruction ends here if the branch is not taken. -/
  | branchOffset (condition : Condition)
  /-- Discard a byte and add the offset; the instruction ends here inside a page. -/
  | branchTaken
  /-- Discard a byte from the uncorrected page: PC is the target. -/
  | branchFixPage
  | jam
  /-- A cycle of the locked machine. Never part of a program. -/
  | stuck
deriving Repr, DecidableEq

/-- The micro-operations that leave the operand's address in the address latch. `correction` is what
deals with an index that carries into the page. -/
def Mode.program (correction : MicroOp) : Mode → List MicroOp
  | zp => [.addressLow]
  | zpx => [.addressLow, .indexZeroPage .x]
  | zpy => [.addressLow, .indexZeroPage .y]
  | abs => [.addressLow, .addressHigh]
  | abx => [.addressLow, .addressHighIndexed .x, correction]
  | aby => [.addressLow, .addressHighIndexed .y, correction]
  | izx => [.addressLow, .indexZeroPage .x, .pointerLow, .pointerHigh]
  | izy => [.addressLow, .pointerLow, .pointerHighIndexed .y, correction]

namespace Instruction

/-- The program that follows the opcode. -/
def program : Instruction → List MicroOp
  | implied op => [.implied op]
  | accumulator op => [.accumulator op]
  | immediate op => [.immediate op]
  | read op mode => mode.program .fixPageIfCrossed ++ [.read op]
  | store op mode => mode.program .fixPage ++ [.write op]
  | modify op mode => mode.program .fixPage ++ [.modifyRead, .modifyHold op, .modifyWrite]
  | branch condition => [.branchOffset condition, .branchTaken, .branchFixPage]
  | pha => [.discard, .push .accumulator]
  | php => [.discard, .push .statusBreak]
  | pla => [.discard, .peekStack, .pullAccumulator]
  | plp => [.discard, .peekStack, .pullStatus]
  | brk => [.skip, .push .pcHigh, .push .pcLow, .push .statusBreak, .vectorLow, .vectorHigh]
  | jsr => [.addressLow, .peekStack, .push .pcHigh, .push .pcLow, .jump]
  | rts => [.discard, .peekStack, .pullPcLow, .pullPcHigh, .skip]
  | rti => [.discard, .peekStack, .pullStatus, .pullPcLow, .pullPcHigh]
  | jmp => [.addressLow, .jump]
  | jmpIndirect => [.addressLow, .addressHigh, .pointerLow, .jumpIndirect]
  | jam => [.jam]

/-- Interrupts are polled at the end of every instruction but BRK. -/
def polls (i : Instruction) : Bool := i != brk

end Instruction

/-- The program that takes an interrupt, in place of an opcode fetch. -/
def interruptProgram : List MicroOp :=
  [.discard, .discard, .push .pcHigh, .push .pcLow, .push .statusInterrupt, .vectorLow, .vectorHigh]

end Nmos6502
