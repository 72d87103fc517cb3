import Nmos6502.Instruction
import Nmos6502.Status

/-! # Shifts, comparisons and bit tests

A shift moves a byte by one bit. The bit that leaves the byte goes to C; a rotation takes the old C
in at the other end. -/

namespace Nmos6502

namespace Shift

def bitOut (v : UInt8) : Shift → Bool
  | asl | rol => bit 7 v
  | lsr | ror => bit 0 v

def result (v : UInt8) (carry : Bool) : Shift → UInt8
  | asl => v <<< 1
  | lsr => v >>> 1
  | rol => v <<< 1 ||| (if carry then 0x01 else 0)
  | ror => v >>> 1 ||| (if carry then 0x80 else 0)

def apply (shift : Shift) (v : UInt8) (p : Status) : UInt8 × Status :=
  let result := shift.result v p.carry
  (result, { p.setNZ result with carry := shift.bitOut v })

end Shift

namespace Arithmetic

/-- The flags of a register compared with an operand: those of their difference, V apart. -/
def compare (register v : UInt8) (p : Status) : Status :=
  { p.setNZ (register - v) with carry := v ≤ register }

/-- BIT takes Z from the masked operand and N and V from the operand's two high bits. -/
def bitTest (a v : UInt8) (p : Status) : Status :=
  { p with zero := a &&& v == 0, negative := bit 7 v, overflow := bit 6 v, unused := true }

end Arithmetic

end Nmos6502
