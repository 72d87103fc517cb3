import Nmos6502.Arithmetic.Decimal
import Nmos6502.Arithmetic.Shift

/-! # Arithmetic on the accumulator

Addition, subtraction and the masked rotation ARR work in decimal when the chip has a decimal adder
and the flag D is set; otherwise in binary. -/

namespace Nmos6502.Arithmetic

def isDecimal (adder : Bool) (p : Status) : Bool := adder && p.decimal

def add (adder : Bool) (a v : UInt8) (p : Status) : UInt8 × Status :=
  if isDecimal adder p then addDecimal a v p else addBinary a v p

def sub (adder : Bool) (a v : UInt8) (p : Status) : UInt8 × Status :=
  if isDecimal adder p then subDecimal a v p else subBinary a v p

/-- A digit after ARR: six is added, without a carry, if the masked digit was five or more. -/
def rotatedDigit (masked rotated : Nat) : Nat :=
  if 5 ≤ masked then (rotated + 6) % 16 else rotated

/-- ARR masks the accumulator and rotates it right through the carry. N and Z describe the rotated
byte. C and V come out of the adder: in binary they follow bits 6 and 5 of the rotated byte, in
decimal C follows the high digit before the rotation and V the change of bit 6. -/
def maskRotate (adder : Bool) (a v : UInt8) (p : Status) : UInt8 × Status :=
  let masked := a &&& v
  let rotated := Shift.ror.result masked p.carry
  if isDecimal adder p then
    (UInt8.ofNat (rotatedDigit (highDigit masked) (highDigit rotated) * 16 +
        rotatedDigit (lowDigit masked) (lowDigit rotated)), { p.setNZ rotated with
      carry := 5 ≤ highDigit masked
      overflow := bit 6 rotated != bit 6 masked })
  else
    (rotated, { p.setNZ rotated with
      carry := bit 6 rotated
      overflow := bit 6 rotated != bit 5 rotated })

end Nmos6502.Arithmetic
