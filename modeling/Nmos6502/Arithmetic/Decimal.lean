import Nmos6502.Arithmetic.Binary

/-! # Decimal addition and subtraction

In decimal mode a byte holds two digits. Each digit is added or subtracted in binary and then
corrected by six when it leaves the range of a digit. The rules also fix the result and the flags
for bytes that are not two decimal digits: after an addition Z describes the binary sum and N and V
the high digit before its correction; after a subtraction all flags are those of the binary
difference. -/

namespace Nmos6502.Arithmetic

def lowDigit (b : UInt8) : Nat := b.toNat % 16

def highDigit (b : UInt8) : Nat := b.toNat / 16

/-! ### Addition -/

/-- A digit's sum, moved up to the next multiple of sixteen if it is above nine. -/
def carried (digit : Nat) : Nat := if 9 < digit then digit + 6 else digit

def lowSum (a v : UInt8) (carry : Bool) : Nat := lowDigit a + lowDigit v + carry.toNat

/-- The sum of the high digits and the carry out of the corrected low digit. -/
def highSum (a v : UInt8) (carry : Bool) : Nat :=
  highDigit a + highDigit v + (if 15 < carried (lowSum a v carry) then 1 else 0)

def addDecimal (a v : UInt8) (p : Status) : UInt8 × Status :=
  let low := carried (lowSum a v p.carry)
  let high := highSum a v p.carry
  let zero := (a.toNat + v.toNat + p.carry.toNat) % 256 == 0
  (UInt8.ofNat (carried high % 16 * 16 + low % 16), { p with
    zero := zero
    negative := !zero && high.testBit 3
    overflow := sign a == sign v && sign a != high.testBit 3
    carry := 15 < carried high
    unused := true })

/-! ### Subtraction -/

/-- A digit's difference, moved down by six if it is negative. -/
def borrowed (digit : Int) : Int := if digit < 0 then digit - 6 else digit

def lowDifference (a v : UInt8) (p : Status) : Int := lowDigit a - lowDigit v - borrow p

/-- The difference of the high digits, less the borrow of the low digit. -/
def highDifference (a v : UInt8) (p : Status) : Int :=
  highDigit a - highDigit v - (if lowDifference a v p < 0 then 1 else 0)

/-- The last four bits of a digit's difference. -/
def nibble (digit : Int) : Nat := (digit % 16).toNat

def subDecimal (a v : UInt8) (p : Status) : UInt8 × Status :=
  let low := borrowed (lowDifference a v p)
  let high := borrowed (highDifference a v p)
  let binary := difference a v p
  (UInt8.ofNat (nibble high * 16 + nibble low), { p.setNZ binary with
    carry := v.toNat + borrow p ≤ a.toNat
    overflow := sign a != sign v && sign a != sign binary })

end Nmos6502.Arithmetic
