import Nmos6502.Status

/-! # Binary addition and subtraction

Bytes are added with the carry flag coming in, and subtracted with the complement of the carry flag
as borrow. C is the carry out of bit 7, or on a subtraction the absence of a borrow; V tells that
the result has the wrong sign for the signed operands. -/

namespace Nmos6502.Arithmetic

/-- What a subtraction takes away besides its operand: one unless the carry flag is set. -/
def borrow (p : Status) : Nat := if p.carry then 0 else 1

def difference (a v : UInt8) (p : Status) : UInt8 := a - v - UInt8.ofNat (borrow p)

def addBinary (a v : UInt8) (p : Status) : UInt8 × Status :=
  let sum := a.toNat + v.toNat + p.carry.toNat
  let result := UInt8.ofNat sum
  (result, { p.setNZ result with
    carry := 255 < sum
    overflow := sign a == sign v && sign a != sign result })

def subBinary (a v : UInt8) (p : Status) : UInt8 × Status :=
  let result := difference a v p
  (result, { p.setNZ result with
    carry := v.toNat + borrow p ≤ a.toNat
    overflow := sign a != sign v && sign a != sign result })

end Nmos6502.Arithmetic
