import Nmos6502.Address
import Nmos6502.Status
import Nmos6502.Text.Record

/-! # Registers

The accumulator A, the index registers X and Y, the stack pointer S, the program counter and the
status register. S points at the next free byte of page one and wraps inside it. -/

namespace Nmos6502

structure Registers where
  a : UInt8
  x : UInt8
  y : UInt8
  s : UInt8
  pc : UInt16
  p : Status
deriving Repr, DecidableEq

namespace Registers

def powerOn : Registers := ⟨0, 0, 0, 0xFD, 0, Status.powerOn⟩

/-- The registers once a byte has been pushed; the byte goes to `stackAddress` of the old S. -/
def push (r : Registers) : Registers := { r with s := r.s - 1 }

/-- The registers ready to pull a byte, which lies at `stackAddress` of the new S. -/
def pull (r : Registers) : Registers := { r with s := r.s + 1 }

/-- The program counter moves past a byte. -/
def advance (r : Registers) : Registers := { r with pc := r.pc + 1 }

@[simp] theorem pull_push (r : Registers) : r.push.pull = r := by
  simp [push, pull]

def text (r : Registers) : String :=
  Text.record "Registers"
    [("a", toString r.a.toNat), ("x", toString r.x.toNat), ("y", toString r.y.toNat),
      ("s", toString r.s.toNat), ("pc", toString r.pc.toNat),
      ("p", "Status(" ++ toString r.p.toByte.toNat ++ ")")]

end Registers

end Nmos6502
