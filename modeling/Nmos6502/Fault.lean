/-! # Faults

A fault is a call that the machine refuses: a breakpoint slot that does not exist, a port access at
an address that is not the port's, a clock that has run out of room, a sum that does not fit its
word, or a program position past the program's end. -/

namespace Nmos6502

inductive Fault where
  | slotOutOfRange (slot : Nat)
  | notPortAccess
  | clockOverflow
  /-- A sum needs more than this many bits. -/
  | sumOverflow (bits : Nat)
  | pastProgramEnd (length position : Nat)
deriving Repr, DecidableEq

def Fault.message : Fault → String
  | .slotOutOfRange slot => s!"breakpoint slot {slot} out of range"
  | .notPortAccess => "assertion failed: pins.is_port_access()"
  | .clockOverflow | .sumOverflow _ => "attempt to add with overflow"
  | .pastProgramEnd length position =>
    s!"index out of bounds: the len is {length} but the index is {position}"

end Nmos6502
