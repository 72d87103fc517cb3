/-! # Variants

What is fixed when a machine is built: whether the chip has a decimal adder, and how the board
around the port lines is wired. -/

namespace Nmos6502

structure Variant where
  /-- The flag D makes the chip add and subtract in decimal. -/
  decimalAdder : Bool := true
  /-- The port lines that a resistor pulls high. -/
  pullup : UInt8 := 0
  /-- The port lines that keep the level last driven on them. -/
  floating : UInt8 := 0
deriving Repr, DecidableEq

namespace Variant

def plain : Variant := {}

/-- A chip without a decimal adder. -/
def ricoh2A03 : Variant := { decimalAdder := false }

/-- The wiring of a C64: lines 0 to 2 and 4 are pulled up, line 3 and the two bits without a line
float. -/
def c64 : Variant := { pullup := 0x17, floating := 0xC8 }

end Variant

end Nmos6502
