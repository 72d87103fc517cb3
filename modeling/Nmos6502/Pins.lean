import Nmos6502.Text.Digits

/-! # Pins

What the chip and its host exchange on every cycle: the address bus, the data bus, the control
lines, the six port lines and the reserved bits, which the chip hands back as it got them. The
same content packed into one 64-bit word is the host's format:

    bits  0..15  address bus          bit 27      NMI
    bits 16..23  data bus             bit 28      RDY
    bit  24      RW, one on a read    bit 29      AEC
    bit  25      SYNC                 bits 32..37 port lines
    bit  26      IRQ                  bits 30, 31 and 38..63 reserved -/

namespace Nmos6502

structure Pins where
  addr : UInt16
  data : UInt8
  /-- The RW line: high on a read, low on a write. -/
  read : Bool
  /-- High on the cycle that fetches an opcode. -/
  sync : Bool
  irq : Bool
  nmi : Bool
  /-- High in the answer to a read: the read is to be repeated. -/
  rdy : Bool
  aec : Bool
  spare : BitVec 2
  port : BitVec 6
  reserved : BitVec 26
deriving Repr, DecidableEq

namespace Pins

def low : Pins := ⟨0, 0, false, false, false, false, false, false, 0, 0, 0⟩

/-- All lines low but RW. -/
def reading : Pins := { low with read := true }

def write (p : Pins) : Bool := !p.read

def portByte (p : Pins) : UInt8 := UInt8.ofNat p.port.toNat

/-- Put a byte on the port lines; its two high bits have no line. -/
def setPort (value : UInt8) (p : Pins) : Pins := { p with port := BitVec.ofNat 6 value.toNat }

@[simp] theorem portByte_setPort (value : UInt8) (p : Pins) :
    (p.setPort value).portByte = UInt8.ofNat (value.toNat % 64) := by
  simp [portByte, setPort]

/-- Whether the address is one of the two that the on-chip port answers. -/
def isPortAccess (p : Pins) : Bool := p.addr.toNat ≤ 1

/-! ### Text -/

/-- The names of the control lines that are high, each after a blank. -/
def lineNames (p : Pins) : String :=
  String.join <| [(p.sync, " SYNC"), (p.irq, " IRQ"), (p.nmi, " NMI"), (p.rdy, " RDY"),
    (p.aec, " AEC")].map fun (on, name) => if on then name else ""

def text (p : Pins) : String :=
  "Pins \x7b addr: " ++ Text.hexAddress p.addr ++ ", data: " ++ Text.hexByte p.data ++ ", " ++
    (if p.read then "R" else "W") ++ p.lineNames ++
    (if p.port = 0 then "" else ", port: %" ++ Text.binary 6 p.port.toNat) ++ " \x7d"

end Pins

end Nmos6502
