/-! # Processor status

The status register P holds eight flags. Two of them have no storage in the chip: the break flag
exists only in the copies of P that reach the stack, and the unused bit reads as one, so every
write to P sets it again. A byte written into P as it stands may still hold any eight bits. -/

namespace Nmos6502

structure Status where
  negative : Bool
  overflow : Bool
  unused : Bool
  brk : Bool
  decimal : Bool
  irqDisable : Bool
  zero : Bool
  carry : Bool
deriving Repr, DecidableEq

/-- The sign bit of a byte. -/
def sign (b : UInt8) : Bool := 128 ≤ b.toNat

def bit (n : Nat) (b : UInt8) : Bool := b.toNat.testBit n

namespace Status

/-! ### The register as a byte -/

def carryBit : UInt8 := 0x01
def zeroBit : UInt8 := 0x02
def irqDisableBit : UInt8 := 0x04
def decimalBit : UInt8 := 0x08
def brkBit : UInt8 := 0x10
def unusedBit : UInt8 := 0x20
def overflowBit : UInt8 := 0x40
def negativeBit : UInt8 := 0x80

def toByte (p : Status) : UInt8 :=
  (if p.negative then negativeBit else 0) ||| (if p.overflow then overflowBit else 0) |||
    (if p.unused then unusedBit else 0) ||| (if p.brk then brkBit else 0) |||
    (if p.decimal then decimalBit else 0) ||| (if p.irqDisable then irqDisableBit else 0) |||
    (if p.zero then zeroBit else 0) ||| (if p.carry then carryBit else 0)

def ofByte (b : UInt8) : Status :=
  { negative := bit 7 b, overflow := bit 6 b, unused := bit 5 b, brk := bit 4 b
    decimal := bit 3 b, irqDisable := bit 2 b, zero := bit 1 b, carry := bit 0 b }

@[simp] theorem ofByte_toByte (p : Status) : ofByte p.toByte = p := by
  obtain ⟨n, v, u, b, d, i, z, c⟩ := p
  revert n v u b d i z c
  decide

private theorem toByte_ofByte_fin :
    ∀ n : Fin 256, (ofByte (UInt8.ofNat n)).toByte = UInt8.ofNat n := by
  decide +kernel

@[simp] theorem toByte_ofByte (b : UInt8) : (ofByte b).toByte = b := by
  have h := toByte_ofByte_fin ⟨b.toNat, b.toNat_lt⟩
  simpa using h

/-! ### Writes -/

/-- The register after a byte is written to it. -/
def write (b : UInt8) : Status := { ofByte b with unused := true }

def clear : Status := write 0

/-- The register at power on: interrupts are masked. -/
def powerOn : Status := write irqDisableBit

def raise (mask : UInt8) (p : Status) : Status := write (p.toByte ||| mask)

def lower (mask : UInt8) (p : Status) : Status := write (p.toByte &&& ~~~mask)

def assign (mask : UInt8) (on : Bool) (p : Status) : Status :=
  if on then p.raise mask else p.lower mask

def anySet (mask : UInt8) (p : Status) : Bool := p.toByte &&& mask != 0

def setCarry (on : Bool) (p : Status) : Status := { p with carry := on, unused := true }

def setOverflow (on : Bool) (p : Status) : Status := { p with overflow := on, unused := true }

def setDecimal (on : Bool) (p : Status) : Status := { p with decimal := on, unused := true }

def setIrqDisable (on : Bool) (p : Status) : Status := { p with irqDisable := on, unused := true }

/-- N and Z describe the given result. -/
def setNZ (result : UInt8) (p : Status) : Status :=
  { p with negative := sign result, zero := result == 0, unused := true }

/-! ### Copies on the stack -/

/-- The copy pushed by BRK and PHP. -/
def pushedByBreak (p : Status) : UInt8 := toByte { p with brk := true, unused := true }

/-- The copy pushed when an interrupt is taken. -/
def pushedByInterrupt (p : Status) : UInt8 := toByte { p with brk := false, unused := true }

/-- The register after PLP or RTI pulls a byte: the break flag is not stored. -/
def pulled (b : UInt8) : Status := { ofByte b with brk := false, unused := true }

theorem pulled_pushedByBreak (p : Status) :
    pulled p.pushedByBreak = { p with brk := false, unused := true } := by
  simp [pulled, pushedByBreak]

theorem pulled_pushedByInterrupt (p : Status) :
    pulled p.pushedByInterrupt = { p with brk := false, unused := true } := by
  simp [pulled, pushedByInterrupt]

end Status

end Nmos6502
