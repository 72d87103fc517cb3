/-! # Addresses as pairs of bytes

The address bus is sixteen bits wide and is loaded a byte at a time, so addresses are taken apart
into a high and a low byte and put together again. -/

namespace Nmos6502

def lowByte (a : UInt16) : UInt8 := a.toUInt8

def highByte (a : UInt16) : UInt8 := (a / 256).toUInt8

def addressOf (low high : UInt8) : UInt16 := high.toUInt16 * 256 + low.toUInt16

theorem toNat_lowByte (a : UInt16) : (lowByte a).toNat = a.toNat % 256 := rfl

theorem toNat_highByte (a : UInt16) : (highByte a).toNat = a.toNat / 256 := by
  have h := a.toNat_lt
  simp only [highByte, UInt16.toNat_toUInt8, UInt16.toNat_div, UInt16.reduceToNat]
  omega

theorem toNat_addressOf (low high : UInt8) :
    (addressOf low high).toNat = high.toNat * 256 + low.toNat := by
  have hl := low.toNat_lt
  have hh := high.toNat_lt
  simp only [addressOf, UInt16.toNat_add, UInt16.toNat_mul, UInt8.toNat_toUInt16,
    UInt16.reduceToNat]
  omega

@[simp] theorem lowByte_addressOf (low high : UInt8) : lowByte (addressOf low high) = low := by
  apply UInt8.toNat_inj.1
  have hl := low.toNat_lt
  rw [toNat_lowByte, toNat_addressOf]
  omega

@[simp] theorem highByte_addressOf (low high : UInt8) : highByte (addressOf low high) = high := by
  apply UInt8.toNat_inj.1
  have hl := low.toNat_lt
  rw [toNat_highByte, toNat_addressOf]
  omega

@[simp] theorem addressOf_bytes (a : UInt16) : addressOf (lowByte a) (highByte a) = a := by
  apply UInt16.toNat_inj.1
  rw [toNat_addressOf, toNat_highByte, toNat_lowByte]
  omega

/-- The following address in the same page: the carry out of the low byte is dropped. -/
def nextInPage (a : UInt16) : UInt16 := addressOf (lowByte a + 1) (highByte a)

def zeroPage (low : UInt8) : UInt16 := addressOf low 0

/-- The stack lives in page one. -/
def stackAddress (s : UInt8) : UInt16 := addressOf s 1

/-- A branch offset runs from -128 to 127. -/
def signExtend (offset : UInt8) : UInt16 :=
  if offset < 128 then addressOf offset 0 else addressOf offset 0xFF

def samePage (a b : UInt16) : Bool := highByte a == highByte b

end Nmos6502
