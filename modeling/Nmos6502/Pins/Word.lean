import Nmos6502.Pins

/-! # The pin word

Pins packed into sixty-four bits. Packing loses nothing and every word is the packing of some
pins, so masks on the word are masks on the pins. -/

namespace Nmos6502.Pins

/-- The value of the word, line by line. -/
def packed (p : Pins) : Nat :=
  p.addr.toNat + 0x10000 * p.data.toNat + 0x1000000 * p.read.toNat + 0x2000000 * p.sync.toNat +
    0x4000000 * p.irq.toNat + 0x8000000 * p.nmi.toNat + 0x10000000 * p.rdy.toNat +
    0x20000000 * p.aec.toNat + 0x40000000 * p.spare.toNat + 0x100000000 * p.port.toNat +
    0x4000000000 * p.reserved.toNat

theorem packed_lt (p : Pins) : p.packed < 0x10000000000000000 := by
  have := p.addr.toNat_lt
  have := p.data.toNat_lt
  have := p.read.toNat_le
  have := p.sync.toNat_le
  have := p.irq.toNat_le
  have := p.nmi.toNat_le
  have := p.rdy.toNat_le
  have := p.aec.toNat_le
  have := p.spare.isLt
  have := p.port.isLt
  have := p.reserved.isLt
  unfold packed
  omega

def toWord (p : Pins) : UInt64 := UInt64.ofNat p.packed

def ofWord (w : UInt64) : Pins where
  addr := UInt16.ofNat w.toNat
  data := UInt8.ofNat (w.toNat / 0x10000)
  read := w.toNat / 0x1000000 % 2 == 1
  sync := w.toNat / 0x2000000 % 2 == 1
  irq := w.toNat / 0x4000000 % 2 == 1
  nmi := w.toNat / 0x8000000 % 2 == 1
  rdy := w.toNat / 0x10000000 % 2 == 1
  aec := w.toNat / 0x20000000 % 2 == 1
  spare := BitVec.ofNat 2 (w.toNat / 0x40000000)
  port := BitVec.ofNat 6 (w.toNat / 0x100000000)
  reserved := BitVec.ofNat 26 (w.toNat / 0x4000000000)

private theorem toNat_bit (n : Nat) : (n % 2 == 1).toNat = n % 2 := by
  rcases Nat.mod_two_eq_zero_or_one n with h | h <;> simp [h]

@[simp] theorem toWord_ofWord (w : UInt64) : (ofWord w).toWord = w := by
  apply UInt64.toNat_inj.1
  have hw := w.toNat_lt
  rw [toWord, UInt64.toNat_ofNat_of_lt' (packed_lt _)]
  simp only [packed, ofWord, toNat_bit, UInt16.toNat_ofNat', UInt8.toNat_ofNat', BitVec.toNat_ofNat]
  omega

private theorem bit_eq {b : Bool} {n : Nat} (h : n % 2 = b.toNat) : (n % 2 == 1) = b := by
  cases b <;> simp_all

@[simp] theorem ofWord_toWord (p : Pins) : ofWord p.toWord = p := by
  obtain ⟨addr, data, read, sync, irq, nmi, rdy, aec, spare, port, reserved⟩ := p
  have ha := addr.toNat_lt
  have hd := data.toNat_lt
  have h1 := read.toNat_le
  have h2 := sync.toNat_le
  have h3 := irq.toNat_le
  have h4 := nmi.toNat_le
  have h5 := rdy.toNat_le
  have h6 := aec.toNat_le
  have hs := spare.isLt
  have hp := port.isLt
  have hr := reserved.isLt
  have hw := packed_lt ⟨addr, data, read, sync, irq, nmi, rdy, aec, spare, port, reserved⟩
  simp only [toWord, ofWord, UInt64.toNat_ofNat_of_lt' hw, mk.injEq]
  simp only [packed]
  refine ⟨UInt16.toNat_inj.1 (by rw [UInt16.toNat_ofNat']; omega),
    UInt8.toNat_inj.1 (by rw [UInt8.toNat_ofNat']; omega),
    bit_eq (by omega), bit_eq (by omega), bit_eq (by omega), bit_eq (by omega),
    bit_eq (by omega), bit_eq (by omega), ?_, ?_, ?_⟩
  all_goals
    apply BitVec.eq_of_toNat_eq
    rw [BitVec.toNat_ofNat]
    omega

/-! ### Lines by mask -/

/-- A word with one bit set. -/
def line (n : Nat) : UInt64 := UInt64.ofNat (1 <<< n)

def rwLine : UInt64 := line 24
def syncLine : UInt64 := line 25
def irqLine : UInt64 := line 26
def nmiLine : UInt64 := line 27
def rdyLine : UInt64 := line 28
def aecLine : UInt64 := line 29

def portLines : UInt64 := 0x3F00000000

/-- The bits that stand for a pin. -/
def pinMask : UInt64 := 0xFFFFFFFFFF

def raise (lines : UInt64) (p : Pins) : Pins := ofWord (p.toWord ||| lines)

def lower (lines : UInt64) (p : Pins) : Pins := ofWord (p.toWord &&& ~~~lines)

def assign (lines : UInt64) (on : Bool) (p : Pins) : Pins :=
  if on then p.raise lines else p.lower lines

def anyHigh (lines : UInt64) (p : Pins) : Bool := p.toWord &&& lines != 0

/-- The pins with the given control lines, address and data; a line is high if either the control
word or the bus says so. -/
def ofBuses (control : UInt64) (addr : UInt16) (data : UInt8) : Pins :=
  ofWord (control ||| data.toUInt64 <<< 16 ||| addr.toUInt64)

end Nmos6502.Pins
