import Nmos6502.Fault
import Nmos6502.Trap

/-! # Breakpoints

A fixed number of slots, each of which may watch an address. As a trap, breakpoints stop a run at a
watched address with one plus the least slot that watches it. -/

namespace Nmos6502

structure Breakpoints where
  slots : Vector (Option UInt16) 8
deriving Repr, DecidableEq

namespace Breakpoints

def capacity : Nat := 8

def empty : Breakpoints := ⟨Vector.replicate 8 none⟩

/-- Put something into a slot, if there is such a slot. -/
def store (slot : Nat) (content : Option UInt16) (b : Breakpoints) : Except Fault Breakpoints :=
  if h : slot < 8 then .ok ⟨b.slots.set slot content h⟩ else .error (.slotOutOfRange slot)

def set (slot : Nat) (addr : UInt16) (b : Breakpoints) : Except Fault Breakpoints :=
  b.store slot (some addr)

def clear (slot : Nat) (b : Breakpoints) : Except Fault Breakpoints := b.store slot none

/-- The address that a slot watches; a slot that does not exist watches nothing. -/
def get? (slot : Nat) (b : Breakpoints) : Option UInt16 := b.slots[slot]?.join

def isEmpty (b : Breakpoints) : Bool := b.slots.toList.all (· == none)

/-- The identifier for an address: one plus the least slot that watches it, or zero. -/
def check (pc : UInt16) (b : Breakpoints) : Int32 :=
  match b.slots.toList.findIdx? (· == some pc) with
  | some slot => Int32.ofNat (slot + 1)
  | none => 0

/-- The breakpoints as a trap; asking does not change them. -/
def trap (b : Breakpoints) : Trap Unit := ⟨fun pc _ _ s => (b.check pc, s)⟩

end Breakpoints

end Nmos6502
