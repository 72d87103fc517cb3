import Nmos6502.Pins

/-! # Traps

A trap is asked at the end of every instruction of a run whether to stop. It has a state of its own.
It is given the address of the next instruction, the cycles of the run so far and the pins, and
answers zero to go on or an identifier to stop. -/

namespace Nmos6502

structure Trap (τ : Type) where
  ask : (pc : UInt16) → (ticks : UInt32) → Pins → τ → Int32 × τ

/-- The trap that never stops a run. -/
def Trap.never : Trap Unit := ⟨fun _ _ _ s => (0, s)⟩

end Nmos6502
