import Nmos6502.Notice
import Nmos6502.Pins

/-! # Hosts

A host is everything outside the chip: memory, other chips, interrupt sources. It has a state of
its own. On every cycle it is handed the pins that the chip drives and answers with the pins at the
end of the cycle: on a read the data bus carries the byte read, IRQ and NMI stand for the interrupt
lines, and RDY holds a read for another cycle. Notices tell it what the machine has done. -/

namespace Nmos6502

structure Host (σ : Type) where
  tick : Pins → σ → Pins × σ
  note : Notice → σ → σ := fun _ s => s

/-- A host with something on the six lines of the on-chip port. -/
structure PortHost (σ : Type) extends Host σ where
  /-- The level that the outside puts on the port lines. -/
  portInput : σ → UInt8 × σ
  /-- The port has been written; the byte is what it puts on its lines. -/
  portOutput : UInt8 → σ → σ

/-- Tell the host what has happened, if anything. -/
def Host.noteAny {σ : Type} (host : Host σ) (notice : Option Notice) (s : σ) : σ :=
  match notice with
  | some n => host.note n s
  | none => s

end Nmos6502
