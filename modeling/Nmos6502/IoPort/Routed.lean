import Nmos6502.IoPort

/-! # The port between processor and host

The processor of a 6510 sees its host through the on-chip port. -/

namespace Nmos6502

/-- The host as the processor of a 6510 sees it. The port lines are put on the pins, the host sees
every cycle, and the port answers the accesses that are its own: writes at once, reads when they
are not held. -/
def PortHost.routed {σ : Type} (host : PortHost σ) : Host (IoPort × σ) where
  tick pins := fun (port, s) =>
    let (answer, s) := host.tick (pins.setPort port.pins) s
    let (answer, port, s) :=
      if answer.isPortAccess && (answer.write || !answer.rdy) then port.answer host answer s
      else (answer, port, s)
    (answer.setPort port.pins, port, s)
  note notice := fun (port, s) => (port, host.note notice s)

end Nmos6502
