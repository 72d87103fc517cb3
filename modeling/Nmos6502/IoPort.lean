import Nmos6502.Fault
import Nmos6502.Host
import Nmos6502.Text.Record
import Nmos6502.Variant

/-! # The on-chip port

Six lines of the 6510 are driven by a direction register at address 0 (a one makes the line an
output) and an output register at address 1. An input line takes its level from the outside. A
floating line that is an input also reads as high if the level last driven on it was high. -/

namespace Nmos6502

structure IoPort where
  direction : UInt8
  output : UInt8
  /-- The level of the lines when they were last sampled. -/
  input : UInt8
  /-- The level on the pins. -/
  pins : UInt8
  /-- The level last driven on each line. -/
  drive : UInt8
  pullup : UInt8
  floating : UInt8
deriving Repr, DecidableEq

namespace IoPort

def powerOn (variant : Variant) : IoPort :=
  ⟨0, 0, 0, 0, 0, variant.pullup, variant.floating⟩

def reset (port : IoPort) : IoPort :=
  { port with direction := 0, output := 0, input := 0, pins := 0 }

/-! ### Registers -/

/-- What the port shows to the outside: outputs as driven, inputs as pulled up. -/
def shown (port : IoPort) : UInt8 :=
  (port.output &&& port.direction) ||| (port.pullup &&& ~~~port.direction)

/-- The port with its pins at the level of the outputs and the sampled inputs. -/
def setLevel (port : IoPort) : IoPort :=
  { port with
    pins := (port.output &&& port.direction) ||| (port.input &&& ~~~port.direction) }

/-- The port with the level of its outputs remembered. -/
def setDrive (port : IoPort) : IoPort :=
  { port with
    drive := (port.output &&& port.direction) ||| (port.drive &&& ~~~port.direction) }

def writeDirection (v : UInt8) (port : IoPort) : IoPort :=
  { port with direction := v }.setDrive.setLevel

def writeOutput (v : UInt8) (port : IoPort) : IoPort :=
  { port with output := v }.setDrive.setLevel

def sample (level : UInt8) (port : IoPort) : IoPort := { port with input := level }.setLevel

/-- What a read of the output register gives. -/
def lines (port : IoPort) : UInt8 :=
  ((port.input ||| (port.floating &&& port.drive)) &&& ~~~port.direction) |||
    (port.output &&& port.direction)

/-! ### Accesses -/

variable {σ : Type}

/-- Answer an access, at an odd address to the output register and at an even one to the direction
register, without a notice. -/
def serve (host : PortHost σ) (access : Pins) (port : IoPort) (s : σ) : Pins × IoPort × σ :=
  if access.addr % 2 = 0 then
    if access.read then ({ access with data := port.direction }, port, s)
    else
      let port := port.writeDirection access.data
      (access, port, host.portOutput port.shown s)
  else
    if access.read then
      let (level, s) := host.portInput s
      let port := port.sample level
      ({ access with data := port.lines }, port, s)
    else
      let port := port.writeOutput access.data
      (access, port, host.portOutput port.shown s)

def answer (host : PortHost σ) (access : Pins) (port : IoPort) (s : σ) : Pins × IoPort × σ :=
  let (pins, port, s) := port.serve host access s
  (pins, port, host.note (.portAccess port.direction port.output port.pins) s)

/-- Answer an access if its address belongs to the port. -/
def request (host : PortHost σ) (access : Pins) (port : IoPort) (s : σ) :
    Except Fault (Pins × IoPort × σ) :=
  if access.isPortAccess then .ok (port.answer host access s) else .error .notPortAccess

def text (port : IoPort) : String :=
  Text.record "IoPort" <|
    [("ddr", port.direction), ("out", port.output), ("inp", port.input), ("pins", port.pins),
      ("drive", port.drive), ("pullup", port.pullup), ("floating", port.floating)].map
    fun (name, v) => (name, toString v.toNat)

end IoPort

end Nmos6502
