import Nmos6502.Cpu.Inspect
import Nmos6502.Cpu.Run
import Nmos6502.IoPort.Routed

/-! # The 6510

A processor with the on-chip port at addresses 0 and 1. -/

namespace Nmos6502

structure Mos6510 where
  cpu : Cpu
  port : IoPort
deriving Repr, DecidableEq

namespace Mos6510

variable {σ τ : Type}

def powerOn (variant : Variant) : Mos6510 :=
  ⟨Cpu.powerOn variant, IoPort.powerOn variant⟩

/-- Reset the port and the processor. The two reads of a reset do not go through the port. -/
def reset (host : PortHost σ) (m : Mos6510) (s : σ) : Mos6510 × σ :=
  let (cpu, s) := m.cpu.reset host.toHost s
  (⟨cpu, m.port.reset⟩, s)

def tick (patience : Nat) (host : PortHost σ) (m : Mos6510) (s : σ) :
    Except Stop (Mos6510 × σ) :=
  match m.cpu.tick patience host.routed (m.port, s) with
  | .error stop => .error stop
  | .ok (cpu, port, s) => .ok (⟨cpu, port⟩, s)

def execute (fuel : Nat) (host : PortHost σ) (trap : Trap τ) (budget : UInt32) (m : Mos6510)
    (s : σ) (t : τ) : Except Stop (Mos6510 × σ × τ) :=
  match m.cpu.execute fuel host.routed trap budget (m.port, s) t with
  | .error stop => .error stop
  | .ok (cpu, (port, s), t) => .ok (⟨cpu, port⟩, s, t)

/-- An access to the port from outside, between cycles. -/
def request (host : PortHost σ) (access : Pins) (m : Mos6510) (s : σ) :
    Except Fault (Pins × Mos6510 × σ) :=
  (m.port.request host access s).map fun (pins, port, s) => (pins, { m with port := port }, s)

/-! ### Inspection -/

def portProperties : List (String × (IoPort → Value)) :=
  [("port.ddr", fun port => .byte port.direction),
    ("port.out", fun port => .byte port.output),
    ("port.inp", fun port => .byte port.input),
    ("port.pins", fun port => .byte port.pins),
    ("port.drive", fun port => .byte port.drive)]

def paths : List String := Cpu.paths ++ portProperties.map (·.1)

def query? (path : String) (m : Mos6510) : Option Value :=
  match portProperties.lookup path with
  | some property => some (property m.port)
  | none => m.cpu.query? path

def text (hasTrap : Bool) (m : Mos6510) : String :=
  Text.record "M6510" [("cpu", m.cpu.text hasTrap), ("port", m.port.text)]

end Mos6510

end Nmos6502
