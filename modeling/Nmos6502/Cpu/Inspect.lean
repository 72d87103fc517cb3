import Nmos6502.Cpu.State
import Nmos6502.Pins.Word
import Nmos6502.Text.Record
import Nmos6502.Value

/-! # Inspection

Named properties of the processor, and the text of its whole state. Inspection changes nothing. -/

namespace Nmos6502

def Phase.text : Phase → String
  | fetch => "Fetch"
  | execute => "Execute"
  | jammed => "Jammed"

def Instruction.text (i : Instruction) : String :=
  Text.record "Instr" [("op", i.opName), ("mode", i.modeName)]

/-- The control lines by name, and the port lines as one byte. -/
def Pins.lines (p : Pins) : Value :=
  .list [("rw", .flag p.read), ("sync", .flag p.sync), ("irq", .flag p.irq), ("nmi", .flag p.nmi),
    ("rdy", .flag p.rdy), ("aec", .flag p.aec), ("port", .byte p.portByte)]

namespace Cpu

/-- The properties by path. -/
def properties : List (String × (Cpu → Value)) :=
  [("pc", fun cpu => .address cpu.regs.pc),
    ("a", fun cpu => .byte cpu.regs.a),
    ("x", fun cpu => .byte cpu.regs.x),
    ("y", fun cpu => .byte cpu.regs.y),
    ("s", fun cpu => .byte cpu.regs.s),
    ("p", fun cpu => .byte cpu.regs.p.toByte),
    ("flags.c", fun cpu => .flag cpu.regs.p.carry),
    ("flags.z", fun cpu => .flag cpu.regs.p.zero),
    ("flags.i", fun cpu => .flag cpu.regs.p.irqDisable),
    ("flags.d", fun cpu => .flag cpu.regs.p.decimal),
    ("flags.v", fun cpu => .flag cpu.regs.p.overflow),
    ("flags.n", fun cpu => .flag cpu.regs.p.negative),
    ("cycle", fun cpu => .word (UInt64.ofNat cpu.total.count)),
    ("halted", fun cpu => .flag cpu.isJammed),
    ("irq_latch", fun cpu => .flag cpu.irqMasked),
    ("nmi_pending", fun cpu => .flag cpu.nmiPending),
    ("pins", fun cpu => .word cpu.pins.toWord),
    ("pins.addr", fun cpu => .address cpu.pins.addr),
    ("pins.data", fun cpu => .byte cpu.pins.data),
    ("pins.lines", fun cpu => cpu.pins.lines)]

/-- Second paths for some properties. -/
def aliases : List (String × String) :=
  [("sp", "s"), ("status", "p"), ("c", "flags.c"), ("z", "flags.z"), ("i", "flags.i"),
    ("d", "flags.d"), ("v", "flags.v"), ("n", "flags.n")]

def paths : List String := properties.map (·.1)

def query? (path : String) (cpu : Cpu) : Option Value :=
  (properties.lookup ((aliases.lookup path).getD path)).map (· cpu)

/-- The state as text. Whether a trap is installed is not part of the state. -/
def text (hasTrap : Bool) (cpu : Cpu) : String :=
  Text.openRecord "M6502"
    [("regs", cpu.regs.text),
      ("pins", cpu.pins.text),
      ("phase", cpu.phase.text),
      ("instr", cpu.instruction.text),
      ("step", toString cpu.step),
      ("nmi_pending", toString cpu.nmiPending),
      ("irq_latch", toString cpu.irqMasked),
      ("total", "Ticks(" ++ toString cpu.total.count ++ ")"),
      ("has_trap", toString hasTrap),
      ("trap_id", match cpu.trapId with
        | some id => "Some(" ++ toString id.toInt ++ ")"
        | none => "None")]

end Cpu

end Nmos6502
