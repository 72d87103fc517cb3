import Nmos6502.Instruction.Opcode
import Nmos6502.Text.Digits

/-! # Notices

The machine tells its host about noteworthy events. A notice has a level and a text. -/

namespace Nmos6502

/-- Where the machine finds the address of the code that handles an event. -/
inductive Handler where
  | nmi
  | reset
  | irq
deriving Repr, DecidableEq

/-- The address of the low byte of the handler's address; the high byte follows. -/
def Handler.vector : Handler → UInt16
  | nmi => 0xFFFA
  | reset => 0xFFFC
  | irq => 0xFFFE

inductive Notice where
  | reset (pc : UInt16)
  | fetched (pc : UInt16) (opcode : UInt8)
  | interrupted (handler : Handler) (pc : UInt16)
  /-- The machine has locked up at the given address. -/
  | jammed (pc : UInt16)
  | trapped (id : Int32) (pc : UInt16)
  /-- The on-chip port has answered an access. -/
  | portAccess (direction output pins : UInt8)
deriving Repr, DecidableEq

inductive Level where
  | trace
  | debug
  | warn
deriving Repr, DecidableEq

def Level.text : Level → String
  | trace => "TRACE"
  | debug => "DEBUG"
  | warn => "WARN"

namespace Notice

def level : Notice → Level
  | fetched .. | interrupted .. | portAccess .. => .trace
  | reset .. | trapped .. => .debug
  | jammed .. => .warn

open Text in
def text : Notice → String
  | reset pc => "6502 reset, PC=" ++ hexAddress pc
  | fetched pc opcode =>
    let i := Instruction.ofOpcode opcode
    hexAddress pc ++ ": " ++ hexByte opcode ++ " " ++ i.opName ++ " " ++ i.modeName
  | interrupted handler pc =>
    "interrupt via " ++ hexAddress handler.vector ++ " at PC=" ++ hexAddress pc
  | jammed pc => "6502 jammed by opcode " ++ Instruction.jam.opName ++ " at PC=" ++ hexAddress pc
  | trapped id pc => "trap " ++ toString id.toInt ++ " at PC=" ++ hexAddress pc
  | portAccess direction output pins =>
    "6510 port: ddr=" ++ hexByte direction ++ " out=" ++ hexByte output ++ " pins=" ++ hexByte pins

end Notice

end Nmos6502
