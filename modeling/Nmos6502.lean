import Nmos6502.Breakpoints
import Nmos6502.Mos6510
import Nmos6502.Proofs.Ram
import Nmos6502.Proofs.WaitStates
import Nmos6502.Proofs.HiddenFlags
import Nmos6502.Proofs.Latches
import Nmos6502.Proofs.StraightLine
import Nmos6502.Proofs.Isa.Addressing
import Nmos6502.Proofs.Isa.Semantics
import Nmos6502.Proofs.Addressing
import Nmos6502.Proofs.Isa.Encoding
import Nmos6502.Proofs.Refinement
import Nmos6502.Proofs.BusTrace
import Nmos6502.Proofs.Conversation
import Nmos6502.Proofs.Slicing
import Nmos6502.Proofs.Budget
import Nmos6502.Proofs.Calls
import Nmos6502.Proofs.IrqRecognition
import Nmos6502.Proofs.NmiAccount
import Nmos6502.Proofs.HeldNmi
import Nmos6502.Proofs.Port.History
import Nmos6502.Proofs.Port.Accesses
import Nmos6502.Proofs.Port.Untouched
import Nmos6502.Proofs.Reset
import Nmos6502.Proofs.Boundaries
import Nmos6502.Proofs.Checked.Calls
import Nmos6502.Proofs.Unwinding
import Nmos6502.Proofs.HeldReads
import Nmos6502.Proofs.LockUp
import Nmos6502.Proofs.StatusPushes
import Nmos6502.Proofs.DecimalUnseen
import Nmos6502.Proofs.MultiByte
import Nmos6502.Proofs.UnstableStores
import Nmos6502.Proofs.CombinedOpcodes
import Nmos6502.Proofs.InterruptEntry
import Nmos6502.Proofs.TwosComplement
import Nmos6502.Proofs.SetPc
import Nmos6502.Proofs.Breakpoints
import Nmos6502.Proofs.ValueText
