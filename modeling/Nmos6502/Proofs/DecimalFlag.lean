import Nmos6502.Proofs.StatusPushes
import Nmos6502.Proofs.Unread

/-! # Who looks at the decimal flag

Only the adder looks at D, and only in a chip that has one for decimal digits. Every other operation
does the same whatever D is; it may set D or clear it. A status byte that is pushed shows D in one
bit. -/

namespace Nmos6502

/-! ### Users of the adder -/

def ReadOp.usesAdder : ReadOp → Bool
  | adc | sbc | arr => true
  | _ => false

def ModifyOp.usesAdder : ModifyOp → Bool
  | rra | isc => true
  | _ => false

/-- ADC, SBC, ARR, RRA and ISC, however they find their operand. -/
def Instruction.usesAdder : Instruction → Bool
  | immediate op | read op _ => op.usesAdder
  | modify op _ => op.usesAdder
  | _ => false

def MicroOp.usesAdder : MicroOp → Bool
  | immediate op | read op => op.usesAdder
  | modifyHold op => op.usesAdder
  | _ => false

theorem Instruction.usesAdder_program (i : Instruction) :
    i.program.any MicroOp.usesAdder = i.usesAdder := by
  cases i with
  | read op mode => cases mode <;> simp [program, Mode.program, MicroOp.usesAdder, usesAdder]
  | store op mode => cases mode <;> simp [program, Mode.program, MicroOp.usesAdder, usesAdder]
  | modify op mode => cases mode <;> simp [program, Mode.program, MicroOp.usesAdder, usesAdder]
  | _ => simp [program, MicroOp.usesAdder, usesAdder]

/-! ### Bytes -/

/-- The bytes differ in the bit of the decimal flag at most. -/
def SameButDecimal (b b' : UInt8) : Prop := b' ||| Status.decimalBit = b ||| Status.decimalBit

theorem Status.sameButDecimal_toByte (p : Status) (d : Bool) :
    SameButDecimal p.toByte { p with decimal := d }.toByte := by
  obtain ⟨n, v, u, b, e, i, z, c⟩ := p
  revert n v u b e i z c d
  unfold SameButDecimal
  decide +kernel

/-! ### Registers -/

/-- The registers with another decimal flag. -/
def Registers.withDecimal (d : Bool) (r : Registers) : Registers :=
  { r with p := { r.p with decimal := d } }

namespace Registers

variable (d : Bool) (r : Registers)

theorem withDecimal_registerOp (op : RegisterOp) :
    ∃ e, op.apply (r.withDecimal d) = (op.apply r).withDecimal e := by
  cases op with
  | cld => exact ⟨false, rfl⟩
  | sed => exact ⟨true, rfl⟩
  | _ => exact ⟨d, rfl⟩

theorem withDecimal_readOp {adder : Bool} {op : ReadOp} (h : adder = true → op.usesAdder = false)
    (v : UInt8) : op.apply adder v (r.withDecimal d) = (op.apply adder v r).withDecimal d := by
  cases op with
  | adc | sbc | arr =>
    -- The chip has no decimal adder, or these would be ruled out.
    cases adder with
    | true => cases h rfl
    | false => rfl
  | _ => rfl

theorem withDecimal_modifyOp {adder : Bool} {op : ModifyOp}
    (h : adder = true → op.usesAdder = false) (v : UInt8) :
    op.apply adder v (r.withDecimal d) =
      ((op.apply adder v r).1, (op.apply adder v r).2.withDecimal d) := by
  cases op with
  | rra | isc =>
    cases adder with
    | true => cases h rfl
    | false => rfl
  | _ => rfl

theorem withDecimal_condition (condition : Condition) :
    condition.holds (r.withDecimal d).p = condition.holds r.p := by
  cases condition <;> rfl

theorem withDecimal_pushed (what : Pushed) :
    if what.isStatus then SameButDecimal (what.value r) (what.value (r.withDecimal d))
    else what.value (r.withDecimal d) = what.value r := by
  cases what with
  | statusBreak =>
    exact Status.sameButDecimal_toByte { r.p with brk := true, unused := true } d
  | statusInterrupt =>
    exact Status.sameButDecimal_toByte { r.p with brk := false, unused := true } d
  | pcHigh | pcLow | accumulator => rfl

end Registers

/-! ### Micro-operations -/

def MicroOp.pushesStatus : MicroOp → Bool
  | push what => what.isStatus
  | _ => false

/-- The micro-operation does nothing with the byte on the data bus. -/
def MicroOp.discards : MicroOp → Bool
  | discard | push _ => true
  | _ => false

theorem MicroOp.push_of_pushesStatus {op : MicroOp} (h : op.pushesStatus = true) :
    ∃ what, op = .push what ∧ what.isStatus = true := by
  cases op with
  | push what => exact ⟨what, rfl, h⟩
  | _ => cases h

theorem MicroOp.discards_of_pushesStatus {op : MicroOp} (h : op.pushesStatus = true) :
    op.discards = true := by
  obtain ⟨what, rfl, -⟩ := push_of_pushesStatus h
  rfl

namespace Cpu

/-- The machine with another decimal flag and another byte on the data bus. -/
def withDecimal (d : Bool) (v : UInt8) (c : Cpu) : Cpu :=
  { c with regs := c.regs.withDecimal d, pins.data := v }

theorem aside_withDecimal (d : Bool) (v : UInt8) : Aside (withDecimal d v) where
  place _ := ⟨rfl, rfl, rfl, rfl, rfl⟩
  crossed _ := rfl
  handler _ := rfl
  nmiPending _ := rfl
  irq _ := rfl
  irqMasked _ := rfl
  move _ _ := rfl
  mask _ _ := rfl
  steal _ _ := rfl
  idle _ := rfl
  serve _ _ := rfl
  interrupt _ _ := rfl

section

variable (d : Bool) (v : UInt8) (c : Cpu)

theorem prepare_withDecimal (op : MicroOp) :
    ((c.withDecimal d v).prepare op).1 = (c.prepare op).1.withDecimal d v := by
  cases op with
  | write op => cases op <;> rfl
  | vectorLow => exact (aside_withDecimal d v).stealVector c
  | _ => rfl

/-- Accesses of a micro-operation that differ in the decimal flag of a status byte at most. -/
inductive SameAccess (op : MicroOp) : Access → Access → Prop
  | same (a : Access) : SameAccess op a a
  | status (addr : UInt16) {b b' : UInt8} : op.pushesStatus = true → SameButDecimal b b' →
    SameAccess op (.write addr b) (.write addr b')

theorem access_withDecimal (op : MicroOp) :
    SameAccess op (c.prepare op).2 ((c.withDecimal d v).prepare op).2 := by
  cases op with
  | write op => cases op <;> exact .same _
  | vectorLow =>
    simp only [prepare, (aside_withDecimal d v).stealVector]
    exact .same _
  | push what =>
    have hvalue := c.regs.withDecimal_pushed d what
    cases hwhat : what.isStatus with
    | true =>
      rw [if_pos hwhat] at hvalue
      exact .status _ hwhat hvalue
    | false =>
      rw [hwhat, if_neg Bool.false_ne_true] at hvalue
      have hwrite : ((c.withDecimal d v).prepare (.push what)).2 = (c.prepare (.push what)).2 :=
        congrArg (Access.write _) hvalue
      rw [hwrite]
      exact .same _
  | _ => exact .same _

theorem apply_withDecimal {op : MicroOp} (h : c.decimalAdder = true → op.usesAdder = false)
    (byte : UInt8) :
    ∃ e, (c.withDecimal d v).apply op byte = (c.apply op byte).withDecimal e v := by
  cases op with
  | implied op =>
    obtain ⟨e, he⟩ := c.regs.withDecimal_registerOp d op
    exact ⟨e, congrArg (fun r => ({ c with regs := r, pins.data := v } : Cpu)) he⟩
  | immediate op | read op =>
    exact ⟨d, congrArg (fun r => ({ c with regs := r, pins.data := v } : Cpu))
      (c.regs.withDecimal_readOp d h byte)⟩
  | modifyHold op =>
    exact ⟨d, congrArg (fun r => ({ c with operand := r.1, regs := r.2, pins.data := v } : Cpu))
      (c.regs.withDecimal_modifyOp d h c.operand)⟩
  | pullStatus => exact ⟨(Status.pulled byte).decimal, rfl⟩
  | branchOffset condition =>
    refine ⟨d, ?_⟩
    have hholds := c.regs.withDecimal_condition d condition
    have hregs : (c.withDecimal d v).regs = c.regs.withDecimal d := rfl
    simp only [apply, hregs, hholds]
    split <;> rfl
  | branchTaken =>
    refine ⟨d, ?_⟩
    have hpc : (c.withDecimal d v).regs.pc = c.regs.pc := rfl
    have hoperand : (c.withDecimal d v).operand = c.operand := rfl
    simp only [apply, hpc, hoperand]
    split <;> rfl
  | _ => exact ⟨d, rfl⟩

theorem apply_discards {op : MicroOp} (h : op.discards = true) (byte : UInt8) (c : Cpu) :
    c.apply op byte = c := by
  cases op with
  | discard | push what => rfl
  | _ => cases h

end

/-- The work of a micro-operation on bytes that are the same, or that it discards. -/
theorem complete_withDecimal (d : Bool) {v : UInt8} {c : Cpu} {op : MicroOp}
    (hadder : c.decimalAdder = true → op.usesAdder = false)
    (hv : v = c.pins.data ∨ op.discards = true) :
    ∃ e, (c.withDecimal d v).complete op = (c.complete op).withDecimal e v := by
  by_cases hop : op = .fetchOpcode
  · subst hop
    obtain rfl := hv.resolve_right Bool.false_ne_true
    exact ⟨d, rfl⟩
  · rw [complete_eq hop, complete_eq hop]
    obtain ⟨e, he⟩ := c.apply_withDecimal d v hadder v
    refine ⟨e, ?_⟩
    have hsame : c.apply op v = c.apply op c.pins.data := by
      rcases hv with rfl | hdiscards
      · rfl
      · rw [apply_discards hdiscards, apply_discards hdiscards]
    rw [hsame] at he
    rw [← (aside_withDecimal e v).settle, ← he]
    rfl

theorem next_withDecimal (d : Bool) (v : UInt8) {c e : Cpu} {op : MicroOp}
    (h : c.next = .ok (op, e)) : (c.withDecimal d v).next = .ok (op, e.withDecimal d v) := by
  rcases (aside_withDecimal d v).next c with ⟨cause, hc, -⟩ | ⟨op', e', hc, hd⟩
  · cases h.symm.trans hc
  · cases h.symm.trans hc
    exact hd

end Cpu

end Nmos6502
