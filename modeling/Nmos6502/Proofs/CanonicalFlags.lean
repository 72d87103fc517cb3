import Nmos6502.Proofs.Conversation
import Nmos6502.Proofs.HiddenFlags

/-! # Status registers as the chip has them

On the chip the break flag of P reads as clear and the unused bit as set. Every operation keeps it
so, whatever it reads: a byte with other bits in their place can come into P from outside only. -/

namespace Nmos6502

/-- The two flags without storage read as on the chip. -/
def Status.Canonical (p : Status) : Prop := p.brk = false ∧ p.unused = true

namespace Status.Canonical

variable {p : Status} {r : Registers}

theorem visible_eq (h : r.p.Canonical) : r.visible = r := by
  obtain ⟨hbrk, hunused⟩ := h
  simp only [Registers.visible, Registers.setHidden, ← hbrk, ← hunused]

/-! ### Operations -/

theorem registerOp (h : r.p.Canonical) (op : RegisterOp) : (op.apply r).p.Canonical := by
  cases op with
  | txs | nop => exact h
  | _ => exact ⟨h.1, rfl⟩

theorem add (h : p.Canonical) (adder : Bool) (a v : UInt8) :
    (Arithmetic.add adder a v p).2.Canonical := by
  simp only [Arithmetic.add]
  split <;> exact ⟨h.1, rfl⟩

theorem sub (h : p.Canonical) (adder : Bool) (a v : UInt8) :
    (Arithmetic.sub adder a v p).2.Canonical := by
  simp only [Arithmetic.sub]
  split <;> exact ⟨h.1, rfl⟩

theorem maskRotate (h : p.Canonical) (adder : Bool) (a v : UInt8) :
    (Arithmetic.maskRotate adder a v p).2.Canonical := by
  simp only [Arithmetic.maskRotate]
  split <;> exact ⟨h.1, rfl⟩

theorem readOp (h : r.p.Canonical) (adder : Bool) (op : ReadOp) (v : UInt8) :
    (op.apply adder v r).p.Canonical := by
  cases op with
  | adc => exact h.add adder r.a v
  | sbc => exact h.sub adder r.a v
  | arr => exact h.maskRotate adder r.a v
  | nop => exact h
  | _ => exact ⟨h.1, rfl⟩

theorem modifyOp (h : r.p.Canonical) (adder : Bool) (op : ModifyOp) (v : UInt8) :
    (op.apply adder v r).2.p.Canonical := by
  cases op with
  | rra =>
    have hrotated : (Shift.ror.apply v r.p).2.Canonical := ⟨h.1, rfl⟩
    exact hrotated.add adder r.a _
  | isc => exact h.sub adder r.a _
  | _ => exact ⟨h.1, rfl⟩

/-! ### Ticks -/

variable {c : Cpu}

theorem prepare (h : c.regs.p.Canonical) (op : MicroOp) : (c.prepare op).1.regs.p.Canonical := by
  cases op with
  | write op => cases op <;> exact h
  | vectorLow =>
    simp only [Cpu.prepare, Cpu.stealVector]
    split <;> exact h
  | _ => exact h

theorem apply (h : c.regs.p.Canonical) (op : MicroOp) (byte : UInt8) :
    (c.apply op byte).regs.p.Canonical := by
  cases op with
  | implied op => exact h.registerOp op
  | accumulator op => exact ⟨h.1, rfl⟩
  | immediate op | read op => exact h.readOp c.decimalAdder op byte
  | modifyHold op => exact h.modifyOp c.decimalAdder op c.operand
  | pullAccumulator | vectorLow => exact ⟨h.1, rfl⟩
  | pullStatus => exact ⟨rfl, rfl⟩
  | branchOffset condition =>
    simp only [Cpu.apply, Cpu.finish]
    split <;> exact h
  | branchTaken =>
    simp only [Cpu.apply, Cpu.finish]
    split <;> exact h
  | _ => exact h

theorem complete (h : c.regs.p.Canonical) (op : MicroOp) : (c.complete op).regs.p.Canonical := by
  by_cases hop : op = .fetchOpcode
  · subst hop
    exact h
  · rw [Cpu.complete_eq hop, Cpu.settle_frame]
    exact h.apply op c.pins.data

theorem tick {σ : Type} (h : c.regs.p.Canonical) {patience : Nat} {host : Host σ} {d : Cpu}
    {s t : σ} (ht : c.tick patience host s = .ok (d, t)) : d.regs.p.Canonical := by
  obtain ⟨op, e, x, u, hn, -, rfl, -⟩ := Cpu.tick_ok ht
  refine complete ?_ op
  have he : e.regs.p.Canonical := by
    rw [Cpu.next_frame hn]
    exact h
  exact he.prepare op

end Status.Canonical

end Nmos6502
