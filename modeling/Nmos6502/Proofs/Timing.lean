import Nmos6502.Proofs.Unread

/-! # The clocks

The clocks, the level of RDY and the last trap are among what the machine does not look at: a
micro-operation does the same whatever they hold, and leaves them as they are. -/

namespace Nmos6502

variable {σ : Type}

structure Timing where
  rdy : Bool
  ticks : UInt32
  total : Ticks
  trapId : Option Int32

namespace Cpu

def timing (c : Cpu) : Timing := ⟨c.pins.rdy, c.ticks, c.total, c.trapId⟩

def retimed (z : Timing) (c : Cpu) : Cpu :=
  { c with pins.rdy := z.rdy, ticks := z.ticks, total := z.total, trapId := z.trapId }

@[simp] theorem retimed_timing (c : Cpu) : c.retimed c.timing = c := rfl

@[simp] theorem retimed_retimed (y z : Timing) (c : Cpu) : (c.retimed y).retimed z = c.retimed z :=
  rfl

@[simp] theorem timing_retimed (z : Timing) (c : Cpu) : (c.retimed z).timing = z := rfl

/-! ### One micro-operation -/

variable (z : Timing) (c : Cpu)

theorem retimed_eq :
    c.retimed z = c.withUnread ⟨z.rdy, c.pins.port, z.ticks, z.total, z.trapId⟩ := rfl

theorem prepare_retimed (op : MicroOp) :
    (c.retimed z).prepare op = ((c.prepare op).1.retimed z, (c.prepare op).2) := by
  have hport : (c.prepare op).1.pins.port = c.pins.port :=
    congrArg Unread.port (c.unread_prepare op)
  rw [retimed_eq, prepare_withUnread, retimed_eq, hport]

theorem complete_retimed (op : MicroOp) :
    (c.retimed z).complete op = (c.complete op).retimed z := by
  have hport : (c.complete op).pins.port = c.pins.port :=
    congrArg Unread.port (c.unread_complete op)
  rw [retimed_eq, complete_withUnread, retimed_eq, hport]

theorem notice_retimed (op : MicroOp) : (c.retimed z).notice? op = c.notice? op :=
  notice_withUnread ⟨z.rdy, c.pins.port, z.ticks, z.total, z.trapId⟩ c op

/-! ### Around it -/

theorem next_retimed :
    (∃ cause, c.next = .error cause ∧ (c.retimed z).next = .error cause) ∨
      ∃ op d, c.next = .ok (op, d) ∧ (c.retimed z).next = .ok (op, d.retimed z) := by
  rcases next_withUnread ⟨z.rdy, c.pins.port, z.ticks, z.total, z.trapId⟩ c with
    herror | ⟨op, d, hc, hd⟩
  · exact Or.inl herror
  · refine Or.inr ⟨op, d, hc, hd.trans ?_⟩
    rw [next_frame hc]
    rfl

theorem receive_retimed (x : Exchange) :
    (c.retimed z).receive x =
      (c.receive x).retimed
        ⟨x.pins.rdy, z.ticks + UInt32.ofNat x.cycles, ⟨z.total.count + x.cycles⟩, z.trapId⟩ := rfl

theorem timing_prepare (op : MicroOp) : (c.prepare op).1.timing = c.timing :=
  congrArg (fun z : Unread => Timing.mk z.rdy z.ticks z.total z.trapId) (c.unread_prepare op)

theorem timing_complete (op : MicroOp) : (c.complete op).timing = c.timing :=
  congrArg (fun z : Unread => Timing.mk z.rdy z.ticks z.total z.trapId) (c.unread_complete op)

end Cpu

end Nmos6502
