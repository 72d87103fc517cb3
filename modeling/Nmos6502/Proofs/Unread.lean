import Nmos6502.Proofs.Program

/-! # What the machine does not look at

The machine keeps clocks, and the level of RDY, the port lines and the last trap with them, and
never looks at any of these between the end of one access and the beginning of the next. So a
micro-operation does the same whatever they hold, and leaves them as they are. -/

namespace Nmos6502

structure Unread where
  rdy : Bool
  port : BitVec 6
  ticks : UInt32
  total : Ticks
  trapId : Option Int32

namespace Cpu

/-! ### Changes on the side -/

/-- A change to what neither finds the next micro-operation nor ends a program. -/
structure Aside (f : Cpu → Cpu) : Prop where
  place (c : Cpu) : SamePlace c (f c)
  crossed (c : Cpu) : (f c).crossed = c.crossed
  handler (c : Cpu) : (f c).handler = c.handler
  nmiPending (c : Cpu) : (f c).nmiPending = c.nmiPending
  irq (c : Cpu) : (f c).pins.irq = c.pins.irq
  irqMasked (c : Cpu) : (f c).irqMasked = c.irqMasked
  move (c : Cpu) (n : Nat) : { f c with step := n } = f { c with step := n }
  mask (c : Cpu) (masked : Bool) :
    { f c with irqMasked := masked } = f { c with irqMasked := masked }
  steal (c : Cpu) (handler : Handler) :
    { f c with handler := handler, nmiPending := false } =
      f { c with handler := handler, nmiPending := false }
  idle (c : Cpu) : { f c with phase := .fetch } = f { c with phase := .fetch }
  serve (c : Cpu) (handler : Handler) :
    { f c with nmiPending := false }.interrupt handler =
      f ({ c with nmiPending := false }.interrupt handler)
  interrupt (c : Cpu) (handler : Handler) : (f c).interrupt handler = f (c.interrupt handler)

namespace Aside

variable {f : Cpu → Cpu} (h : Aside f) (c : Cpu)
include h

theorem next :
    (∃ cause, c.next = .error cause ∧ (f c).next = .error cause) ∨
      ∃ op d, c.next = .ok (op, d) ∧ (f c).next = .ok (op, f d) := by
  have hplace := h.place c
  rcases next_alike (c := c) (d := f c) hplace.phase.symm
    (fun _ => ⟨hplace.program.symm, hplace.step.symm, (h.crossed c).symm⟩) with
    herror | ⟨op, c', d', hc, hd, hstep⟩
  · exact Or.inl herror
  · refine Or.inr ⟨op, c', hc, hd.trans ?_⟩
    rw [next_frame hc, next_frame hd, ← hstep hplace.step.symm, h.move]

theorem stealVector : (f c).stealVector = f c.stealVector := by
  by_cases hsteal : c.handler = .irq ∧ c.nmiPending = true
  · have hsteal' : (f c).handler = .irq ∧ (f c).nmiPending = true := by
      rwa [h.handler, h.nmiPending]
    rw [Cpu.stealVector, Cpu.stealVector, if_pos hsteal, if_pos hsteal', h.steal]
  · have hsteal' : ¬((f c).handler = .irq ∧ (f c).nmiPending = true) := by
      rwa [h.handler, h.nmiPending]
    rw [Cpu.stealVector, Cpu.stealVector, if_neg hsteal, if_neg hsteal']

theorem poll : (f c).poll = f c.poll := by
  by_cases hn : c.nmiPending = true
  · rw [Cpu.poll, Cpu.poll, if_pos hn, if_pos ((h.nmiPending c).trans hn), h.serve]
  · have hn' : ¬(f c).nmiPending = true := by rwa [h.nmiPending]
    rw [Cpu.poll, Cpu.poll, if_neg hn, if_neg hn']
    by_cases hi : c.pins.irq = true ∧ c.irqMasked = false
    · have hi' : (f c).pins.irq = true ∧ (f c).irqMasked = false := by rwa [h.irq, h.irqMasked]
      rw [if_pos hi, if_pos hi', h.interrupt]
    · have hi' : ¬((f c).pins.irq = true ∧ (f c).irqMasked = false) := by
        rwa [h.irq, h.irqMasked]
      rw [if_neg hi, if_neg hi', h.idle]

theorem settle (masked : Bool) : (f c).settle masked = f (c.settle masked) := by
  have hplace := h.place c
  have hmask := h.mask c masked
  by_cases hp : c.phase = .execute
  · by_cases ha : c.ahead = []
    · rw [settle_of_end hp ha, settle_of_end (hplace.phase.trans hp) (hplace.ahead.trans ha)]
      by_cases hpolls : c.polls = true
      · rw [if_pos hpolls, if_pos (hplace.polls.trans hpolls)]
        exact (congrArg Cpu.poll hmask).trans (h.poll _)
      · rw [if_neg hpolls, if_neg (hplace.polls ▸ hpolls)]
        exact (congrArg (fun d : Cpu => { d with phase := .fetch }) hmask).trans (h.idle _)
    · rw [settle_of_ahead ha, settle_of_ahead (hplace.ahead ▸ ha)]
  · rw [settle_of_idle hp, settle_of_idle (hplace.phase ▸ hp)]

end Aside

/-! ### What is not read -/

def unread (c : Cpu) : Unread := ⟨c.pins.rdy, c.pins.port, c.ticks, c.total, c.trapId⟩

def withUnread (z : Unread) (c : Cpu) : Cpu :=
  { c with
    pins.rdy := z.rdy, pins.port := z.port, ticks := z.ticks, total := z.total
    trapId := z.trapId }

@[simp] theorem withUnread_unread (c : Cpu) : c.withUnread c.unread = c := rfl

theorem aside_withUnread (z : Unread) : Aside (withUnread z) where
  place _ := ⟨rfl, rfl, rfl, rfl, rfl⟩
  crossed _ := rfl
  handler _ := rfl
  nmiPending _ := rfl
  irq _ := rfl
  irqMasked _ := rfl
  move _ _ := rfl
  mask _ _ := rfl
  steal _ _ := rfl
  idle _ := rfl
  serve _ _ := rfl
  interrupt _ _ := rfl

/-! ### One micro-operation -/

variable (z : Unread) (c : Cpu)

theorem prepare_withUnread (op : MicroOp) :
    (c.withUnread z).prepare op = ((c.prepare op).1.withUnread z, (c.prepare op).2) := by
  cases op with
  | write op =>
    simp only [prepare, prepareStore]
    cases op.isUnstable <;> rfl
  | vectorLow =>
    simp only [prepare, (aside_withUnread z).stealVector]
    rfl
  | _ => rfl

theorem apply_withUnread (op : MicroOp) (byte : UInt8) :
    (c.withUnread z).apply op byte = (c.apply op byte).withUnread z := by
  cases op with
  | branchOffset condition =>
    have hregs : (c.withUnread z).regs = c.regs := rfl
    simp only [apply, hregs]
    cases condition.holds c.regs.p <;> rfl
  | branchTaken =>
    have hregs : (c.withUnread z).regs = c.regs := rfl
    have hoperand : (c.withUnread z).operand = c.operand := rfl
    simp only [apply, hregs, hoperand]
    cases samePage (c.regs.pc + signExtend c.operand) c.regs.pc <;> rfl
  | _ => rfl

theorem complete_withUnread (op : MicroOp) :
    (c.withUnread z).complete op = (c.complete op).withUnread z := by
  by_cases hop : op = .fetchOpcode
  · subst hop
    rfl
  · rw [complete_eq hop, complete_eq hop, ← (aside_withUnread z).settle, ← apply_withUnread]
    rfl

theorem notice_withUnread (op : MicroOp) : (c.withUnread z).notice? op = c.notice? op := by
  cases op <;> rfl

/-! ### Around it -/

theorem next_withUnread :
    (∃ cause, c.next = .error cause ∧ (c.withUnread z).next = .error cause) ∨
      ∃ op d, c.next = .ok (op, d) ∧ (c.withUnread z).next = .ok (op, d.withUnread z) :=
  (aside_withUnread z).next c

theorem unread_prepare (op : MicroOp) : (c.prepare op).1.unread = c.unread := by
  have h := c.prepare_withUnread c.unread op
  rw [withUnread_unread] at h
  rw [h]
  rfl

theorem unread_complete (op : MicroOp) : (c.complete op).unread = c.unread := by
  have h := c.complete_withUnread c.unread op
  rw [withUnread_unread] at h
  rw [h]
  rfl

end Cpu

end Nmos6502
