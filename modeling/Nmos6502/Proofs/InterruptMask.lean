import Nmos6502.Proofs.Coherence

/-! # The interrupt mask

Inside its program an instruction leaves the interrupt mask alone, but for RTI and BRK. So a tick on
a host that keeps NMI low goes on with the program, or ends it and takes an IRQ if the line is high
and the mask was clear when the tick began. -/

namespace Nmos6502

variable {σ : Type}

/-! ### The interrupt mask inside programs -/

/-- The micro-operations that write the interrupt mask. -/
def MicroOp.setsMask : MicroOp → Bool
  | .implied .cli | .implied .sei | .pullStatus | .vectorLow => true
  | _ => false

/-- The micro-operations of a branch that may end it before its program does. -/
def MicroOp.mayEnd : MicroOp → Bool
  | .branchOffset _ | .branchTaken => true
  | _ => false

/-- All instructions but RTI and BRK write the mask in their last cycle, if at all. -/
theorem Instruction.setsMask_dropLast {i : Instruction} (hrti : i ≠ .rti) (hbrk : i ≠ .brk) :
    ∀ op ∈ i.program.dropLast, op.setsMask = false := by
  cases i with
  | rti => exact absurd rfl hrti
  | brk => exact absurd rfl hbrk
  | read op mode => cases mode <;> simp [program, Mode.program, MicroOp.setsMask]
  | store op mode => cases mode <;> simp [program, Mode.program, MicroOp.setsMask]
  | modify op mode => cases mode <;> simp [program, Mode.program, MicroOp.setsMask]
  | _ => simp [program, MicroOp.setsMask]

theorem RegisterOp.irqDisable_apply {op : RegisterOp}
    (h : (MicroOp.implied op).setsMask = false) (r : Registers) :
    (op.apply r).p.irqDisable = r.p.irqDisable := by
  cases op <;> first | rfl | cases h

theorem irqDisable_add (adder : Bool) (a v : UInt8) (p : Status) :
    (Arithmetic.add adder a v p).2.irqDisable = p.irqDisable := by
  simp only [Arithmetic.add]
  split <;> rfl

theorem irqDisable_sub (adder : Bool) (a v : UInt8) (p : Status) :
    (Arithmetic.sub adder a v p).2.irqDisable = p.irqDisable := by
  simp only [Arithmetic.sub]
  split <;> rfl

theorem irqDisable_maskRotate (adder : Bool) (a v : UInt8) (p : Status) :
    (Arithmetic.maskRotate adder a v p).2.irqDisable = p.irqDisable := by
  simp only [Arithmetic.maskRotate]
  split <;> rfl

theorem ReadOp.irqDisable_apply (adder : Bool) (op : ReadOp) (v : UInt8) (r : Registers) :
    (op.apply adder v r).p.irqDisable = r.p.irqDisable := by
  cases op with
  | adc => exact irqDisable_add adder r.a v r.p
  | sbc => exact irqDisable_sub adder r.a v r.p
  | arr => exact irqDisable_maskRotate adder r.a v r.p
  | _ => rfl

theorem ModifyOp.irqDisable_apply (adder : Bool) (op : ModifyOp) (v : UInt8) (r : Registers) :
    (op.apply adder v r).2.p.irqDisable = r.p.irqDisable := by
  cases op with
  | rra => exact irqDisable_add adder r.a _ _
  | isc => exact irqDisable_sub adder r.a _ r.p
  | _ => rfl

namespace Cpu

theorem irqDisable_prepare (op : MicroOp) (c : Cpu) :
    (c.prepare op).1.regs.p.irqDisable = c.regs.p.irqDisable := by
  cases op with
  | write op => cases op <;> rfl
  | vectorLow =>
    simp only [prepare, stealVector]
    split <;> rfl
  | _ => rfl

theorem irqDisable_apply {op : MicroOp} (h : op.setsMask = false) (byte : UInt8) (c : Cpu) :
    (c.apply op byte).regs.p.irqDisable = c.regs.p.irqDisable := by
  cases op with
  | pullStatus | vectorLow => cases h
  | implied op => exact op.irqDisable_apply h c.regs
  | immediate op => exact op.irqDisable_apply c.decimalAdder byte c.regs
  | read op => exact op.irqDisable_apply c.decimalAdder byte c.regs
  | modifyHold op => exact op.irqDisable_apply c.decimalAdder c.operand c.regs
  | branchOffset condition =>
    simp only [apply, finish]
    split <;> rfl
  | branchTaken =>
    simp only [apply, finish]
    split <;> rfl
  | _ => rfl

end Cpu

/-! ### Hosts without NMI -/

/-- The host keeps NMI low. -/
def Host.NmiLow (host : Host σ) : Prop := ∀ p s, (host.tick p s).1.nmi = false

theorem Host.NmiLow.logged {host : Host σ} (h : host.NmiLow) : host.logged.NmiLow :=
  fun p a => h p a.2

theorem Host.NmiLow.hold {host : Host σ} (h : host.NmiLow) {patience : Nat} {p : Pins} {s u : σ}
    {x : Exchange} (hx : host.hold patience p false s = .ok (x, u)) : x.nmiPending = false := by
  have hanswer : ∀ p s, (host.answer p false s).1.nmiPending = false := by
    intro p s
    simp only [Host.answer, h p s, Bool.false_and, Bool.or_false]
  induction patience generalizing p s x with
  | zero =>
    simp only [Host.hold] at hx
    split at hx
    · cases hx
    · cases hx
      exact hanswer p s
  | succ n ih =>
    simp only [Host.hold, hanswer] at hx
    split at hx
    · cases hr : host.hold n { (host.answer p false s).1.pins with rdy := false } false
          (host.answer p false s).2 with
      | error stop =>
        rw [hr] at hx
        cases hx
      | ok r =>
        rw [hr] at hx
        cases hx
        exact ih (x := r.1) (by rw [hr])
    · cases hx
      exact hanswer p s

theorem Host.NmiLow.exchange {host : Host σ} (h : host.NmiLow) {patience : Nat} {a : Access}
    {p : Pins} {s u : σ} {x : Exchange} (hx : host.exchange patience a p false s = .ok (x, u)) :
    x.nmiPending = false := by
  cases a with
  | read addr => exact h.hold hx
  | write addr value =>
    cases hx
    simp only [h _ s, Bool.false_and, Bool.or_false]

/-! ### Ticks inside a program -/

namespace Cpu

theorem nmiPending_prepare {c : Cpu} (h : c.nmiPending = false) (op : MicroOp) :
    (c.prepare op).1.nmiPending = false := by
  cases op with
  | write op => cases op <;> exact h
  | vectorLow =>
    simp only [prepare, stealVector]
    split
    · rfl
    · exact h
  | _ => exact h

theorem nmiPending_complete {c : Cpu} (h : c.nmiPending = false) (op : MicroOp) :
    (c.complete op).nmiPending = false := by
  by_cases hop : op = .fetchOpcode
  · subst hop
    exact h
  · have happly : (c.apply op c.pins.data).nmiPending = false := by
      rw [apply_frame hop]
      exact h
    rw [complete_eq hop]
    rcases settle_cases c.regs.p.irqDisable (c.apply op c.pins.data) with hc | hc | hc | hc
    · rw [hc]
      exact happly
    · rw [hc]
      exact happly
    · rw [hc]
      rfl
    · rw [hc]
      exact happly

theorem ahead_apply_of_plain {op : MicroOp} (hop : op ≠ .fetchOpcode) (h : op.mayEnd = false)
    (byte : UInt8) (c : Cpu) : (c.apply op byte).ahead = c.ahead := by
  cases op with
  | fetchOpcode => exact absurd rfl hop
  | branchOffset condition | branchTaken => cases h
  | _ => rfl

/-- What a micro-operation makes of a machine that has `ops` to run after it. -/
inductive Leaves (op : MicroOp) (ops : List MicroOp) (c d : Cpu) : Prop
  | jams : op = .jam → d.phase = .jammed → Leaves op ops c d
  | goesOn : ops ≠ [] → d.phase = .execute → d.ahead = ops → d.step ≠ 0 →
    d.instruction = c.instruction → d.program = c.program → d.polls = c.polls →
    (op.setsMask = false → d.regs.p.irqDisable = c.regs.p.irqDisable) →
    (op = .pullStatus → d.regs.p.irqDisable = bit 2 d.pins.data) → Leaves op ops c d
  | ends : (op.mayEnd = false → ops = []) →
    (d.Takes .irq ↔ c.polls = true ∧ d.pins.irq = true ∧ c.regs.p.irqDisable = false) →
    (d.Takes .irq ∨ d.atBoundary = true) → Leaves op ops c d

theorem takes_poll {c : Cpu} (hn : c.nmiPending = false) :
    (c.poll.Takes .irq ↔ c.poll.pins.irq = true ∧ c.irqMasked = false) ∧
      (c.poll.Takes .irq ∨ c.poll.atBoundary = true) := by
  by_cases hirq : c.pins.irq = true ∧ c.irqMasked = false
  · have hpoll : c.poll = c.interrupt .irq := by simp [poll, hn, hirq]
    rw [hpoll]
    exact ⟨⟨fun _ => hirq, fun _ => ⟨rfl, rfl, rfl, rfl⟩⟩, Or.inl ⟨rfl, rfl, rfl, rfl⟩⟩
  · have hpoll : c.poll = { c with phase := .fetch } := by simp [poll, hn, hirq]
    rw [hpoll]
    exact ⟨⟨fun h => Phase.noConfusion h.1, fun h => absurd h hirq⟩, Or.inr rfl⟩

theorem leaves_complete {op : MicroOp} (hop : op ≠ .fetchOpcode) {c : Cpu} (hp : c.phase = .execute)
    (hs : c.step ≠ 0) (hn : c.nmiPending = false) : Leaves op c.ahead c (c.complete op) := by
  rcases complete_cases hop hp with ⟨hjam, hd⟩ | ⟨hne, hsame, hphase, hahead⟩ |
    ⟨b, rfl, -, hnil, hend⟩
  · exact .jams hjam hd
  · have hframe := apply_frame hop c.pins.data c
    have hprogram : c.program ≠ [] := by
      rintro hnil
      exact hne (by rw [ahead, hnil, List.drop_nil])
    have hstep := step_apply_ne_zero hop hs hprogram c.pins.data
    rw [hsame] at hphase hahead ⊢
    refine .goesOn hne hphase hahead hstep ?_ ?_ ?_ (irqDisable_apply · c.pins.data c) ?_
    · rw [hframe]
    · rw [hframe]
    · rw [hframe]
    · rintro rfl
      rfl
  · have hops : op.mayEnd = false → c.ahead = [] :=
      fun hplain => (ahead_apply_of_plain hop hplain c.pins.data c).symm.trans hnil
    have hpins : (c.apply op c.pins.data).pins = c.pins := by rw [apply_frame hop]
    have hpending : (c.apply op c.pins.data).nmiPending = false := by
      rw [apply_frame hop]
      exact hn
    rw [hend]
    cases hpolls : c.polls with
    | false =>
      refine .ends hops ⟨fun h => Phase.noConfusion h.1, fun h => ?_⟩ (Or.inr rfl)
      exact Bool.noConfusion (hpolls.symm.trans h.1)
    | true =>
      have hpoll := takes_poll
        (c := { c.apply op c.pins.data with irqMasked := c.regs.p.irqDisable }) hpending
      rw [if_pos rfl]
      refine .ends hops ?_ hpoll.2
      rw [hpolls]
      exact hpoll.1.trans ⟨fun h => ⟨rfl, h⟩, fun h => h.2⟩

theorem tick_nmiPending {host : Host σ} (hlow : host.NmiLow) {c d : Cpu}
    (hn : c.nmiPending = false) {patience : Nat} {s t : σ}
    (ht : c.tick patience host s = .ok (d, t)) : d.nmiPending = false := by
  obtain ⟨op, e, x, u, hnext, hx, rfl, -⟩ := tick_ok ht
  have he : e.nmiPending = false := by
    rw [next_frame hnext]
    exact hn
  rw [nmiPending_prepare he op] at hx
  exact nmiPending_complete (hlow.exchange hx) op

theorem tick_leaves {host : Host σ} (hlow : host.NmiLow) {c d : Cpu} (hc : c.Coherent)
    (hp : c.phase = .execute) (hn : c.nmiPending = false) {patience : Nat} {s t : σ}
    (ht : c.tick patience host s = .ok (d, t)) :
    ∃ op ops, c.upcoming = op :: ops ∧ Leaves op ops c d := by
  obtain ⟨op, ops, x, u, hu, hop, hx, rfl, -⟩ := hc.tick_inside hp ht
  have hsuffix := (List.suffix_cons op ops).trans (hu ▸ c.upcoming_suffix)
  rw [nmiPending_prepare (c := c.moveTo ops) hn op] at hx
  have hplace := samePlace_access op x (c.moveTo ops)
  have hahead := hplace.ahead.trans (ahead_moveTo hsuffix)
  have hmask : (((c.moveTo ops).prepare op).1.receive x).regs.p.irqDisable =
      c.regs.p.irqDisable := irqDisable_prepare op (c.moveTo ops)
  have hstep := step_of_ahead (hplace.program ▸ (hu ▸ c.upcoming_suffix)) hahead
  have hleaves := leaves_complete hop (hplace.phase.trans hp) hstep (hlow.exchange hx)
  rw [hahead] at hleaves
  refine ⟨op, ops, hu, ?_⟩
  cases hleaves with
  | jams hjam hd => exact .jams hjam hd
  | goesOn hne hd hrest hs hi hprog hpol hkeep hpull =>
    exact .goesOn hne hd hrest hs (hi.trans hplace.instruction) (hprog.trans hplace.program)
      (hpol.trans hplace.polls) (fun h => (hkeep h).trans hmask) hpull
  | ends hops htakes hor =>
    rw [hplace.polls, hmask] at htakes
    exact .ends hops htakes hor

end Cpu

end Nmos6502
