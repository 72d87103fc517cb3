import Nmos6502.Proofs.HiddenFlags
import Nmos6502.Proofs.Program

/-! # Latches between instructions

No program reads a latch that it has not written before. What the last instruction left in the
latches is therefore invisible: machines that agree on the registers, the pins and the NMI latch at
an instruction boundary cannot be told apart by any host, ever. -/

namespace Nmos6502

/-! ### Live latches -/

inductive Latch where
  | address
  | operand
deriving DecidableEq, Repr

/-- Whether a micro-operation uses what a latch holds before it. -/
def MicroOp.reads : Latch → MicroOp → Bool
  | .address, .addressHigh | .address, .addressHighIndexed _ | .address, .indexZeroPage _
  | .address, .pointerLow | .address, .pointerHigh | .address, .pointerHighIndexed _
  | .address, .fixPageIfCrossed | .address, .fixPage | .address, .read _ | .address, .write _
  | .address, .modifyRead | .address, .modifyHold _ | .address, .modifyWrite | .address, .jump
  | .address, .jumpIndirect | .address, .branchFixPage => true
  | .operand, .pointerHigh | .operand, .pointerHighIndexed _ | .operand, .modifyHold _
  | .operand, .modifyWrite | .operand, .pullPcHigh | .operand, .jumpIndirect
  | .operand, .vectorHigh | .operand, .branchTaken => true
  | _, _ => false

/-- Whether a latch holds something new after a micro-operation, unless the program ends there. -/
def MicroOp.sets : Latch → MicroOp → Bool
  | .address, .addressLow | .address, .branchTaken => true
  | .operand, .pointerLow | .operand, .modifyRead | .operand, .pullPcLow | .operand, .vectorLow
  | .operand, .branchOffset _ => true
  | _, _ => false

/-- Whether what the latch holds is used by the micro-operations. -/
def needs (l : Latch) : List MicroOp → Bool
  | [] => false
  | op :: ops => op.reads l || (!op.sets l && needs l ops)

theorem needs_of_reads {l : Latch} {op : MicroOp} (h : op.reads l = true) (ops : List MicroOp) :
    needs l (op :: ops) = true := by
  simp [needs, h]

theorem needs_of_tail {l : Latch} {op : MicroOp} {ops : List MicroOp} (hs : op.sets l = false)
    (h : needs l ops = true) : needs l (op :: ops) = true := by
  simp [needs, hs, h]

theorem needs_program (l : Latch) (i : Instruction) : needs l i.program = false := by
  cases i with
  | read op mode => cases l <;> cases mode <;> rfl
  | store op mode => cases l <;> cases mode <;> rfl
  | modify op mode => cases l <;> cases mode <;> rfl
  | _ => cases l <;> rfl

theorem needs_interruptProgram (l : Latch) : needs l interruptProgram = false := by
  cases l <;> rfl

namespace Cpu

variable {σ : Type}

/-! ### Machines that cannot be told apart -/

/-- The machines agree on all that can be seen from outside. -/
structure SameOutside (c d : Cpu) : Prop where
  regs : c.regs.visible = d.regs.visible
  pins : c.pins = d.pins
  decimalAdder : c.decimalAdder = d.decimalAdder
  phase : c.phase = d.phase
  nmiPending : c.nmiPending = d.nmiPending

/-- The machines are at the same place of the same program and agree on the latches that `ops`
uses. -/
structure SameInside (ops : List MicroOp) (c d : Cpu) : Prop where
  program : c.program = d.program
  step : c.step = d.step
  crossed : c.crossed = d.crossed
  handler : c.handler = d.handler
  polls : c.polls = d.polls
  address : needs .address ops = true → c.address = d.address
  operand : needs .operand ops = true → c.operand = d.operand

theorem SameInside.moved {ops ops' : List MicroOp} {c d : Cpu} (hi : SameInside ops c d)
    (hn : ∀ l, needs l ops' = true → needs l ops = true) (position : Nat) :
    SameInside ops' { c with step := position } { d with step := position } where
  program := hi.program
  step := rfl
  crossed := hi.crossed
  handler := hi.handler
  polls := hi.polls
  address hl := hi.address (hn .address hl)
  operand hl := hi.operand (hn .operand hl)

structure Alike (c d : Cpu) : Prop where
  outside : SameOutside c d
  inside : c.phase = .execute → SameInside c.ahead c d

/-- What machines may differ in while a program runs. -/
structure Stale where
  brk : Bool
  unused : Bool
  instruction : Instruction
  address : UInt16
  operand : UInt8
  irqMasked : Bool
  ticks : UInt32
  total : Ticks
  trapId : Option Int32

def stale (c : Cpu) : Stale :=
  ⟨c.regs.p.brk, c.regs.p.unused, c.instruction, c.address, c.operand, c.irqMasked, c.ticks,
    c.total, c.trapId⟩

def withStale (z : Stale) (c : Cpu) : Cpu :=
  { c with
    regs := c.regs.setHidden z.brk z.unused, instruction := z.instruction, address := z.address
    operand := z.operand, irqMasked := z.irqMasked, ticks := z.ticks, total := z.total
    trapId := z.trapId }

theorem eq_withStale {ops : List MicroOp} {c d : Cpu} (ho : SameOutside c d)
    (hi : SameInside ops c d) : d = c.withStale d.stale := by
  have hr := Registers.eq_setHidden ho.regs
  obtain ⟨-, hpins, hadder, hphase, hnmi⟩ := ho
  obtain ⟨hprogram, hstep, hcrossed, hhandler, hpolls, -, -⟩ := hi
  cases d
  simp only at hr hpins hadder hphase hnmi hprogram hstep hcrossed hhandler hpolls
  simp only [withStale, stale, ← hr, hpins, hadder, hphase, hnmi, hprogram, hstep, hcrossed,
    hhandler, hpolls]

theorem Alike.notice {c d : Cpu} (h : Alike c d) (op : MicroOp) : c.notice? op = d.notice? op := by
  have hpc : c.regs.pc = d.regs.pc := by
    have hp := congrArg Registers.pc h.outside.regs
    exact hp
  have hother : (if c.phase = .execute ∧ c.step = 0 then
      some (Notice.interrupted c.handler c.regs.pc) else none) =
      if d.phase = .execute ∧ d.step = 0 then
        some (Notice.interrupted d.handler d.regs.pc) else none := by
    rw [← h.outside.phase, ← hpc]
    by_cases hp : c.phase = .execute
    · have hi := h.inside hp
      rw [hi.step, hi.handler]
    · rw [if_neg (by simp [hp]), if_neg (by simp [hp])]
  cases op with
  | fetchOpcode => simp only [notice?, hpc, h.outside.pins]
  | jam => simp only [notice?, hpc]
  | _ => exact hother

/-! ### The beginning of a program -/

theorem alike_start {c d : Cpu} (h : SameOutside c d) {program : List MicroOp}
    (hn : ∀ l, needs l program = false) (handler : Handler) (polls : Bool) :
    Alike (c.start program handler polls) (d.start program handler polls) where
  outside := ⟨h.regs, h.pins, h.decimalAdder, rfl, h.nmiPending⟩
  inside _ := by
    refine ⟨rfl, rfl, rfl, rfl, rfl, ?_, ?_⟩
    · intro hl
      have ha := hn .address
      simp [ahead, start, ha] at hl
    · intro hl
      have ha := hn .operand
      simp [ahead, start, ha] at hl

theorem alike_decode {c d : Cpu} (h : SameOutside c d) (opcode : UInt8) :
    Alike (c.decode opcode) (d.decode opcode) := by
  have hs := alike_start h (fun l => needs_program l (Instruction.ofOpcode opcode)) .irq
    (Instruction.ofOpcode opcode).polls
  refine ⟨⟨h.regs, h.pins, h.decimalAdder, rfl, h.nmiPending⟩, ?_⟩
  intro hp
  have hi := hs.inside hp
  exact ⟨rfl, rfl, rfl, rfl, rfl, hi.address, hi.operand⟩

theorem alike_fetched {c d : Cpu} (h : SameOutside c d) :
    Alike (c.complete .fetchOpcode) (d.complete .fetchOpcode) := by
  have ho : SameOutside { c with pins.sync := false } { d with pins.sync := false } :=
    ⟨h.regs, congrArg (fun p : Pins => { p with sync := false }) h.pins, h.decimalAdder, h.phase,
      h.nmiPending⟩
  have hall : ∀ byte, c.pins.data = byte →
      Alike (({ c with pins.sync := false } : Cpu).decode c.pins.data)
        (({ d with pins.sync := false } : Cpu).decode byte) := by
    rintro _ rfl
    exact alike_decode ho _
  exact hall d.pins.data (by rw [h.pins])

theorem alike_of_idle {c d : Cpu} (h : SameOutside c d) (hp : c.phase ≠ .execute) : Alike c d where
  outside := h
  inside he := absurd he hp

theorem alike_poll {c d : Cpu} (h : SameOutside c d) (hm : c.irqMasked = d.irqMasked) :
    Alike c.poll d.poll := by
  obtain ⟨hregs, hpins, hadder, hphase, hnmi⟩ := h
  have hserved : SameOutside { c with nmiPending := false } { d with nmiPending := false } :=
    ⟨hregs, hpins, hadder, hphase, rfl⟩
  unfold poll
  by_cases hn : d.nmiPending = true
  · rw [if_pos (hnmi.trans hn), if_pos hn]
    exact alike_start hserved needs_interruptProgram _ _
  · rw [if_neg (by rw [hnmi]; exact hn), if_neg hn]
    by_cases hi : d.pins.irq = true ∧ d.irqMasked = false
    · rw [if_pos (by rw [hpins, hm]; exact hi), if_pos hi]
      exact alike_start ⟨hregs, hpins, hadder, hphase, hnmi⟩ needs_interruptProgram _ _
    · rw [if_neg (by rw [hpins, hm]; exact hi), if_neg hi]
      exact alike_of_idle ⟨hregs, hpins, hadder, rfl, hnmi⟩ (by simp)

theorem alike_settle {c d : Cpu} (h : Alike c d) (masked : Bool) :
    Alike (c.settle masked) (d.settle masked) := by
  by_cases hp : c.phase = .execute
  · have hi := h.inside hp
    have ha : d.ahead = c.ahead := by
      unfold ahead
      rw [hi.program, hi.step]
    have hd : d.phase = .execute := h.outside.phase.symm.trans hp
    by_cases hc : c.ahead = []
    · rw [settle_of_end hp hc, settle_of_end hd (ha.trans hc), hi.polls]
      obtain ⟨hregs, hpins, hadder, hphase, hnmi⟩ := h.outside
      split
      · exact alike_poll ⟨hregs, hpins, hadder, hphase, hnmi⟩ rfl
      · exact alike_of_idle ⟨hregs, hpins, hadder, rfl, hnmi⟩ (by simp)
    · rw [settle_of_ahead hc, settle_of_ahead (by rw [ha]; exact hc)]
      exact h
  · rw [settle_of_idle hp, settle_of_idle (by rw [← h.outside.phase]; exact hp)]
    exact h

/-! ### One micro-operation -/

section

variable {op : MicroOp} {c : Cpu} {z : Stale}

/-- The latches that a micro-operation uses agree. -/
structure Stale.Fits (op : MicroOp) (c : Cpu) (z : Stale) : Prop where
  address : op.reads .address = true → c.address = z.address
  operand : op.reads .operand = true → c.operand = z.operand

theorem prepareStore_withStale (op : StoreOp) (h : c.address = z.address) :
    ∃ z', (c.withStale z).prepareStore op =
        ((c.prepareStore op).1.withStale z', (c.prepareStore op).2) ∧
      z'.operand = z.operand ∧ (c.prepareStore op).1.address = z'.address := by
  obtain ⟨brk, unused, i, address, operand, masked, ticks, total, trapId⟩ := z
  obtain rfl : c.address = address := h
  obtain ⟨hsource, happly⟩ := c.regs.storeOp_setHidden brk unused op
  simp only [prepareStore, unstableValue, withStale, hsource, happly]
  split
  · exact ⟨⟨brk, unused, i, _, operand, masked, ticks, total, trapId⟩, rfl, rfl, rfl⟩
  · exact ⟨⟨brk, unused, i, c.address, operand, masked, ticks, total, trapId⟩, rfl, rfl, rfl⟩

theorem stealVector_withStale : (c.withStale z).stealVector = c.stealVector.withStale z := by
  have hhandler : (c.withStale z).handler = c.handler := rfl
  have hnmi : (c.withStale z).nmiPending = c.nmiPending := rfl
  simp only [stealVector, hhandler, hnmi]
  split <;> rfl

/-- The access is the same, and so is the address if it was before. -/
theorem prepare_withStale (h : z.Fits op c) :
    ∃ z', (c.withStale z).prepare op = ((c.prepare op).1.withStale z', (c.prepare op).2) ∧
      z'.operand = z.operand ∧
      (c.address = z.address → (c.prepare op).1.address = z'.address) := by
  cases op with
  | write op =>
    obtain ⟨z', hz, ho, ha⟩ := prepareStore_withStale op (h.address rfl)
    exact ⟨z', hz, ho, fun _ => ha⟩
  | vectorLow =>
    have ha : c.stealVector.address = c.address := by
      unfold stealVector
      split <;> rfl
    refine ⟨z, ?_, rfl, ha.trans⟩
    simp only [prepare, stealVector_withStale]
    rfl
  | push what =>
    refine ⟨z, ?_, rfl, id⟩
    cases what <;> rfl
  | indexZeroPage _ | pointerLow | pointerHigh | pointerHighIndexed _ | jumpIndirect | read _
  | modifyRead | fixPageIfCrossed | fixPage | branchFixPage =>
    obtain ⟨brk, unused, i, address, operand, masked, ticks, total, trapId⟩ := z
    obtain rfl := h.address rfl
    exact ⟨_, rfl, rfl, fun _ => rfl⟩
  | modifyHold _ | modifyWrite =>
    obtain ⟨brk, unused, i, address, operand, masked, ticks, total, trapId⟩ := z
    obtain rfl := h.address rfl
    obtain rfl := h.operand rfl
    exact ⟨_, rfl, rfl, fun _ => rfl⟩
  | _ => exact ⟨z, rfl, rfl, id⟩

theorem outside_apply (hop : op ≠ .fetchOpcode) (h : z.Fits op c) (byte : UInt8) :
    SameOutside (c.apply op byte) ((c.withStale z).apply op byte) := by
  obtain ⟨brk, unused, i, address, operand, masked, ticks, total, id⟩ := z
  obtain ⟨ha, ho⟩ := h
  cases op with
  | fetchOpcode => exact absurd rfl hop
  | implied op =>
    exact ⟨(c.regs.visible_registerOp brk unused op).symm, rfl, rfl, rfl, rfl⟩
  | accumulator op => exact ⟨(c.regs.visible_shift brk unused op).symm, rfl, rfl, rfl, rfl⟩
  | immediate op | read op =>
    exact ⟨(c.regs.visible_readOp brk unused c.decimalAdder op byte).symm, rfl, rfl, rfl, rfl⟩
  | modifyHold op =>
    obtain rfl := ho rfl
    exact ⟨(c.regs.modifyOp_setHidden brk unused c.decimalAdder op c.operand).2.symm, rfl, rfl, rfl,
      rfl⟩
  | pullPcHigh | vectorHigh | jumpIndirect =>
    obtain rfl := ho rfl
    exact ⟨rfl, rfl, rfl, rfl, rfl⟩
  | jump | branchFixPage =>
    obtain rfl := ha rfl
    exact ⟨rfl, rfl, rfl, rfl, rfl⟩
  | branchOffset condition =>
    have hc := c.regs.condition_setHidden brk unused condition
    simp only [apply, withStale, hc]
    split <;> exact ⟨rfl, rfl, rfl, rfl, rfl⟩
  | branchTaken =>
    obtain rfl := ho rfl
    have hpc : (c.regs.setHidden brk unused).pc = c.regs.pc := rfl
    simp only [apply, withStale, hpc]
    split <;> exact ⟨rfl, rfl, rfl, rfl, rfl⟩
  | _ => exact ⟨rfl, rfl, rfl, rfl, rfl⟩

theorem place_apply (hop : op ≠ .fetchOpcode) (h : z.Fits op c) (byte : UInt8) :
    (c.apply op byte).step = ((c.withStale z).apply op byte).step ∧
      (c.apply op byte).crossed = ((c.withStale z).apply op byte).crossed := by
  obtain ⟨brk, unused, i, address, operand, masked, ticks, total, id⟩ := z
  obtain ⟨ha, ho⟩ := h
  cases op with
  | fetchOpcode => exact absurd rfl hop
  | addressHighIndexed i =>
    obtain rfl := ha rfl
    cases i <;> exact ⟨rfl, rfl⟩
  | pointerHighIndexed i =>
    obtain rfl := ho rfl
    cases i <;> exact ⟨rfl, rfl⟩
  | branchOffset condition =>
    have hc := c.regs.condition_setHidden brk unused condition
    simp only [apply, withStale, hc]
    split <;> exact ⟨rfl, rfl⟩
  | branchTaken =>
    obtain rfl := ho rfl
    have hpc : (c.regs.setHidden brk unused).pc = c.regs.pc := rfl
    simp only [apply, withStale, hpc]
    split <;> exact ⟨rfl, rfl⟩
  | _ => exact ⟨rfl, rfl⟩

/-- A latch that is not left behind holds the same afterwards, unless the program has ended. -/
theorem latches_apply (hop : op ≠ .fetchOpcode) (h : z.Fits op c) (byte : UInt8)
    (hahead : (c.apply op byte).ahead ≠ []) :
    ((op.sets .address = false → c.address = z.address) →
      (c.apply op byte).address = ((c.withStale z).apply op byte).address) ∧
    ((op.sets .operand = false → c.operand = z.operand) →
      (c.apply op byte).operand = ((c.withStale z).apply op byte).operand) := by
  obtain ⟨brk, unused, i, address, operand, masked, ticks, total, id⟩ := z
  obtain ⟨ha, ho⟩ := h
  cases op with
  | fetchOpcode => exact absurd rfl hop
  | branchOffset condition =>
    have hc := c.regs.condition_setHidden brk unused condition
    simp only [apply, withStale, hc]
    split <;> exact ⟨fun h => h rfl, fun _ => rfl⟩
  | branchTaken =>
    obtain rfl := ho rfl
    have hpc : (c.regs.setHidden brk unused).pc = c.regs.pc := rfl
    simp only [apply] at hahead
    simp only [apply, withStale, hpc]
    split
    · rename_i hs
      rw [if_pos hs] at hahead
      exact absurd (List.drop_length) hahead
    · exact ⟨fun _ => rfl, fun _ => rfl⟩
  | modifyHold op =>
    obtain rfl := ho rfl
    exact ⟨fun h => h rfl,
      fun _ => (c.regs.modifyOp_setHidden brk unused c.decimalAdder op c.operand).1.symm⟩
  | addressHighIndexed i =>
    obtain rfl := ha rfl
    cases i <;> exact ⟨fun _ => rfl, fun h => h rfl⟩
  | indexZeroPage i =>
    obtain rfl := ha rfl
    cases i <;> exact ⟨fun _ => rfl, fun h => h rfl⟩
  | pointerHighIndexed i =>
    obtain rfl := ho rfl
    cases i <;> exact ⟨fun _ => rfl, fun h => h rfl⟩
  | addressHigh =>
    obtain rfl := ha rfl
    exact ⟨fun _ => rfl, fun h => h rfl⟩
  | pointerHigh =>
    obtain rfl := ho rfl
    exact ⟨fun _ => rfl, fun h => h rfl⟩
  | addressLow => exact ⟨fun _ => rfl, fun h => h rfl⟩
  | pointerLow | modifyRead | pullPcLow | vectorLow => exact ⟨fun h => h rfl, fun _ => rfl⟩
  | _ => exact ⟨fun h => h rfl, fun h => h rfl⟩

theorem apply_alike (hop : op ≠ .fetchOpcode)
    (ha : needs .address (op :: c.ahead) = true → c.address = z.address)
    (ho : needs .operand (op :: c.ahead) = true → c.operand = z.operand) (byte : UInt8) :
    Alike (c.apply op byte) ((c.withStale z).apply op byte) := by
  have hfits : z.Fits op c :=
    ⟨fun h => ha (needs_of_reads h _), fun h => ho (needs_of_reads h _)⟩
  obtain ⟨hstep, hcrossed⟩ := place_apply hop hfits byte
  have hlatches := latches_apply hop hfits byte
  -- A latch that is needed afterwards has been set now or was needed before.
  have hkeep : ∀ l, needs l (c.apply op byte).ahead = true →
      (c.apply op byte).ahead ≠ [] ∧ (op.sets l = false → needs l (op :: c.ahead) = true) := by
    intro l hl
    rcases ahead_apply hop byte c with hc | hc
    · refine ⟨?_, fun hs => needs_of_tail hs (hc ▸ hl)⟩
      intro hnil
      simp [hnil, needs] at hl
    · simp [hc, needs] at hl
  refine ⟨outside_apply hop hfits byte, fun _ => ?_⟩
  refine ⟨?_, hstep, hcrossed, ?_, ?_, ?_, ?_⟩
  · rw [program_apply hop, program_apply hop]
    rfl
  · rw [handler_apply hop, handler_apply hop]
    rfl
  · rw [polls_apply hop, polls_apply hop]
    rfl
  · intro hl
    obtain ⟨hne, hneeds⟩ := hkeep .address hl
    exact (hlatches hne).1 fun hs => ha (hneeds hs)
  · intro hl
    obtain ⟨hne, hneeds⟩ := hkeep .operand hl
    exact (hlatches hne).2 fun hs => ho (hneeds hs)

theorem complete_alike (hop : op ≠ .fetchOpcode)
    (ha : needs .address (op :: c.ahead) = true → c.address = z.address)
    (ho : needs .operand (op :: c.ahead) = true → c.operand = z.operand) :
    Alike (c.complete op) ((c.withStale z).complete op) := by
  rw [complete_eq hop, complete_eq hop]
  exact alike_settle (apply_alike hop ha ho c.pins.data) _

end

/-! ### Ticks -/

/-- What is needed of the latches after a page correction that was left out was needed before. -/
theorem needs_upcoming {l : Latch} {c : Cpu} (h : needs l c.upcoming = true) :
    needs l c.ahead = true := by
  unfold upcoming at h
  split at h
  · rename_i hs
    obtain ⟨ops, ha⟩ := List.head?_eq_some_iff.1 hs.1
    rw [ha, List.tail_cons] at h
    rw [ha]
    cases l with
    | address => rfl
    | operand => exact needs_of_tail rfl h
  · exact h

theorem upcoming_of_next {c d : Cpu} {op : MicroOp} (hp : c.phase = .execute)
    (h : c.next = .ok (op, d)) : c.upcoming = op :: d.ahead := by
  cases hu : c.upcoming with
  | nil =>
    obtain ⟨n, hn⟩ := next_of_end hp hu
    rw [hn] at h
    cases h
  | cons x xs =>
    rw [next_of_execute hp hu] at h
    obtain ⟨rfl, rfl⟩ := Prod.mk.inj (Except.ok.inj h)
    rw [ahead_moveTo ((List.suffix_cons x xs).trans (hu ▸ c.upcoming_suffix))]

/-- The machines make the same access next and cannot be told apart after it, whatever the answer.
-/
structure SameNext (op : MicroOp) (c d c' d' : Cpu) : Prop where
  left : c.next = .ok (op, c')
  right : d.next = .ok (op, d')
  access : (c'.prepare op).2 = (d'.prepare op).2
  pins : (c'.prepare op).1.pins = (d'.prepare op).1.pins
  nmiPending : (c'.prepare op).1.nmiPending = (d'.prepare op).1.nmiPending
  done (x : Exchange) : Alike (((c'.prepare op).1.receive x).complete op)
    (((d'.prepare op).1.receive x).complete op)

theorem SameNext.tick {op : MicroOp} {c d c' d' : Cpu} (h : SameNext op c d c' d')
    (patience : Nat) (host : Host σ) (s : σ) :
    EndAlike (fun a b => Alike a.1 b.1 ∧ a.2 = b.2) (c.tick patience host s)
      (d.tick patience host s) := by
  rw [tick_of_next h.left, tick_of_next h.right, h.access, h.pins, h.nmiPending]
  cases host.exchange patience (d'.prepare op).2 (d'.prepare op).1.pins
      (d'.prepare op).1.nmiPending s with
  | error stop => exact .error stop
  | ok r =>
    refine .ok ⟨h.done r.1, ?_⟩
    simp only [finishTick, (h.done r.1).notice op]

theorem sameNext_execute {op : MicroOp} {c d c' d' : Cpu}
    (hc : c.next = .ok (op, c')) (hd : d.next = .ok (op, d')) (ho : SameOutside c' d')
    (hi : SameInside (op :: c'.ahead) c' d') : SameNext op c d c' d' := by
  have hstale := eq_withStale ho hi
  generalize d'.stale = z at hstale
  subst hstale
  have hfits : z.Fits op c' :=
    ⟨fun h => hi.address (needs_of_reads h _), fun h => hi.operand (needs_of_reads h _)⟩
  obtain ⟨z', hz, hoperand, haddress⟩ := prepare_withStale hfits
  refine ⟨hc, hd, ?_, ?_, ?_, ?_⟩
  · rw [hz]
  · rw [hz]
    rfl
  · rw [hz]
    rfl
  · intro x
    rw [hz]
    have hreceive : ((c'.prepare op).1.withStale z').receive x =
        ((c'.prepare op).1.receive x).withStale { z' with
          ticks := z'.ticks + UInt32.ofNat x.cycles
          total := ⟨z'.total.count + x.cycles⟩ } := rfl
    have hahead : ((c'.prepare op).1.receive x).ahead = c'.ahead := ahead_prepare op c'
    rw [hreceive]
    by_cases hop : op = .fetchOpcode
    · subst hop
      exact alike_fetched ⟨rfl, rfl, rfl, rfl, rfl⟩
    · apply complete_alike hop
      · rw [hahead]
        intro hl
        exact haddress (hi.address hl)
      · rw [hahead]
        intro hl
        have hkept : (c'.prepare op).1.operand = c'.operand := by rw [prepare_frame]
        exact hkept.trans ((hi.operand hl).trans hoperand.symm)

theorem Alike.sameNext {c d : Cpu} (h : Alike c d) :
    (∃ cause, c.next = .error cause ∧ d.next = .error cause) ∨
      ∃ op c' d', SameNext op c d c' d' := by
  have hphase := h.outside.phase
  cases hp : c.phase with
  | fetch =>
    rw [hp] at hphase
    have hpc := congrArg Registers.pc h.outside.regs
    refine Or.inr ⟨.fetchOpcode, c, d, next_fetch hp, next_fetch hphase.symm, ?_, ?_, ?_, ?_⟩
    · exact congrArg Access.read hpc
    · exact congrArg (fun p : Pins => { p with sync := true }) h.outside.pins
    · exact h.outside.nmiPending
    · intro x
      apply alike_fetched
      exact ⟨congrArg Registers.advance h.outside.regs, rfl, h.outside.decimalAdder,
        h.outside.phase, rfl⟩
  | jammed =>
    rw [hp] at hphase
    refine Or.inr ⟨.stuck, c, d, next_stuck hp, next_stuck hphase.symm, ?_, ?_, ?_, ?_⟩
    · rfl
    · exact h.outside.pins
    · exact h.outside.nmiPending
    · intro x
      have ho : SameOutside (c.receive x) (d.receive x) :=
        ⟨h.outside.regs, rfl, h.outside.decimalAdder, h.outside.phase, rfl⟩
      have hidle : (c.receive x).phase ≠ .execute := by simp [receive, hp]
      have hmasked := congrArg (fun r : Registers => r.p.irqDisable) h.outside.regs
      show Alike ((c.receive x).settle c.regs.p.irqDisable)
        ((d.receive x).settle d.regs.p.irqDisable)
      rw [show c.regs.p.irqDisable = d.regs.p.irqDisable from hmasked]
      exact alike_settle (alike_of_idle ho hidle) _
  | execute =>
    have hi := h.inside hp
    rcases next_alike hphase fun _ => ⟨hi.program, hi.step, hi.crossed⟩ with
      ⟨cause, hc, hd⟩ | ⟨op, c', d', hc, hd, hs⟩
    · exact Or.inl ⟨cause, hc, hd⟩
    · have hc' : c' = { c with step := d'.step } := by rw [next_frame hc, hs hi.step]
      have hd' : d' = { d with step := d'.step } := next_frame hd
      have ho' : SameOutside c' d' := by
        rw [hc', hd']
        exact ⟨h.outside.regs, h.outside.pins, h.outside.decimalAdder, h.outside.phase,
          h.outside.nmiPending⟩
      have hneeds : ∀ l, needs l (op :: c'.ahead) = true → needs l c.ahead = true := by
        intro l hl
        rw [← upcoming_of_next hp hc] at hl
        exact needs_upcoming hl
      have hi' : SameInside (op :: c'.ahead) c' d' := by
        have hmoved := hi.moved hneeds d'.step
        rwa [← hc', ← hd'] at hmoved
      exact Or.inr ⟨op, c', d', sameNext_execute hc hd ho' hi'⟩

theorem tick_alike (patience : Nat) (host : Host σ) {c d : Cpu} (h : Alike c d) (s : σ) :
    EndAlike (fun a b => Alike a.1 b.1 ∧ a.2 = b.2) (c.tick patience host s)
      (d.tick patience host s) := by
  rcases h.sameNext with ⟨cause, hc, hd⟩ | ⟨op, c', d', hn⟩
  · simp only [tick_eq, hc, hd]
    exact .error _
  · exact hn.tick patience host s

/-- No hidden state crosses an instruction boundary: machines that agree on what can be seen at the
boundary make the same bus cycles on every host, and what can be seen of them stays the same. -/
theorem ticking_of_sameOutside (host : Host σ) (patience n : Nat) {c d : Cpu}
    (h : SameOutside c d) (hb : c.atBoundary = true) (s : σ) :
    EndAlike (fun a b => SameOutside a.1 b.1 ∧ a.2 = b.2)
      (c.ticking patience host.logged n ([], s)) (d.ticking patience host.logged n ([], s)) := by
  have hidle : c.phase ≠ .execute := by
    simp only [atBoundary, decide_eq_true_eq] at hb
    simp [hb]
  have hstart : Alike c d ∧ (([], s) : List BusCycle × σ) = ([], s) := ⟨alike_of_idle h hidle, rfl⟩
  have hrun := ticking_alike (R := fun a b => Alike a.1 b.1 ∧ a.2 = b.2)
    (fun c s d t hcd => by
      obtain ⟨hcd, rfl⟩ : Alike c d ∧ s = t := hcd
      exact tick_alike patience host.logged hcd s) n hstart
  refine hrun.mono ?_
  rintro a b ⟨hab, hst⟩
  exact ⟨hab.outside, hst⟩

/-- A machine at power on with something left in every latch. -/
def cluttered : Cpu :=
  { Cpu.powerOn .plain with
    regs := Registers.powerOn.setHidden true false, instruction := .rti, program := interruptProgram
    step := 3, address := 0x1234, operand := 0x56, crossed := true, handler := .nmi, polls := false
    irqMasked := false, ticks := 7, total := ⟨8⟩, trapId := some 9 }

theorem ticking_cluttered :
    EndAlike (fun a b => SameOutside a.1 b.1 ∧ a.2 = b.2)
      ((Cpu.powerOn .plain).ticking 0 (Host.logged ⟨fun p s => (p, s), fun _ s => s⟩) 9 ([], ()))
      (cluttered.ticking 0 (Host.logged ⟨fun p s => (p, s), fun _ s => s⟩) 9 ([], ())) := by
  have h : SameOutside (Cpu.powerOn .plain) cluttered := ⟨rfl, rfl, rfl, rfl, rfl⟩
  exact ticking_of_sameOutside _ 0 9 h rfl ()

end Cpu

end Nmos6502
