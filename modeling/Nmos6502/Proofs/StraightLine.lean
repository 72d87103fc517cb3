import Nmos6502.Proofs.Ram

/-! # Programs as straight-line code

On flat memory without interrupts a program is a list of steps on registers, latches and memory.
Pins, clocks and the place in the program drop out, and so do ticks: an instruction is one pass
through its program. -/

namespace Nmos6502

/-- What programs work on. -/
structure Core where
  regs : Registers
  decimalAdder : Bool
  address : UInt16
  operand : UInt8
  crossed : Bool
  memory : Memory

namespace Core

def ofCpu (c : Cpu) (m : Memory) : Core :=
  ⟨c.regs, c.decimalAdder, c.address, c.operand, c.crossed, m⟩

def cpu (k : Core) : Cpu :=
  { Cpu.powerOn .plain with
    regs := k.regs, decimalAdder := k.decimalAdder, phase := .execute, address := k.address
    operand := k.operand, crossed := k.crossed }

def access (op : MicroOp) (k : Core) : Access := (k.cpu.prepare op).2

def exec (op : MicroOp) (k : Core) : Core :=
  ofCpu ((k.cpu.prepare op).1.apply op ((k.access op).byte k.memory)) ((k.access op).store k.memory)

/-- The rest of the program is left out: a branch that is not taken, or that stays in its page. -/
def ends (op : MicroOp) (k : Core) : Bool :=
  match op with
  | .branchOffset condition => !condition.holds k.regs.p
  | .branchTaken => samePage (k.regs.pc + signExtend k.operand) k.regs.pc
  | _ => false

/-- The core after a program, and the accesses that the program made. -/
def run : List MicroOp → Core → Core × List Access
  | [], k => (k, [])
  | op :: ops, k =>
    if op = .fixPageIfCrossed ∧ k.crossed = false then run ops k
    else if k.ends op then (k.exec op, [k.access op])
    else ((run ops (k.exec op)).1, k.access op :: (run ops (k.exec op)).2)

theorem run_skip {k : Core} (h : k.crossed = false) (ops : List MicroOp) :
    run (.fixPageIfCrossed :: ops) k = run ops k := by
  simp [run, h]

theorem ne_of_ends {op : MicroOp} {k : Core} (h : k.ends op = true) : op ≠ .fixPageIfCrossed := by
  rintro rfl
  cases h

theorem run_last {op : MicroOp} {k : Core} (h : k.ends op = true) (ops : List MicroOp) :
    run (op :: ops) k = (k.exec op, [k.access op]) := by
  simp [run, ne_of_ends h, h]

theorem run_cons {op : MicroOp} {k : Core} (hop : ¬(op = .fixPageIfCrossed ∧ k.crossed = false))
    (h : k.ends op = false) (ops : List MicroOp) :
    run (op :: ops) k = ((run ops (k.exec op)).1, k.access op :: (run ops (k.exec op)).2) := by
  simp [run, hop, h]

theorem run_end {op : MicroOp} {ops : List MicroOp} {k : Core}
    (hop : ¬(op = .fixPageIfCrossed ∧ k.crossed = false)) (h : k.ends op = true ∨ ops = []) :
    run (op :: ops) k = (k.exec op, [k.access op]) := by
  by_cases he : k.ends op = true
  · exact run_last he ops
  · obtain rfl : ops = [] := h.resolve_left he
    rw [run_cons hop (by simpa using he)]
    rfl

/-- A program begins with a micro-operation that takes a cycle, perhaps after a page correction that
takes none. -/
theorem run_upcoming {ops : List MicroOp} (hr : runnable ops = true) (hne : ops ≠ []) (k : Core) :
    ∃ op rest, (if ops.head? = some .fixPageIfCrossed ∧ k.crossed = false then ops.tail else ops) =
        op :: rest ∧
      run ops k = run (op :: rest) k ∧ ¬(op = .fixPageIfCrossed ∧ k.crossed = false) ∧
      op :: rest <:+ ops := by
  cases ops with
  | nil => exact absurd rfl hne
  | cons op ops =>
    by_cases hs : op = .fixPageIfCrossed ∧ k.crossed = false
    · obtain ⟨rfl, hcrossed⟩ := hs
      cases ops with
      | nil => simp [runnable] at hr
      | cons y ys =>
        refine ⟨y, ys, if_pos ⟨rfl, hcrossed⟩, run_skip hcrossed _, ?_, List.suffix_cons _ _⟩
        rintro ⟨rfl, -⟩
        simp [runnable] at hr
    · exact ⟨op, ops, if_neg (by simpa using hs), rfl, hs, List.suffix_rfl⟩

/-! ### Straight parts -/

/-- The micro-operation is neither left out nor followed by the end of the program. -/
def straight : MicroOp → Bool
  | .fixPageIfCrossed | .branchOffset _ | .branchTaken => false
  | _ => true

/-- One micro-operation after the other. -/
def execs : List MicroOp → Core → Core × List Access
  | [], k => (k, [])
  | op :: ops, k => ((execs ops (k.exec op)).1, k.access op :: (execs ops (k.exec op)).2)

theorem run_straight {ops : List MicroOp} (h : ops.all straight = true) (rest : List MicroOp)
    (k : Core) :
    run (ops ++ rest) k =
      ((run rest (execs ops k).1).1, (execs ops k).2 ++ (run rest (execs ops k).1).2) := by
  induction ops generalizing k with
  | nil => rfl
  | cons op ops ih =>
    simp only [List.all_cons, Bool.and_eq_true] at h
    obtain ⟨hop, hops⟩ := h
    have hskip : ¬(op = .fixPageIfCrossed ∧ k.crossed = false) := by
      rintro ⟨rfl, -⟩
      cases hop
    have hends : k.ends op = false := by
      cases op <;> first | rfl | cases hop
    rw [List.cons_append, run_cons hskip hends, ih hops]
    rfl

theorem run_eq_execs {ops : List MicroOp} (h : ops.all straight = true) (k : Core) :
    run ops k = execs ops k := by
  have hr := run_straight h [] k
  rw [List.append_nil] at hr
  rw [hr]
  simp only [run, List.append_nil]

end Core

namespace Cpu

open Nmos6502.Core

/-! ### One micro-operation -/

/-- The machine runs a program that no interrupt disturbs. -/
structure Undisturbed (c : Cpu) : Prop where
  phase : c.phase = .execute
  handler : c.handler = .irq
  nmiPending : c.nmiPending = false
  sync : c.pins.sync = false

theorem stealVector_of_undisturbed {c : Cpu} (h : c.Undisturbed) : c.stealVector = c := by
  simp [stealVector, h.nmiPending]

/-- If the micro-operation reads a vector, it is that of IRQ and BRK. -/
def KeepsVector (op : MicroOp) (c : Cpu) : Prop :=
  op = .vectorLow ∨ op = .vectorHigh → c.handler = .irq ∧ c.stealVector = c

theorem Undisturbed.keepsVector {c : Cpu} (h : c.Undisturbed) (op : MicroOp) : c.KeepsVector op :=
  fun _ => ⟨h.handler, stealVector_of_undisturbed h⟩

theorem access_core {op : MicroOp} {c : Cpu} (h : c.KeepsVector op) (m : Memory) :
    (c.prepare op).2 = (Core.ofCpu c m).access op := by
  cases op with
  | vectorLow =>
    obtain ⟨hhandler, hsteal⟩ := h (Or.inl rfl)
    simp only [prepare, hsteal, hhandler]
    rfl
  | vectorHigh =>
    simp only [prepare, (h (Or.inr rfl)).1]
    rfl
  | write op => cases op <;> rfl
  | _ => rfl

theorem ofCpu_branchOffset (condition : Condition) (byte : UInt8) (c : Cpu) (m : Memory) :
    Core.ofCpu (c.apply (.branchOffset condition) byte) m =
      { Core.ofCpu c m with operand := byte } := by
  simp only [apply]
  split <;> rfl

theorem ofCpu_branchTaken (byte : UInt8) (c : Cpu) (m : Memory) :
    Core.ofCpu (c.apply .branchTaken byte) m =
      if samePage (c.regs.pc + signExtend c.operand) c.regs.pc then
        { Core.ofCpu c m with regs.pc := c.regs.pc + signExtend c.operand }
      else { Core.ofCpu c m with address := c.regs.pc + signExtend c.operand } := by
  simp only [apply]
  split <;> rfl

theorem exec_core {op : MicroOp} {c : Cpu} (h : c.KeepsVector op) (m : Memory) (x : Exchange) :
    Core.ofCpu (((c.prepare op).1.receive x).apply op ((c.prepare op).2.byte m))
        ((c.prepare op).2.store m) = (Core.ofCpu c m).exec op := by
  have hm : (Core.ofCpu c m).memory = m := rfl
  rw [Core.exec, hm, access_core h m]
  generalize ((Core.ofCpu c m).access op).byte m = byte
  generalize ((Core.ofCpu c m).access op).store m = m'
  cases op with
  | vectorLow =>
    simp only [prepare, (h (Or.inl rfl)).2]
    rfl
  | write op => cases op <;> rfl
  | branchOffset condition =>
    rw [ofCpu_branchOffset, ofCpu_branchOffset]
    rfl
  | branchTaken =>
    rw [ofCpu_branchTaken, ofCpu_branchTaken]
    rfl
  | _ => rfl

theorem ahead_branchOffset (condition : Condition) (byte : UInt8) (c : Cpu) :
    (c.apply (.branchOffset condition) byte).ahead =
      if condition.holds c.regs.p then c.ahead else [] := by
  simp only [apply]
  split
  · rfl
  · exact List.drop_length

theorem ahead_branchTaken (byte : UInt8) (c : Cpu) :
    (c.apply .branchTaken byte).ahead =
      if samePage (c.regs.pc + signExtend c.operand) c.regs.pc then [] else c.ahead := by
  simp only [apply]
  split
  · exact List.drop_length
  · rfl

theorem ahead_exec {op : MicroOp} (hop : op ≠ .fetchOpcode) (c : Cpu) (m : Memory) (x : Exchange)
    (byte : UInt8) :
    (((c.prepare op).1.receive x).apply op byte).ahead =
      if (Core.ofCpu c m).ends op then [] else c.ahead := by
  cases op with
  | fetchOpcode => exact absurd rfl hop
  | branchOffset condition =>
    rw [ahead_branchOffset]
    show (if condition.holds c.regs.p then c.ahead else []) =
      if !condition.holds c.regs.p then [] else c.ahead
    cases condition.holds c.regs.p <;> rfl
  | branchTaken =>
    rw [ahead_branchTaken]
    rfl
  | vectorLow =>
    rw [← ahead_prepare .vectorLow c]
    rfl
  | write op => cases op <;> rfl
  | _ => rfl

/-! ### Ticks -/

/-- No interrupt is taken at the end of a program while the lines are low. -/
theorem settle_of_quiet {c : Cpu} (hp : c.phase = .execute) (ha : c.ahead = [])
    (hn : c.nmiPending = false) (hi : c.pins.irq = false) (masked : Bool) :
    c.settle masked = { c with irqMasked := masked, phase := .fetch } := by
  rw [settle_of_end hp ha]
  split
  · simp [poll, hn, hi]
  · rfl

theorem Undisturbed.prepare {c : Cpu} (h : c.Undisturbed) {op : MicroOp}
    (hop : op ≠ .fetchOpcode) : (c.prepare op).1.Undisturbed := by
  cases op with
  | fetchOpcode => exact absurd rfl hop
  | vectorLow =>
    simp only [Cpu.prepare, stealVector_of_undisturbed h]
    exact h
  | write op => cases op <;> exact ⟨h.phase, h.handler, h.nmiPending, h.sync⟩
  | _ => exact ⟨h.phase, h.handler, h.nmiPending, h.sync⟩

theorem Undisturbed.apply {c : Cpu} (h : c.Undisturbed) {op : MicroOp} (hop : op ≠ .fetchOpcode)
    (hjam : op ≠ .jam) (byte : UInt8) : (c.apply op byte).Undisturbed := by
  refine ⟨?_, ?_, ?_, ?_⟩
  · rw [phase_apply hop hjam, h.phase]
  · rw [handler_apply hop, h.handler]
  · rw [apply_frame hop, h.nmiPending]
  · rw [apply_frame hop, h.sync]

/-- The machine between the access of a micro-operation and the end of its tick. -/
def midTick (sch : Schedule) (op : MicroOp) (ram : Ram) (c : Cpu) : Cpu :=
  ((c.prepare op).1.receive ⟨sch.answer (c.prepare op).2 (c.prepare op).1.pins ram,
    (c.prepare op).1.nmiPending || (sch.nmi ram.accesses && !(c.prepare op).1.pins.nmi),
    1⟩).apply op ((c.prepare op).2.byte ram.memory)

theorem phase_midTick (sch : Schedule) {op : MicroOp} (hop : op ≠ .fetchOpcode) (hjam : op ≠ .jam)
    (ram : Ram) (c : Cpu) : (c.midTick sch op ram).phase = c.phase := by
  rw [midTick, phase_apply hop hjam]
  exact phase_prepare op c

theorem program_midTick (sch : Schedule) {op : MicroOp} (hop : op ≠ .fetchOpcode) (ram : Ram)
    (c : Cpu) : (c.midTick sch op ram).program = c.program := by
  rw [midTick, program_apply hop, receive, prepare_frame]

theorem polls_midTick (sch : Schedule) {op : MicroOp} (hop : op ≠ .fetchOpcode) (ram : Ram)
    (c : Cpu) : (c.midTick sch op ram).polls = c.polls := by
  rw [midTick, polls_apply hop, receive, prepare_frame]

theorem ahead_midTick (sch : Schedule) {op : MicroOp} (hop : op ≠ .fetchOpcode) (ram : Ram)
    (c : Cpu) :
    (c.midTick sch op ram).ahead = if (Core.ofCpu c ram.memory).ends op then [] else c.ahead :=
  ahead_exec hop c ram.memory _ _

theorem ofCpu_midTick (sch : Schedule) {op : MicroOp} {c : Cpu} (h : c.KeepsVector op) (ram : Ram) :
    Core.ofCpu (c.midTick sch op ram) ((c.prepare op).2.store ram.memory) =
      (Core.ofCpu c ram.memory).exec op :=
  exec_core h ram.memory _

theorem performed_eq (sch : Schedule) {op : MicroOp} (hop : op ≠ .fetchOpcode) (c : Cpu)
    (ram : Ram) :
    sch.performed op c ram 0 =
      (c.midTick sch op ram).settle (c.prepare op).1.regs.p.irqDisable := by
  rw [Schedule.performed, complete_eq hop]
  rfl

/-- A tick on a host that holds no read: the work of a micro-operation and the end of its tick. -/
theorem tick_midTick {sch : Schedule} (hsch : ∀ n a, sch.holds n a = 0) {c : Cpu}
    (hp : c.phase = .execute) {op : MicroOp} {ops : List MicroOp} (hu : c.upcoming = op :: ops)
    (hop : op ≠ .fetchOpcode) (log : List BusCycle) (ram : Ram) (hram : ram.held = 0) :
    ∃ b, c.tick 0 sch.host.logged (log, ram) =
        .ok (((c.moveTo ops).midTick sch op ram).settle
            ((c.moveTo ops).prepare op).1.regs.p.irqDisable,
          log ++ [b], ram.after ((c.moveTo ops).prepare op).2) ∧
      b.driven.access = ((c.moveTo ops).prepare op).2 ∧
      b.driven.sync = ((c.moveTo ops).prepare op).1.pins.sync := by
  obtain ⟨hs, p, -, hlen, hreq, ht⟩ := sch.tick_logged (next_of_execute hp hu) log ram hram 0
    (Nat.le_of_eq (hsch _ _))
  obtain rfl : hs = [] := List.eq_nil_of_length_eq_zero (hlen.trans (hsch _ _))
  rw [List.append_nil, List.length_nil, performed_eq sch hop] at ht
  refine ⟨_, ht, hreq.access.trans (Pins.access_drive _ _), ?_⟩
  exact hreq.sync.trans (Pins.sync_drive _ _)

theorem undisturbed_midTick {c : Cpu} (h : c.Undisturbed) {op : MicroOp} (hop : op ≠ .fetchOpcode)
    (hjam : op ≠ .jam) (ram : Ram) : (c.midTick .quiet op ram).Undisturbed := by
  have hp := h.prepare hop
  apply Undisturbed.apply _ hop hjam
  refine ⟨hp.phase, hp.handler, ?_, ?_⟩
  · simp [receive, hp.nmiPending, Schedule.quiet]
  · simp [receive, Schedule.answer, hp.sync]

theorem irq_midTick {op : MicroOp} (hop : op ≠ .fetchOpcode) (c : Cpu) (ram : Ram) :
    (c.midTick .quiet op ram).pins.irq = false := by
  rw [midTick, apply_frame hop]
  rfl

theorem tick_undisturbed {c : Cpu} (h : c.Undisturbed) {op : MicroOp} {ops : List MicroOp}
    (hu : c.upcoming = op :: ops) (hop : op ≠ .fetchOpcode) (hjam : op ≠ .jam)
    (log : List BusCycle) (ram : Ram) (hram : ram.held = 0) :
    ∃ c' b, c.tick 0 Schedule.quiet.host.logged (log, ram) =
        .ok (c', log ++ [b], ram.after ((Core.ofCpu c ram.memory).access op)) ∧
      b.driven.access = (Core.ofCpu c ram.memory).access op ∧ b.driven.sync = false ∧
      Core.ofCpu c' (((Core.ofCpu c ram.memory).access op).store ram.memory) =
        (Core.ofCpu c ram.memory).exec op ∧
      if (Core.ofCpu c ram.memory).ends op = true ∨ ops = [] then
        c'.atBoundary = true ∧ c'.nmiPending = false
      else c'.Undisturbed ∧ c'.ahead = ops := by
  have hd : (c.moveTo ops).Undisturbed := ⟨h.phase, h.handler, h.nmiPending, h.sync⟩
  have hahead : (c.moveTo ops).ahead = ops :=
    ahead_moveTo ((List.suffix_cons op ops).trans (hu ▸ c.upcoming_suffix))
  have hcore : Core.ofCpu (c.moveTo ops) ram.memory = Core.ofCpu c ram.memory := rfl
  have hholds : ∀ n a, Schedule.quiet.holds n a = 0 := fun _ a => by cases a <;> rfl
  obtain ⟨b, ht, haccess, hsync⟩ := tick_midTick hholds h.phase hu hop log ram hram
  generalize c.moveTo ops = d at hd hahead hcore ht haccess hsync
  rw [← hcore]
  have hmid := undisturbed_midTick hd hop hjam ram
  have hexec := ofCpu_midTick .quiet (hd.keepsVector op) ram
  have hmidAhead := ahead_midTick .quiet hop ram d
  rw [hahead] at hmidAhead
  rw [← access_core (hd.keepsVector op) ram.memory]
  refine ⟨_, b, ht, haccess, hsync.trans (hd.prepare hop).sync, ?_⟩
  by_cases hend : (Core.ofCpu d ram.memory).ends op = true ∨ ops = []
  · have hnil : (d.midTick .quiet op ram).ahead = [] := by
      rw [hmidAhead]
      split
      · rfl
      · rename_i hgo
        exact hend.resolve_left hgo
    rw [if_pos hend, settle_of_quiet hmid.phase hnil hmid.nmiPending (irq_midTick hop d ram)]
    exact ⟨hexec, rfl, hmid.nmiPending⟩
  · obtain ⟨hgo, hne⟩ := not_or.1 hend
    rw [if_neg hgo] at hmidAhead
    rw [if_neg hend, settle_of_ahead (by rw [hmidAhead]; exact hne)]
    exact ⟨hexec, hmid, hmidAhead⟩

/-! ### Whole programs -/

def plain (ops : List MicroOp) : Bool := ops.all fun op => op != .fetchOpcode && op != .jam

theorem plain_program {i : Instruction} (h : i ≠ .jam) : plain i.program = true := by
  cases i with
  | jam => exact absurd rfl h
  | read op mode => cases mode <;> rfl
  | store op mode => cases mode <;> rfl
  | modify op mode => cases mode <;> rfl
  | _ => rfl

theorem completes_run (ops : List MicroOp) (hr : runnable ops = true) (hne : ops ≠ [])
    (hplain : plain ops = true) {c : Cpu} (h : c.Undisturbed)
    (hu : c.upcoming =
      if ops.head? = some .fixPageIfCrossed ∧ c.crossed = false then ops.tail else ops)
    (log : List BusCycle) (ram : Ram) (hram : ram.held = 0) :
    ∃ c' cycles ram', Completes Schedule.quiet.host.logged cycles.length c (log, ram) c'
        (log ++ cycles, ram') ∧
      ram'.held = 0 ∧ c'.nmiPending = false ∧
      Core.ofCpu c' ram'.memory = (Core.run ops (Core.ofCpu c ram.memory)).1 ∧
      cycles.map (fun b => b.driven.access) = (Core.run ops (Core.ofCpu c ram.memory)).2 ∧
      ∀ b ∈ cycles, b.driven.sync = false := by
  -- Not on ticks: a page correction that is left out takes none.
  induction hlen : ops.length using Nat.strongRecOn generalizing ops c log ram with
  | ind len ih =>
    obtain ⟨op, rest, hdue, hrun, hs, hsuffix⟩ := Core.run_upcoming hr hne (Core.ofCpu c ram.memory)
    obtain ⟨hop, hrest⟩ := Bool.and_eq_true_iff.1
      (List.all_cons.symm.trans (all_of_suffix hsuffix hplain))
    simp only [Bool.and_eq_true, bne_iff_ne] at hop
    obtain ⟨hfetch, hjam⟩ := hop
    obtain ⟨c', b, ht, haccess, hsync, hcore, hend⟩ :=
      tick_undisturbed h (hu.trans hdue) hfetch hjam log ram hram
    rw [hrun]
    by_cases hlast : (Core.ofCpu c ram.memory).ends op = true ∨ rest = []
    · rw [if_pos hlast] at hend
      rw [Core.run_end hs hlast]
      refine ⟨c', [b], _, Completes.last ht hend.1, rfl, hend.2, hcore, ?_, ?_⟩
      · rw [List.map_singleton, haccess]
      · simpa using hsync
    · rw [if_neg hlast] at hend
      obtain ⟨hgo, hne'⟩ := not_or.1 hlast
      obtain ⟨hc', hahead⟩ := hend
      obtain ⟨d, cycles, ram', hn, hheld, hnmi, hd, hmap, hsyncs⟩ :=
        ih rest.length (hlen ▸ hsuffix.length_le) rest
          (runnable_tail (runnable_of_suffix hsuffix hr)) hne' hrest hc'
          (by rw [upcoming, hahead]) (log ++ [b])
          (ram.after ((Core.ofCpu c ram.memory).access op)) rfl rfl
      have hcore' : Core.ofCpu c' (ram.after ((Core.ofCpu c ram.memory).access op)).memory =
          (Core.ofCpu c ram.memory).exec op := hcore
      rw [hcore'] at hd hmap
      rw [Core.run_cons hs (by simpa using hgo)]
      have hb : c'.atBoundary = false := by simp [atBoundary, hc'.phase]
      rw [List.append_assoc] at hn
      refine ⟨d, b :: cycles, ram', Completes.step ht hb hn, hheld, hnmi, hd, ?_, ?_⟩
      · rw [List.map_cons, haccess, hmap]
      · intro x hx
        rcases List.mem_cons.1 hx with rfl | hx
        · exact hsync
        · exact hsyncs x hx

/-! ### Whole instructions -/

/-- An instruction fetches its opcode, runs through its program and reaches the next
instruction. It takes a tick for each of its cycles. -/
theorem completes_fetched {c : Cpu} (hb : c.atBoundary = true) (hn : c.nmiPending = false)
    (log : List BusCycle) (ram : Ram) (hram : ram.held = 0)
    (hjam : Instruction.ofOpcode (ram.memory c.regs.pc) ≠ .jam) :
    ∃ c' first cycles ram', Completes Schedule.quiet.host.logged (cycles.length + 1) c (log, ram)
        c' (log ++ first :: cycles, ram') ∧
      ram'.held = 0 ∧ c'.nmiPending = false ∧
      Core.ofCpu c' ram'.memory =
        (Core.run (Instruction.ofOpcode (ram.memory c.regs.pc)).program
          ⟨c.regs.advance, c.decimalAdder, c.address, c.operand, false, ram.memory⟩).1 ∧
      first.driven.access = .read c.regs.pc ∧ first.driven.sync = true ∧
      cycles.map (fun b => b.driven.access) =
        (Core.run (Instruction.ofOpcode (ram.memory c.regs.pc)).program
          ⟨c.regs.advance, c.decimalAdder, c.address, c.operand, false, ram.memory⟩).2 ∧
      ∀ b ∈ cycles, b.driven.sync = false := by
  have hphase : c.phase = .fetch := by simpa [atBoundary] using hb
  have hnext := next_fetch hphase
  obtain ⟨hs, p, -, hlen, hreq, ht⟩ := Schedule.quiet.tick_logged hnext log ram hram 0
    (Nat.le_refl 0)
  obtain rfl : hs = [] := List.eq_nil_of_length_eq_zero hlen
  rw [List.append_nil, List.length_nil] at ht
  have hd : (Schedule.quiet.performed .fetchOpcode c ram 0).Undisturbed := by
    refine ⟨rfl, rfl, ?_, rfl⟩
    show (c.nmiPending || (false && _)) = false
    rw [hn, Bool.false_and, Bool.or_false]
  have hahead : (Schedule.quiet.performed .fetchOpcode c ram 0).ahead =
      (Instruction.ofOpcode (ram.memory c.regs.pc)).program := rfl
  have hcore : Core.ofCpu (Schedule.quiet.performed .fetchOpcode c ram 0) ram.memory =
      ⟨c.regs.advance, c.decimalAdder, c.address, c.operand, false, ram.memory⟩ := rfl
  obtain ⟨c', cycles, ram', hrun, hheld, hnmi, hend, hmap, hsyncs⟩ :=
    completes_run (Instruction.ofOpcode (ram.memory c.regs.pc)).program
      (Instruction.runnable_program _) (Instruction.program_ne_nil _) (plain_program hjam) hd
      (by rw [upcoming, hahead]) (log ++ [⟨p, _⟩]) (ram.after (.read c.regs.pc)) rfl
  have hmem : (ram.after (.read c.regs.pc)).memory = ram.memory := rfl
  rw [hmem, hcore] at hend hmap
  have hinside : (Schedule.quiet.performed .fetchOpcode c ram 0).atBoundary = false := rfl
  rw [List.append_assoc] at hrun
  refine ⟨c', ⟨p, _⟩, cycles, ram', Completes.step ht hinside hrun, hheld, hnmi, hend, ?_, ?_,
    hmap, hsyncs⟩
  · exact hreq.access.trans (Pins.access_drive _ _)
  · exact hreq.sync.trans (Pins.sync_drive _ _)

/-- From the start of a run. -/
theorem completes_instruction {c : Cpu} (hb : c.atBoundary = true) (hn : c.nmiPending = false)
    (m : Memory) (hjam : Instruction.ofOpcode (m c.regs.pc) ≠ .jam) :
    ∃ n c' first cycles ram', Completes Schedule.quiet.host.logged n c ([], .ofMemory m) c'
        (first :: cycles, ram') ∧
      c'.nmiPending = false ∧
      Core.ofCpu c' ram'.memory =
        (Core.run (Instruction.ofOpcode (m c.regs.pc)).program
          ⟨c.regs.advance, c.decimalAdder, c.address, c.operand, false, m⟩).1 ∧
      first.driven.access = .read c.regs.pc ∧ first.driven.sync = true ∧
      cycles.map (fun b => b.driven.access) =
        (Core.run (Instruction.ofOpcode (m c.regs.pc)).program
          ⟨c.regs.advance, c.decimalAdder, c.address, c.operand, false, m⟩).2 ∧
      ∀ b ∈ cycles, b.driven.sync = false := by
  obtain ⟨c', first, cycles, ram', hrun, -, hrest⟩ :=
    completes_fetched hb hn [] (.ofMemory m) rfl hjam
  exact ⟨_, c', first, cycles, ram', hrun, hrest⟩

end Cpu

end Nmos6502
