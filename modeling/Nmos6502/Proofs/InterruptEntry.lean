import Nmos6502.Proofs.FlatMemory

/-! # Interrupt entry

IRQ, NMI and BRK enter their handlers alike: two reads, three bytes on the stack, and a vector.
Whose vector it is comes out when its first byte is read. An NMI that waits by then takes it over
from IRQ and BRK and is served with it; one that comes later, or while another is entered, goes on
waiting. -/

namespace Nmos6502

variable {σ : Type} {host : Host σ} {memory : σ → Memory}

open Cpu Nmos6502.Core

/-! ### Sequences -/

/-- A sequence begins with the next cycle: which handler it is for, where it reads first, the
address to return to and the copy of P for the stack. -/
inductive Cpu.Begins (c : Cpu) (m : Memory) : Handler → List UInt16 → UInt16 → UInt8 → Prop
  | interrupt {started : Handler} : c.Coherent → c.Takes started → started ≠ .reset →
    Begins c m started [c.regs.pc, c.regs.pc] c.regs.pc c.regs.p.pushedByInterrupt
  | brk : c.atBoundary = true → m c.regs.pc = 0 →
    Begins c m .irq [c.regs.pc, c.regs.pc + 1] (c.regs.pc + 2) c.regs.p.pushedByBreak

theorem Cpu.handler_complete {op : MicroOp} {c : Cpu} (h : c.handler ≠ .reset) :
    (c.complete op).handler ≠ .reset := by
  by_cases hop : op = .fetchOpcode
  · rw [hop]
    exact Handler.noConfusion
  · rw [complete_eq hop]
    have happly : (c.apply op c.pins.data).handler ≠ .reset := handler_apply hop _ c ▸ h
    rcases settle_cases c.regs.p.irqDisable (c.apply op c.pins.data) with hs | hs | hs | hs
    · rwa [hs]
    · rwa [hs]
    · rw [hs]
      exact Handler.noConfusion
    · rw [hs]
      exact Handler.noConfusion

/-- A reset makes no interrupt sequence. -/
theorem Cpu.kept_handler : Kept fun c => c.handler ≠ .reset where
  tick := by
    intro σ patience host c d s t hc h
    obtain ⟨op, e, x, u, hn, -, rfl, -⟩ := tick_ok h
    have he : e.handler ≠ .reset := by rwa [next_frame hn]
    refine handler_complete ?_
    change (e.prepare op).1.handler ≠ .reset
    by_cases hop : op = .vectorLow
    · rw [hop, prepare, stealVector]
      split
      · exact Handler.noConfusion
      · exact he
    · rwa [handler_prepare hop]
  reset _ _ _ hc := hc
  between _ _ _ _ _ hc := hc

theorem Cpu.Reachable.begins {variant : Variant} {c : Cpu} (hc : c.Reachable variant) (m : Memory)
    {started : Handler} (h : c.Takes started) :
    c.Begins m started [c.regs.pc, c.regs.pc] c.regs.pc c.regs.p.pushedByInterrupt := by
  have hhandler : c.handler ≠ .reset := kept_handler.reachable Handler.noConfusion hc
  exact .interrupt hc.coherent h (h.2.2.2 ▸ hhandler)

/-- The way through a sequence, in two parts: up to the first byte of the vector, and from there to
the handler. -/
structure Passage (σ : Type) where
  vectoring : Cpu
  early : List BusCycle
  middle : σ
  entered : Cpu
  late : List BusCycle
  final : σ

namespace Passage

def vector (started : Handler) (r : Passage σ) : UInt16 :=
  if started = .nmi ∨ r.vectoring.nmiPending = true then 0xFFFA else 0xFFFE

structure Follows (host : Host σ) (memory : σ → Memory) (c : Cpu) (s : σ) (started : Handler)
    (reads : List UInt16) (back : UInt16) (status : UInt8) (r : Passage σ) : Prop where
  early : c.Reaches host.logged 5 ([], s) r.vectoring (r.early, r.middle)
  late : r.vectoring.Reaches host.logged 2 (r.early, r.middle) r.entered
    (r.early ++ r.late, r.final)
  frame : BusCycle.completed r.early = reads.map .read ++
    [.write (stackAddress c.regs.s) (highByte back),
      .write (stackAddress (c.regs.s - 1)) (lowByte back),
      .write (stackAddress (c.regs.s - 2)) status]
  requested : r.vectoring.nmiPending = true ↔
    c.nmiPending = true ∨ [false, true] <:+: c.pins.nmi :: BusCycle.nmiLevels r.early
  word : BusCycle.completed r.late = [.read (r.vector started), .read (r.vector started + 1)]
  boundary : r.entered.atBoundary = true
  regs : r.entered.regs =
    { c.regs with
      s := c.regs.s - 3
      p := { c.regs.p with irqDisable := true, unused := true }
      pc := addressOf (memory s (r.vector started)) (memory s (r.vector started + 1)) }
  memory : memory r.final = pushes c.regs.s [highByte back, lowByte back, status] (memory s)
  /-- The request of an NMI that takes the vector over is gone. -/
  waits : r.entered.nmiPending = true ↔
    (started = .nmi ∧ r.vectoring.nmiPending = true) ∨
      [false, true] <:+: r.vectoring.pins.nmi :: BusCycle.nmiLevels r.late

end Passage

/-! ### Up to the vector -/

structure Framed (memory : σ → Memory) (c : Cpu) (s : σ) (started : Handler) (reads : List UInt16)
    (back : UInt16) (status : UInt8) (cycles : List BusCycle) (e : Cpu) (t : σ) : Prop where
  phase : e.phase = .execute
  ahead : e.ahead = [.vectorLow, .vectorHigh]
  polls : e.polls = false
  handler : e.handler = started
  regs : e.regs = { c.regs with s := c.regs.s - 1 - 1 - 1, pc := back }
  memory : memory t = pushes c.regs.s [highByte back, lowByte back, status] (memory s)
  completed : BusCycle.completed cycles = reads.map .read ++
    [.write (stackAddress c.regs.s) (highByte back),
      .write (stackAddress (c.regs.s - 1)) (lowByte back),
      .write (stackAddress (c.regs.s - 1 - 1)) status]
  latch : e.nmiLatch = c.nmiLatch.after (BusCycle.nmiLevels cycles)

theorem Cpu.stealVector_frame (c : Cpu) :
    c.stealVector =
      { c with handler := c.stealVector.handler, nmiPending := c.stealVector.nmiPending } := by
  unfold stealVector
  split <;> rfl

theorem Cpu.stealVector_moveTo (ops : List MicroOp) (c : Cpu) :
    (c.moveTo ops).stealVector = c.stealVector.moveTo ops := by
  by_cases h : c.handler = .irq ∧ c.nmiPending = true
  · rw [stealVector, stealVector, if_pos h]
    exact if_pos h
  · rw [stealVector, stealVector, if_neg h]
    exact if_neg h

namespace Host.FlatMemory

theorem framed_interrupt (h : host.FlatMemory memory) {c : Cpu} (hc : c.Coherent)
    {started : Handler} (htakes : c.Takes started) (s : σ) :
    ∃ cycles e t, c.Reaches host.logged 5 ([], s) e (cycles, t) ∧
      Framed memory c s started [c.regs.pc, c.regs.pc] c.regs.pc c.regs.p.pushedByInterrupt cycles
        e t := by
  obtain ⟨cycles, e, t, hreach, he⟩ := h.stretch
    [.discard, .discard, .push .pcHigh, .push .pcLow, .push .statusInterrupt]
    [.vectorLow, .vectorHigh] (by decide) (by decide) htakes.1 (ahead_of_takes htakes) [] s
  have hregs := congrArg Core.regs he.core
  have hmemory := congrArg Core.memory he.core
  exact ⟨cycles, e, t, hreach, he.phase, he.ahead, he.polls.trans (hc.runsInterrupt htakes).2,
    he.handler.trans htakes.2.2.2, hregs, hmemory, he.completed, he.latch⟩

theorem framed_brk (h : host.FlatMemory memory) {c : Cpu} {s : σ} (hb : c.atBoundary = true)
    (hop : memory s c.regs.pc = 0) :
    ∃ cycles e t, c.Reaches host.logged 5 ([], s) e (cycles, t) ∧
      Framed memory c s .irq [c.regs.pc, c.regs.pc + 1] (c.regs.pc + 2) c.regs.p.pushedByBreak
        cycles e t := by
  obtain ⟨xs, d, t, hfetch, hphase, hahead, hhandler, hpolls, hcore, hread, hlatch⟩ :=
    h.fetch hb [] (i := .brk) (by rw [hop]; rfl)
  obtain ⟨ys, e, u, hreach, he⟩ := h.stretch
    [.skip, .push .pcHigh, .push .pcLow, .push .statusBreak] [.vectorLow, .vectorHigh] (by decide)
    (by decide) hphase hahead xs t
  have hregs := congrArg Core.regs he.core
  have hmemory := congrArg Core.memory he.core
  have hcompleted := he.completed
  rw [hcore] at hregs hmemory hcompleted
  have hback : c.regs.pc + 2 = c.regs.pc + 1 + 1 := (UInt16.add_assoc _ 1 1).symm
  rw [hback]
  refine ⟨xs ++ ys, e, u, hfetch.trans hreach, he.phase, he.ahead, he.polls.trans hpolls,
    he.handler.trans hhandler, hregs, hmemory, ?_, ?_⟩
  · rw [BusCycle.completed_append, hread, hcompleted]
    rfl
  · rw [he.latch, hlatch, BusCycle.nmiLevels_append, NmiLatch.after_append]

/-! ### The vector -/

theorem vectorHigh (h : host.FlatMemory memory) {f : Cpu} (hp : f.phase = .execute)
    (ha : f.ahead = [.vectorHigh]) (hpolls : f.polls = false) (log : List BusCycle) (s : σ) :
    ∃ cycles d t, f.Reaches host.logged 1 (log, s) d (log ++ cycles, t) ∧ d.atBoundary = true ∧
      d.regs = { f.regs with pc := addressOf f.operand (memory s (f.handler.vector + 1)) } ∧
      memory t = memory s ∧ BusCycle.completed cycles = [.read (f.handler.vector + 1)] ∧
      d.nmiLatch = f.nmiLatch.after (BusCycle.nmiLevels cycles) := by
  obtain ⟨e, x, cycles, t, rfl, hahead, hreach, hmakes⟩ := h.step hp (by simp) (by simp) ha log s
  have hend : (((f.moveTo []).receive x).apply .vectorHigh
      (memory s (f.handler.vector + 1))).polls = false := hpolls
  have hthere : f.Reaches host.logged 1 (log, s)
      ((((f.moveTo []).receive x).apply .vectorHigh (memory s (f.handler.vector + 1))).settle
        (f.moveTo []).regs.p.irqDisable) (log ++ cycles, t) := hreach
  rw [settle_of_end (by exact hp) (by exact hahead), hend, if_neg Bool.false_ne_true] at hthere
  exact ⟨cycles, _, t, hthere, rfl, rfl, hmakes.stored, hmakes.completed, hmakes.latch⟩

theorem vectorLow (h : host.FlatMemory memory) {e : Cpu} (hp : e.phase = .execute)
    (ha : e.ahead = [.vectorLow, .vectorHigh]) (log : List BusCycle) (s : σ) :
    ∃ cycles f t, e.Reaches host.logged 1 (log, s) f (log ++ cycles, t) ∧
      f.phase = .execute ∧ f.ahead = [.vectorHigh] ∧ f.polls = e.polls ∧
      f.handler = e.stealVector.handler ∧ f.operand = memory s e.stealVector.handler.vector ∧
      f.regs = { e.regs with p := e.regs.p.setIrqDisable true } ∧ memory t = memory s ∧
      BusCycle.completed cycles = [.read e.stealVector.handler.vector] ∧
      f.nmiLatch = e.stealVector.nmiLatch.after (BusCycle.nmiLevels cycles) := by
  obtain ⟨d, x, cycles, t, rfl, hahead, hreach, hmakes⟩ := h.step hp (by simp) (by simp) ha log s
  have hprepare : (e.moveTo [.vectorHigh]).prepare .vectorLow =
      (e.stealVector.moveTo [.vectorHigh], .read e.stealVector.handler.vector) := by
    rw [prepare, stealVector_moveTo]
    rfl
  rw [hprepare] at hreach hmakes
  -- Whether the vector is stolen no longer matters: the theft changes only the handler and the
  -- latch.
  have hframe := e.stealVector_frame
  generalize e.stealVector = v at hreach hmakes hframe ⊢
  rw [settle_of_ahead] at hreach
  · refine ⟨cycles, _, t, hreach, ?_, ?_, ?_, rfl, rfl, ?_, hmakes.stored, hmakes.completed,
      hmakes.latch⟩
    all_goals rw [hframe]
    · exact hp
    · exact hahead
    · rfl
    · rfl
  · rw [hframe]
    exact (congrArg (· ≠ []) hahead).mpr (by simp)

end Host.FlatMemory

/-- The vectors lie above the stack. -/
theorem pushes_above {addr : UInt16} (h : highByte addr ≠ 1) (s : UInt8) (bs : List UInt8)
    (m : Memory) : pushes s bs m addr = m addr := by
  refine pushes_frame fun n _ heq => h ?_
  rw [heq, highByte_slot]

namespace Passage

variable {started : Handler} (r : Passage σ)

theorem vector_eq (hstarted : started ≠ .reset) (h : r.vectoring.handler = started) :
    r.vectoring.stealVector.handler.vector = r.vector started := by
  rw [vector, stealVector, h]
  cases started with
  | nmi => simp [h, Handler.vector]
  | reset => exact absurd rfl hstarted
  | irq => cases r.vectoring.nmiPending <;> simp [h, Handler.vector]

theorem highByte_vector (started : Handler) :
    highByte (r.vector started) ≠ 1 ∧ highByte (r.vector started + 1) ≠ 1 := by
  rw [vector]
  split <;> decide

theorem pending_stealVector {started : Handler} {e : Cpu} (hstarted : started ≠ .reset)
    (h : e.handler = started) :
    e.stealVector.nmiPending = true ↔ started = .nmi ∧ e.nmiPending = true := by
  rw [stealVector, h]
  cases started with
  | nmi => simp
  | reset => exact absurd rfl hstarted
  | irq => cases hn : e.nmiPending <;> simp [hn]

end Passage

namespace Host.FlatMemory

variable {c e : Cpu} {s t : σ} {started : Handler} {reads : List UInt16} {back : UInt16}
  {status : UInt8} {cycles : List BusCycle}

theorem follows_of_framed (h : host.FlatMemory memory) (hstarted : started ≠ .reset)
    (hreach : c.Reaches host.logged 5 ([], s) e (cycles, t))
    (he : Framed memory c s started reads back status cycles e t) :
    ∃ r : Passage σ, r.Follows host memory c s started reads back status := by
  -- The latch is looked at before the first byte of the vector is read, so what rises in that cycle
  -- is left for later.
  obtain ⟨xs, f, u, hlow, hphase, hahead, hpolls, hhandler, hoperand, hregs, hmemory, hxs,
      hlatch⟩ :=
    h.vectorLow he.phase he.ahead cycles t
  obtain ⟨ys, d, v, hhigh, hboundary, hregs', hmemory', hys, hlatch'⟩ :=
    h.vectorHigh hphase hahead (hpolls.trans he.polls) (cycles ++ xs) u
  let r : Passage σ := ⟨e, cycles, t, d, xs ++ ys, v⟩
  have hvector : e.stealVector.handler.vector = r.vector started :=
    r.vector_eq hstarted he.handler
  obtain ⟨habove, habove'⟩ := r.highByte_vector started
  have hs : c.regs.s - 1 - 1 = c.regs.s - 2 := by grind
  have hs' : c.regs.s - 1 - 1 - 1 = c.regs.s - 3 := by grind
  refine ⟨r, hreach, ?_, ?_, ?_, ?_, hboundary, ?_, ?_, ?_⟩
  · rw [List.append_assoc] at hhigh
    exact hlow.trans hhigh
  · rw [← hs]
    exact he.completed
  · have hpending : e.nmiPending = (c.nmiLatch.after (BusCycle.nmiLevels cycles)).pending :=
      congrArg NmiLatch.pending he.latch
    rw [show r.vectoring.nmiPending = e.nmiPending from rfl, hpending]
    exact c.nmiLatch.pending_after _
  · rw [BusCycle.completed_append, hxs, hys, hhandler, hvector]
    rfl
  · rw [hregs', hoperand, hhandler, hvector, hmemory, hregs, he.regs, he.memory,
      pushes_above habove, pushes_above habove', hs']
    rfl
  · rw [hmemory', hmemory, he.memory]
  · have hwaits : d.nmiLatch = e.stealVector.nmiLatch.after (BusCycle.nmiLevels (xs ++ ys)) := by
      rw [hlatch', hlatch, BusCycle.nmiLevels_append, NmiLatch.after_append]
    have hpending := e.stealVector.nmiLatch.pending_after (BusCycle.nmiLevels (xs ++ ys))
    rw [← hwaits] at hpending
    refine hpending.trans (or_congr (Passage.pending_stealVector hstarted he.handler) ?_)
    rw [nmiLatch, e.stealVector_frame]

end Host.FlatMemory

/-- Every sequence runs to the handler, wherever NMI rises and however long reads are held. -/
theorem handler_entered (h : host.FlatMemory memory) {c : Cpu} {s : σ} {started : Handler}
    {reads : List UInt16} {back : UInt16} {status : UInt8}
    (hc : c.Begins (memory s) started reads back status) :
    ∃ r : Passage σ, r.Follows host memory c s started reads back status := by
  cases hc with
  | interrupt hcoherent htakes hstarted =>
    obtain ⟨cycles, e, t, hreach, he⟩ := h.framed_interrupt hcoherent htakes s
    exact h.follows_of_framed hstarted hreach he
  | brk hb hop =>
    obtain ⟨cycles, e, t, hreach, he⟩ := h.framed_brk hb hop
    exact h.follows_of_framed (by simp) hreach he

-- NMI rises for one cycle, in which a read is held.
def heldRise : Timetable where
  nmi n := n == 1
  rdy n := n == 1

theorem handler_entered_heldRise :
    let m : Memory := fun addr => if addr = 0xFFFA then 0x34 else if addr = 0xFFFB then 0x12 else 0
    let c := (powerOn .plain).setS 1
    heldRise.Fair ∧ c.Begins m .irq [0, 1] 2 c.regs.p.pushedByBreak ∧
      ∃ r : Passage TimedRam,
        r.Follows heldRise.host TimedRam.memory c ⟨m, 0⟩ .irq [0, 1] 2 c.regs.p.pushedByBreak ∧
          r.entered.regs.pc = 0x1234 := by
  intro m c
  have hfair : heldRise.Fair := fun n => ⟨n + 2, Nat.le_add_right n 2, by simp [heldRise]⟩
  have hbegins : c.Begins m .irq [0, 1] 2 c.regs.p.pushedByBreak := .brk (by decide) (by decide)
  obtain ⟨r, hr⟩ := handler_entered hfair.flatMemory (s := ⟨m, 0⟩) hbegins
  refine ⟨hfair, hbegins, r, hr, ?_⟩
  have hticks : (c.ticking 1 heldRise.host.logged 5 ([], ⟨m, 0⟩)).toOption.any
      (fun a => a.1.nmiPending) = true := by decide +kernel
  obtain ⟨a, ha, hpending⟩ := ok_of_any hticks
  rw [← (hr.early.eq_of_ticking ha).1] at hpending
  rw [hr.regs, Passage.vector, if_pos (Or.inr hpending)]
  decide

end Nmos6502
