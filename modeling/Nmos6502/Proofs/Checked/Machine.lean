import Nmos6502.Breakpoints
import Nmos6502.IoPort.Routed
import Nmos6502.Proofs.Calls
import Nmos6502.Proofs.Checked.Arithmetic
import Nmos6502.Proofs.Progress
import Nmos6502.Proofs.Turns

/-! # The machine with every check made

Here the machine works in words. The position in a program and the clock have sixty-four bits, the
adder eight or sixteen, the identifier of a breakpoint thirty-two with a sign, the reads of a reset
are at sums of sixteen bits, and the port is asked only through a request that looks at the address.
Each check can refuse the step that makes it. None ever does but that of the clock: the machine with
its checks is the machine without them for as long as the clock has room. -/

namespace Nmos6502

variable {σ τ : Type}

/-! ### Surroundings that check -/

/-- A host that may refuse a cycle. -/
structure CheckedHost (σ : Type) where
  tick : Pins → σ → Except Fault (Pins × σ)
  note : Notice → σ → σ

/-- A trap that may refuse an answer. -/
structure CheckedTrap (τ : Type) where
  ask : (pc : UInt16) → (ticks : UInt32) → Pins → τ → Except Fault (Int32 × τ)

/-- The host never refuses a cycle. -/
def Host.checked (host : Host σ) : CheckedHost σ := ⟨fun p s => .ok (host.tick p s), host.note⟩

/-- The trap never refuses an answer. -/
def Trap.checked (trap : Trap τ) : CheckedTrap τ :=
  ⟨fun pc ticks p t => .ok (trap.ask pc ticks p t)⟩

/-- The host as the processor of a 6510 sees it, with a port that refuses what is not its own. -/
def PortHost.checkedRouted (host : PortHost σ) : CheckedHost (IoPort × σ) where
  tick pins := fun (port, s) => do
    let (answer, s) := host.tick (pins.setPort port.pins) s
    let (answer, port, s) ←
      if answer.isPortAccess && (answer.write || !answer.rdy) then port.request host answer s
      else .ok (answer, port, s)
    return (answer.setPort port.pins, port, s)
  note := host.routed.note

/-- The processor asks the port for nothing but accesses of the port. -/
theorem PortHost.checkedRouted_eq (host : PortHost σ) :
    host.checkedRouted = host.routed.checked := by
  refine congrArg (CheckedHost.mk · _) ?_
  funext p ⟨port, s⟩
  simp only [routed]
  split
  · next h =>
    rw [IoPort.request, if_pos (Bool.and_eq_true_iff.1 h).1]
    rfl
  · rfl

/-- The identifier of a slot, in thirty-one bits. -/
def Breakpoints.checkedTrap (b : Breakpoints) : CheckedTrap Unit where
  ask pc _ _ t :=
    match b.slots.toList.findIdx? (· == some pc) with
    | some slot => (checkedSum 31 slot 1).map fun id => (Int32.ofNat id, t)
    | none => .ok (0, t)

theorem Breakpoints.checkedTrap_eq (b : Breakpoints) : b.checkedTrap = b.trap.checked := by
  refine congrArg CheckedTrap.mk ?_
  funext pc ticks p t
  simp only [trap, check]
  cases h : b.slots.toList.findIdx? (· == some pc) with
  | none => rfl
  | some slot =>
    have hslot : slot < 8 := by
      obtain ⟨hlt, -⟩ := List.findIdx?_eq_some_iff_getElem.1 h
      simpa only [Vector.length_toList] using hlt
    simp only [checkedSum_ok (show slot + 1 < 1 <<< 31 by omega)]
    rfl

/-! ### Refusals -/

/-- What is refused stops the run. -/
def orStop {α : Type} : Except Fault α → Except Stop α
  | .ok a => .ok a
  | .error cause => .error (.fault cause)

/-! ### The clock -/

namespace Ticks

variable {α β : Type}

/-- The clock refuses the cycle that would bring the count to its limit. -/
def inTime (count : Nat) (x : Except Stop α) : Except Stop α :=
  if count < limit then x else .error (.fault .clockOverflow)

theorem inTime_of_lt {count : Nat} (h : count < limit) (x : Except Stop α) : inTime count x = x :=
  if_pos h

theorem inTime_congr {count : Nat} {x y : Except Stop α} (h : count < limit → x = y) :
    inTime count x = inTime count y := by
  unfold inTime
  split
  · next hlt => exact h hlt
  · rfl

theorem inTime_bind (count : Nat) (x : Except Stop α) (f : α → Except Stop β) :
    (inTime count x).bind f = inTime count (x.bind f) := by
  unfold inTime
  split <;> rfl

theorem inTime_later {count later : Nat} (h : count ≤ later) (x : Except Stop α) :
    inTime count (inTime later x) = inTime later x := by
  unfold inTime
  by_cases hlater : later < limit
  · rw [if_pos (Nat.lt_of_le_of_lt h hlater)]
  · rw [if_neg hlater, ite_self]

end Ticks

namespace Cpu

open Ticks (inTime inTime_bind inTime_congr inTime_later inTime_of_lt)

/-! ### The next micro-operation -/

def checkedNext (cpu : Cpu) : Except Fault (MicroOp × Cpu) :=
  match cpu.phase with
  | .fetch => .ok (.fetchOpcode, cpu)
  | .jammed => .ok (.stuck, cpu)
  | .execute => do
    let op ← cpu.microOpAt cpu.step
    if op = .fixPageIfCrossed ∧ cpu.crossed = false then
      let step ← checkedSum 64 cpu.step 1
      let op ← cpu.microOpAt step
      let step ← checkedSum 64 step 1
      return (op, { cpu with step := step })
    else
      let step ← checkedSum 64 cpu.step 1
      return (op, { cpu with step := step })

theorem Coherent.step_le {c : Cpu} (h : c.Coherent) (hp : c.phase = .execute) : c.step ≤ 7 := by
  have hahead := (h hp).1
  rw [ne_eq, ahead_eq_nil_iff] at hahead
  rcases (h hp).2 with ⟨hprogram, -⟩ | ⟨hprogram, -⟩
  · have hlen := c.instruction.length_program
    rw [← hprogram] at hlen
    omega
  · have hlen : c.program.length = 7 := by
      rw [hprogram]
      rfl
    omega

theorem checkedNext_eq {c : Cpu} (h : c.Coherent) : c.checkedNext = c.next := by
  unfold checkedNext next
  cases hp : c.phase with
  | fetch => rfl
  | jammed => rfl
  | execute =>
    have hstep := h.step_le hp
    simp only [checkedSum_ok (show c.step + 1 < 1 <<< 64 by omega),
      checkedSum_ok (show c.step + 1 + 1 < 1 <<< 64 by omega), bind, Except.bind]

/-! ### The work of a micro-operation -/

def checkedApply (op : MicroOp) (byte : UInt8) (cpu : Cpu) : Except Fault Cpu :=
  match op with
  | .immediate op | .read op =>
    (op.checkedApply cpu.decimalAdder byte cpu.regs).map fun regs => { cpu with regs := regs }
  | .modifyHold op =>
    (op.checkedApply cpu.decimalAdder cpu.operand cpu.regs).map fun (result, regs) =>
      { cpu with operand := result, regs := regs }
  | _ => .ok (cpu.apply op byte)

theorem checkedApply_eq (op : MicroOp) (byte : UInt8) (c : Cpu) :
    c.checkedApply op byte = .ok (c.apply op byte) := by
  cases op with
  | immediate op | read op =>
    simp only [checkedApply, ReadOp.checkedApply_eq]
    rfl
  | modifyHold op =>
    simp only [checkedApply, ModifyOp.checkedApply_eq]
    rfl
  | _ => rfl

def checkedComplete (op : MicroOp) (cpu : Cpu) : Except Fault Cpu :=
  match op with
  | .fetchOpcode => cpu.checkedApply op cpu.pins.data
  | _ => (cpu.checkedApply op cpu.pins.data).map (settle cpu.regs.p.irqDisable)

theorem checkedComplete_eq (op : MicroOp) (c : Cpu) :
    c.checkedComplete op = .ok (c.complete op) := by
  simp only [checkedComplete, checkedApply_eq]
  cases op <;> rfl

/-! ### Cycles -/

def checkedCycle (host : CheckedHost σ) (cpu : Cpu) (s : σ) : Except Fault (Cpu × σ) := do
  let (pins, s) ← host.tick cpu.pins s
  let total ← cpu.total.add ⟨1⟩
  return ({ cpu.latchPins pins with ticks := cpu.ticks + 1, total := total }, s)

def checkedHold (host : CheckedHost σ) : (patience : Nat) → Cpu → σ → Except Stop (Cpu × σ)
  | 0, cpu, s =>
    (orStop (cpu.checkedCycle host s)).bind fun (cpu, s) =>
      if cpu.pins.rdy then .error .unfinished else .ok (cpu, s)
  | patience + 1, cpu, s =>
    (orStop (cpu.checkedCycle host s)).bind fun (cpu, s) =>
      if cpu.pins.rdy then checkedHold host patience { cpu with pins.rdy := false } s
      else .ok (cpu, s)

def checkedPerform (patience : Nat) (host : CheckedHost σ) (access : Access) (cpu : Cpu) (s : σ) :
    Except Stop (Cpu × σ) :=
  match access with
  | .read _ => (cpu.drive access).checkedHold host patience s
  | .write .. => orStop ((cpu.drive access).checkedCycle host s)

theorem checkedCycle_eq (host : Host σ) (c : Cpu) (s : σ) :
    orStop (c.checkedCycle host.checked s) =
      inTime (c.total.count + 1) (.ok (c.cycle host s)) := by
  simp only [checkedCycle, Host.checked, Ticks.add, inTime]
  by_cases h : c.total.count + 1 < Ticks.limit
  · simp only [if_pos h]
    rfl
  · simp only [if_neg h]
    rfl

/-- Every cycle of a hold is counted. -/
theorem checkedHold_eq (patience : Nat) (host : Host σ) (c : Cpu) (s : σ) :
    c.checkedHold host.checked patience s =
      inTime (c.total.count + (c.holdTurns host patience s).length) (c.hold host patience s) := by
  induction patience generalizing c s with
  | zero =>
    rw [checkedHold, checkedCycle_eq, inTime_bind]
    rfl
  | succ n ih =>
    rw [checkedHold, checkedCycle_eq, inTime_bind]
    simp only [Except.bind, hold, holdTurns, ih]
    split
    -- The check of the cycles to come covers that of this one.
    · rw [inTime_later (by simp only [cycle, Ticks.next]; omega)]
      congr 1
      simp only [cycle, Ticks.next, List.length_cons]
      omega
    · rfl

theorem checkedPerform_eq (patience : Nat) (host : Host σ) (a : Access) (c : Cpu) (s : σ) :
    c.checkedPerform patience host.checked a s =
      inTime (c.total.count + (c.performTurns patience host a s).length)
        (c.perform patience host a s) := by
  cases a with
  | read addr => exact checkedHold_eq patience host _ s
  | write addr value => exact checkedCycle_eq host _ s

/-! ### Ticks -/

def checkedTick (patience : Nat) (host : CheckedHost σ) (cpu : Cpu) (s : σ) :
    Except Stop (Cpu × σ) :=
  (orStop cpu.checkedNext).bind fun (op, cpu) =>
    let prepared := cpu.prepare op
    (prepared.1.checkedPerform patience host prepared.2 s).bind fun (cpu, s) =>
      (orStop (cpu.checkedComplete op)).bind fun cpu =>
        .ok (cpu, (cpu.notice? op).elim s fun n => host.note n s)

theorem checkedTick_eq {c : Cpu} (h : c.Coherent) (patience : Nat) (host : Host σ) (s : σ) :
    c.checkedTick patience host.checked s =
      inTime (c.total.count + (c.turns patience host s).length) (c.tick patience host s) := by
  obtain ⟨op, e, hn, -⟩ := next_of_wellFormed h.wellFormed
  have htotal : (e.prepare op).1.total = c.total := by
    rw [prepare_frame, next_frame hn]
  unfold checkedTick
  rw [checkedNext_eq h, hn]
  change ((e.prepare op).1.checkedPerform patience host.checked (e.prepare op).2 s).bind _ = _
  rw [checkedPerform_eq, inTime_bind, htotal]
  simp only [turns, tick, hn]
  congr 1
  cases (e.prepare op).1.perform patience host (e.prepare op).2 s with
  | error stop => rfl
  | ok r =>
    simp only [Except.bind, checkedComplete_eq, orStop]
    cases (r.1.complete op).notice? op <;> rfl

theorem total_turns {patience : Nat} {host : Host σ} {c d : Cpu} {s t : σ}
    (h : c.tick patience host s = .ok (d, t)) :
    d.total.count = c.total.count + (c.turns patience host s).length := by
  obtain ⟨held, last, hlog, -, htiming⟩ := tick_appends (tick_turns h [])
  have hlen := congrArg List.length hlog
  simp only [List.nil_append, List.length_map, List.length_append, List.length_singleton] at hlen
  have htotal : d.total = ⟨c.total.count + (held.length + 1)⟩ := congrArg Timing.total htiming
  rw [htotal, hlen]

/-! ### Runs -/

def checkedVerdict (trap : CheckedTrap τ) (budget : UInt32) (cpu : Cpu) (t : τ) :
    Except Fault (Verdict × τ) :=
  match cpu.phase with
  | .fetch =>
    (trap.ask cpu.regs.pc cpu.ticks cpu.pins t).map fun (id, t) =>
      (if id = 0 then cpu.budgetVerdict budget else .trapped id, t)
  | .jammed => .ok (cpu.budgetVerdict budget, t)
  | .execute => .ok (.goOn, t)

theorem checkedVerdict_eq (trap : Trap τ) (budget : UInt32) (c : Cpu) (t : τ) :
    c.checkedVerdict trap.checked budget t = .ok (c.verdict trap budget t) := by
  unfold checkedVerdict verdict
  cases c.phase <;> rfl

def checkedRunLoop (patience : Nat) (host : CheckedHost σ) (trap : CheckedTrap τ)
    (budget : UInt32) : (fuel : Nat) → Cpu → σ → τ → Except Stop (Cpu × σ × τ)
  | 0, _, _, _ => .error .unfinished
  | fuel + 1, cpu, s, t =>
    (cpu.checkedTick patience host s).bind fun (cpu, s) =>
      (orStop (cpu.checkedVerdict trap budget t)).bind fun
        | (.goOn, t) => checkedRunLoop patience host trap budget fuel cpu s t
        | (.enough, t) => .ok (cpu, s, t)
        | (.trapped id, t) =>
          .ok ({ cpu with trapId := some id }, host.note (.trapped id cpu.regs.pc) s, t)

def checkedExecute (fuel : Nat) (host : CheckedHost σ) (trap : CheckedTrap τ) (budget : UInt32)
    (cpu : Cpu) (s : σ) (t : τ) : Except Stop (Cpu × σ × τ) :=
  cpu.beginRun.checkedRunLoop fuel host trap budget fuel s t

theorem checkedRunLoop_eq {c : Cpu} (h : c.Coherent) (hc : c.total.count < Ticks.limit)
    (patience : Nat) (host : Host σ) (trap : Trap τ) (budget : UInt32) (fuel : Nat) (s : σ)
    (t : τ) :
    c.checkedRunLoop patience host.checked trap.checked budget fuel s t =
      inTime (c.total.count + (c.runLoopTurns patience host trap budget fuel s t).length)
        (c.runLoop patience host trap budget fuel s t) := by
  induction fuel generalizing c s t with
  | zero => exact (inTime_of_lt hc _).symm
  | succ n ih =>
    rw [checkedRunLoop, checkedTick_eq h, inTime_bind]
    cases htick : c.tick patience host s with
    | error stop => simp only [runLoop, runLoopTurns, htick, List.append_nil, Except.bind]
    | ok r =>
      obtain ⟨d, u⟩ := r
      have htotal := total_turns htick
      simp only [runLoop, runLoopTurns, htick, List.length_append, Except.bind, checkedVerdict_eq,
        orStop]
      rw [← Nat.add_assoc, ← htotal]
      generalize d.verdict trap budget t = verdict
      obtain ⟨_ | _ | id, t₁⟩ := verdict
      · rw [← inTime_later (Nat.le_add_right d.total.count _)]
        exact inTime_congr fun hd => ih (h.tick htick) hd u t₁
      · rfl
      · rfl

theorem checkedExecute_eq {c : Cpu} (h : c.Coherent) (hc : c.total.count < Ticks.limit) (fuel : Nat)
    (host : Host σ) (trap : Trap τ) (budget : UInt32) (s : σ) (t : τ) :
    c.checkedExecute fuel host.checked trap.checked budget s t =
      inTime (c.total.count + (c.executeTurns fuel host trap budget s t).length)
        (c.execute fuel host trap budget s t) :=
  checkedRunLoop_eq (c := c.beginRun) h hc fuel host trap budget fuel s t

/-! ### Reset -/

def checkedReset (host : CheckedHost σ) (cpu : Cpu) (s : σ) : Except Fault (Cpu × σ) := do
  let vector := Handler.reset.vector
  let (low, s) ← host.tick (resetRead vector) s
  let second ← checkedSum 16 vector.toNat 1
  let (high, s) ← host.tick (resetRead (UInt16.ofNat second)) s
  let pc := addressOf low.data high.data
  let total ← cpu.total.add ⟨2⟩
  return ({ cpu with
      regs := { cpu.regs with p := Status.powerOn, s := 0xFD, pc := pc }
      pins := Pins.reading
      total := total
      phase := .fetch
      program := []
      step := 0
      crossed := false
      nmiPending := false
      irqMasked := true },
    host.note (.reset pc) s)

theorem checkedReset_eq (host : Host σ) (c : Cpu) (s : σ) :
    orStop (c.checkedReset host.checked s) =
      inTime (c.total.count + 2) (.ok (c.reset host s)) := by
  simp only [checkedReset, Host.checked, Ticks.add, inTime, bind, Except.bind,
    checkedSum_ok (show Handler.reset.vector.toNat + 1 < 1 <<< 16 by decide)]
  by_cases h : c.total.count + 2 < Ticks.limit
  · simp only [if_pos h]
    rfl
  · simp only [if_neg h]
    rfl

end Cpu

end Nmos6502
