import Mathlib.Data.List.Infix
import Nmos6502.Proofs.Leads
import Nmos6502.Proofs.TimedRam

/-! # Hosts with flat memory

A host may do as it likes with the interrupt lines and with RDY, and with the data bus while it
holds a read. If it lets go in the end and answers what memory holds then, straight-line code runs
as on quiet memory: one completed access for each micro-operation. The NMI latch depends on the
levels that the line takes, held cycles included. -/

namespace Nmos6502

variable {σ : Type} {host : Host σ} {memory : σ → Memory}

/-! ### The NMI latch -/

/-- The level of the line and whether a request waits. -/
structure NmiLatch where
  level : Bool
  pending : Bool

namespace NmiLatch

def hear (l : NmiLatch) (next : Bool) : NmiLatch := ⟨next, l.pending || (next && !l.level)⟩

def after (l : NmiLatch) (levels : List Bool) : NmiLatch := levels.foldl hear l

theorem after_append (l : NmiLatch) (xs ys : List Bool) :
    l.after (xs ++ ys) = (l.after xs).after ys := List.foldl_append

/-- A request waits if one has waited before, or if the line has risen anywhere. -/
theorem pending_after (l : NmiLatch) (levels : List Bool) :
    (l.after levels).pending = true ↔
      l.pending = true ∨ [false, true] <:+: l.level :: levels := by
  induction levels generalizing l with
  | nil => simp [after, List.infix_cons_iff]
  | cons next rest ih =>
    have hrise : [false, true] <:+: l.level :: next :: rest ↔
        (next && !l.level) = true ∨ [false, true] <:+: next :: rest := by
      rw [List.infix_cons_iff, List.cons_prefix_cons, List.cons_prefix_cons]
      cases l.level <;> cases next <;> simp
    rw [hrise, ← or_assoc, ← Bool.or_eq_true]
    exact ih (l.hear next)

end NmiLatch

def Cpu.nmiLatch (c : Cpu) : NmiLatch := ⟨c.pins.nmi, c.nmiPending⟩

namespace BusCycle

/-- The accesses that were completed: reads that were held are left out. -/
def completed (log : List BusCycle) : List Access :=
  (log.filter fun b => !b.isHeld).map fun b => b.driven.access

def nmiLevels (log : List BusCycle) : List Bool := log.map fun b => b.answer.nmi

theorem completed_append (xs ys : List BusCycle) :
    completed (xs ++ ys) = completed xs ++ completed ys := by
  rw [completed, List.filter_append, List.map_append]
  rfl

theorem nmiLevels_append (xs ys : List BusCycle) :
    nmiLevels (xs ++ ys) = nmiLevels xs ++ nmiLevels ys := List.map_append

end BusCycle

/-! ### Hosts -/

/-- The host hands the address and the direction back, completes each access as memory does, and
holds no read forever. -/
structure Host.FlatMemory (host : Host σ) (memory : σ → Memory) : Prop where
  handsBack : host.HandsBack
  data (p : Pins) (s : σ) : (p.read = true → (host.tick p s).1.rdy = false) →
    (host.tick p s).1.data = p.access.byte (memory s)
  stores (p : Pins) (s : σ) : memory (host.tick p s).2 = p.access.store (memory s)
  hears (n : Notice) (s : σ) : memory (host.note n s) = memory s
  letsGo (p : Pins) (pending : Bool) (s : σ) : p.read = true →
    ∃ patience r, host.hold patience p pending s = .ok r

namespace Host.FlatMemory

/-- What an exchange says on the bus and leaves behind. -/
structure Makes (memory : σ → Memory) (a : Access) (l : NmiLatch) (s : σ) (x : Exchange)
    (cycles : List BusCycle) (t : σ) : Prop where
  completed : BusCycle.completed cycles = [a]
  data : x.pins.data = a.byte (memory s)
  stored : memory t = a.store (memory s)
  latch : ⟨x.pins.nmi, x.nmiPending⟩ = l.after (BusCycle.nmiLevels cycles)

theorem answer (h : host.FlatMemory memory) {p : Pins} (pending : Bool) {s : σ}
    (hp : p.read = true → (host.tick p s).1.rdy = false) :
    Makes memory p.access ⟨p.nmi, pending⟩ s (host.answer p pending s).1
      [⟨p, (host.tick p s).1⟩] (host.answer p pending s).2 where
  completed := by
    have hheld : BusCycle.isHeld ⟨p, (host.tick p s).1⟩ = false := by
      cases hread : p.read with
      | false => simp [BusCycle.isHeld, hread]
      | true => simp [BusCycle.isHeld, hp hread]
    simp [BusCycle.completed, hheld]
  data := h.data p s hp
  stored := h.stores p s
  latch := rfl

theorem released (h : host.FlatMemory memory) {p : Pins} (hread : p.read = true) {pending : Bool}
    {s : σ} (hrdy : (host.answer p pending s).1.pins.rdy = false) :
    Makes memory (.read p.addr) ⟨p.nmi, pending⟩ s (host.answer p pending s).1
      [⟨p, (host.tick p s).1⟩] (host.answer p pending s).2 := by
  have haccess : p.access = .read p.addr := by rw [Pins.access, if_pos hread]
  rw [← haccess]
  exact h.answer pending fun _ => hrdy

theorem answer_logged (p : Pins) (pending : Bool) (log : List BusCycle) (s : σ) :
    host.logged.answer p pending (log, s) =
      ((host.answer p pending s).1, log ++ [⟨p, (host.tick p s).1⟩],
        (host.answer p pending s).2) := rfl

/-- A cycle in which a read is held changes nothing but the latch, and the read is made again. -/
theorem again (h : host.FlatMemory memory) {p : Pins} (hread : p.read = true)
    (hrdy : (host.tick p s).1.rdy = true) {pending : Bool} {x : Exchange} {cycles : List BusCycle}
    {t : σ} (hx : Makes memory (.read p.addr)
      ⟨(host.tick p s).1.nmi, (host.answer p pending s).1.nmiPending⟩ (host.tick p s).2 x cycles
        t) :
    Makes memory (.read p.addr) ⟨p.nmi, pending⟩ s { x with cycles := x.cycles + 1 }
      (⟨p, (host.tick p s).1⟩ :: cycles) t := by
  have hmemory : memory (host.tick p s).2 = memory s := by
    rw [h.stores, Pins.access, if_pos hread]
    rfl
  refine ⟨?_, ?_, ?_, hx.latch⟩
  · have hheld : BusCycle.isHeld ⟨p, (host.tick p s).1⟩ = true := by
      simp [BusCycle.isHeld, hread, hrdy]
    rw [← hx.completed]
    simp [BusCycle.completed, hheld]
  · rw [← hmemory]
    exact hx.data
  · rw [← hmemory]
    exact hx.stored

theorem hold (h : host.FlatMemory memory) {patience : Nat} {p : Pins} (hread : p.read = true)
    {pending : Bool} {s t : σ} {x : Exchange} {log log' : List BusCycle}
    (hx : host.logged.hold patience p pending (log, s) = .ok (x, log', t)) :
    ∃ cycles, log' = log ++ cycles ∧
      Makes memory (.read p.addr) ⟨p.nmi, pending⟩ s x cycles t := by
  -- For any pins and any log, since a held cycle goes in front of those that follow.
  induction patience generalizing p pending s x log with
  | zero =>
    cases hrdy : (host.answer p pending s).1.pins.rdy with
    | false =>
      simp only [Host.hold, answer_logged, hrdy, Bool.false_eq_true, if_false] at hx
      cases hx
      exact ⟨_, rfl, h.released hread hrdy⟩
    | true =>
      simp only [Host.hold, answer_logged, hrdy, if_true] at hx
      cases hx
  | succ n ih =>
    cases hrdy : (host.answer p pending s).1.pins.rdy with
    | false =>
      simp only [Host.hold, answer_logged, hrdy, Bool.false_eq_true, if_false] at hx
      cases hx
      exact ⟨_, rfl, h.released hread hrdy⟩
    | true =>
      have hheld : (host.logged.answer p pending (log, s)).1.pins.rdy = true := hrdy
      rw [Host.hold_succ hheld, answer_logged] at hx
      obtain ⟨⟨y, log₁, t₁⟩, hy, heq⟩ := ok_of_map hx
      cases heq
      obtain ⟨haddr, hdirection⟩ := h.handsBack p s
      have hread' : ({ (host.tick p s).1 with rdy := false } : Pins).read = true :=
        hdirection.trans hread
      have hagain : host.logged.hold n { (host.tick p s).1 with rdy := false }
          (host.answer p pending s).1.nmiPending
          (log ++ [⟨p, (host.tick p s).1⟩], (host.tick p s).2) = .ok (y, log', t) := hy
      obtain ⟨cycles, rfl, hcycles⟩ := ih hread' hagain
      refine ⟨_, List.append_assoc _ _ _, h.again hread hrdy ?_⟩
      rw [← haddr]
      exact hcycles

theorem exchange (h : host.FlatMemory memory) (a : Access) (p : Pins) (pending : Bool) (s : σ)
    (log : List BusCycle) :
    ∃ patience x cycles t,
      host.logged.exchange patience a p pending (log, s) = .ok (x, log ++ cycles, t) ∧
        Makes memory a ⟨p.nmi, pending⟩ s x cycles t := by
  cases a with
  | write addr value =>
    have hwrite : (p.drive (.write addr value)).read = true →
        (host.tick (p.drive (.write addr value)) s).1.rdy = false := fun hread => by cases hread
    exact ⟨0, _, _, _, rfl, h.answer pending hwrite⟩
  | read addr =>
    -- The host lets go without a log, and so it does with one.
    obtain ⟨patience, r, hr⟩ := h.letsGo (p.drive (.read addr)) pending s rfl
    have halike := (host.logged_alike.hold patience (p.drive (.read addr)) pending
      (s := (log, s)) rfl).symm
    rw [hr] at halike
    obtain ⟨⟨x, log', t⟩, hx, -⟩ := halike.of_ok
    obtain ⟨cycles, rfl, hcycles⟩ := h.hold rfl hx
    exact ⟨patience, x, cycles, t, hx, hcycles⟩

theorem noteAny (h : host.FlatMemory memory) (n : Option Notice) (s : σ) :
    memory (host.noteAny n s) = memory s := by
  cases n with
  | none => rfl
  | some n => exact h.hears n s

end Host.FlatMemory

/-! ### Ticks -/

namespace Cpu

/-- Given enough patience, `n` ticks lead from the one state to the other. -/
def Reaches (host : Host σ) (n : Nat) (c : Cpu) (s : σ) (d : Cpu) (t : σ) : Prop :=
  ∃ patience, c.ticking patience host n s = .ok (d, t)

theorem Reaches.trans {n k : Nat} {c d e : Cpu} {s t u : σ} (h : c.Reaches host n s d t)
    (h' : d.Reaches host k t e u) : c.Reaches host (n + k) s e u := by
  obtain ⟨p, hp⟩ := h
  obtain ⟨q, hq⟩ := h'
  refine ⟨max p q, ?_⟩
  rw [ticking_add, ticking_mono (Nat.le_max_left p q) hp]
  exact ticking_mono (Nat.le_max_right p q) hq

theorem Reaches.eq_of_ticking {n patience : Nat} {c d e : Cpu} {s t u : σ}
    (h : c.Reaches host n s d t) (ht : c.ticking patience host n s = .ok (e, u)) :
    d = e ∧ t = u := by
  obtain ⟨p, hp⟩ := h
  have hd := ticking_mono (Nat.le_max_left p patience) hp
  rw [ticking_mono (Nat.le_max_right p patience) ht] at hd
  cases hd
  exact ⟨rfl, rfl⟩

theorem handler_prepare {op : MicroOp} (hop : op ≠ .vectorLow) (c : Cpu) :
    (c.prepare op).1.handler = c.handler := by
  cases op with
  | vectorLow => exact absurd rfl hop
  | write op => cases op <;> rfl
  | _ => rfl

theorem nmiLatch_prepare {op : MicroOp} (hop : op ≠ .vectorLow) (c : Cpu) :
    (c.prepare op).1.nmiLatch = c.nmiLatch := by
  cases op with
  | vectorLow => exact absurd rfl hop
  | write op => cases op <;> rfl
  | _ => rfl

theorem nmiLatch_apply {op : MicroOp} (hop : op ≠ .fetchOpcode) (byte : UInt8) (c : Cpu) :
    (c.apply op byte).nmiLatch = c.nmiLatch := by
  rw [nmiLatch, apply_frame hop]
  rfl

end Cpu

open Cpu Nmos6502.Core

namespace Host.FlatMemory

theorem tick (h : host.FlatMemory memory) {c e : Cpu} {op : MicroOp} (hn : c.next = .ok (op, e))
    (log : List BusCycle) (s : σ) :
    ∃ x cycles t,
      c.Reaches host.logged 1 (log, s) (((e.prepare op).1.receive x).complete op)
        (log ++ cycles, t) ∧
      Makes memory (e.prepare op).2 (e.prepare op).1.nmiLatch s x cycles t := by
  obtain ⟨patience, x, cycles, u, hx, hmakes⟩ :=
    h.exchange (e.prepare op).2 (e.prepare op).1.pins (e.prepare op).1.nmiPending s log
  have ht : c.tick patience host.logged (log, s) =
      .ok ((e.prepare op).1.finishTick host.logged op (x, log ++ cycles, u)) := by
    rw [tick_of_next hn, hx]
    rfl
  refine ⟨x, cycles, host.noteAny ((((e.prepare op).1.receive x).complete op).notice? op) u,
    ⟨patience, ?_⟩, hmakes.completed, hmakes.data, (h.noteAny _ u).trans hmakes.stored,
    hmakes.latch⟩
  rw [ticking, ht, finishTick, host.noteAny_logged]
  rfl

theorem step (h : host.FlatMemory memory) {c : Cpu} (hp : c.phase = .execute) {op : MicroOp}
    {ops : List MicroOp} (hfetch : op ≠ .fetchOpcode) (hfix : op ≠ .fixPageIfCrossed)
    (ha : c.ahead = op :: ops) (log : List BusCycle) (s : σ) :
    ∃ e x cycles t, e = c.moveTo ops ∧ e.ahead = ops ∧
      c.Reaches host.logged 1 (log, s)
        ((((e.prepare op).1.receive x).apply op ((e.prepare op).2.byte (memory s))).settle
          (e.prepare op).1.regs.p.irqDisable) (log ++ cycles, t) ∧
      Makes memory (e.prepare op).2 (e.prepare op).1.nmiLatch s x cycles t := by
  obtain ⟨hn, hahead⟩ := next_of_ahead hp hfix ha
  obtain ⟨x, cycles, t, hreach, hmakes⟩ := h.tick hn log s
  rw [complete_eq hfetch] at hreach
  have hdata : (((c.moveTo ops).prepare op).1.receive x).pins.data =
      ((c.moveTo ops).prepare op).2.byte (memory s) := hmakes.data
  rw [hdata] at hreach
  exact ⟨_, x, cycles, t, rfl, hahead, hreach, hmakes⟩

end Host.FlatMemory

/-! ### Straight-line code -/

/-- What straight-line code on the bus has done, and what it leaves to do. -/
structure Stretch (memory : σ → Memory) (ops rest : List MicroOp) (c : Cpu) (s : σ)
    (cycles : List BusCycle) (d : Cpu) (t : σ) : Prop where
  phase : d.phase = .execute
  ahead : d.ahead = rest
  handler : d.handler = c.handler
  polls : d.polls = c.polls
  core : Core.ofCpu d (memory t) = (execs ops (Core.ofCpu c (memory s))).1
  completed : BusCycle.completed cycles = (execs ops (Core.ofCpu c (memory s))).2
  latch : d.nmiLatch = c.nmiLatch.after (BusCycle.nmiLevels cycles)

theorem Stretch.cons {op : MicroOp} {ops rest rest' : List MicroOp} {c d e : Cpu} {s t u : σ}
    {xs ys : List BusCycle} (h : Stretch memory [op] rest' c s xs d t)
    (h' : Stretch memory ops rest d t ys e u) :
    Stretch memory (op :: ops) rest c s (xs ++ ys) e u where
  phase := h'.phase
  ahead := h'.ahead
  handler := h'.handler.trans h.handler
  polls := h'.polls.trans h.polls
  core := by
    rw [h'.core, h.core]
    rfl
  completed := by
    rw [BusCycle.completed_append, h.completed, h'.completed, h.core]
    rfl
  latch := by rw [h'.latch, h.latch, BusCycle.nmiLevels_append, NmiLatch.after_append]

namespace Host.FlatMemory

theorem stretch_one (h : host.FlatMemory memory) {op : MicroOp} {rest : List MicroOp}
    (hordinary : ordinary op = true) (hstraight : straight op = true) (hrest : rest ≠ []) {c : Cpu}
    (hp : c.phase = .execute) (ha : c.ahead = op :: rest) (log : List BusCycle) (s : σ) :
    ∃ cycles d t, c.Reaches host.logged 1 (log, s) d (log ++ cycles, t) ∧
      Stretch memory [op] rest c s cycles d t := by
  simp only [ordinary, Bool.and_eq_true, bne_iff_ne] at hordinary
  obtain ⟨⟨⟨hfetch, hjam⟩, hlow⟩, hhigh⟩ := hordinary
  have hfix : op ≠ .fixPageIfCrossed := by
    rintro rfl
    cases hstraight
  obtain ⟨e, x, cycles, t, he, hahead, hreach, hmakes⟩ := h.step hp hfetch hfix ha log s
  have hkeeps : e.KeepsVector op := by
    rintro (rfl | rfl)
    · exact absurd rfl hlow
    · exact absurd rfl hhigh
  have hends : (Core.ofCpu e (memory s)).ends op = false := by
    cases op <;> first | rfl | cases hstraight
  have hplace := samePlace_access op x e
  have hleft : (((e.prepare op).1.receive x).apply op ((e.prepare op).2.byte (memory s))).ahead =
      rest := by
    rw [ahead_exec hfetch e (memory s), hends, if_neg Bool.false_ne_true, hahead]
  rw [settle_of_ahead (by rw [hleft]; exact hrest)] at hreach
  have hcore : Core.ofCpu e (memory s) = Core.ofCpu c (memory s) := by rw [he]; rfl
  refine ⟨cycles, _, t, hreach, ?_, hleft, ?_, ?_, ?_, ?_, ?_⟩
  · rw [phase_apply hfetch hjam, hplace.phase, he]
    exact hp
  · rw [handler_apply hfetch, receive, handler_prepare hlow, he]
    rfl
  · rw [polls_apply hfetch, hplace.polls, he]
    rfl
  · rw [hmakes.stored, exec_core hkeeps, hcore]
    rfl
  · rw [hmakes.completed, access_core hkeeps (memory s), hcore]
    rfl
  · rw [nmiLatch_apply hfetch]
    refine hmakes.latch.trans ?_
    rw [nmiLatch_prepare hlow, he]
    rfl

theorem stretch (h : host.FlatMemory memory) (ops rest : List MicroOp)
    (hops : ops.all (fun op => ordinary op && straight op) = true) (hrest : rest ≠ []) {c : Cpu}
    (hp : c.phase = .execute) (ha : c.ahead = ops ++ rest) (log : List BusCycle) (s : σ) :
    ∃ cycles d t, c.Reaches host.logged ops.length (log, s) d (log ++ cycles, t) ∧
      Stretch memory ops rest c s cycles d t := by
  induction ops generalizing c log s with
  | nil =>
    refine ⟨[], c, s, ⟨0, ?_⟩, hp, ha, rfl, rfl, rfl, rfl, rfl⟩
    rw [List.append_nil]
    rfl
  | cons op ops ih =>
    obtain ⟨hop, hops⟩ := Bool.and_eq_true_iff.1 (List.all_cons.symm.trans hops)
    obtain ⟨hordinary, hstraight⟩ := Bool.and_eq_true_iff.1 hop
    have hne : ops ++ rest ≠ [] := List.append_ne_nil_of_right_ne_nil ops hrest
    obtain ⟨xs, d, t, hfirst, hone⟩ := h.stretch_one hordinary hstraight hne hp ha log s
    obtain ⟨ys, e, u, hthen, hmany⟩ := ih hops hone.phase hone.ahead (log ++ xs) t
    refine ⟨xs ++ ys, e, u, ?_, hone.cons hmany⟩
    rw [List.length_cons, Nat.add_comm, ← List.append_assoc]
    exact hfirst.trans hthen

theorem fetch (h : host.FlatMemory memory) {c : Cpu} (hb : c.atBoundary = true)
    (log : List BusCycle) {s : σ} {i : Instruction}
    (hi : Instruction.ofOpcode (memory s c.regs.pc) = i) :
    ∃ cycles d t, c.Reaches host.logged 1 (log, s) d (log ++ cycles, t) ∧ d.phase = .execute ∧
      d.ahead = i.program ∧ d.handler = .irq ∧ d.polls = i.polls ∧
      Core.ofCpu d (memory t) = c.fetched (memory s) ∧
      BusCycle.completed cycles = [.read c.regs.pc] ∧
      d.nmiLatch = c.nmiLatch.after (BusCycle.nmiLevels cycles) := by
  have hphase : c.phase = .fetch := by simpa [atBoundary] using hb
  obtain ⟨x, cycles, t, hreach, hmakes⟩ := h.tick (next_fetch hphase) log s
  have hdecoded : Instruction.ofOpcode x.pins.data = i := by
    rw [hmakes.data]
    exact hi
  have hcore :
      Core.ofCpu (((c.prepare .fetchOpcode).1.receive x).complete .fetchOpcode) (memory t) =
        c.fetched (memory s) := by
    rw [hmakes.stored]
    rfl
  exact ⟨cycles, _, t, hreach, rfl, congrArg Instruction.program hdecoded, rfl,
    congrArg Instruction.polls hdecoded, hcore, hmakes.completed, hmakes.latch⟩

end Host.FlatMemory

/-! ### Timed memory -/

/-- Memory with timed lines is flat memory, if RDY always goes low again. -/
theorem Timetable.Fair.flatMemory {lines : Timetable} (h : lines.Fair) :
    lines.host.FlatMemory TimedRam.memory where
  handsBack _ _ := ⟨rfl, rfl⟩
  data _ _ _ := rfl
  stores _ _ := rfl
  hears _ _ := rfl
  letsGo p pending s _ := by
    obtain ⟨m, hm, hrdy⟩ := h s.clock
    obtain ⟨k, rfl⟩ := Nat.exists_eq_add_of_le hm
    obtain ⟨r, hr⟩ :=
      Timetable.hold_returns k { powerOn .plain with pins := p, nmiPending := pending } hrdy
    rw [Cpu.hold_eq] at hr
    obtain ⟨x, hx, -⟩ := ok_of_map hr
    exact ⟨k, x, hx⟩

end Nmos6502
