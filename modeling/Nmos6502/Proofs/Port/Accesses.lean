import Nmos6502.Proofs.Port.Recorded
import Nmos6502.Proofs.Turns

/-! # The port on the bus

The host of a 6510 sees every bus cycle, and the port answers some of them: each write to one of its
two addresses, and each read of them once it is no longer held. It answers such a cycle exactly
once, and the other cycles pass it by. -/

namespace Nmos6502

variable {σ : Type}

/-! ### One bus cycle -/

/-- A bus cycle between the processor and the host, with the port in between. -/
structure PortBeat where
  before : IoPort
  /-- The pins as the processor drives them. -/
  driven : Pins
  /-- The answer of the host. -/
  answer : Pins
  /-- The pins as the processor gets them. -/
  latched : Pins
  after : IoPort
  calls : List PortEvent

namespace PortBeat

def events (b : PortBeat) : List PortEvent :=
  .cycle ⟨b.driven.setPort b.before.pins, b.answer⟩ :: b.calls

def seen (b : PortBeat) : BusCycle := ⟨b.driven, b.latched⟩

/-- The port takes no part in the cycle. -/
def Passes (b : PortBeat) : Prop :=
  b.calls = [] ∧ b.after = b.before ∧ b.latched.data = b.answer.data

/-- The port has done what its registers and the cycle ask for, and nothing else: it is asked for by
the address, and by RDY on a read. -/
structure Lawful (b : PortBeat) : Prop where
  latched : b.latched = Pins.setPort b.after.pins { b.answer with data := b.latched.data }
  elsewhere : b.driven.addr ≠ 0 → b.driven.addr ≠ 1 → b.Passes
  held : b.driven.read = true → b.answer.rdy = true → b.Passes
  readDirection : b.driven.addr = 0 → b.driven.read = true → b.answer.rdy = false →
    b.calls = [] ∧ b.after = b.before ∧ b.latched.data = b.before.direction
  readOutput : b.driven.addr = 1 → b.driven.read = true → b.answer.rdy = false →
    ∃ level, b.calls = [.sampled level] ∧ b.after = b.before.sample level ∧
      b.latched.data = b.after.lines
  writeDirection : b.driven.addr = 0 → b.driven.read = false →
    b.calls = [.shown b.after.shown] ∧ b.after = b.before.writeDirection b.answer.data ∧
      b.latched.data = b.answer.data
  writeOutput : b.driven.addr = 1 → b.driven.read = false →
    b.calls = [.shown b.after.shown] ∧ b.after = b.before.writeOutput b.answer.data ∧
      b.latched.data = b.answer.data

end PortBeat

theorem PortHost.answersCycle_iff (p : Pins) :
    answersCycle p = true ↔ (p.addr = 0 ∨ p.addr = 1) ∧ (p.read = false ∨ p.rdy = false) := by
  have haddr : p.isPortAccess = true ↔ p.addr = 0 ∨ p.addr = 1 := by
    refine ⟨Pins.addr_of_isPortAccess, ?_⟩
    rintro (h | h) <;> simp [Pins.isPortAccess, h]
  rw [answersCycle, Bool.and_eq_true, haddr]
  simp [Pins.write]

namespace PortBeat

def answered (port : IoPort) (p a : Pins) (level : UInt8) : PortBeat :=
  let use := PortUse.ofAccess a level
  { before := port, driven := p, answer := a
    latched := Pins.setPort (port.use use).pins { a with data := (port.data? use).getD a.data }
    after := port.use use, calls := port.calls use }

def passed (port : IoPort) (p a : Pins) : PortBeat :=
  { before := port, driven := p, answer := a, latched := a.setPort port.pins, after := port
    calls := [] }

variable {p a : Pins} (haddr : a.addr = p.addr) (hread : a.read = p.read)
include haddr hread

theorem lawful_answered (h : PortHost.answersCycle a = true) (port : IoPort) (level : UInt8) :
    (answered port p a level).Lawful := by
  obtain ⟨hport, hfree⟩ := (PortHost.answersCycle_iff a).1 h
  rw [haddr] at hport
  rw [hread] at hfree
  refine ⟨rfl, fun h0 h1 => absurd hport (not_or.2 ⟨h0, h1⟩), ?_, ?_, ?_, ?_, ?_⟩
  · intro (hr : p.read = true) (hrdy : a.rdy = true)
    simp [hr, hrdy] at hfree
  · intro (h0 : p.addr = 0) (hr : p.read = true) _
    have huse : PortUse.ofAccess a level = .readDirection := by
      simp [PortUse.ofAccess, haddr, hread, h0, hr]
    simp only [answered, huse]
    exact ⟨rfl, rfl, rfl⟩
  · intro (h1 : p.addr = 1) (hr : p.read = true) _
    have huse : PortUse.ofAccess a level = .readOutput level := by
      simp [PortUse.ofAccess, haddr, hread, h1, hr]
    simp only [answered, huse]
    exact ⟨level, rfl, rfl, rfl⟩
  · intro (h0 : p.addr = 0) (hr : p.read = false)
    have huse : PortUse.ofAccess a level = .writeDirection a.data := by
      simp [PortUse.ofAccess, haddr, hread, h0, hr]
    simp only [answered, huse]
    exact ⟨rfl, rfl, rfl⟩
  · intro (h1 : p.addr = 1) (hr : p.read = false)
    have huse : PortUse.ofAccess a level = .writeOutput a.data := by
      simp [PortUse.ofAccess, haddr, hread, h1, hr]
    simp only [answered, huse]
    exact ⟨rfl, rfl, rfl⟩

theorem lawful_passed (h : PortHost.answersCycle a = false) (port : IoPort) :
    (passed port p a).Lawful := by
  have hnot : ¬((p.addr = 0 ∨ p.addr = 1) ∧ (p.read = false ∨ a.rdy = false)) := by
    rw [← haddr, ← hread, ← PortHost.answersCycle_iff, h]
    exact Bool.false_ne_true
  refine ⟨rfl, fun _ _ => ⟨rfl, rfl, rfl⟩, fun _ _ => ⟨rfl, rfl, rfl⟩, ?_, ?_, ?_, ?_⟩
  · exact fun h0 _ hrdy => absurd ⟨Or.inl h0, Or.inr hrdy⟩ hnot
  · exact fun h1 _ hrdy => absurd ⟨Or.inr h1, Or.inr hrdy⟩ hnot
  · exact fun h0 hr => absurd ⟨Or.inl h0, Or.inl hr⟩ hnot
  · exact fun h1 hr => absurd ⟨Or.inr h1, Or.inl hr⟩ hnot

end PortBeat

theorem PortHost.routed_beat {host : PortHost σ} (hback : host.HandsBack) (p : Pins)
    (port : IoPort) (log : List PortEvent) (s : σ) :
    ∃ b : PortBeat, b.Lawful ∧ b.before = port ∧ b.driven = p ∧
      ∃ t, host.recorded.routed.tick p (port, log, s) =
        (b.latched, b.after, log ++ b.events, t) := by
  have haddr : (host.tick (p.setPort port.pins) s).1.addr = p.addr := (hback _ s).1
  have hread : (host.tick (p.setPort port.pins) s).1.read = p.read := (hback _ s).2
  cases h : answersCycle (host.tick (p.setPort port.pins) s).1 with
  | true =>
    have hport := isPortAccess_of_answersCycle h
    obtain ⟨t, hanswer⟩ : ∃ t, port.answer host (host.tick (p.setPort port.pins) s).1
        (host.tick (p.setPort port.pins) s).2 = (_, _, t) := ⟨_, port.answer_eq host hport _⟩
    refine ⟨_, PortBeat.lawful_answered haddr hread h port
      (host.portInput (host.tick (p.setPort port.pins) s).2).1, rfl, rfl, t, ?_⟩
    rw [@routed_answered _ host.recorded p port (log, s) h]
    simp only [recorded_tick, port.answer_recorded host hport, hanswer, List.append_assoc]
    rfl
  | false =>
    refine ⟨_, PortBeat.lawful_passed haddr hread h port, rfl, rfl,
      (host.tick (p.setPort port.pins) s).2, ?_⟩
    rw [@routed_passed _ host.recorded p port (log, s) h]
    rfl

/-! ### Many of them -/

/-- The port goes through these cycles and is left in the last state. -/
inductive PortRun (start : IoPort) : List PortBeat → IoPort → Prop
  | nil : PortRun start [] start
  | snoc {beats : List PortBeat} {b : PortBeat} :
    PortRun start beats b.before → b.Lawful → PortRun start (beats ++ [b]) b.after

namespace PortBeat

/-- The byte that a write to this address puts on the data bus, as the host leaves it. -/
def written? (addr : UInt16) (b : PortBeat) : Option UInt8 :=
  if b.driven.addr = addr ∧ b.driven.read = false then some b.answer.data else none

variable {b : PortBeat}

theorem written?_of_read (h : b.driven.read = true) (addr : UInt16) : b.written? addr = none := by
  simp [written?, h]

theorem written?_of_addr {addr : UInt16} (h : b.driven.addr ≠ addr) : b.written? addr = none := by
  simp [written?, h]

/-- The writes are all that changes the two registers. -/
theorem Lawful.registers (h : b.Lawful) :
    b.after.direction = (b.written? 0).getD b.before.direction ∧
      b.after.output = (b.written? 1).getD b.before.output := by
  cases hr : b.driven.read with
  | true =>
    rw [written?_of_read hr, written?_of_read hr]
    -- A read samples the lines at most.
    suffices hafter : b.after = b.before ∨ ∃ level, b.after = b.before.sample level by
      rcases hafter with hafter | ⟨level, hafter⟩ <;> rw [hafter] <;> exact ⟨rfl, rfl⟩
    cases hrdy : b.answer.rdy with
    | true => exact Or.inl (h.held hr hrdy).2.1
    | false =>
      by_cases h0 : b.driven.addr = 0
      · exact Or.inl (h.readDirection h0 hr hrdy).2.1
      · by_cases h1 : b.driven.addr = 1
        · obtain ⟨level, -, hafter, -⟩ := h.readOutput h1 hr hrdy
          exact Or.inr ⟨level, hafter⟩
        · exact Or.inl (h.elsewhere h0 h1).2.1
  | false =>
    by_cases h0 : b.driven.addr = 0
    · rw [(h.writeDirection h0 hr).2.1]
      simp [written?, h0, hr, IoPort.writeDirection, IoPort.setDrive, IoPort.setLevel]
    · by_cases h1 : b.driven.addr = 1
      · rw [(h.writeOutput h1 hr).2.1]
        simp [written?, h1, hr, IoPort.writeOutput, IoPort.setDrive, IoPort.setLevel]
      · rw [written?_of_addr h0, written?_of_addr h1, (h.elsewhere h0 h1).2.1]
        exact ⟨rfl, rfl⟩

end PortBeat

/-- What the last write to this address has put on the data bus, if there was one. -/
def lastWritten? (addr : UInt16) (beats : List PortBeat) : Option UInt8 :=
  (beats.filterMap (PortBeat.written? addr)).getLast?

namespace PortRun

variable {start port : IoPort} {beats : List PortBeat}

/-- A register that each cycle leaves as it is or as written holds what was written last. -/
theorem last_written (register : IoPort → UInt8) {addr : UInt16}
    (hstep : ∀ b : PortBeat, b.Lawful →
      register b.after = (b.written? addr).getD (register b.before))
    (h : PortRun start beats port) :
    register port = (lastWritten? addr beats).getD (register start) := by
  induction h with
  | nil => rfl
  | @snoc beats b _ hb ih =>
    rw [hstep b hb, ih, lastWritten?, lastWritten?, List.filterMap_append]
    cases hw : b.written? addr <;> simp [hw]

theorem registers (h : PortRun start beats port) :
    port.direction = (lastWritten? 0 beats).getD start.direction ∧
      port.output = (lastWritten? 1 beats).getD start.output :=
  ⟨h.last_written IoPort.direction fun _ hb => hb.registers.1,
    h.last_written IoPort.output fun _ hb => hb.registers.2⟩

theorem getLast? {b : PortBeat} (h : PortRun start beats port) (hlast : beats.getLast? = some b) :
    b.Lawful ∧ port = b.after := by
  cases h with
  | nil => cases hlast
  | @snoc beats last hrun hb =>
    rw [List.getLast?_concat] at hlast
    cases hlast
    exact ⟨hb, rfl⟩

end PortRun

/-! ### The cycles of a run -/

namespace PortHost

/-- The logs of the processor and of the host tell of the same cycles of the port. -/
def Recounts (start : IoPort) (r : List BusCycle × IoPort × List PortEvent × σ) : Prop :=
  ∃ beats, PortRun start beats r.2.1 ∧ r.1 = beats.map PortBeat.seen ∧
    r.2.2.1 = beats.flatMap PortBeat.events

variable {host : PortHost σ}

theorem recounts_answer (hback : host.HandsBack) (start : IoPort) (p : Pins)
    (r : List BusCycle × IoPort × List PortEvent × σ) (h : Recounts start r) :
    Recounts start (host.recorded.routed.logged.tick p r).2 := by
  obtain ⟨cycles, port, log, s⟩ := r
  obtain ⟨beats, hrun, rfl, rfl⟩ := h
  obtain ⟨b, hb, rfl, rfl, t, htick⟩ := routed_beat hback p port (beats.flatMap PortBeat.events) s
  refine ⟨beats ++ [b], ?_, ?_, ?_⟩
  · simp only [Host.logged, htick]
    exact hrun.snoc hb
  · simp only [Host.logged, htick, List.map_append]
    rfl
  · simp only [Host.logged, htick, List.flatMap_append, List.flatMap_singleton]

theorem recounts_ticking (hback : host.HandsBack) {patience n : Nat} {c d : Cpu}
    {start port : IoPort} {s t : σ}
    (h : c.ticking patience host.routed n (start, s) = .ok (d, port, t)) :
    ∃ beats, PortRun start beats port ∧
      c.ticking patience host.recorded.routed.logged n ([], start, [], s) =
        .ok (d, beats.map PortBeat.seen, port, beats.flatMap PortBeat.events, t) := by
  obtain ⟨⟨port', log, t'⟩, hrecorded, rfl, rfl⟩ :=
    host.recorded_alike.of_ticking (s := (start, [], s)) ⟨rfl, rfl⟩ h
  obtain ⟨⟨cycles, r⟩, hlogged, rfl⟩ :=
    host.recorded.routed.logged_alike.of_ticking (s := ([], start, [], s)) rfl hrecorded
  obtain ⟨beats, hrun, rfl, rfl⟩ : Recounts start (cycles, port', log, t') :=
    Host.ticking_keeps (recounts_answer hback start) (fun _ _ hr => hr)
      ⟨[], .nil, rfl, rfl⟩ hlogged
  exact ⟨beats, hrun, hlogged⟩

end PortHost

/-- Whatever the program and whatever the host does with the data bus and the control lines, the
host sees and hears one cycle after the other as `PortBeat.Lawful` has it, and the processor goes on
with what these cycles put on its pins. That goes for every turn of the host, in the midst of a read
that is held for good as well. -/
theorem port_answers_once {host : PortHost σ} (hback : host.HandsBack) (patience n : Nat)
    (m : Mos6510) (s : σ) :
    (∀ turn ∈ m.cpu.tickingTurns patience host.recorded.routed.logged n ([], m.port, [], s),
      PortHost.Recounts m.port turn.2) ∧
    ∀ m' s', m.ticking patience host n s = .ok (m', s') →
      ∃ beats,
        m.ticking patience host.recorded n ([], s) =
          .ok (m', beats.flatMap PortBeat.events, s') ∧
        m.cpu.ticking patience host.recorded.routed.logged n ([], m.port, [], s) =
          .ok (m'.cpu, beats.map PortBeat.seen, m'.port, beats.flatMap PortBeat.events, s') ∧
        PortRun m.port beats m'.port ∧
        m'.port.direction = (lastWritten? 0 beats).getD m.port.direction ∧
        m'.port.output = (lastWritten? 1 beats).getD m.port.output ∧
        (0 < n → m'.cpu.pins = m'.cpu.pins.setPort m'.port.pins ∧
          ∃ (b : PortBeat) (c : Cpu) (op : MicroOp),
            beats.getLast? = some b ∧ c.pins = b.latched ∧ m'.cpu = c.complete op) := by
  refine ⟨Cpu.tickingTurns_keep (PortHost.recounts_answer hback m.port) (fun _ _ hr => hr)
    patience n m.cpu ⟨[], .nil, rfl, rfl⟩, fun m' s' h => ?_⟩
  obtain ⟨beats, hrun, hlogged⟩ := PortHost.recounts_ticking hback (Mos6510.ticking_ok_iff.1 h)
  refine ⟨beats, ?_, hlogged, hrun, hrun.registers.1, hrun.registers.2, fun hn => ?_⟩
  · obtain ⟨r, hrecorded, rfl⟩ := host.recorded.routed.logged_alike.ticking_ok
      (s := ([], m.port, [], s)) rfl hlogged
    exact Mos6510.ticking_ok_iff.2 hrecorded
  · obtain ⟨last, c, op, hlast, hpins, hdone⟩ := Cpu.ticking_latches hn hlogged
    rw [List.getLast?_map, Option.map_eq_some_iff] at hlast
    obtain ⟨b, hb, rfl⟩ := hlast
    refine ⟨?_, b, c, op, hb, hpins, hdone⟩
    obtain ⟨hlawful, hport⟩ := hrun.getLast? hb
    have hlatched : c.pins = Pins.setPort b.after.pins { b.answer with data := b.latched.data } :=
      hpins.trans hlawful.latched
    rw [hdone, hport, Cpu.pins_complete, hlatched]
    rfl

/-- A read finds the code `STA $00`, `LDA $01`, and the data bus is inverted on a write. The read of
the port is held once. -/
def invertingHost : PortHost Nat where
  tick p now :=
    let byte : UInt8 :=
      match p.addr with
      | 0x0200 => 0x85
      | 0x0202 => 0xA5
      | 0x0203 => 0x01
      | _ => 0
    ({ p with data := if p.read then byte else ~~~p.data, rdy := now = 5 }, now + 1)
  portInput now := (0x55, now)
  portOutput _ now := now

def invertingStart : Mos6510 :=
  ⟨((Cpu.powerOn .c64).setPc 0x0200).setA 0x2F, .powerOn .c64⟩

theorem port_answers_once_held :
    invertingHost.HandsBack ∧ ∃ m s beats,
      invertingStart.ticking 1 invertingHost 6 0 = .ok (m, s) ∧
      PortRun invertingStart.port beats m.port ∧
      invertingStart.ticking 1 invertingHost.recorded 6 ([], 0) =
        .ok (m, beats.flatMap PortBeat.events, s) ∧
      m.port.direction = (lastWritten? 0 beats).getD 0 ∧ m.port.direction = 0xD0 := by
  have hback : invertingHost.HandsBack := fun _ _ => ⟨rfl, rfl⟩
  obtain ⟨⟨m, s⟩, hm, hdirection⟩ := ok_of_any (x := invertingStart.ticking 1 invertingHost 6 0)
    (p := fun r : Mos6510 × Nat => r.1.port.direction == 0xD0) (by decide +kernel)
  obtain ⟨beats, hrecorded, -, hrun, hlast, -, -⟩ := (port_answers_once hback 1 6 _ 0).2 _ _ hm
  exact ⟨hback, m, s, beats, hm, hrun, hrecorded, hlast, eq_of_beq hdirection⟩

/-- The processor writes `$2F` to the direction register, and the host hands back the address and
RW, but not that byte: the port takes what the host has left on the data bus. -/
theorem direction_not_as_driven :
    invertingHost.HandsBack ∧ ∃ (m : Mos6510) (s : Nat) (c₁ c₂ c₃ : BusCycle) (shown : UInt8),
      invertingStart.ticking 0 invertingHost.recorded 3 ([], 0) =
        .ok (m, [.cycle c₁, .cycle c₂, .cycle c₃, .shown shown], s) ∧
      c₁.driven.read = true ∧ c₂.driven.read = true ∧
      c₃.driven.read = false ∧ c₃.driven.addr = 0 ∧ c₃.driven.data = 0x2F ∧
      m.port.direction = 0xD0 :=
  ⟨fun _ _ => ⟨rfl, rfl⟩, _, _, _, _, _, _, rfl, rfl, rfl, rfl, rfl, rfl, rfl⟩

end Nmos6502
