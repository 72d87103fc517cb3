import Nmos6502.Proofs.Turns

/-! # Held reads

A read is repeated while the host answers with RDY high. What is driven again is the host's own
answer with RDY taken off it, so the same word comes again from a host that hands back the address
and the direction, and from no other. A write takes one cycle, whatever RDY is. -/

namespace Nmos6502

variable {σ τ : Type}

/-- The cycles of a read that begins with `p` on the pins: an answer with RDY high is driven again,
RDY apart. -/
inductive Repeats : Pins → List BusCycle → Prop
  | last (p answer : Pins) : Repeats p [⟨p, answer⟩]
  | again {p answer : Pins} {cycles : List BusCycle} : answer.rdy = true →
    Repeats { answer with rdy := false } cycles → Repeats p (⟨p, answer⟩ :: cycles)

/-- While it holds a read the host returns the address, the direction and SYNC as it was given
them. -/
def Host.HandsBackHeld (host : Host σ) : Prop :=
  ∀ p s, (host.tick p s).1.rdy = true → (host.tick p s).1.addr = p.addr ∧
    (host.tick p s).1.read = p.read ∧ (host.tick p s).1.sync = p.sync

namespace Repeats

variable {p : Pins} {cycles : List BusCycle}

theorem rdy_low (h : Repeats p cycles) (hp : p.rdy = false) :
    ∀ cycle ∈ cycles, cycle.driven.rdy = false := by
  induction h with
  | last p answer => exact List.forall_mem_singleton.2 hp
  | again _ _ ih => exact List.forall_mem_cons.2 ⟨hp, ih rfl⟩

end Repeats

namespace Cpu

/-- The bus cycles of the next tick, or of as much of it as the patience allows. -/
def tickCycles (patience : Nat) (host : Host σ) (c : Cpu) (s : σ) : List BusCycle :=
  (c.turns patience host s).map host.turnCycle

/-! ### Holds -/

/-- The machine as it drives a held read again. -/
def reissued (c : Cpu) : Cpu := { c with pins.rdy := false }

section

variable {patience : Nat} {host : Host σ}

theorem hold_zero (c : Cpu) (s : σ) :
    c.hold host 0 s =
      if (host.tick c.pins s).1.rdy then .error .unfinished else .ok (c.cycle host s) := rfl

theorem hold_succ (patience : Nat) (c : Cpu) (s : σ) :
    c.hold host (patience + 1) s =
      if (host.tick c.pins s).1.rdy then
        (c.cycle host s).1.reissued.hold host patience (c.cycle host s).2
      else .ok (c.cycle host s) := rfl

theorem holdTurns_succ (patience : Nat) (c : Cpu) (s : σ) :
    c.holdTurns host (patience + 1) s =
      (c, s) :: if (host.tick c.pins s).1.rdy then
        (c.cycle host s).1.reissued.holdTurns host patience (c.cycle host s).2
      else [] := rfl

theorem repeats_holdTurns (host : Host σ) (patience : Nat) (c : Cpu) (s : σ) :
    Repeats c.pins ((c.holdTurns host patience s).map host.turnCycle) := by
  induction patience generalizing c s with
  | zero => exact .last _ _
  | succ n ih =>
    rw [holdTurns_succ, List.map_cons]
    split
    · rename_i hrdy
      exact .again hrdy (ih (c.cycle host s).1.reissued _)
    · exact .last _ _

theorem holdTurns_handedBack (hback : host.HandsBackHeld) (patience : Nat) (c : Cpu) (s : σ) :
    ∀ turn ∈ c.holdTurns host patience s, turn.1.pins.addr = c.pins.addr ∧
      turn.1.pins.read = c.pins.read ∧ turn.1.pins.sync = c.pins.sync := by
  induction patience generalizing c s with
  | zero => exact List.forall_mem_singleton.2 ⟨rfl, rfl, rfl⟩
  | succ n ih =>
    rw [holdTurns_succ]
    refine List.forall_mem_cons.2 ⟨⟨rfl, rfl, rfl⟩, ?_⟩
    split
    · rename_i hrdy
      obtain ⟨haddr, hread, hsync⟩ := hback c.pins s hrdy
      intro turn hturn
      obtain ⟨ha, hr, hs⟩ := ih _ _ turn hturn
      exact ⟨ha.trans haddr, hr.trans hread, hs.trans hsync⟩
    · exact List.forall_mem_nil _

/-- A hold ends with the first answer that has RDY low. -/
theorem hold_ends (host : Host σ) (patience : Nat) (c : Cpu) (s : σ) :
    ∃ held last, (c.holdTurns host patience s).map host.turnCycle = held ++ [last] ∧
      (∀ cycle ∈ held, cycle.answer.rdy = true) ∧
      (last.answer.rdy = false → ∃ x u, x.pins = last.answer ∧ x.cycles = held.length + 1 ∧
        c.hold host patience s = .ok (c.receive x, u)) ∧
      (last.answer.rdy = true → held.length = patience ∧
        c.hold host patience s = .error .unfinished) := by
  have hnone : ∀ cycle ∈ ([] : List BusCycle), cycle.answer.rdy = true := List.forall_mem_nil _
  induction patience generalizing c s with
  | zero =>
    refine ⟨[], host.turnCycle (c, s), rfl, hnone, ?_, ?_⟩
    · intro hlast
      have hrdy : (host.tick c.pins s).1.rdy = false := hlast
      exact ⟨_, _, rfl, rfl, by rw [hold_zero, hrdy, if_neg Bool.false_ne_true, cycle_eq]⟩
    · intro hlast
      have hrdy : (host.tick c.pins s).1.rdy = true := hlast
      exact ⟨rfl, by rw [hold_zero, if_pos hrdy]⟩
  | succ n ih =>
    by_cases hrdy : (host.tick c.pins s).1.rdy = true
    · obtain ⟨held, last, hcycles, hheld, hok, herror⟩ :=
        ih (c.cycle host s).1.reissued (c.cycle host s).2
      refine ⟨host.turnCycle (c, s) :: held, last, ?_, List.forall_mem_cons.2 ⟨hrdy, hheld⟩, ?_, ?_⟩
      · rw [holdTurns_succ, if_pos hrdy, List.map_cons, hcycles, List.cons_append]
      · intro hlast
        obtain ⟨x, u, hpins, hlen, hhold⟩ := hok hlast
        refine ⟨{ x with cycles := x.cycles + 1 }, u, hpins, congrArg Nat.succ hlen, ?_⟩
        rw [hold_succ, if_pos hrdy, hhold, cycle_eq]
        exact congrArg (fun d => Except.ok (d, u)) (receive_held _ x rfl c)
      · intro hlast
        obtain ⟨hlen, hhold⟩ := herror hlast
        exact ⟨congrArg Nat.succ hlen, by rw [hold_succ, if_pos hrdy, hhold]⟩
    · refine ⟨[], host.turnCycle (c, s), ?_, hnone, ?_, fun h => absurd h hrdy⟩
      · rw [holdTurns_succ, if_neg hrdy]
        rfl
      · intro _
        exact ⟨_, _, rfl, rfl, by rw [hold_succ, if_neg hrdy, cycle_eq]⟩

end

/-! ### Ticks -/

/-- A tick of `c` that does `op` and reads. `e` is the machine with its place moved past `op`. -/
structure HoldsRead (patience : Nat) (host : Host σ) (op : MicroOp) (addr : UInt16) (c e : Cpu)
    (s : σ) : Prop where
  /-- The first word asks for the address, and every later one is the answer before it without
  RDY. -/
  repeated : ∃ p : Pins, p.access = .read addr ∧ p.rdy = false ∧
    Repeats p (c.tickCycles patience host s)
  rdy_low : ∀ cycle ∈ c.tickCycles patience host s, cycle.driven.rdy = false
  unchanged : host.HandsBackHeld → ∃ sync, ∀ cycle ∈ c.tickCycles patience host s,
    cycle.driven.access = .read addr ∧ cycle.driven.sync = sync
  /-- The work of the tick is done on the first answer with RDY low. -/
  ends : ∃ held last, c.tickCycles patience host s = held ++ [last] ∧
    (∀ cycle ∈ held, cycle.answer.rdy = true) ∧
    (last.answer.rdy = false → ∃ x t, x.pins = last.answer ∧ x.cycles = held.length + 1 ∧
      c.tick patience host s = .ok (((e.prepare op).1.receive x).complete op, t)) ∧
    (last.answer.rdy = true → held.length = patience ∧
      c.tick patience host s = .error .unfinished)

/-- A tick of `c` that does `op` and writes. -/
structure WritesOnce (patience : Nat) (host : Host σ) (op : MicroOp) (addr : UInt16) (value : UInt8)
    (c e : Cpu) (s : σ) : Prop where
  once : ∃ cycle, c.tickCycles patience host s = [cycle] ∧ cycle.driven.access = .write addr value
  returns : ∃ x t, x.cycles = 1 ∧
    c.tick patience host s = .ok (((e.prepare op).1.receive x).complete op, t)

section

variable {patience : Nat} {host : Host σ} {c e : Cpu} {op : MicroOp} {s : σ}

theorem tickCycles_eq (hn : c.next = .ok (op, e)) :
    c.tickCycles patience host s =
      ((e.prepare op).1.performTurns patience host (e.prepare op).2 s).map host.turnCycle := by
  simp only [tickCycles, turns, hn]

theorem tick_of_perform (hn : c.next = .ok (op, e)) {access : Access}
    (ha : (e.prepare op).2 = access) {r : Cpu} {u : σ}
    (h : (e.prepare op).1.perform patience host access s = .ok (r, u)) :
    c.tick patience host s =
      .ok (r.complete op, host.noteAny ((r.complete op).notice? op) u) := by
  simp only [tick, hn, ha, h]

theorem holdsRead (hn : c.next = .ok (op, e)) {addr : UInt16}
    (hread : (e.prepare op).2 = .read addr) : HoldsRead patience host op addr c e s := by
  have hcycles : c.tickCycles patience host s =
      (((e.prepare op).1.drive (.read addr)).holdTurns host patience s).map host.turnCycle := by
    rw [tickCycles_eq hn, hread]
    rfl
  have hrepeats := repeats_holdTurns host patience ((e.prepare op).1.drive (.read addr)) s
  rw [← hcycles] at hrepeats
  refine ⟨⟨_, rfl, rfl, hrepeats⟩, hrepeats.rdy_low rfl, ?_, ?_⟩
  · intro hback
    refine ⟨((e.prepare op).1.drive (.read addr)).pins.sync, ?_⟩
    rw [hcycles]
    intro cycle hcycle
    obtain ⟨turn, hturn, rfl⟩ := List.mem_map.1 hcycle
    obtain ⟨haddr, hrw, hsync⟩ := holdTurns_handedBack hback patience _ s turn hturn
    refine ⟨?_, hsync⟩
    have hhigh : turn.1.pins.read = true := hrw
    simp only [Host.turnCycle, Pins.access, hhigh, if_true, haddr]
    rfl
  · obtain ⟨held, last, hlist, hheld, hok, herror⟩ :=
      hold_ends host patience ((e.prepare op).1.drive (.read addr)) s
    refine ⟨held, last, hcycles.trans hlist, hheld, ?_, ?_⟩
    · intro hlast
      obtain ⟨x, u, hpins, hlen, hhold⟩ := hok hlast
      exact ⟨x, _, hpins, hlen, tick_of_perform hn hread hhold⟩
    · intro hlast
      obtain ⟨hlen, hhold⟩ := herror hlast
      have hperform : (e.prepare op).1.perform patience host (.read addr) s = .error .unfinished :=
        hhold
      exact ⟨hlen, by simp only [tick, hn, hread, hperform]⟩

theorem writesOnce (hn : c.next = .ok (op, e)) {addr : UInt16} {value : UInt8}
    (hwrite : (e.prepare op).2 = .write addr value) :
    WritesOnce patience host op addr value c e s := by
  refine ⟨⟨host.turnCycle ((e.prepare op).1.drive (.write addr value), s), ?_, rfl⟩, ?_⟩
  · rw [tickCycles_eq hn, hwrite]
    rfl
  · exact ⟨(host.answer _ _ s).1, _, rfl, tick_of_perform hn hwrite rfl⟩

end

/-! ### Runs -/

theorem turns_of_runLoop {patience : Nat} {host : Host σ} {trap : Trap τ} {budget : UInt32}
    {fuel : Nat} {c : Cpu} {s : σ} {t : τ} {turn : Cpu × σ}
    (h : turn ∈ c.runLoopTurns patience host trap budget fuel s t) :
    ∃ (d : Cpu) (u : σ), turn ∈ d.turns patience host u ∧
      d.turns patience host u <:+: c.runLoopTurns patience host trap budget fuel s t := by
  induction fuel generalizing c s t with
  | zero => cases h
  | succ n ih =>
    simp only [runLoopTurns] at h ⊢
    rcases List.mem_append.1 h with hfirst | hrest
    · exact ⟨c, s, hfirst, (List.prefix_append _ _).isInfix⟩
    · split at hrest
      · cases hrest
      · split at hrest
        · obtain ⟨d, u, hturn, hin⟩ := ih hrest
          exact ⟨d, u, hturn, hin.trans (List.suffix_append _ _).isInfix⟩
        · cases hrest
        · cases hrest

theorem next_of_turns {patience : Nat} {host : Host σ} {c : Cpu} {s : σ} {turn : Cpu × σ}
    (h : turn ∈ c.turns patience host s) : ∃ op e, c.next = .ok (op, e) := by
  simp only [turns] at h
  cases hn : c.next with
  | error cause => simp only [hn, List.not_mem_nil] at h
  | ok next => exact ⟨next.1, next.2, rfl⟩

/-- A read that is held is driven again as the host left the pins, RDY apart. Whatever machine and
whatever host: the first word of a read asks for its address with RW high and RDY low, every later
word is the answer before it without RDY, the tick ends with the first answer that has RDY low, and
its work is done on that answer. If the host hands back the address, the direction and SYNC while it
holds, all words of the read are the same in these. A write takes one cycle, whatever RDY is. The
words of a run are those of its ticks. -/
theorem held_reads_repeat (host : Host σ) :
    (∀ (patience : Nat) (c e : Cpu) (op : MicroOp) (s : σ), c.next = .ok (op, e) →
      match (e.prepare op).2 with
      | .read addr => HoldsRead patience host op addr c e s
      | .write addr value => WritesOnce patience host op addr value c e s) ∧
    ∀ {τ : Type} (trap : Trap τ) (fuel : Nat) (budget : UInt32) (c : Cpu) (s : σ) (t : τ),
      ∀ turn ∈ c.executeTurns fuel host trap budget s t, ∃ (d e : Cpu) (op : MicroOp) (u : σ),
        d.next = .ok (op, e) ∧ turn ∈ d.turns fuel host u ∧
        d.turns fuel host u <:+: c.executeTurns fuel host trap budget s t := by
  refine ⟨fun patience c e op s hn => ?_, fun trap fuel budget c s t turn h => ?_⟩
  · split
    · exact holdsRead hn ‹_›
    · exact writesOnce hn ‹_›
  · obtain ⟨d, u, hturn, hin⟩ := turns_of_runLoop h
    obtain ⟨op, e, hn⟩ := next_of_turns hturn
    exact ⟨d, e, op, u, hn, hturn, hin⟩

/-- A host that holds a read once, with all but the address, the direction and SYNC changed. -/
theorem held_reads_repeat_once :
    let host : Host Bool :=
      { tick := fun p held =>
          if held then ({ p with data := 0xEA, rdy := false }, true)
          else ({ p with data := 0x55, irq := true, nmi := true, rdy := true }, true) }
    host.HandsBackHeld ∧ (powerOn .plain).next = .ok (.fetchOpcode, powerOn .plain) ∧
      HoldsRead 1 host .fetchOpcode 0 (powerOn .plain) (powerOn .plain) false := by
  intro host
  refine ⟨?_, rfl, (held_reads_repeat host).1 1 (powerOn .plain) _ .fetchOpcode false rfl⟩
  intro p held _
  cases held <;> exact ⟨rfl, rfl, rfl⟩

/-- The other bus master puts an address of its own on the bus while it holds an opcode fetch: the
fetch goes on at that address. -/
theorem held_read_moves :
    let host : Host Bool :=
      { tick := fun p held =>
          if held then ({ p with rdy := false }, true)
          else ({ p with addr := 0x3FFF, rdy := true }, true) }
    let cycles := (powerOn .plain).tickCycles 1 host false
    cycles.map (fun cycle => (cycle.driven.addr, cycle.answer.rdy)) = [(0, true), (0x3FFF, false)] ∧
      ¬∀ cycle ∈ cycles, cycle.driven.addr = 0 := by
  decide

end Cpu

end Nmos6502
