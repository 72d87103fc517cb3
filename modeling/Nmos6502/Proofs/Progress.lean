import Nmos6502.Proofs.Coherence

/-! # Progress

On a host that never holds a read every tick takes one cycle and uses up some of the program. An
instruction takes at most eight cycles, its opcode fetch included, and the interrupt sequence that
may hide the next boundary seven more: this bounds the cycles from one boundary to another. -/

namespace Nmos6502

variable {σ : Type}

theorem Mode.length_program (correction : MicroOp) (mode : Mode) :
    (mode.program correction).length ≤ 4 := by
  cases mode <;> simp [program]

theorem Instruction.length_program (i : Instruction) : i.program.length ≤ 7 := by
  cases i with
  | read op mode | store op mode =>
    have := mode.length_program .fixPage
    have := mode.length_program .fixPageIfCrossed
    simp only [program, List.length_append, List.length_singleton]
    omega
  | modify op mode =>
    have := mode.length_program .fixPage
    simp only [program, List.length_append, List.length_cons, List.length_nil]
    omega
  | _ => simp [program]

/-! ### Hosts without wait states -/

/-- The host never answers with RDY high. -/
def Host.Prompt (host : Host σ) : Prop := ∀ p s, (host.tick p s).1.rdy = false

theorem Host.Prompt.exchange {host : Host σ} (h : host.Prompt) (patience : Nat) (a : Access)
    (p : Pins) (pending : Bool) (s : σ) :
    host.exchange patience a p pending s = .ok (host.answer (p.drive a) pending s) := by
  have hrdy : (host.answer (p.drive a) pending s).1.pins.rdy = false := h _ s
  cases a with
  | read addr => cases patience <;> simp [Host.exchange, Host.hold, hrdy]
  | write addr value => rfl

namespace Cpu

/-! ### Cycles to the next boundary -/

/-- So many cycles lead to the next boundary at the latest, if no read is held and the machine does
not lock up. -/
def cyclesLeft (c : Cpu) : Nat :=
  match c.phase with
  | .fetch => 15
  | .execute => c.ahead.length + if c.polls then interruptProgram.length else 0
  | .jammed => 0

theorem cyclesLeft_of_execute {c : Cpu} (h : c.phase = .execute) :
    c.cyclesLeft = c.ahead.length + if c.polls then interruptProgram.length else 0 := by
  simp only [cyclesLeft, h]

theorem SamePlace.cyclesLeft {c d : Cpu} (h : SamePlace c d) : d.cyclesLeft = c.cyclesLeft := by
  simp only [Cpu.cyclesLeft, h.phase, h.ahead, h.polls]

theorem cyclesLeft_decode (opcode : UInt8) (c : Cpu) : (c.decode opcode).cyclesLeft < 15 := by
  have hlen := (Instruction.ofOpcode opcode).length_program
  have hleft : (c.decode opcode).cyclesLeft = (Instruction.ofOpcode opcode).program.length +
      if (Instruction.ofOpcode opcode).polls then 7 else 0 := rfl
  rw [hleft]
  split <;> omega

theorem cyclesLeft_complete {op : MicroOp} (hop : op ≠ .fetchOpcode) {c : Cpu}
    (hp : c.phase = .execute) (hd : (c.complete op).phase = .execute) :
    (c.complete op).cyclesLeft ≤ c.cyclesLeft := by
  rcases complete_cases hop hp with ⟨-, hjam⟩ | ⟨-, hsame, -, hahead⟩ | ⟨b, rfl, -, -, hend⟩
  · rw [hd] at hjam
    cases hjam
  · refine Nat.le_of_eq ?_
    rw [cyclesLeft_of_execute hd, cyclesLeft_of_execute hp, hahead, hsame, polls_apply hop]
  · rw [hend] at hd ⊢
    cases hpolls : c.polls with
    | false =>
      rw [hpolls] at hd
      cases hd
    | true =>
      -- The interrupt sequence itself is not followed by another one.
      rw [cyclesLeft_of_execute hp, hpolls]
      rw [hpolls] at hd
      rcases poll_cases { c.apply op c.pins.data with irqMasked := c.regs.p.irqDisable } with
        h | h | h
      · rw [if_pos rfl, h] at hd
        cases hd
      · rw [if_pos rfl, h]
        exact Nat.le_add_left 7 c.ahead.length
      · rw [if_pos rfl, h]
        exact Nat.le_add_left 7 c.ahead.length

theorem length_ahead_upcoming {c : Cpu} {op : MicroOp} {ops : List MicroOp}
    (hu : c.upcoming = op :: ops) : (c.moveTo ops).ahead.length < c.ahead.length := by
  rw [ahead_moveTo ((List.suffix_cons op ops).trans (hu ▸ c.upcoming_suffix))]
  have hlen := congrArg List.length hu
  unfold upcoming at hlen
  split at hlen
  · simp only [List.length_tail, List.length_cons] at hlen
    omega
  · simp only [List.length_cons] at hlen
    omega

/-- A tick inside a program brings the next boundary nearer. -/
theorem cyclesLeft_tick {c d : Cpu} (hc : c.Coherent) {patience : Nat} {host : Host σ} {s t : σ}
    (ht : c.tick patience host s = .ok (d, t)) (hd : d.phase = .execute) :
    d.cyclesLeft < c.cyclesLeft := by
  cases hp : c.phase with
  | fetch =>
    obtain ⟨x, u, -, rfl, -⟩ := tick_ok_of_next (next_fetch hp) ht
    have hleft : c.cyclesLeft = 15 := by simp only [cyclesLeft, hp]
    rw [hleft]
    exact cyclesLeft_decode _ _
  | execute =>
    obtain ⟨op, ops, x, u, hu, hop, -, rfl, -⟩ := hc.tick_inside hp ht
    have hmoved := length_ahead_upcoming hu
    have hplace := samePlace_access op x (c.moveTo ops)
    have hdone := cyclesLeft_complete hop (hplace.phase.trans hp) hd
    rw [hplace.cyclesLeft, cyclesLeft_of_execute (c := c.moveTo ops) hp] at hdone
    rw [cyclesLeft_of_execute hp]
    have hpolls : (c.moveTo ops).polls = c.polls := rfl
    rw [hpolls] at hdone
    omega
  | jammed =>
    rw [tick_jammed hp ht] at hd
    cases hd

theorem tick_of_prompt {host : Host σ} (h : host.Prompt) {c e : Cpu} {op : MicroOp}
    (hn : c.next = .ok (op, e)) (patience : Nat) (s : σ) :
    c.tick patience host s = .ok ((e.prepare op).1.finishTick host op
      (host.answer ((e.prepare op).1.pins.drive (e.prepare op).2) (e.prepare op).1.nmiPending
        s)) := by
  rw [tick_of_next hn, h.exchange]
  rfl

theorem tick_prompt {host : Host σ} (h : host.Prompt) {c : Cpu} (hc : c.Coherent)
    (patience : Nat) (s : σ) :
    ∃ d t, c.tick patience host s = .ok (d, t) ∧ d.ticks = c.ticks + 1 := by
  obtain ⟨op, e, hn, -⟩ := next_of_wellFormed hc.wellFormed
  have htiming : (e.prepare op).1.timing = c.timing := by
    rw [timing_prepare, next_frame hn]
    rfl
  refine ⟨_, _, tick_of_prompt h hn patience s, ?_⟩
  have hticks : (e.prepare op).1.ticks = c.ticks := congrArg Timing.ticks htiming
  rw [← hticks]
  exact congrArg Timing.ticks (timing_complete _ op)

end Cpu

end Nmos6502
