import Nmos6502.Proofs.CanonicalFlags
import Nmos6502.Proofs.Latches
import Nmos6502.Proofs.Reachable
import Nmos6502.Proofs.Turns

/-! # A reset forgets the past

A reset reads its vector and starts there, wherever in an instruction, an interrupt sequence or a
lock-up the machine was. It leaves the latches, the handler, the instruction, the clocks and the
last trap as they were. The latches and the handler are not looked at before they are written again,
the instruction is replaced by the next opcode fetch, and the last trap stays until the next run
begins. So after a reset the machine is one that has just been built and given the same A, X and Y,
but for its clock and for what can be asked about the last trap and the last instruction. -/

namespace Nmos6502

namespace Cpu

variable {σ τ ρ : Type} {host : Host σ} {c d : Cpu}

/-! ### Words on the bus -/

/-- The word that is driven in a turn, and the host that is to answer it. -/
def said (turn : Cpu × σ) : Pins × σ := (turn.1.pins, turn.2)

/-- The words that ticks drive, those of a read that is held for good among them. -/
def words (patience : Nat) (host : Host σ) (n : Nat) (c : Cpu) (s : σ) : List (Pins × σ) :=
  (c.tickingTurns patience host n s).map said

theorem holdTurns_said (patience : Nat) (h : c.pins = d.pins) (s : σ) :
    (c.holdTurns host patience s).map said = (d.holdTurns host patience s).map said := by
  induction patience generalizing c d s with
  | zero => simp only [holdTurns, List.map_cons, List.map_nil, said, h]
  | succ n ih =>
    have hpins : (c.cycle host s).1.pins = (d.cycle host s).1.pins := by
      simp only [cycle, latchPins, h]
    have hrdy : (c.cycle host s).1.pins.rdy = (d.cycle host s).1.pins.rdy := by rw [hpins]
    have hhost : (c.cycle host s).2 = (d.cycle host s).2 := by simp only [cycle, h]
    simp only [holdTurns, List.map_cons, said, h, hrdy, hhost]
    split
    · exact congrArg _ (ih (congrArg (fun p : Pins => { p with rdy := false }) hpins) _)
    · rfl

theorem performTurns_said (patience : Nat) (a : Access) (h : c.pins = d.pins) (s : σ) :
    (c.performTurns patience host a s).map said = (d.performTurns patience host a s).map said := by
  have hdriven : (c.drive a).pins = (d.drive a).pins := by rw [drive_eq, drive_eq, h]
  cases a with
  | read addr => exact holdTurns_said patience hdriven s
  | write addr value => simp only [performTurns, List.map_cons, List.map_nil, said, hdriven]

theorem Alike.words (h : Alike c d) (patience : Nat) (host : Host σ) (n : Nat) (s : σ) :
    c.words patience host n s = d.words patience host n s := by
  induction n generalizing c d s with
  | zero => rfl
  | succ n ih =>
    have hturns : (c.turns patience host s).map said = (d.turns patience host s).map said := by
      rcases h.sameNext with ⟨cause, hc, hd⟩ | ⟨op, c', d', hn⟩
      · simp only [turns, hc, hd]
      · simp only [turns, hn.left, hn.right, hn.access]
        exact performTurns_said patience _ hn.pins s
    have hticks := tick_alike patience host h s
    simp only [Cpu.words, tickingTurns, List.map_append, hturns]
    congr 1
    generalize c.tick patience host s = x at hticks
    generalize d.tick patience host s = y at hticks
    cases hticks with
    | @ok a b hab =>
      obtain ⟨c', t⟩ := a
      obtain ⟨d', u⟩ := b
      obtain ⟨hcd, rfl⟩ : Alike c' d' ∧ t = u := hab
      exact ih hcd t
    | error stop => rfl

/-! ### What is left over -/

/-- The latches, the clocks and the last trap. -/
structure Leftover where
  address : UInt16
  operand : UInt8
  ticks : UInt32
  total : Ticks
  trapId : Option Int32

def leftover (c : Cpu) : Leftover := ⟨c.address, c.operand, c.ticks, c.total, c.trapId⟩

def withLeftover (z : Leftover) (c : Cpu) : Cpu :=
  { c with
    address := z.address, operand := z.operand, ticks := z.ticks, total := z.total
    trapId := z.trapId }

/-- What a reset does not set. -/
structure Remains extends Leftover where
  instruction : Instruction
  handler : Handler
  polls : Bool

def remains (c : Cpu) : Remains := ⟨c.leftover, c.instruction, c.handler, c.polls⟩

def withRemains (z : Remains) (c : Cpu) : Cpu :=
  { c.withLeftover z.toLeftover with
    instruction := z.instruction, handler := z.handler, polls := z.polls }

theorem withLeftover_eq (z : Leftover) (c : Cpu) :
    c.withLeftover z = c.withRemains ⟨z, c.instruction, c.handler, c.polls⟩ := rfl

theorem aside_withLeftover (z : Leftover) : Aside (withLeftover z) where
  place _ := ⟨rfl, rfl, rfl, rfl, rfl⟩
  crossed _ := rfl
  handler _ := rfl
  nmiPending _ := rfl
  irq _ := rfl
  irqMasked _ := rfl
  move _ _ := rfl
  mask _ _ := rfl
  steal _ _ := rfl
  idle _ := rfl
  serve _ _ := rfl
  interrupt _ _ := rfl

/-! ### One micro-operation -/

section

variable {op : MicroOp} {z : Leftover}

theorem prepare_withLeftover (op : MicroOp) (z : Leftover) (c : Cpu) :
    ∃ address, ((c.withLeftover z).prepare op).1 =
        (c.prepare op).1.withLeftover { z with address := address } ∧
      (c.address = z.address → (c.prepare op).1.address = address) := by
  cases op with
  | write op =>
    refine ⟨((c.withLeftover z).prepareStore op).1.address, ?_, fun h => ?_⟩
    · simp only [prepare, prepareStore]
      split <;> rfl
    · simp only [prepare, prepareStore, unstableValue, uncorrected, withLeftover, h]
      split
      · rfl
      · exact h
  | vectorLow =>
    refine ⟨z.address, (aside_withLeftover z).stealVector c, fun h => ?_⟩
    simp only [prepare, stealVector]
    split <;> exact h
  | _ => exact ⟨z.address, rfl, id⟩

/-- The latches that a micro-operation uses agree. -/
structure Leftover.Fits (op : MicroOp) (c : Cpu) (z : Leftover) : Prop where
  address : op.reads .address = true → c.address = z.address
  operand : op.reads .operand = true → c.operand = z.operand

/-- Where the flags without storage are canonical, what cannot be told apart from outside is equal.
-/
theorem SameOutside.regs_eq (h : SameOutside c d) (hc : c.regs.p.Canonical)
    (hd : d.regs.p.Canonical) : c.regs = d.regs := by
  rw [← hc.visible_eq, h.regs, hd.visible_eq]

theorem eq_withLeftover {ops : List MicroOp} (ho : SameOutside c d) (hi : SameInside ops c d)
    (hregs : c.regs = d.regs) (hinstruction : c.instruction = d.instruction)
    (hmasked : c.irqMasked = d.irqMasked) : d = c.withLeftover d.leftover := by
  calc d = c.withStale d.stale := eq_withStale ho hi
    _ = c.withLeftover d.leftover := by
      simp only [withStale, stale, ← hregs, ← hinstruction, ← hmasked]
      rfl

theorem apply_withLeftover (hop : op ≠ .fetchOpcode) (hcanonical : c.regs.p.Canonical)
    (h : z.Fits op c) (byte : UInt8) :
    ∃ z', (c.withLeftover z).apply op byte = (c.apply op byte).withLeftover z' := by
  -- What is not left over comes from `c`.
  let y : Stale := ⟨c.regs.p.brk, c.regs.p.unused, c.instruction, z.address, z.operand, c.irqMasked,
    z.ticks, z.total, z.trapId⟩
  have hfits : y.Fits op c := ⟨h.address, h.operand⟩
  have houtside : SameOutside (c.apply op byte) ((c.withLeftover z).apply op byte) :=
    outside_apply hop hfits byte
  have hinside : SameInside [] (c.apply op byte) ((c.withLeftover z).apply op byte) := by
    obtain ⟨hstep, hcrossed⟩ := place_apply hop hfits byte
    refine ⟨?_, hstep, hcrossed, ?_, ?_, nofun, nofun⟩
    · rw [program_apply hop, program_apply hop]
      rfl
    · rw [handler_apply hop, handler_apply hop]
      rfl
    · rw [polls_apply hop, polls_apply hop]
      rfl
  have hcanonical' : (c.withLeftover z).regs.p.Canonical := hcanonical
  have hregs := houtside.regs_eq (hcanonical.apply op byte) (hcanonical'.apply op byte)
  refine ⟨_, eq_withLeftover houtside hinside hregs ?_ ?_⟩
  · rw [instruction_apply hop, instruction_apply hop]
    rfl
  · rw [irqMasked_apply hop, irqMasked_apply hop]
    rfl

theorem complete_withLeftover (hop : op ≠ .fetchOpcode) (hcanonical : c.regs.p.Canonical)
    (h : z.Fits op c) : ∃ z', (c.withLeftover z).complete op = (c.complete op).withLeftover z' := by
  obtain ⟨z', happly⟩ := apply_withLeftover hop hcanonical h c.pins.data
  refine ⟨z', ?_⟩
  calc (c.withLeftover z).complete op
      = ((c.withLeftover z).apply op c.pins.data).settle c.regs.p.irqDisable := complete_eq hop _
    _ = ((c.apply op c.pins.data).settle c.regs.p.irqDisable).withLeftover z' := by
      rw [happly, (aside_withLeftover z').settle]
    _ = (c.complete op).withLeftover z' := by rw [complete_eq hop]

/-- An access and its micro-operation change what is left over and do the same for the rest. -/
theorem done_withLeftover (hcanonical : c.regs.p.Canonical) (h : z.Fits op c) (x : Exchange) :
    ∃ z', (((c.withLeftover z).prepare op).1.receive x).complete op =
      (((c.prepare op).1.receive x).complete op).withLeftover z' := by
  by_cases hop : op = .fetchOpcode
  · subst hop
    exact ⟨⟨z.address, z.operand, z.ticks + UInt32.ofNat x.cycles, ⟨z.total.count + x.cycles⟩,
      z.trapId⟩, rfl⟩
  · obtain ⟨address, hprepare, haddress⟩ := prepare_withLeftover op z c
    rw [hprepare]
    have hreceive : (((c.prepare op).1.withLeftover { z with address := address }).receive x) =
        ((c.prepare op).1.receive x).withLeftover
          ⟨address, z.operand, z.ticks + UInt32.ofNat x.cycles, ⟨z.total.count + x.cycles⟩,
            z.trapId⟩ := rfl
    rw [hreceive]
    refine complete_withLeftover hop (hcanonical.prepare op) ⟨fun hr => ?_, fun hr => ?_⟩
    · exact haddress (h.address hr)
    · rw [receive, prepare_frame]
      exact h.operand hr

end

/-! ### Machines that nothing tells apart -/

/-- `cycles` bus cycles have passed, and no run has been begun or stopped in them. -/
structure Elapses (cycles : Nat) (c d : Cpu) : Prop where
  ticks : d.ticks = c.ticks + UInt32.ofNat cycles
  total : d.total.count = c.total.count + cycles
  trapId : d.trapId = c.trapId

theorem Elapses.trans {e : Cpu} {m n : Nat} (h : Elapses m c d) (h' : Elapses n d e) :
    Elapses (m + n) c e where
  ticks := by rw [h'.ticks, h.ticks, UInt32.ofNat_add, UInt32.add_assoc]
  total := by rw [h'.total, h.total, Nat.add_assoc]
  trapId := h'.trapId.trans h.trapId

theorem elapses_done {e : Cpu} {op : MicroOp} (hn : c.next = .ok (op, e)) (x : Exchange) :
    Elapses x.cycles c (((e.prepare op).1.receive x).complete op) :=
  have h := timing_done hn x
  ⟨congrArg Timing.ticks h, congrArg (fun z => z.total.count) h, congrArg Timing.trapId h⟩

/-- The machines agree on all that will ever be looked at and on all that can be inspected but the
clock and the last trap. -/
structure Inseparable (c d : Cpu) : Prop where
  alike : Alike c d
  canonical : c.regs.p.Canonical
  rest : d = c.withLeftover d.leftover

/-- The same number of cycles has led from `c` and `d` to two machines that nothing tells apart. -/
structure Later (c d : Cpu) (a b : Cpu × σ) : Prop where
  inseparable : Inseparable a.1 b.1
  host : a.2 = b.2
  elapsed : ∃ cycles, Elapses cycles c a.1 ∧ Elapses cycles d b.1

theorem Later.trans {a b a' b' : Cpu × σ} (h : Later c d a b) (h' : Later a.1 b.1 a' b') :
    Later c d a' b' := by
  obtain ⟨m, hc, hd⟩ := h.elapsed
  obtain ⟨n, ha, hb⟩ := h'.elapsed
  exact ⟨h'.inseparable, h'.host, m + n, hc.trans ha, hd.trans hb⟩

theorem SameNext.later {op : MicroOp} {c' d' : Cpu} (h : SameNext op c d c' d')
    (hcanonical : c.regs.p.Canonical)
    (hrest : ∀ x, ∃ z, ((d'.prepare op).1.receive x).complete op =
      (((c'.prepare op).1.receive x).complete op).withLeftover z) (patience : Nat) (s : σ) :
    EndAlike (Later c d) (c.tick patience host s) (d.tick patience host s) := by
  rw [tick_of_next h.left, tick_of_next h.right, h.access, h.pins, h.nmiPending]
  cases host.exchange patience (d'.prepare op).2 (d'.prepare op).1.pins
      (d'.prepare op).1.nmiPending s with
  | error stop => exact .error stop
  | ok r =>
    obtain ⟨z, hz⟩ := hrest r.1
    have hcanonical' : c'.regs.p.Canonical := by rwa [next_frame h.left]
    refine .ok ⟨⟨h.done r.1, ?_, ?_⟩, ?_, r.1.cycles, elapses_done h.left r.1,
      elapses_done h.right r.1⟩
    · exact Status.Canonical.complete (c := (c'.prepare op).1.receive r.1)
        (hcanonical'.prepare op) op
    · simp only [finishTick, hz]
      rfl
    · simp only [finishTick, (h.done r.1).notice op]

/-- The latches that are used next agree. -/
theorem Alike.fits {op : MicroOp} {c' : Cpu} (h : Alike c d) (hn : c.next = .ok (op, c')) :
    d.leftover.Fits op c' := by
  have hreads : ∀ l, op.reads l = true → c.phase = .execute ∧ needs l c.ahead = true := by
    intro l hl
    cases hp : c.phase with
    | execute =>
      refine ⟨rfl, needs_upcoming ?_⟩
      rw [upcoming_of_next hp hn]
      exact needs_of_reads hl _
    | fetch =>
      rw [next_fetch hp] at hn
      cases hn
      cases l <;> cases hl
    | jammed =>
      rw [next_stuck hp] at hn
      cases hn
      cases l <;> cases hl
  rw [next_frame hn]
  refine ⟨fun hl => ?_, fun hl => ?_⟩
  · obtain ⟨hp, hneeds⟩ := hreads .address hl
    exact (h.inside hp).address hneeds
  · obtain ⟨hp, hneeds⟩ := hreads .operand hl
    exact (h.inside hp).operand hneeds

theorem Inseparable.tick (h : Inseparable c d) (patience : Nat) (host : Host σ) (s : σ) :
    EndAlike (Later c d) (c.tick patience host s) (d.tick patience host s) := by
  rcases h.alike.sameNext with ⟨cause, hc, hd⟩ | ⟨op, c', d', hn⟩
  · simp only [tick_eq, hc, hd]
    exact .error _
  · refine hn.later h.canonical (fun x => ?_) patience s
    have hcanonical : c'.regs.p.Canonical := by
      rw [next_frame hn.left]
      exact h.canonical
    have hd' : d' = c'.withLeftover d.leftover := by
      rcases (aside_withLeftover d.leftover).next c with ⟨cause, hc, -⟩ | ⟨op', e, hc, hd⟩
      · rw [hn.left] at hc
        cases hc
      · rw [hn.left] at hc
        cases hc
        rw [← h.rest, hn.right] at hd
        cases hd
        rfl
    rw [hd']
    exact done_withLeftover hcanonical (h.alike.fits hn.left) x

/-- What a reset leaves over goes with the next opcode fetch, the latches apart. -/
theorem tick_fetch (h : Alike c d) (hp : c.phase = .fetch) (hcanonical : c.regs.p.Canonical)
    (hrest : d = c.withRemains d.remains) (patience : Nat) (host : Host σ) (s : σ) :
    EndAlike (Later c d) (c.tick patience host s) (d.tick patience host s) := by
  rcases h.sameNext with ⟨cause, hc, -⟩ | ⟨op, c', d', hn⟩
  · rw [next_fetch hp] at hc
    cases hc
  · refine hn.later hcanonical (fun x => ?_) patience s
    obtain ⟨rfl, rfl⟩ : .fetchOpcode = op ∧ c = c' := by
      simpa [next_fetch hp] using hn.left
    obtain rfl : d = d' := by
      simpa [next_fetch (h.outside.phase.symm.trans hp)] using hn.right
    refine ⟨⟨d.address, d.operand, d.ticks + UInt32.ofNat x.cycles, ⟨d.total.count + x.cycles⟩,
      d.trapId⟩, ?_⟩
    rw [hrest]
    rfl

theorem ticking_later {n : Nat} (patience : Nat) (host : Host σ) (s : σ)
    (h : EndAlike (Later c d) (c.tick patience host s) (d.tick patience host s)) :
    EndAlike (Later c d) (c.ticking patience host (n + 1) s)
      (d.ticking patience host (n + 1) s) := by
  simp only [ticking]
  generalize c.tick patience host s = x at h
  generalize d.tick patience host s = y at h
  cases h with
  | error stop => exact .error stop
  | ok hab =>
    refine ticking_alike (R := Later c d) (fun a s b t hab => ?_) n hab
    obtain rfl : s = t := hab.host
    exact (hab.inseparable.tick patience host s).mono fun _ _ h => hab.trans h

/-! ### What can be inspected -/

/-- The machines agree on all that programs and hosts can see but the clock, the last trap and, in
the text of the state, the last instruction. -/
structure SameSeen (c d : Cpu) : Prop where
  regs : c.regs = d.regs
  pins : c.pins = d.pins
  phase : c.phase = d.phase
  nmiPending : c.nmiPending = d.nmiPending
  inspected (path : String) : path ≠ "cycle" → c.query? path = d.query? path
  text (hasTrap : Bool) : c.text hasTrap =
    { d with instruction := c.instruction, total := c.total, trapId := c.trapId }.text hasTrap

theorem mem_of_lookup {α β : Type} [BEq α] [LawfulBEq α] {k : α} {v : β} {l : List (α × β)}
    (h : l.lookup k = some v) : (k, v) ∈ l := by
  obtain ⟨front, rest, rfl, -⟩ := List.lookup_eq_some_iff.1 h
  exact List.mem_append_right front List.mem_cons_self

theorem query?_withRemains (z : Remains) (c : Cpu) {path : String} (hpath : path ≠ "cycle") :
    c.query? path = (c.withRemains z).query? path := by
  have hproperties : ∀ property ∈ properties, property.1 ≠ "cycle" →
      property.2 c = property.2 (c.withRemains z) := by
    simp [properties, isJammed, withRemains, withLeftover]
  have hname : (aliases.lookup path).getD path ≠ "cycle" := by
    have haliases : ∀ second ∈ aliases, second.2 ≠ "cycle" := by decide
    cases hname : aliases.lookup path with
    | none => exact hpath
    | some name => exact haliases _ (mem_of_lookup hname)
  simp only [query?]
  cases hproperty : properties.lookup ((aliases.lookup path).getD path) with
  | none => rfl
  | some property => exact congrArg some (hproperties _ (mem_of_lookup hproperty) hname)

theorem seen_of_remains {z : Remains} (h : d = c.withRemains z) : SameSeen c d := by
  subst h
  exact ⟨rfl, rfl, rfl, rfl, fun _ => query?_withRemains z c, fun _ => rfl⟩

theorem instruction_eq {z : Leftover} (h : d = c.withLeftover z) : c.instruction = d.instruction :=
  (congrArg Cpu.instruction h).symm

theorem seen_of_leftover {z : Leftover} (h : d = c.withLeftover z) : SameSeen c d :=
  seen_of_remains (h.trans (withLeftover_eq z c))

/-! ### Ticks and runs -/

/-- `n` ticks have led from `c` and `d` to machines that look the same and hosts in the same state.
The clocks have moved by the same number of cycles, the last trap of each is what it was, and with
an opcode fetch among the ticks the instructions are the same too. -/
structure SameTicks (n : Nat) (c d : Cpu) (a b : Cpu × σ) : Prop where
  seen : SameSeen a.1 b.1
  host : a.2 = b.2
  elapsed : ∃ cycles, Elapses cycles c a.1 ∧ Elapses cycles d b.1
  instruction : 0 < n → a.1.instruction = b.1.instruction

theorem Later.sameTicks {a b : Cpu × σ} (h : Later c d a b) (n : Nat) : SameTicks n c d a b where
  seen := seen_of_leftover h.inseparable.rest
  host := h.host
  elapsed := h.elapsed
  instruction _ := instruction_eq h.inseparable.rest

/-- Two runs from `c` and `d` have ended alike: the machines look the same, and so do the last trap,
the number of cycles of the run and what the run has left of the host and the trap. The clocks have
moved alike. -/
structure SameRun (c d : Cpu) (a b : Cpu × ρ) : Prop where
  seen : SameSeen a.1 b.1
  others : a.2 = b.2
  instruction : a.1.instruction = b.1.instruction
  ticks : a.1.ticks = b.1.ticks
  trapId : a.1.trapId = b.1.trapId
  total : a.1.total.count + d.total.count = b.1.total.count + c.total.count

theorem sameRun_of_leftover {a b : Cpu} {z : Leftover} (h : b = a.withLeftover z)
    (hticks : a.ticks = b.ticks) (htrap : a.trapId = b.trapId)
    (htotal : a.total.count + d.total.count = b.total.count + c.total.count) (r : ρ) :
    SameRun c d (a, r) (b, r) :=
  ⟨seen_of_leftover h, rfl, instruction_eq h, hticks, htrap, htotal⟩

/-- Where a trap stops both runs, only its identifier is noted. -/
theorem sameRun_trapped {a b : Cpu} {z : Leftover} (h : b = a.withLeftover z)
    (hticks : a.ticks = b.ticks)
    (htotal : a.total.count + d.total.count = b.total.count + c.total.count) (id : Int32) (r : ρ) :
    SameRun c d ({ a with trapId := some id }, r) ({ b with trapId := some id }, r) := by
  have hstopped : ({ b with trapId := some id } : Cpu) =
      ({ a with trapId := some id } : Cpu).withLeftover { z with trapId := some id } := by
    rw [h]
    rfl
  exact sameRun_of_leftover hstopped hticks rfl htotal r

theorem Later.total {a b : Cpu × σ} (h : Later c d a b) :
    a.1.total.count + d.total.count = b.1.total.count + c.total.count := by
  obtain ⟨n, hc, hd⟩ := h.elapsed
  rw [hc.total, hd.total]
  omega

theorem SameRun.earlier {a b : Cpu × σ} {a' b' : Cpu × ρ} (h : SameRun a.1 b.1 a' b')
    (hab : Later c d a b) : SameRun c d a' b' where
  seen := h.seen
  others := h.others
  instruction := h.instruction
  ticks := h.ticks
  trapId := h.trapId
  total := by
    have h₁ := h.total
    have h₂ := hab.total
    omega

theorem verdict_eq (h : d = c.withLeftover d.leftover) (hticks : c.ticks = d.ticks) (trap : Trap τ)
    (budget : UInt32) (t : τ) : c.verdict trap budget t = d.verdict trap budget t := by
  rw [h]
  simp only [verdict, budgetVerdict, withLeftover, leftover, hticks]
  rfl

theorem runLoop_alike {patience fuel : Nat} {trap : Trap τ} {budget : UInt32} {s : σ} {t : τ}
    (hticks : c.ticks = d.ticks) (htrap : c.trapId = d.trapId)
    (h : EndAlike (Later c d) (c.tick patience host s) (d.tick patience host s)) :
    EndAlike (SameRun c d) (c.runLoop patience host trap budget fuel s t)
      (d.runLoop patience host trap budget fuel s t) := by
  induction fuel generalizing c d s t with
  | zero => exact .error _
  | succ n ih =>
    simp only [runLoop]
    generalize c.tick patience host s = x at h
    generalize d.tick patience host s = y at h
    cases h with
    | error stop => exact .error stop
    | @ok a b hab =>
      obtain ⟨a, u⟩ := a
      obtain ⟨b, v⟩ := b
      obtain rfl : u = v := hab.host
      obtain ⟨k, hc, hd⟩ := hab.elapsed
      have hrest : b = a.withLeftover b.leftover := hab.inseparable.rest
      have hticks' : a.ticks = b.ticks := by rw [hc.ticks, hd.ticks, hticks]
      have htrap' : a.trapId = b.trapId := by rw [hc.trapId, hd.trapId, htrap]
      simp only [verdict_eq hrest hticks']
      cases b.verdict trap budget t with
      | mk verdict w =>
        cases verdict with
        | goOn =>
          exact (ih hticks' htrap' (hab.inseparable.tick patience host u)).mono
            fun _ _ h => h.earlier hab
        | enough => exact .ok (sameRun_of_leftover hrest hticks' htrap' hab.total _)
        | trapped id =>
          have hpc : a.regs.pc = b.regs.pc := congrArg Registers.pc (seen_of_leftover hrest).regs
          simp only [hpc]
          exact .ok (sameRun_trapped hrest hticks' hab.total id _)

/-! ### Machines with the same future -/

theorem Alike.beginRun (h : Alike c d) : Alike c.beginRun d.beginRun where
  outside :=
    have ho := h.outside
    ⟨ho.regs, ho.pins, ho.decimalAdder, ho.phase, ho.nmiPending⟩
  inside hp :=
    have hi := h.inside hp
    ⟨hi.program, hi.step, hi.crossed, hi.handler, hi.polls, hi.address, hi.operand⟩

theorem Inseparable.beginRun (h : Inseparable c d) : Inseparable c.beginRun d.beginRun where
  alike := h.alike.beginRun
  canonical := h.canonical
  rest := (congrArg Cpu.beginRun h.rest).trans rfl

/-- A run forgets the last trap and counts its cycles from zero. -/
theorem execute_alike {fuel : Nat} (trap : Trap τ) (budget : UInt32) {s : σ} (t : τ)
    (h : EndAlike (Later c.beginRun d.beginRun) (c.beginRun.tick fuel host s)
      (d.beginRun.tick fuel host s)) :
    EndAlike (SameRun c d) (c.execute fuel host trap budget s t)
      (d.execute fuel host trap budget s t) := by
  have hticks : c.beginRun.ticks = d.beginRun.ticks := rfl
  have htrap : c.beginRun.trapId = d.beginRun.trapId := rfl
  exact (runLoop_alike hticks htrap h).mono fun _ _ hab =>
    ⟨hab.seen, hab.others, hab.instruction, hab.ticks, hab.trapId, hab.total⟩

/-- Neither the bus nor inspection tells the machines apart from now on, but for what `SameSeen`
leaves out: the clocks run on from where they were, the last traps stay until a run begins, and the
instructions are the same from the next opcode fetch on. -/
structure SameFuture (host : Host σ) (c d : Cpu) (s : σ) : Prop where
  now : SameSeen c d
  words (patience n : Nat) : c.words patience host n s = d.words patience host n s
  ticking (patience n : Nat) : EndAlike (SameTicks n c d) (c.ticking patience host n s)
    (d.ticking patience host n s)
  /-- A run after any number of ticks. -/
  execute {τ : Type} (patience n fuel : Nat) (trap : Trap τ) (budget : UInt32) (t : τ) :
    EndAlike (SameRun c d)
      ((c.ticking patience host n s).bind fun r => r.1.execute fuel host trap budget r.2 t)
      ((d.ticking patience host n s).bind fun r => r.1.execute fuel host trap budget r.2 t)

theorem sameFuture_of_remains (h : Alike c d) (hp : c.phase = .fetch)
    (hcanonical : c.regs.p.Canonical) (hrest : d = c.withRemains d.remains) (host : Host σ)
    (s : σ) : SameFuture host c d s where
  now := seen_of_remains hrest
  words patience n := h.words patience host n s
  ticking patience n := by
    cases n with
    | zero =>
      have hnone (c : Cpu) : Elapses 0 c c := ⟨(UInt32.add_zero _).symm, rfl, rfl⟩
      exact .ok ⟨seen_of_remains hrest, rfl, ⟨0, hnone c, hnone d⟩,
        fun h => absurd h (Nat.lt_irrefl 0)⟩
    | succ n =>
      have htick := tick_fetch h hp hcanonical hrest patience host s
      exact (ticking_later patience host s htick).mono fun _ _ hab => hab.sameTicks (n + 1)
  execute patience n fuel trap budget t := by
    cases n with
    | zero =>
      have hrest' : d.beginRun = c.beginRun.withRemains d.beginRun.remains :=
        (congrArg Cpu.beginRun hrest).trans rfl
      exact execute_alike trap budget t (tick_fetch h.beginRun hp hcanonical hrest' fuel host s)
    | succ n =>
      have htick := tick_fetch h hp hcanonical hrest patience host s
      refine (ticking_later patience host s htick).bind fun a b hab => ?_
      rw [hab.host]
      have hrun := execute_alike trap budget t (hab.inseparable.beginRun.tick fuel host b.2)
      exact hrun.mono fun _ _ h => h.earlier hab

end Cpu

/-! ### New machines -/

/-- A new machine of the variant with the A, X and Y of this one. -/
def Cpu.renewed (variant : Variant) (c : Cpu) : Cpu :=
  (((powerOn variant).setA c.regs.a).setX c.regs.x).setY c.regs.y

/-- The levels last driven on the port lines are taken over as well. -/
def Mos6510.renewed (variant : Variant) (m : Mos6510) : Mos6510 :=
  ⟨m.cpu.renewed variant, { IoPort.powerOn variant with drive := m.port.drive }⟩

namespace Cpu

/-- A reset of `c` that has read these two bytes of the reset vector has led to `d`. A, X and Y are
kept. -/
structure Restarts (low high : UInt8) (c d : Cpu) : Prop where
  regs : d.regs = { c.regs with s := 0xFD, pc := addressOf low high, p := Status.powerOn }
  pins : d.pins = Pins.reading
  phase : d.phase = .fetch
  nmiPending : d.nmiPending = false
  irqMasked : d.irqMasked = true

variable {σ : Type} {variant : Variant} {c : Cpu}

/-- All that a reset machine has of its past but A, X and Y is what a reset does not set. -/
theorem Reachable.reset_eq (h : c.Reachable variant) (host : Host σ) (s : σ) :
    (c.reset host s).1 = ((c.renewed variant).reset host s).1.withRemains
      { c.remains with total := ⟨c.total.count + 2⟩ } := by
  have hadder : c.decimalAdder = (c.renewed variant).decimalAdder := h.decimalAdder
  simp only [reset, hadder]
  rfl

theorem Reachable.sameFuture_reset {τ : Type} (h : c.Reachable variant) (host : Host σ) (s : σ)
    (later : Host τ) (t : τ) :
    SameFuture later (c.reset host s).1 ((c.renewed variant).reset host s).1 t := by
  have hreset := h.reset_eq host s
  have houtside : SameOutside (c.reset host s).1 ((c.renewed variant).reset host s).1 := by
    rw [hreset]
    exact ⟨rfl, rfl, rfl, rfl, rfl⟩
  refine sameFuture_of_remains (alike_of_idle houtside nofun) rfl ⟨rfl, rfl⟩ ?_ later t
  rw [hreset]
  rfl

end Cpu

/-- Neither the bus nor inspection tells the 6510s apart from now on, but for what it leaves out of
their processors. -/
structure Mos6510.SameFuture {σ : Type} (host : PortHost σ) (m m' : Mos6510) (s : σ) : Prop where
  port : m.port = m'.port
  cpu : Cpu.SameFuture host.routed m.cpu m'.cpu (m.port, s)
  ticking (patience n : Nat) : EndAlike
    (fun a b => Cpu.SameTicks n m.cpu m'.cpu (a.1.cpu, a.1.port, a.2) (b.1.cpu, b.1.port, b.2))
    (m.ticking patience host n s) (m'.ticking patience host n s)
  execute {τ : Type} (patience n fuel : Nat) (trap : Trap τ) (budget : UInt32) (t : τ) : EndAlike
    (fun a b => Cpu.SameRun m.cpu m'.cpu (a.1.cpu, a.1.port, a.2) (b.1.cpu, b.1.port, b.2))
    ((m.ticking patience host n s).bind fun r => r.1.execute fuel host trap budget r.2 t)
    ((m'.ticking patience host n s).bind fun r => r.1.execute fuel host trap budget r.2 t)

/-- A run of a 6510 after some ticks is that of its processor on the host that it sees. -/
theorem Mos6510.ticking_execute {σ τ : Type} (patience n fuel : Nat) (host : PortHost σ)
    (trap : Trap τ) (budget : UInt32) (m : Mos6510) (s : σ) (t : τ) :
    (m.ticking patience host n s).bind (fun r => r.1.execute fuel host trap budget r.2 t) =
      ((m.cpu.ticking patience host.routed n (m.port, s)).bind
        fun r => r.1.execute fuel host.routed trap budget r.2 t).map
          fun r => (⟨r.1, r.2.1.1⟩, r.2.1.2, r.2.2) := by
  rw [ticking_eq]
  cases m.cpu.ticking patience host.routed n (m.port, s) with
  | error stop => rfl
  | ok r => exact execute_eq ..

theorem Mos6510.sameFuture_of_cpu {σ : Type} {host : PortHost σ} {m m' : Mos6510} {s : σ}
    (hport : m.port = m'.port) (h : Cpu.SameFuture host.routed m.cpu m'.cpu (m.port, s)) :
    SameFuture host m m' s where
  port := hport
  cpu := h
  ticking patience n := by
    rw [ticking_eq, ticking_eq, ← hport]
    refine (h.ticking patience n).map fun _ _ hab => ?_
    exact hab
  execute patience n fuel trap budget t := by
    rw [ticking_execute, ticking_execute, ← hport]
    refine (h.execute patience n fuel trap budget t).map fun _ _ hab => ?_
    refine ⟨hab.seen, ?_, hab.instruction, hab.ticks, hab.trapId, hab.total⟩
    rw [hab.others]

theorem IoPort.Wired.reset_eq {variant : Variant} {port : IoPort} (h : port.Wired variant) :
    port.reset = { IoPort.powerOn variant with drive := port.drive } := by
  simp only [IoPort.reset, IoPort.powerOn, h.1, h.2]

/-- A reset forgets the past. Whatever calls have led to a machine, a reset makes two reads, at
$FFFC and at $FFFD, and starts at the address that the answers make. It keeps A, X and Y, adds the
two reads to the clock and leaves the rest of `Remains`, the last trap among it, as it was. In all
else the machine is a new one of the same variant that has been given the same A, X and Y and reset
on the same host: the same words are driven from then on, the host gets to the same states and the
same can be inspected, the last trap too once a run has begun. With the level last driven on its
port lines taken over as well the same is true of a 6510. -/
theorem reset_forgets (variant : Variant) :
    (∀ c : Cpu, c.Reachable variant → ∀ {σ : Type} (host : Host σ) (s : σ),
      let first : Pins := { Pins.reading with addr := 0xFFFC }
      let second : Pins := { Pins.reading with addr := 0xFFFD }
      let low := host.tick first s
      let high := host.tick second low.2
      let r := c.reset host.logged ([], s)
      let r' := (c.renewed variant).reset host.logged ([], s)
      r.2 = ([⟨first, low.1⟩, ⟨second, high.1⟩], host.note (.reset r.1.regs.pc) high.2) ∧
        r'.2 = r.2 ∧ Cpu.Restarts low.1.data high.1.data c r.1 ∧
        r.1 = r'.1.withRemains { c.remains with total := ⟨c.total.count + 2⟩ } ∧
        Cpu.SameFuture host.logged r.1 r'.1 r.2) ∧
    ∀ m : Mos6510, m.Reachable variant → ∀ {σ : Type} (host : PortHost σ) (s : σ),
      let first : Pins := { Pins.reading with addr := 0xFFFC }
      let second : Pins := { Pins.reading with addr := 0xFFFD }
      let low := host.tick first s
      let high := host.tick second low.2
      let r := m.reset host.recorded ([], s)
      let r' := (m.renewed variant).reset host.recorded ([], s)
      r.2 = ([.cycle ⟨first, low.1⟩, .cycle ⟨second, high.1⟩],
          host.note (.reset r.1.cpu.regs.pc) high.2) ∧
        r'.2 = r.2 ∧ Cpu.Restarts low.1.data high.1.data m.cpu r.1.cpu ∧
        r.1.cpu = r'.1.cpu.withRemains
          { m.cpu.remains with total := ⟨m.cpu.total.count + 2⟩ } ∧
        r.1.port = { IoPort.powerOn variant with drive := m.port.drive } ∧
        Mos6510.SameFuture host.recorded r.1 r'.1 r.2 := by
  refine ⟨?_, ?_⟩
  · intro c h σ host s
    exact ⟨rfl, rfl, ⟨rfl, rfl, rfl, rfl, rfl⟩, h.reset_eq _ _, h.sameFuture_reset _ _ _ _⟩
  · intro m h σ host s
    have hport := h.wired.reset_eq
    exact ⟨rfl, rfl, ⟨rfl, rfl, rfl, rfl, rfl⟩, h.cpu.reset_eq _ _, hport,
      Mos6510.sameFuture_of_cpu hport (h.cpu.sameFuture_reset _ _ _ _)⟩

/-- A machine that has run a NOP and has been stopped by a trap. -/
def Cpu.stopped : Cpu :=
  { powerOn .plain with
    regs.pc := 1, pins.addr := 1, pins.data := 0xEA, program := Instruction.program (.implied .nop)
    step := 1, ticks := 2, total := ⟨2⟩, trapId := some 9 }

theorem Cpu.execute_stopped :
    (powerOn .plain).execute 2 ⟨fun p s => ({ p with data := 0xEA }, s), fun _ s => s⟩
      ⟨fun _ _ _ t => (9, t)⟩ 1 () () = .ok (stopped, (), ()) := by
  rfl

theorem Cpu.reachable_stopped : stopped.Reachable .plain :=
  Reachable.powerOn.call 2 (.execute _ _ 1 () ()) (by rw [obey, execute_stopped]; rfl)

/-- NMI has risen inside an instruction, after a run that a trap has stopped. On the 6510 a port
line that was driven high is an input again. -/
theorem reset_forgets_midway :
    let host : PortHost Unit :=
      { tick := fun p s => ({ p with
          data := if p.addr = 0xFFFC then 0x34 else if p.addr = 0xFFFD then 0x12 else 0xEA }, s)
        portInput := fun s => (0, s)
        portOutput := fun _ s => s }
    let low : BusCycle := ⟨{ Pins.reading with addr := 0xFFFC },
      { Pins.reading with addr := 0xFFFC, data := 0x34 }⟩
    let high : BusCycle := ⟨{ Pins.reading with addr := 0xFFFD },
      { Pins.reading with addr := 0xFFFD, data := 0x12 }⟩
    (∃ c : Cpu, c.Reachable .plain ∧ c.phase = .execute ∧ c.nmiPending = true ∧
      let r := c.reset host.logged ([], ())
      r.2.1 = [low, high] ∧ r.1.regs.pc = 0x1234 ∧ r.1.regs.a = 0x56 ∧ r.1.trapId = some 9 ∧
        Cpu.SameFuture host.logged r.1 ((c.renewed .plain).reset host.logged ([], ())).1 r.2) ∧
    ∃ m : Mos6510, m.Reachable .c64 ∧ m.port.direction = 0 ∧
      let r := m.reset host.recorded ([], ())
      r.2.1 = [.cycle low, .cycle high] ∧ r.1.cpu.regs.pc = 0x1234 ∧ r.1.port.drive = 8 ∧
        Mos6510.SameFuture host.recorded r.1 ((m.renewed .c64).reset host.recorded ([], ())).1
          r.2 := by
  intro host low high
  have hset := Cpu.reachable_stopped.call 0 (.setA 0x56) rfl
  obtain ⟨c, hc, hfetched⟩ := ok_of_any
    (x := (Cpu.stopped.setA 0x56).obey 0 (.tick host.toHost ()))
    (p := fun c => c.phase = .execute && !c.pins.nmi && c.regs.a = 0x56 && c.trapId = some 9)
    (by decide)
  obtain ⟨⟨⟨hphase, hlow⟩, ha⟩, htrap⟩ :
      ((c.phase = .execute ∧ c.pins.nmi = false) ∧ c.regs.a = 0x56) ∧ c.trapId = some 9 := by
    simpa using hfetched
  have hraised := (hset.call 0 _ hc).call 0 (.latchPins { Pins.reading with nmi := true }) rfl
  have hnmi : (c.latchPins { Pins.reading with nmi := true }).nmiPending = true := by
    simp [Cpu.latchPins, hlow]
  have hnew : (Mos6510.powerOn .c64).Reachable .c64 := .powerOn
  have hout := hnew.call 0 (.request host { Pins.low with data := 8 } ()) rfl
  have hdriven := hout.call 0 (.request host { Pins.low with addr := 1, data := 8 } ()) rfl
  have hin := hdriven.call 0 (.request host Pins.low ()) rfl
  obtain ⟨hwords, -, hstart, hleft, hfuture⟩ := (reset_forgets .plain).1 _ hraised host.toHost ()
  obtain ⟨hwords', -, hstart', -, hport', hfuture'⟩ := (reset_forgets .c64).2 _ hin host ()
  have hpc : addressOf 0x34 0x12 = 0x1234 := by decide
  refine ⟨⟨_, hraised, hphase, hnmi, congrArg Prod.fst hwords, ?_, ?_, ?_, hfuture⟩,
    _, hin, rfl, congrArg Prod.fst hwords', ?_, ?_, hfuture'⟩
  · exact (congrArg Registers.pc hstart.regs).trans hpc
  · exact (congrArg Registers.a hstart.regs).trans ha
  · exact (congrArg Cpu.trapId hleft).trans htrap
  · exact (congrArg Registers.pc hstart'.regs).trans hpc
  · exact (congrArg IoPort.drive hport').trans (by decide)

/-- The identifier of the trap that has stopped a run outlives a reset, so the clock is not all that
a new machine lacks. -/
theorem trap_outlives_reset :
    let host : Host Unit := ⟨fun p s => ({ p with data := 0xEA }, s), fun _ s => s⟩
    let r := (Cpu.stopped.reset host ()).1
    let r' := ((Cpu.stopped.renewed .plain).reset host ()).1
    Cpu.stopped.Reachable .plain ∧ r.trapId = some 9 ∧ r'.trapId = none ∧
      r.text false ≠ Cpu.text false { r' with total := r.total } := by
  refine ⟨Cpu.reachable_stopped, rfl, rfl, ?_⟩
  decide +kernel

end Nmos6502
