import Nmos6502.Proofs.OwnLines

/-! # PC set from outside

A program may set PC at any time, between instructions and inside one. What the machine has still to
do of an instruction goes on from there: every byte of the operand that is yet to be read is read at
the new PC and moves it on, and a jump, a return or a branch loads PC with an address of its own. So
the next opcode is fetched where PC was set only if nothing of that is ahead. -/

namespace Nmos6502

variable {σ : Type}

namespace MicroOp

/-- The micro-operation reads a byte at PC and moves past it. -/
def movesPast : MicroOp → Bool
  | fetchOpcode | immediate _ | skip | addressLow | addressHigh | addressHighIndexed _
  | branchOffset _ => true
  | _ => false

/-- The micro-operation belongs to a branch, loads PC or locks the machine up. -/
def losesPc : MicroOp → Bool
  | jump | jumpIndirect | pullPcHigh | vectorHigh | branchOffset _ | branchTaken | branchFixPage
  | jam | stuck => true
  | _ => false

end MicroOp

/-! ### Hosts that leave the lines alone -/

/-- In this turn the host keeps IRQ and NMI low, returns SYNC as it was given and lets go of a
read. -/
structure Host.Calm (host : Host σ) (turn : Cpu × σ) : Prop where
  irq : (host.turnCycle turn).answer.irq = false
  nmi : (host.turnCycle turn).answer.nmi = false
  sync : (host.turnCycle turn).answer.sync = turn.1.pins.sync
  letsGo : turn.1.pins.read = true → (host.turnCycle turn).answer.rdy = false

namespace Cpu

/-- What is left of the instruction or the interrupt sequence in progress. -/
def rest (c : Cpu) : List MicroOp := if c.phase = .execute then c.ahead else []

/-- PC with the bytes that are yet to be read at it. -/
def landing (c : Cpu) : UInt16 := c.regs.pc + UInt16.ofNat (c.rest.countP MicroOp.movesPast)

theorem rest_of_execute {c : Cpu} (hp : c.phase = .execute) : c.rest = c.ahead := if_pos hp

theorem rest_of_fetch {c : Cpu} (hp : c.phase = .fetch) : c.rest = [] := by simp [rest, hp]

/-! ### PC in one tick -/

theorem pc_prepare (op : MicroOp) (c : Cpu) :
    (c.prepare op).1.regs.pc = c.regs.pc + UInt16.ofNat (if op.movesPast then 1 else 0) := by
  have hzero : c.regs.pc = c.regs.pc + UInt16.ofNat 0 := (UInt16.add_zero _).symm
  cases op with
  | write op =>
    simp only [prepare, prepareStore]
    split
    · cases op <;> exact hzero
    · exact hzero
  | vectorLow =>
    simp only [prepare, stealVector]
    split <;> exact hzero
  | fetchOpcode | immediate _ | skip | addressLow | addressHigh | addressHighIndexed _
  | branchOffset _ => rfl
  | _ => exact hzero

theorem pc_apply {op : MicroOp} (hop : op ≠ .fetchOpcode) (hkeeps : op.losesPc = false)
    (byte : UInt8) (c : Cpu) : (c.apply op byte).regs.pc = c.regs.pc := by
  cases op with
  | fetchOpcode => exact absurd rfl hop
  | implied op => cases op <;> rfl
  | immediate op => cases op <;> rfl
  | read op => cases op <;> rfl
  | modifyHold op => cases op <;> rfl
  | jump | jumpIndirect | pullPcHigh | vectorHigh | branchOffset _ | branchTaken | branchFixPage
  | jam | stuck => cases hkeeps
  | _ => rfl

theorem pc_complete {op : MicroOp} (hop : op ≠ .fetchOpcode) (hkeeps : op.losesPc = false)
    (c : Cpu) : (c.complete op).regs.pc = c.regs.pc := by
  rw [complete_eq hop, settle_frame]
  exact pc_apply hop hkeeps c.pins.data c

theorem upcoming_suffix_ahead (c : Cpu) : c.upcoming <:+ c.ahead := by
  unfold upcoming
  split
  · exact List.tail_suffix _
  · exact List.suffix_rfl

/-- A page correction that is left out does not read at PC. -/
theorem countP_upcoming (c : Cpu) :
    c.upcoming.countP MicroOp.movesPast = c.ahead.countP MicroOp.movesPast := by
  unfold upcoming
  split
  · rename_i h
    obtain ⟨ops, hahead⟩ := List.head?_eq_some_iff.1 h.1
    rw [hahead]
    rfl
  · rfl

/-! ### One tick -/

section

variable {patience : Nat} {host : Host σ} {c e : Cpu} {op : MicroOp} {ops : List MicroOp} {s : σ}

/-- The machine in the first turn of a tick. -/
def driver (op : MicroOp) (c : Cpu) : Cpu := (c.prepare op).1.drive (c.prepare op).2

theorem turns_head (hn : c.next = .ok (op, e)) (patience : Nat) (host : Host σ) (s : σ) :
    (e.driver op, s) ∈ c.turns patience host s := by
  simp only [turns, hn, driver]
  cases (e.prepare op).2 with
  | read addr => cases patience <;> exact List.mem_cons_self
  | write addr value => exact List.mem_cons_self

/-- A host that lets go makes a tick one turn. -/
theorem tick_calm (hn : c.next = .ok (op, e)) (hcalm : host.Calm (e.driver op, s))
    (patience : Nat) :
    c.turns patience host s = [(e.driver op, s)] ∧
      ∃ t, c.tick patience host s = .ok (((e.driver op).cycle host s).1.complete op, t) := by
  have hrdy := hcalm.letsGo
  simp only [Host.turnCycle] at hrdy
  simp only [turns, tick, hn, driver] at hrdy ⊢
  cases haccess : (e.prepare op).2 with
  | read addr =>
    rw [haccess] at hrdy
    replace hrdy := hrdy rfl
    cases patience with
    | zero =>
      simp only [performTurns, perform, hold_zero, hrdy]
      exact ⟨rfl, _, rfl⟩
    | succ n =>
      simp only [performTurns, perform, hold_succ, holdTurns_succ, hrdy]
      exact ⟨rfl, _, rfl⟩
  | write addr value => exact ⟨rfl, _, rfl⟩

theorem samePlace_driver (op : MicroOp) (c : Cpu) (host : Host σ) (s : σ) :
    SamePlace c ((c.driver op).cycle host s).1 := by
  rw [driver, drive_eq, cycle_eq]
  exact samePlace_access op _ c

theorem mayEnd_of_keeps (h : op.losesPc = false) : op.mayEnd = false := by
  cases op <;> first | rfl | cases h

/-- With no interrupt due the micro-operations that are left follow, or an opcode fetch. -/
theorem rest_complete (hp : c.phase = .execute) (hs : c.step ≠ 0) (hnmi : c.nmiPending = false)
    (hirq : c.pins.irq = false) (hop : op ≠ .fetchOpcode) (hkeeps : op.losesPc = false) :
    (c.complete op).rest = c.ahead ∧ (c.complete op).phase ≠ .jammed := by
  cases leaves_complete hop hp hs hnmi with
  | jams hjam => cases hjam ▸ hkeeps
  | goesOn _ hphase hahead =>
    rw [rest_of_execute hphase, hahead, hphase]
    exact ⟨rfl, Phase.noConfusion⟩
  | ends hops htakes hor =>
    have hlow : (c.complete op).pins.irq = false := by rw [pins_complete, hirq]
    have hphase : (c.complete op).phase = .fetch := by
      refine of_decide_eq_true (hor.resolve_left fun h => ?_)
      rw [(htakes.1 h).2.1] at hlow
      cases hlow
    rw [rest_of_fetch hphase, hops (mayEnd_of_keeps hkeeps), hphase]
    exact ⟨rfl, Phase.noConfusion⟩

/-- What a tick leaves that does `op` and has `ops` after it. -/
structure Passes (op : MicroOp) (ops : List MicroOp) (c d : Cpu) : Prop where
  coherent : d.Coherent
  running : d.phase ≠ .jammed
  nmiPending : d.nmiPending = false
  sync : d.pins.sync = c.pins.sync
  rest : d.rest = ops
  pc : d.regs.pc = c.regs.pc + UInt16.ofNat (if op.movesPast then 1 else 0)

theorem passes_tick (hc : c.Coherent) (hp : c.phase = .execute) (hnmi : c.nmiPending = false)
    (hu : c.upcoming = op :: ops) (hop : op ≠ .fetchOpcode) (hkeeps : op.losesPc = false)
    (hcalm : host.Calm ((c.moveTo ops).driver op, s)) (patience : Nat) :
    ∃ d t, c.tick patience host s = .ok (d, t) ∧ Passes op ops c d := by
  have hn := next_of_execute hp hu
  obtain ⟨-, t, ht⟩ := tick_calm hn hcalm patience
  have hplace := samePlace_driver op (c.moveTo ops) host s
  have hahead := hplace.ahead.trans
    (ahead_moveTo ((List.suffix_cons op ops).trans (hu ▸ c.upcoming_suffix)))
  have hpending : (((c.moveTo ops).driver op).cycle host s).1.nmiPending = false := by
    have hprepare := nmiPending_prepare (c := c.moveTo ops) hnmi op
    have hlow : (host.tick ((c.moveTo ops).driver op).pins s).1.nmi = false := hcalm.nmi
    rw [cycle_eq, receive, Host.answer]
    simp only [hlow, Bool.false_and, Bool.or_false]
    rw [driver, drive_eq]
    exact hprepare
  have hsync : (((c.moveTo ops).driver op).cycle host s).1.pins.sync = c.pins.sync := by
    refine hcalm.sync.trans ?_
    rw [driver, pins_drive_prepare hn, Pins.sync_drive, decide_eq_false hop, Bool.false_or]
  have hpc : (((c.moveTo ops).driver op).cycle host s).1.regs.pc =
      c.regs.pc + UInt16.ofNat (if op.movesPast then 1 else 0) := by
    rw [driver, drive_eq]
    exact pc_prepare op (c.moveTo ops)
  obtain ⟨hrest, hrunning⟩ := rest_complete (hplace.phase.trans hp)
    (step_of_ahead (hplace.program ▸ (hu ▸ c.upcoming_suffix)) hahead) hpending hcalm.irq hop hkeeps
  refine ⟨_, t, ht, hc.tick ht, hrunning, nmiPending_complete hpending op, ?_, hrest.trans hahead,
    (pc_complete hop hkeeps _).trans hpc⟩
  rw [sync_complete, decide_eq_false hop, Bool.not_false, Bool.true_and, hsync]

theorem Passes.landing {d : Cpu} (h : Passes op ops c d) (hp : c.phase = .execute)
    (hu : c.upcoming = op :: ops) : d.landing = c.landing := by
  have hcount : c.rest.countP MicroOp.movesPast =
      (if op.movesPast then 1 else 0) + ops.countP MicroOp.movesPast := by
    rw [rest_of_execute hp, ← countP_upcoming, hu, List.countP_cons, Nat.add_comm]
  rw [Cpu.landing, Cpu.landing, hcount, h.rest, h.pc, UInt16.ofNat_add, UInt16.add_assoc]

end

/-! ### The next opcode fetch -/

/-- The last turn is an opcode fetch at the address, and no word before has SYNC. -/
def NextFetch (addr : UInt16) (turns : List (Cpu × σ)) : Prop :=
  ∃ before fetch, turns = before ++ [fetch] ∧ (∀ turn ∈ before, turn.1.pins.sync = false) ∧
    fetch.1.pins.sync = true ∧ fetch.1.pins.access = .read addr

variable {patience : Nat} {host : Host σ} {c : Cpu} {s : σ}

theorem nextFetch_at_boundary (hp : c.phase = .fetch)
    (hcalm : ∀ turn ∈ c.turns patience host s, host.Calm turn) :
    NextFetch c.regs.pc (c.tickingTurns patience host 1 s) := by
  have hn := next_fetch hp
  obtain ⟨hturns, t, ht⟩ := tick_calm hn (hcalm _ (turns_head hn patience host s)) patience
  refine ⟨[], (c.driver .fetchOpcode, s), ?_, List.forall_mem_nil _, rfl, rfl⟩
  simp only [tickingTurns, hturns, ht, List.append_nil, List.nil_append]

/-- The machine goes on to fetch an opcode at its landing. -/
theorem nextFetch_at_landing (hc : c.Coherent) (hjam : c.phase ≠ .jammed)
    (hnmi : c.nmiPending = false) (hsync : c.pins.sync = false)
    (hkeeps : ∀ op ∈ c.rest, op.losesPc = false)
    (hcalm : ∀ n, ∀ turn ∈ c.tickingTurns patience host n s, host.Calm turn) :
    ∃ n, NextFetch c.landing (c.tickingTurns patience host n s) := by
  have hfirst : ∀ turn ∈ c.turns patience host s, host.Calm turn := fun turn hturn =>
    hcalm 1 turn (List.mem_append_left _ hturn)
  -- What is left of the program gets shorter with each tick.
  induction hlen : c.rest.length using Nat.strongRecOn generalizing c s with
  | ind k ih =>
    cases hp : c.phase with
    | jammed => exact absurd hp hjam
    | fetch =>
      have hlanding : c.landing = c.regs.pc := by
        rw [landing, rest_of_fetch hp]
        exact UInt16.add_zero _
      rw [hlanding]
      exact ⟨1, nextFetch_at_boundary hp hfirst⟩
    | execute =>
      obtain ⟨op, ops, hu, hop⟩ := hc.upcoming hp
      have hn := next_of_execute hp hu
      have hsuffix : op :: ops <:+ c.rest := by
        rw [rest_of_execute hp, ← hu]
        exact c.upcoming_suffix_ahead
      have hhead := hfirst _ (turns_head hn patience host s)
      obtain ⟨d, t, ht, hpasses⟩ := passes_tick hc hp hnmi hu hop
        (hkeeps op (hsuffix.subset List.mem_cons_self)) hhead patience
      have hrest : ∀ n, c.tickingTurns patience host (n + 1) s =
          ((c.moveTo ops).driver op, s) :: d.tickingTurns patience host n t := by
        intro n
        simp only [tickingTurns, ht, (tick_calm hn hhead patience).1, List.singleton_append]
      have hshorter : d.rest.length < k := by
        have hle := hsuffix.length_le
        rw [List.length_cons] at hle
        rw [hpasses.rest, ← hlen]
        omega
      have hcalm' : ∀ n, ∀ turn ∈ d.tickingTurns patience host n t, host.Calm turn := by
        intro n turn hturn
        refine hcalm (n + 1) turn ?_
        rw [hrest]
        exact List.mem_cons_of_mem _ hturn
      obtain ⟨n, before, fetch, hturns, hbefore, hfetch⟩ := ih _ hshorter hpasses.coherent
        hpasses.running hpasses.nmiPending (hpasses.sync.trans hsync)
        (fun op' hop' => hkeeps op' (hsuffix.subset
          (List.mem_cons_of_mem _ (hpasses.rest ▸ hop')))) hcalm'
        (fun turn hturn => hcalm' 1 turn (List.mem_append_left _ hturn)) rfl
      have hlow : ((c.moveTo ops).driver op).pins.sync = false := by
        rw [driver, pins_drive_prepare hn, Pins.sync_drive, decide_eq_false hop, Bool.false_or,
          hsync]
      refine ⟨n + 1, ((c.moveTo ops).driver op, s) :: before, fetch, ?_,
        List.forall_mem_cons.2 ⟨hlow, hbefore⟩, ?_⟩
      · rw [hrest, hturns, List.cons_append]
      · rw [← hpasses.landing hp hu]
        exact hfetch

/-- Once PC has been set to `v` the next opcode is fetched as far behind `v` as operand bytes are
still to be read, on a host that keeps the interrupt lines low and lets go of every read: at `v`
itself if PC is set at a boundary, or when the operand is complete. What is left of the instruction
must not load PC. -/
theorem set_pc_lands {variant : Variant} {host : Host σ} {c : Cpu} (hc : c.Reachable variant)
    (hjam : c.isJammed = false) (hnmi : c.nmiPending = false) (hsync : c.pins.sync = false)
    (hkeeps : ∀ op ∈ c.rest, op.losesPc = false) (v : UInt16) (patience : Nat) (s : σ)
    (hcalm : ∀ n, ∀ turn ∈ (c.setPc v).tickingTurns patience host n s, host.Calm turn) :
    ∃ n, NextFetch (v + UInt16.ofNat (c.rest.countP MicroOp.movesPast))
      ((c.setPc v).tickingTurns patience host n s) :=
  nextFetch_at_landing (c := c.setPc v) hc.coherent (of_decide_eq_false hjam) hnmi hsync hkeeps
    hcalm

/-- PC is set when the opcode of `LDA #` has been fetched. -/
theorem set_pc_lands_immediate :
    let host := Schedule.quiet.host
    let start : Cpu := (powerOn .plain).setPc 0x0200
    ∃ c ram, start.tick 0 host (.ofMemory fun _ => 0xA9) = .ok (c, ram) ∧
      c.rest = [.immediate .lda] ∧
      ∃ n, NextFetch 0x0301 ((c.setPc 0x0300).tickingTurns 0 host n ram) := by
  intro host start
  obtain ⟨⟨c, ram⟩, ht, hc⟩ := ok_of_any (x := start.tick 0 host (.ofMemory fun _ => 0xA9))
    (p := fun r => r.1.isJammed = false ∧ r.1.nmiPending = false ∧ r.1.pins.sync = false ∧
      r.1.rest = [.immediate .lda]) (by decide +kernel)
  obtain ⟨hjam, hnmi, hsync, hrest⟩ := of_decide_eq_true hc
  have hstart : start.Reachable .plain := .call 0 (.setPc 0x0200) .powerOn rfl
  have hreachable : c.Reachable .plain := by
    refine .call 0 (.tick host (.ofMemory fun _ => 0xA9)) hstart ?_
    rw [obey, ht]
    rfl
  have hcalm : ∀ turn, host.Calm turn := by
    rintro ⟨d, ram⟩
    cases hread : d.pins.read <;> constructor <;>
      simp [Host.turnCycle, host, Schedule.host, Schedule.quiet, hread]
  have hkeeps : ∀ op ∈ c.rest, op.losesPc = false := by
    rw [hrest]
    decide
  have hlands := set_pc_lands hreachable hjam hnmi hsync hkeeps 0x0300 0 ram
    fun _ turn _ => hcalm turn
  rw [hrest] at hlands
  exact ⟨c, ram, ht, hrest, hlands⟩

/-- A host that returns every word as it was given. The machine has fetched an LDA # when PC is set;
the operand is read there, and the next opcode behind it. -/
theorem set_pc_misses_boundary :
    let host : Host Unit := { tick := fun p s => (p, s) }
    ∃ c : Cpu, c.Reachable .plain ∧ c.isJammed = false ∧ c.nmiPending = false ∧
      c.pins.irq = false ∧ c.pins.nmi = false ∧ c.pins.sync = false ∧
      ((c.setPc 0x0300).tickingTurns 0 host 2 ()).map
        (fun turn => (turn.1.pins.addr, turn.1.pins.sync)) = [(0x0300, false), (0x0301, true)] := by
  intro host
  let start : Cpu := ((powerOn .plain).setPc 0x0200).latchPins { Pins.reading with data := 0xA9 }
  obtain ⟨⟨c, u⟩, ht, hc⟩ := ok_of_any (x := start.tick 0 host ())
    (p := fun r => r.1.isJammed = false ∧ r.1.nmiPending = false ∧ r.1.pins.irq = false ∧
      r.1.pins.nmi = false ∧ r.1.pins.sync = false ∧
      ((r.1.setPc 0x0300).tickingTurns 0 host 2 ()).map
        (fun turn => (turn.1.pins.addr, turn.1.pins.sync)) = [(0x0300, false), (0x0301, true)])
    (by decide +kernel)
  have hset : ((powerOn .plain).setPc 0x0200).Reachable .plain :=
    .call 0 (.setPc 0x0200) .powerOn rfl
  have hstart : start.Reachable .plain := .call 0 (.latchPins _) hset rfl
  refine ⟨c, .call 0 (.tick host ()) hstart ?_, of_decide_eq_true hc⟩
  rw [obey, ht]
  rfl

end Cpu

end Nmos6502
