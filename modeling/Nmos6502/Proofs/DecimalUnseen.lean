import Mathlib.Data.List.Forall2
import Nmos6502.Proofs.DecimalFlag
import Nmos6502.Proofs.TimedRam

/-! # The decimal flag matters to the adder only

Two machines that differ in D run side by side on two copies of a memory. Unless the instruction
uses the adder and the chip has one for decimal digits, they do the same in every bus cycle. D shows
in the status bytes that PHP, BRK and interrupts push; what is left of the instruction then does not
look at page one. -/

namespace Nmos6502

/-! ### After a status byte has been pushed -/

/-- The micro-operation does nothing with a byte that it reads outside the vectors. -/
def MicroOp.isBlind : MicroOp → Bool
  | vectorLow | vectorHigh => true
  | op => op.discards

theorem isBlind_interruptProgram : interruptProgram.all MicroOp.isBlind = true := rfl

theorem interruptProgram_usesAdder : interruptProgram.any MicroOp.usesAdder = false := rfl

/-- What is left of a program once it has pushed the status. -/
theorem Instruction.isBlind_of_suffix {i : Instruction} {op : MicroOp} {ops : List MicroOp}
    (hop : op.pushesStatus = true) (h : op :: ops <:+ i.program) :
    ops.all MicroOp.isBlind = true := by
  obtain ⟨what, rfl, hwhat⟩ := MicroOp.push_of_pushesStatus hop
  obtain ⟨rfl, rfl | rfl⟩ := push_status_mem hwhat (h.subset List.mem_cons_self)
  · have hrest : ops = [] := by simpa [program, List.suffix_cons_iff] using h
    rw [hrest]
    rfl
  · have hrest : ops = [.vectorLow, .vectorHigh] := by
      simpa [program, List.suffix_cons_iff] using h
    rw [hrest]
    rfl

/-! ### Two memories -/

/-- The memories are the same but for the decimal flag in status bytes in the given cells. -/
def Memory.SameBut (cells : UInt16 → Prop) (m m' : Memory) : Prop :=
  ∀ a, m' a = m a ∨ cells a ∧ SameButDecimal (m a) (m' a)

namespace Memory.SameBut

variable {cells : UInt16 → Prop} {m m' : Memory}

theorem mono {more : UInt16 → Prop} (hmore : ∀ a, cells a → more a) (h : SameBut cells m m') :
    SameBut more m m' := fun a => (h a).imp_right (And.imp_left (hmore a))

theorem eq_of_not (h : SameBut cells m m') {a : UInt16} (ha : ¬cells a) : m' a = m a :=
  (h a).resolve_right fun hcell => ha hcell.1

theorem store (h : SameBut cells m m') {op : MicroOp} {a a' : Access}
    (ha : Cpu.SameAccess op a a') :
    SameBut (fun x => cells x ∨ op.pushesStatus = true ∧ ∃ b, a = .write x b) (a.store m)
      (a'.store m') := by
  cases ha with
  | same =>
    cases a with
    | read addr => exact h.mono fun _ => Or.inl
    | write addr b =>
      intro x
      by_cases hx : x = addr
      · subst hx
        exact Or.inl (by simp only [Access.store, Function.update_self])
      · simp only [Access.store, Function.update_of_ne hx]
        exact (h x).imp_right (And.imp_left Or.inl)
  | @status addr b b' hop hb =>
    intro x
    by_cases hx : x = addr
    · subst hx
      simp only [Access.store, Function.update_self]
      exact Or.inr ⟨Or.inr ⟨hop, b, rfl⟩, hb⟩
    · simp only [Access.store, Function.update_of_ne hx]
      exact (h x).imp_right (And.imp_left Or.inl)

end Memory.SameBut

/-! ### Two bus cycles -/

/-- The bus cycles are the same but for bytes that are read. What a status push writes is the same
but for the decimal flag. -/
structure BusCycle.AlikeFor (op : MicroOp) (x y : BusCycle) : Prop where
  driven : y.driven = { x.driven with data := y.driven.data }
  answer : y.answer = { x.answer with data := y.answer.data }
  written : x.driven.read = false → y.driven.data = x.driven.data ∨
    op.pushesStatus = true ∧ SameButDecimal x.driven.data y.driven.data

/-! ### Deeds -/

/-- What a tick does: its micro-operation and the bus cycles it takes. -/
structure Deed where
  op : MicroOp
  cycles : List BusCycle

namespace Deed

/-- The tick pushes a status byte to the cell. -/
def PushesStatusTo (a : UInt16) (x : Deed) : Prop :=
  x.op.pushesStatus = true ∧ ∃ cycle ∈ x.cycles, ∃ b, cycle.driven.access = .write a b

structure Alike (x y : Deed) : Prop where
  op : y.op = x.op
  cycles : List.Forall₂ (BusCycle.AlikeFor x.op) x.cycles y.cycles

end Deed

namespace Cpu

variable (lines : Timetable)

/-! ### An access -/

/-- After an access the machines differ in the decimal flag and the byte on the data bus at most,
and it has taken them as long. -/
structure SameOutcome (d : Bool) (r r' : Cpu × TimedRam) : Prop where
  machine : ∃ v, r'.1 = r.1.withDecimal d v
  clock : r'.2.clock = r.2.clock

section

variable (d : Bool) (v : UInt8) {ram ram' : TimedRam} (hclock : ram'.clock = ram.clock)
include hclock

theorem cycle_withDecimal (c : Cpu) :
    SameOutcome d (c.cycle lines.host ram) ((c.withDecimal d v).cycle lines.host ram') := by
  obtain ⟨m, clock⟩ := ram
  obtain ⟨m', clock'⟩ := ram'
  obtain rfl : clock' = clock := hclock
  exact ⟨⟨_, rfl⟩, rfl⟩

theorem turnCycle_withDecimal {op : MicroOp} (c : Cpu)
    (hwritten : c.pins.read = false → v = c.pins.data ∨
      op.pushesStatus = true ∧ SameButDecimal c.pins.data v) :
    (lines.host.turnCycle (c, ram)).AlikeFor op
      (lines.host.turnCycle (c.withDecimal d v, ram')) := by
  refine ⟨rfl, ?_, hwritten⟩
  simp only [Host.turnCycle, Timetable.host, withDecimal, hclock]

theorem readCycle_withDecimal (op : MicroOp) {c : Cpu} (hread : c.pins.read = true) :
    (lines.host.turnCycle (c, ram)).AlikeFor op
      (lines.host.turnCycle (c.withDecimal d v, ram')) :=
  turnCycle_withDecimal lines d v hclock c fun hwrite => Bool.noConfusion (hread.symm.trans hwrite)

theorem rdy_withDecimal (c : Cpu) :
    (lines.host.tick (c.withDecimal d v).pins ram').1.rdy = (lines.host.tick c.pins ram).1.rdy :=
  congrArg lines.rdy hclock

end

theorem hold_withDecimal (patience : Nat) {c : Cpu} (hread : c.pins.read = true) (d : Bool)
    (v : UInt8) {ram ram' : TimedRam} (hclock : ram'.clock = ram.clock) (op : MicroOp) :
    EndAlike (SameOutcome d) (c.hold lines.host patience ram)
        ((c.withDecimal d v).hold lines.host patience ram') ∧
      List.Forall₂ (BusCycle.AlikeFor op)
        ((c.holdTurns lines.host patience ram).map lines.host.turnCycle)
        (((c.withDecimal d v).holdTurns lines.host patience ram').map lines.host.turnCycle) := by
  induction patience generalizing c v ram ram' with
  | zero =>
    refine ⟨?_, .cons (readCycle_withDecimal lines d v hclock op hread) .nil⟩
    rw [hold_zero, hold_zero, rdy_withDecimal lines d v hclock]
    split
    · exact .error _
    · exact .ok (cycle_withDecimal lines d v hclock c)
  | succ n ih =>
    have hcycle := cycle_withDecimal lines d v hclock c
    have hturn := readCycle_withDecimal lines d v hclock op hread
    simp only [hold_succ, holdTurns_succ, rdy_withDecimal lines d v hclock, List.map_cons]
    split
    · -- The machine that drives the held read again differs as before.
      have hread₁ : (c.cycle lines.host ram).1.reissued.pins.read = true := hread
      obtain ⟨w, hw⟩ := hcycle.machine
      have hnext : ((c.withDecimal d v).cycle lines.host ram').1.reissued =
          (c.cycle lines.host ram).1.reissued.withDecimal d w := congrArg reissued hw
      rw [hnext]
      obtain ⟨hend, hcycles⟩ := ih hread₁ w hcycle.clock
      exact ⟨hend, .cons hturn hcycles⟩
    · exact ⟨.ok hcycle, .cons hturn .nil⟩

theorem perform_withDecimal (patience : Nat) {op : MicroOp} {a a' : Access}
    (ha : SameAccess op a a') (c : Cpu) (d : Bool) (v : UInt8) {ram ram' : TimedRam}
    (hclock : ram'.clock = ram.clock) :
    EndAlike (SameOutcome d) (c.perform patience lines.host a ram)
        ((c.withDecimal d v).perform patience lines.host a' ram') ∧
      List.Forall₂ (BusCycle.AlikeFor op)
        ((c.performTurns patience lines.host a ram).map lines.host.turnCycle)
        (((c.withDecimal d v).performTurns patience lines.host a' ram').map
          lines.host.turnCycle) := by
  have hwrite : ∀ addr b b', b' = b ∨ op.pushesStatus = true ∧ SameButDecimal b b' →
      SameOutcome d ((c.drive (.write addr b)).cycle lines.host ram)
          (((c.withDecimal d v).drive (.write addr b')).cycle lines.host ram') ∧
        (lines.host.turnCycle (c.drive (.write addr b), ram)).AlikeFor op
          (lines.host.turnCycle ((c.withDecimal d v).drive (.write addr b'), ram')) :=
    fun addr b b' hb => ⟨cycle_withDecimal lines d b' hclock (c.drive (.write addr b)),
      turnCycle_withDecimal lines d b' hclock (c.drive (.write addr b)) fun _ => hb⟩
  cases ha with
  | same =>
    cases a with
    | read addr =>
      have hread : (c.drive (.read addr)).pins.read = true := rfl
      exact hold_withDecimal lines patience hread d v hclock op
    | write addr b =>
      obtain ⟨hend, hcycle⟩ := hwrite addr b b (Or.inl rfl)
      exact ⟨.ok hend, .cons hcycle .nil⟩
  | @status addr b b' hop hb =>
    obtain ⟨hend, hcycle⟩ := hwrite addr b b' (Or.inr ⟨hop, hb⟩)
    exact ⟨.ok hend, .cons hcycle .nil⟩

/-! ### A tick -/

/-- Two machines with their memories, the same but for the decimal flag, what is on the data bus and
status bytes in the given cells. -/
structure Apart (cells : UInt16 → Prop) (c : Cpu) (ram : TimedRam) (c' : Cpu) (ram' : TimedRam) :
    Prop where
  machine : ∃ d v, c' = c.withDecimal d v
  clock : ram'.clock = ram.clock
  memory : Memory.SameBut cells ram.memory ram'.memory

variable {lines}

theorem decimalAdder_perform {σ : Type} {host : Host σ} {patience : Nat} {a : Access} {c r : Cpu}
    {s u : σ} (h : c.perform patience host a s = .ok (r, u)) : r.decimalAdder = c.decimalAdder := by
  rw [perform_eq] at h
  obtain ⟨⟨x, w⟩, -, hr⟩ := ok_of_map h
  cases hr
  rfl

/-- What a status push writes is in the deed. -/
theorem pushesStatusTo_of_write {patience : Nat} {op : MicroOp} {c e : Cpu} {ram : TimedRam}
    (hn : c.next = .ok (op, e)) {addr : UInt16}
    (h : op.pushesStatus = true ∧ ∃ b, (e.prepare op).2 = .write addr b) :
    Deed.PushesStatusTo addr ⟨op, c.tickCycles patience lines.host ram⟩ := by
  obtain ⟨hop, b, hwrite⟩ := h
  have honce : WritesOnce patience lines.host op addr b c e ram := writesOnce hn hwrite
  obtain ⟨cycle, hcycles, haccess⟩ := honce.once
  exact ⟨hop, cycle, hcycles ▸ List.mem_singleton_self cycle, b, haccess⟩

theorem tick_apart {cells : UInt16 → Prop} {patience : Nat} {op : MicroOp} {c e d c' : Cpu}
    {ram ram' t : TimedRam} (h : Apart cells c ram c' ram') (hn : c.next = .ok (op, e))
    (hadder : c.decimalAdder = true → op.usesAdder = false)
    (hbyte : ∀ a', SameAccess op (e.prepare op).2 a' →
      a'.byte ram'.memory = (e.prepare op).2.byte ram.memory ∨ op.discards = true)
    (ht : c.tick patience lines.host ram = .ok (d, t)) :
    ∃ e' d' t', c'.next = .ok (op, e') ∧ c'.tick patience lines.host ram' = .ok (d', t') ∧
      List.Forall₂ (BusCycle.AlikeFor op) (c.tickCycles patience lines.host ram)
        (c'.tickCycles patience lines.host ram') ∧
      Apart (fun a => cells a ∨ Deed.PushesStatusTo a ⟨op, c.tickCycles patience lines.host ram⟩)
        d t d' t' := by
  obtain ⟨b, v, rfl⟩ := h.machine
  have hn' := next_withDecimal b v hn
  have ha := e.access_withDecimal b v op
  have hprepare := e.prepare_withDecimal b v op
  obtain ⟨hend, hcycles⟩ := perform_withDecimal lines patience ha (e.prepare op).1 b v h.clock
  rw [← hprepare] at hend hcycles
  obtain ⟨op', e', r, u, hn₁, hperform, rfl, rfl, -, -⟩ := tick_parts ht
  cases hn.symm.trans hn₁
  rw [hperform] at hend
  obtain ⟨⟨r', u'⟩, hperform', ⟨⟨v', rfl⟩, hclock⟩⟩ := hend.of_ok
  obtain ⟨hdata, hstored⟩ := Timetable.perform_accesses hperform
  obtain ⟨hdata', hstored'⟩ := Timetable.perform_accesses hperform'
  have hnote : ∀ n (s : TimedRam), lines.host.noteAny n s = s := fun n _ => by cases n <;> rfl
  have hnext : (e.prepare op).1.decimalAdder = c.decimalAdder := by
    rw [prepare_frame, next_frame hn]
  have hr : r.decimalAdder = c.decimalAdder := (decimalAdder_perform hperform).trans hnext
  have hv : v' = r.pins.data ∨ op.discards = true :=
    (hbyte _ ha).imp_left fun hsame => hdata'.trans (hsame.trans hdata.symm)
  obtain ⟨b', hdone⟩ := complete_withDecimal b (hr ▸ hadder) hv
  refine ⟨_, _, _, hn', tick_of_perform hn' rfl hperform', ?_, ?_⟩
  · rw [tickCycles_eq hn, tickCycles_eq hn']
    exact hcycles
  · rw [hnote, hnote]
    have hmemory : Memory.SameBut _ u.memory u'.memory :=
      hstored ▸ hstored' ▸ h.memory.store ha
    exact ⟨⟨b', v', hdone⟩, hclock,
      hmemory.mono fun x => Or.imp_right (pushesStatusTo_of_write hn)⟩

/-- Both machines find the same byte, or discard it. -/
theorem byte_alike {cells : UInt16 → Prop} {op : MicroOp} {c : Cpu} {m m' : Memory}
    (h : Memory.SameBut cells m m') (hstack : ∀ a, cells a → highByte a = 1)
    (hblind : (∀ a, ¬cells a) ∨ op.isBlind = true) {a' : Access}
    (ha : SameAccess op (c.prepare op).2 a') :
    a'.byte m' = (c.prepare op).2.byte m ∨ op.discards = true := by
  have hvector : ∀ handler : Handler,
      highByte handler.vector ≠ 1 ∧ highByte (handler.vector + 1) ≠ 1 :=
    fun handler => by cases handler <;> decide
  generalize haccess : (c.prepare op).2 = a at ha
  cases ha with
  | status addr hop hb => exact Or.inr (MicroOp.discards_of_pushesStatus hop)
  | same =>
    cases a' with
    | write addr b => exact Or.inl rfl
    | read addr =>
      rcases hblind with hnone | hblind
      · exact Or.inl (h.eq_of_not (hnone addr))
      · cases op with
        | discard | push what => exact Or.inr rfl
        | vectorLow =>
          cases haccess
          exact Or.inl (h.eq_of_not fun hcell => (hvector _).1 (hstack _ hcell))
        | vectorHigh =>
          cases haccess
          exact Or.inl (h.eq_of_not fun hcell => (hvector _).2 (hstack _ hcell))
        | _ => cases hblind

/-! ### Inside an instruction -/

/-- A program runs that does not use a decimal adder, and what is left of it looks at none of the
cells, all in page one. -/
structure Heedless (cells : UInt16 → Prop) (c : Cpu) : Prop where
  coherent : c.Coherent
  phase : c.phase = .execute
  adder : c.decimalAdder = true → c.program.any MicroOp.usesAdder = false
  stack (a : UInt16) : cells a → highByte a = 1
  blind : (∀ a, ¬cells a) ∨ c.ahead.all MicroOp.isBlind = true

section

variable {cells : UInt16 → Prop} {patience : Nat} {op : MicroOp} {c e d : Cpu} {ram t : TimedRam}

theorem highByte_of_pushesStatusTo (hn : c.next = .ok (op, e)) {addr : UInt16}
    (h : Deed.PushesStatusTo addr ⟨op, c.tickCycles patience lines.host ram⟩) :
    highByte addr = 1 := by
  obtain ⟨hop, cycle, hcycle, b, haccess⟩ := h
  obtain ⟨what, rfl, -⟩ := MicroOp.push_of_pushesStatus hop
  have honce : WritesOnce patience lines.host _ (stackAddress e.regs.s) (what.value e.regs)
    c e ram := writesOnce hn rfl
  obtain ⟨once, hcycles, hstack⟩ := honce.once
  have hsame : cycle = once := List.mem_singleton.1 (hcycles ▸ hcycle)
  rw [hsame, hstack] at haccess
  cases haccess
  exact highByte_addressOf _ 1

namespace Heedless

variable (h : Heedless cells c) (hn : c.next = .ok (op, e))
include h hn

theorem suffix : op :: e.ahead <:+ c.program := upcoming_of_next h.phase hn ▸ c.upcoming_suffix

theorem usesAdder (hd : c.decimalAdder = true) : op.usesAdder = false := by
  have hnone := List.any_eq_false.1 (h.adder hd) op ((h.suffix hn).subset List.mem_cons_self)
  exact Bool.eq_false_iff.2 hnone

theorem isBlind : (∀ a, ¬cells a) ∨ op.isBlind = true ∧ e.ahead.all MicroOp.isBlind = true := by
  refine h.blind.imp_right fun hall => ?_
  have hupcoming : c.upcoming.all MicroOp.isBlind = true := by
    unfold upcoming
    split
    · exact all_of_suffix (List.tail_suffix _) hall
    · exact hall
  rw [upcoming_of_next h.phase hn, List.all_cons, Bool.and_eq_true] at hupcoming
  exact hupcoming

/-- What is left after a tick looks at none of the cells either. -/
theorem isBlind_rest : (∀ a, ¬(cells a ∨
      Deed.PushesStatusTo a ⟨op, c.tickCycles patience lines.host ram⟩)) ∨
    e.ahead.all MicroOp.isBlind = true := by
  by_cases hop : op.pushesStatus = true
  · right
    have hsuffix := h.suffix hn
    rcases (h.coherent h.phase).2 with ⟨hprogram, -⟩ | ⟨hprogram, -⟩
    · rw [hprogram] at hsuffix
      exact Instruction.isBlind_of_suffix hop hsuffix
    · rw [hprogram] at hsuffix
      exact all_of_suffix ((List.suffix_cons _ _).trans hsuffix) isBlind_interruptProgram
  · refine (h.isBlind hn).imp (fun hnone a hcell => ?_) And.right
    exact hcell.elim (hnone a) fun hpush => hop hpush.1

theorem tick (ht : c.tick patience lines.host ram = .ok (d, t)) (hd : d.phase = .execute) :
    Heedless
      (fun a => cells a ∨ Deed.PushesStatusTo a ⟨op, c.tickCycles patience lines.host ram⟩) d := by
  have hstack : ∀ a, cells a ∨ Deed.PushesStatusTo a ⟨op, c.tickCycles patience lines.host ram⟩ →
      highByte a = 1 := fun a => Or.rec (h.stack a) (highByte_of_pushesStatusTo hn)
  have hop : op ≠ .fetchOpcode := by
    rintro rfl
    exact (h.coherent.program h.phase).2 ((h.suffix hn).subset List.mem_cons_self)
  have hcoherent := h.coherent.tick ht
  have hadder := decimalAdder_tick ht
  obtain ⟨x, u, -, hdone, -⟩ := tick_ok_of_next hn ht
  have hplace := samePlace_access op x e
  generalize (e.prepare op).1.receive x = r at hdone hplace
  have hframe := next_frame hn
  have hphase : r.phase = .execute := by rw [hplace.phase, hframe, h.phase]
  have hprogram : r.program = c.program := by rw [hplace.program, hframe]
  rcases complete_cases hop hphase with ⟨-, hjam⟩ | ⟨-, happly, -, hahead⟩ | ⟨b, -, -, -, hend⟩
  · rw [← hdone, hd] at hjam
    cases hjam
  · rw [← hdone, hplace.ahead] at hahead
    have hsame : d.program = c.program := by rw [hdone, happly, program_apply hop, hprogram]
    exact ⟨hcoherent, hd, by rw [hadder, hsame]; exact h.adder, hstack,
      by rw [hahead]; exact h.isBlind_rest hn⟩
  · -- The program is over and an interrupt sequence begins, which is heedless whatever the cells.
    have hinterrupt : d.program = interruptProgram ∧ d.ahead = interruptProgram := by
      rw [← hdone] at hend
      cases hpolls : r.polls with
      | false =>
        rw [hpolls, if_neg Bool.false_ne_true] at hend
        cases hd.symm.trans (congrArg Cpu.phase hend)
      | true =>
        rw [hpolls, if_pos rfl] at hend
        rcases poll_cases b with hpoll | hpoll | hpoll
        · cases hd.symm.trans (congrArg Cpu.phase (hend.trans hpoll))
        · exact hend.trans hpoll ▸ ⟨rfl, rfl⟩
        · exact hend.trans hpoll ▸ ⟨rfl, rfl⟩
    exact ⟨hcoherent, hd, by rw [hinterrupt.1]; exact fun _ => interruptProgram_usesAdder, hstack,
      by rw [hinterrupt.2]; exact Or.inr isBlind_interruptProgram⟩

end Heedless

end

/-! ### Runs -/

section

variable {σ : Type}

/-- What a run does, tick by tick. -/
def deeds (patience : Nat) (host : Host σ) : Nat → Cpu → σ → List Deed
  | 0, _, _ => []
  | n + 1, c, s =>
    match c.next, c.tick patience host s with
    | .ok (op, _), .ok (d, t) => ⟨op, c.tickCycles patience host s⟩ :: deeds patience host n d t
    | _, _ => []

theorem deeds_succ {patience : Nat} {host : Host σ} {c d e : Cpu} {s t : σ} {op : MicroOp}
    (hn : c.next = .ok (op, e)) (ht : c.tick patience host s = .ok (d, t)) (n : Nat) :
    c.deeds patience host (n + 1) s =
      ⟨op, c.tickCycles patience host s⟩ :: d.deeds patience host n t := by
  simp only [deeds, hn, ht]

/-- The bus cycles of the deeds are those of the run. -/
theorem cycles_deeds {patience n : Nat} {host : Host σ} {c : Cpu} {s : σ} {r : Cpu × σ}
    (h : c.ticking patience host n s = .ok r) :
    (c.deeds patience host n s).flatMap Deed.cycles =
      (c.tickingTurns patience host n s).map host.turnCycle := by
  induction n generalizing c s with
  | zero => rfl
  | succ n ih =>
    obtain ⟨d, t, ht, hticks⟩ := of_ticking_succ h
    obtain ⟨op, e, -, -, hn, -⟩ := tick_ok ht
    rw [deeds_succ hn ht, List.flatMap_cons, ih hticks]
    simp only [tickingTurns, ht, List.map_append, tickCycles]

end

/-- The run pushes a status byte to the cell. -/
def StatusCell (patience : Nat) (host : Host TimedRam) (c : Cpu) (ram : TimedRam) (k : Nat)
    (a : UInt16) : Prop :=
  ∃ x ∈ c.deeds patience host k ram, x.PushesStatusTo a

/-- The second run comes to rest after as many ticks as the first one. Tick by tick it does the same
in the same bus cycles. In the end the machines are the same but for the decimal flag and the byte
on the data bus, and the memories but for the decimal flag in status bytes in the given cells. -/
structure RestsAlike (patience : Nat) (host : Host TimedRam) (cells : UInt16 → Prop) (c : Cpu)
    (ram : TimedRam) (c' : Cpu) (ram' : TimedRam) (k : Nat) : Prop where
  rests : ComesToRest patience host c' ram' k
  deeds : List.Forall₂ Deed.Alike (c.deeds patience host k ram) (c'.deeds patience host k ram')
  ends : ∃ d t d' t', c.ticking patience host k ram = .ok (d, t) ∧
    c'.ticking patience host k ram' = .ok (d', t') ∧ Apart cells d t d' t'

section

variable {patience : Nat} {cells : UInt16 → Prop} {c e c' e' d d' : Cpu}
  {ram ram' t t' : TimedRam} {op : MicroOp}

theorem Apart.atRest_iff (h : Apart cells c ram c' ram') : c'.AtRest ↔ c.AtRest := by
  obtain ⟨d, v, rfl⟩ := h.machine
  exact Iff.rfl

theorem RestsAlike.mono {host : Host TimedRam} {k : Nat} {more : UInt16 → Prop}
    (hmore : ∀ a, cells a → more a) (h : RestsAlike patience host cells c ram c' ram' k) :
    RestsAlike patience host more c ram c' ram' k := by
  obtain ⟨d, t, d', t', hends, hends', hapart⟩ := h.ends
  exact ⟨h.rests, h.deeds, d, t, d', t', hends, hends', hapart.machine, hapart.clock,
    hapart.memory.mono hmore⟩

/-- A tick of both machines after which they are at rest. -/
theorem RestsAlike.now (hn : c.next = .ok (op, e)) (hn' : c'.next = .ok (op, e'))
    (ht : c.tick patience lines.host ram = .ok (d, t))
    (ht' : c'.tick patience lines.host ram' = .ok (d', t'))
    (hcycles : List.Forall₂ (BusCycle.AlikeFor op) (c.tickCycles patience lines.host ram)
      (c'.tickCycles patience lines.host ram')) (hd : d'.AtRest) (h : Apart cells d t d' t') :
    RestsAlike patience lines.host cells c ram c' ram' 1 where
  rests := .now ht' hd
  deeds := by
    rw [deeds_succ hn ht, deeds_succ hn' ht']
    exact .cons ⟨rfl, hcycles⟩ .nil
  ends := ⟨d, t, d', t', by simp only [ticking, ht], by simp only [ticking, ht'], h⟩

/-- A tick of both machines, and the rest of their runs. -/
theorem RestsAlike.later {k : Nat} (hn : c.next = .ok (op, e)) (hn' : c'.next = .ok (op, e'))
    (ht : c.tick patience lines.host ram = .ok (d, t))
    (ht' : c'.tick patience lines.host ram' = .ok (d', t'))
    (hcycles : List.Forall₂ (BusCycle.AlikeFor op) (c.tickCycles patience lines.host ram)
      (c'.tickCycles patience lines.host ram')) (hd : ¬d'.AtRest)
    (h : RestsAlike patience lines.host cells d t d' t' k) :
    RestsAlike patience lines.host cells c ram c' ram' (k + 1) where
  rests := h.rests.later ht' hd
  deeds := by
    rw [deeds_succ hn ht, deeds_succ hn' ht']
    exact .cons ⟨rfl, hcycles⟩ h.deeds
  ends := by
    simp only [ticking, ht, ht']
    exact h.ends

/-- The first tick of two runs keeps the machines apart by no more. What remains to be shown is that
the rest of the runs is alike. -/
theorem RestsAlike.first {k : Nat} (hapart : Apart cells c ram c' ram') (hn : c.next = .ok (op, e))
    (hadder : c.decimalAdder = true → op.usesAdder = false)
    (hstack : ∀ a, cells a → highByte a = 1) (hblind : (∀ a, ¬cells a) ∨ op.isBlind = true)
    (hrest : ComesToRest patience lines.host c ram k)
    (hlater : ∀ d t d' t' i, k = i + 1 → c.tick patience lines.host ram = .ok (d, t) →
      d.phase = .execute →
      Apart (fun a => cells a ∨ Deed.PushesStatusTo a ⟨op, c.tickCycles patience lines.host ram⟩)
        d t d' t' → ComesToRest patience lines.host d t i →
      RestsAlike patience lines.host (fun a =>
        (cells a ∨ Deed.PushesStatusTo a ⟨op, c.tickCycles patience lines.host ram⟩) ∨
          d.StatusCell patience lines.host t i a) d t d' t' i) :
    RestsAlike patience lines.host
      (fun a => cells a ∨ c.StatusCell patience lines.host ram k a) c ram c' ram' k := by
  obtain ⟨d, t, ht, hafter⟩ := hrest.first
  obtain ⟨e', d', t', hn', ht', hcycles, hnext⟩ :=
    tick_apart hapart hn hadder (fun a' => byte_alike hapart.memory hstack hblind) ht
  rcases hafter with ⟨rfl, hd⟩ | ⟨i, rfl, hd, hrest⟩
  · refine RestsAlike.mono (fun a hcell => ?_)
      (.now hn hn' ht ht' hcycles (hnext.atRest_iff.2 hd) hnext)
    refine hcell.imp_right fun hpush => ?_
    rw [StatusCell, deeds_succ hn ht]
    exact ⟨_, List.mem_cons_self, hpush⟩
  · have hphase : d.phase = .execute := by
      by_contra hne
      exact hd ((Cpu.atRest_iff d).2 hne)
    refine RestsAlike.mono (fun a hcell => ?_)
      (.later hn hn' ht ht' hcycles (fun hd' => hd (hnext.atRest_iff.1 hd'))
        (hlater d t d' t' i rfl ht hphase hnext hrest))
    rw [StatusCell, deeds_succ hn ht]
    rcases hcell with (hcell | hpush) | ⟨x, hx, hpush⟩
    · exact Or.inl hcell
    · exact Or.inr ⟨_, List.mem_cons_self, hpush⟩
    · exact Or.inr ⟨x, List.mem_cons_of_mem _ hx, hpush⟩

/-- By induction on the ticks that are left: every tick leaves the rest of the program heedless. -/
theorem Heedless.restsAlike {k : Nat} (h : Heedless cells c) (hapart : Apart cells c ram c' ram')
    (hrest : ComesToRest patience lines.host c ram k) :
    RestsAlike patience lines.host
      (fun a => cells a ∨ c.StatusCell patience lines.host ram k a) c ram c' ram' k := by
  induction k generalizing cells c c' ram ram' with
  | zero => exact absurd hrest.pos (Nat.lt_irrefl 0)
  | succ k ih =>
    obtain ⟨d, t, ht, -⟩ := hrest.first
    obtain ⟨op, e, -, -, hn, -⟩ := tick_ok ht
    refine RestsAlike.first hapart hn (h.usesAdder hn) h.stack
      ((h.isBlind hn).imp_right And.left) hrest fun d t d' t' i hi ht hd hnext hrest => ?_
    cases hi
    exact ih (h.tick hn ht hd) hnext hrest

/-! ### From a boundary -/

theorem heedless_of_fetch (hp : c.phase = .fetch)
    (h : c.decimalAdder = true → (Instruction.ofOpcode (ram.memory c.regs.pc)).usesAdder = false)
    (ht : c.tick patience lines.host ram = .ok (d, t)) (hnone : ∀ a, ¬cells a) :
    Heedless cells d := by
  obtain ⟨op, e, r, u, hn, hperform, hdone, -, -, -⟩ := tick_parts ht
  cases hn.symm.trans (next_fetch hp)
  have hbyte : r.pins.data = ram.memory c.regs.pc := (Timetable.perform_accesses hperform).1
  have hprogram : d.program = (Instruction.ofOpcode (ram.memory c.regs.pc)).program := by
    rw [hdone, ← hbyte]
    rfl
  have hphase : d.phase = .execute := by
    rw [hdone]
    rfl
  have hcoherent : c.Coherent := coherent_of_idle (by simp [hp])
  refine ⟨hcoherent.tick ht, hphase, ?_, fun a hcell => absurd hcell (hnone a), Or.inl hnone⟩
  rw [decimalAdder_tick ht, hprogram, Instruction.usesAdder_program]
  exact h

end

/-- D matters to the decimal adder only. At a boundary, give P another decimal flag. Unless the chip
has a decimal adder and the next instruction is ADC, SBC, ARR, RRA or ISC, the run to the next
boundary or lock-up, with the interrupt sequence that may come before it, does the same on a copy of
the memory with the same levels of IRQ, NMI and RDY in every cycle. It makes the same
micro-operations in the same bus cycles, bytes that are read apart, and leaves the same machine, the
decimal flag and the byte on the data bus apart. What is written and what is in memory at the end
differ in the decimal flag of pushed status bytes at most. If RDY always goes low again there is
such a run, of at most fifteen ticks. -/
theorem decimal_flag_unseen (lines : Timetable) (c : Cpu) (ram : TimedRam) (b : Bool)
    (hb : c.atBoundary = true)
    (h : c.decimalAdder = true →
      (Instruction.ofOpcode (ram.memory c.regs.pc)).usesAdder = false) :
    (∀ patience k, ComesToRest patience lines.host c ram k →
      RestsAlike patience lines.host (c.StatusCell patience lines.host ram k) c ram
        { c with regs := c.regs.withDecimal b } ram k) ∧
    (lines.Fair → ∃ k ≤ 15, ∃ p, ∀ patience, p ≤ patience →
      ComesToRest patience lines.host c ram k) := by
  have hp : c.phase = .fetch := of_decide_eq_true hb
  refine ⟨fun patience k hrest => ?_, fun hfair => ?_⟩
  · have hapart : Apart (fun _ => False) c ram { c with regs := c.regs.withDecimal b } ram :=
      ⟨⟨b, c.pins.data, rfl⟩, rfl, fun _ => Or.inl rfl⟩
    refine RestsAlike.mono (fun a => Or.rec False.elim id) <|
      RestsAlike.first hapart (next_fetch hp) (fun _ => rfl) (fun _ => False.elim)
        (Or.inl fun _ => id) hrest fun d t d' t' i _ ht hd hnext hrest => ?_
    exact (heedless_of_fetch hp h ht fun a hcell =>
      hcell.elim id fun hpush => Bool.noConfusion hpush.1).restsAlike hnext hrest
  · have hc : c.Coherent := coherent_of_idle (by simp [hp])
    obtain ⟨k, hk, p, hrest⟩ := hc.rests hfair.letsGo (by simp [hp]) hc.cyclesLeft_le ram
    exact ⟨k, hk, p, fun patience hpatience => hrest.mono hpatience⟩

/-- PHP with IRQ high, its second cycle held once. The run goes on through the interrupt sequence
and pushes the status twice, with the decimal flag or without. -/
theorem decimal_flag_unseen_php :
    let lines : Timetable := { irq := fun _ => true, rdy := fun n => n = 1 }
    let ram : TimedRam := ⟨fun a => if a = 0 then 0x08 else 0, 0⟩
    let c := (powerOn .plain).setP 0
    let c' : Cpu := { c with regs := c.regs.withDecimal true }
    lines.Fair ∧ c.atBoundary = true ∧ c.decimalAdder = true ∧
      (Instruction.ofOpcode (ram.memory c.regs.pc)).usesAdder = false ∧
      (∃ k ≤ 15, ∃ patience, ComesToRest patience lines.host c ram k ∧
        RestsAlike patience lines.host (c.StatusCell patience lines.host ram k) c ram c' ram k) ∧
      (c.ticking 1 lines.host 10 ram).toOption.map
        (fun r => (r.2.clock, r.2.memory 0x01FD, r.2.memory 0x01FA)) = some (11, 0x30, 0x20) ∧
      (c'.ticking 1 lines.host 10 ram).toOption.map
        (fun r => (r.2.clock, r.2.memory 0x01FD, r.2.memory 0x01FA)) = some (11, 0x38, 0x28) := by
  intro lines ram c c'
  have hfair : lines.Fair := fun n => ⟨n + 2, Nat.le_add_right n 2, by simp [lines]⟩
  have hunused : (Instruction.ofOpcode (ram.memory c.regs.pc)).usesAdder = false := by
    decide +kernel
  obtain ⟨halike, hrests⟩ := decimal_flag_unseen lines c ram true rfl fun _ => hunused
  obtain ⟨k, hk, patience, hrest⟩ := hrests hfair
  have hcomes := hrest patience (Nat.le_refl patience)
  exact ⟨hfair, rfl, rfl, hunused, ⟨k, hk, patience, hcomes, halike patience k hcomes⟩,
    by decide +kernel, by decide +kernel⟩

end Cpu

end Nmos6502
