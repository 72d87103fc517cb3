import Mathlib.Logic.Function.Basic
import Nmos6502.Proofs.Program

/-! # Flat memory

The plainest host: sixty-four kilobytes of memory that answers every address. The interrupt lines
follow a schedule of levels, one for each completed access, and a read may be held any number of
times with anything on the data bus. All other lines are handed back as they came. -/

namespace Nmos6502

abbrev Memory := UInt16 → UInt8

/-! ### Accesses to memory -/

namespace Access

/-- The byte on the data bus at the end of the access. -/
def byte (m : Memory) : Access → UInt8
  | read addr => m addr
  | write _ value => value

/-- The memory after the access. -/
def store (m : Memory) : Access → Memory
  | read _ => m
  | write addr value => Function.update m addr value

@[simp] theorem byte_read (m : Memory) (addr : UInt16) : (read addr).byte m = m addr := rfl

end Access

/-! ### Lines -/

/-- What the lines do at each access, counted from zero. -/
structure Schedule where
  irq : Nat → Bool := fun _ => false
  nmi : Nat → Bool := fun _ => false
  /-- The bytes on the data bus while a read is held. -/
  held : Nat → List UInt8 := fun _ => []
  rdyOnWrite : Nat → Bool := fun _ => false

namespace Schedule

def quiet : Schedule := {}

def steady (sch : Schedule) : Schedule := { irq := sch.irq, nmi := sch.nmi }

def holds (sch : Schedule) (n : Nat) : Access → Nat
  | .read _ => (sch.held n).length
  | .write .. => 0

end Schedule

/-! ### The host -/

structure Ram where
  memory : Memory
  /-- The accesses completed so far. -/
  accesses : Nat
  /-- How often the access in progress has been held. -/
  held : Nat

namespace Ram

def ofMemory (m : Memory) : Ram := ⟨m, 0, 0⟩

def after (a : Access) (ram : Ram) : Ram := ⟨a.store ram.memory, ram.accesses + 1, 0⟩

end Ram

namespace Schedule

def host (sch : Schedule) : Host Ram where
  tick p ram :=
    let p := { p with irq := sch.irq ram.accesses, nmi := sch.nmi ram.accesses }
    if p.read then
      match (sch.held ram.accesses)[ram.held]? with
      | some byte => ({ p with data := byte, rdy := true }, { ram with held := ram.held + 1 })
      | none => ({ p with data := ram.memory p.addr, rdy := false }, ram.after p.access)
    else ({ p with rdy := sch.rdyOnWrite ram.accesses }, ram.after p.access)

/-- The answer that completes an access. -/
def answer (sch : Schedule) (a : Access) (p : Pins) (ram : Ram) : Pins :=
  { p.drive a with
    data := a.byte ram.memory
    irq := sch.irq ram.accesses
    nmi := sch.nmi ram.accesses
    rdy := match a with
      | .read _ => false
      | .write .. => sch.rdyOnWrite ram.accesses }

def redriven (sch : Schedule) (byte : UInt8) (p : Pins) (ram : Ram) : Pins :=
  { p with
    data := byte, irq := sch.irq ram.accesses, nmi := sch.nmi ram.accesses, rdy := false }

end Schedule

/-! ### Held and released cycles -/

namespace BusCycle

def isHeld (c : BusCycle) : Bool := c.driven.read && c.answer.rdy

end BusCycle

namespace Pins

/-- The pins make the same access as `p`: they differ in the lines that a host answers with at
most. -/
structure SameRequest (p d : Pins) : Prop where
  access : d.access = p.access
  lines : d = { p with data := d.data, irq := d.irq, nmi := d.nmi }

theorem SameRequest.refl (p : Pins) : p.SameRequest p := ⟨rfl, rfl⟩

theorem SameRequest.addr {p d : Pins} (h : p.SameRequest d) : d.addr = p.addr := by rw [h.lines]

theorem SameRequest.read {p d : Pins} (h : p.SameRequest d) : d.read = p.read := by rw [h.lines]

theorem SameRequest.sync {p d : Pins} (h : p.SameRequest d) : d.sync = p.sync := by rw [h.lines]

end Pins

/-! ### Accesses on flat memory -/

namespace Schedule

theorem answer_released (sch : Schedule) {p : Pins} (hread : p.read = true) (pending : Bool)
    (log : List BusCycle) {ram : Ram} (h : (sch.held ram.accesses)[ram.held]? = none) :
    sch.host.logged.answer p pending (log, ram) =
      (⟨sch.answer (.read p.addr) p ram, pending || (sch.nmi ram.accesses && !p.nmi), 1⟩,
        log ++ [⟨p, sch.answer (.read p.addr) p ram⟩], ram.after (.read p.addr)) := by
  simp only [Host.answer, Host.logged, host, h, hread, if_true, Pins.access, answer, Pins.drive,
    Access.byte_read]

theorem answer_held (sch : Schedule) {p : Pins} (hread : p.read = true) (pending : Bool)
    (log : List BusCycle) {ram : Ram} {byte : UInt8}
    (h : (sch.held ram.accesses)[ram.held]? = some byte) :
    sch.host.logged.answer p pending (log, ram) =
      (⟨{ sch.redriven byte p ram with rdy := true },
        pending || (sch.nmi ram.accesses && !p.nmi), 1⟩,
        log ++ [⟨p, { sch.redriven byte p ram with rdy := true }⟩],
        { ram with held := ram.held + 1 }) := by
  simp only [Host.answer, Host.logged, host, h, hread, if_true, redriven]

theorem hold_logged (sch : Schedule) (rest : List UInt8) (patience : Nat)
    (hp : rest.length ≤ patience) {p : Pins} (hread : p.read = true) (hrdy : p.rdy = false)
    (pending : Bool) (log : List BusCycle) (ram : Ram)
    (hrest : (sch.held ram.accesses).drop ram.held = rest) :
    ∃ hs d, (∀ c ∈ hs, c.isHeld = true) ∧ hs.length = rest.length ∧ p.SameRequest d ∧
      sch.host.logged.hold patience p pending (log, ram) =
        .ok (⟨sch.answer (.read p.addr) p ram, pending || (sch.nmi ram.accesses && !p.nmi),
          hs.length + 1⟩, log ++ hs ++ [⟨d, sch.answer (.read p.addr) p ram⟩],
          ram.after (.read p.addr)) := by
  have hget : (sch.held ram.accesses)[ram.held]? = rest.head? := by
    rw [← hrest, List.head?_drop]
  induction rest generalizing patience p pending log ram with
  | nil =>
    have ha := sch.answer_released hread pending log hget
    refine ⟨[], p, by simp, rfl, .refl p, ?_⟩
    have hr : (sch.answer (.read p.addr) p ram).rdy = false := rfl
    cases patience with
    | zero => simp [Host.hold, ha, hr]
    | succ n => simp [Host.hold, ha, hr]
  | cons byte rest ih =>
    have ha := sch.answer_held hread pending log hget
    cases patience with
    | zero => simp at hp
    | succ n =>
      have hrest' : (sch.held ram.accesses).drop (ram.held + 1) = rest := by
        rw [← List.drop_drop, hrest, List.drop_one, List.tail_cons]
      have hn : rest.length ≤ n := by
        simp only [List.length_cons] at hp
        omega
      obtain ⟨hs, d, hheld, hlen, hreq, hrun⟩ := ih n hn (p := sch.redriven byte p ram) hread rfl
        (pending || (sch.nmi ram.accesses && !p.nmi))
        (log ++ [⟨p, { sch.redriven byte p ram with rdy := true }⟩])
        { ram with held := ram.held + 1 } hrest'
        (by rw [← hrest', List.head?_drop])
      refine ⟨⟨p, { sch.redriven byte p ram with rdy := true }⟩ :: hs, d, ?_, by simp [hlen], ?_,
        ?_⟩
      · intro c hc
        rcases List.mem_cons.1 hc with rfl | hc
        · simp [BusCycle.isHeld, hread]
        · exact hheld c hc
      · have hr : sch.redriven byte p ram = { p with
            data := byte, irq := sch.irq ram.accesses, nmi := sch.nmi ram.accesses } := by
          rw [redriven, hrdy]
        rw [hr] at hreq
        refine ⟨hreq.access.trans ?_, hreq.lines⟩
        simp only [Pins.access, hread, if_true]
      · have hfirst : (sch.host.logged.answer p pending (log, ram)).1.pins.rdy = true := by rw [ha]
        have hnmi : (sch.redriven byte p ram).nmi = sch.nmi ram.accesses := rfl
        rw [Host.hold_succ hfirst, ha]
        change Except.map _ (sch.host.logged.hold n (sch.redriven byte p ram) _ _) = _
        rw [hrun]
        simp only [Except.map, hnmi, Bool.and_not_self, Bool.or_false, List.length_cons,
          List.append_assoc, List.cons_append, List.nil_append]
        rfl

theorem exchange_logged (sch : Schedule) (a : Access) (p : Pins) (pending : Bool)
    (log : List BusCycle) (ram : Ram) (hram : ram.held = 0) (patience : Nat)
    (hp : sch.holds ram.accesses a ≤ patience) :
    ∃ hs d, (∀ c ∈ hs, c.isHeld = true) ∧ hs.length = sch.holds ram.accesses a ∧
      (p.drive a).SameRequest d ∧
      sch.host.logged.exchange patience a p pending (log, ram) =
        .ok (⟨sch.answer a p ram, pending || (sch.nmi ram.accesses && !p.nmi), hs.length + 1⟩,
          log ++ hs ++ [⟨d, sch.answer a p ram⟩], ram.after a) := by
  cases a with
  | read addr =>
    exact sch.hold_logged (sch.held ram.accesses) patience hp (p := p.drive (.read addr)) rfl rfl
      pending log ram (by rw [hram, List.drop_zero])
  | write addr v => exact ⟨[], p.drive (.write addr v), by simp, rfl, .refl _, by simp; rfl⟩

theorem noteAny_logged (sch : Schedule) (n : Option Notice) (r : List BusCycle × Ram) :
    sch.host.logged.noteAny n r = r := by
  cases n <;> rfl

/-- The machine after a micro-operation whose access is completed on flat memory. -/
def performed (sch : Schedule) (op : MicroOp) (c : Cpu) (ram : Ram) (held : Nat) : Cpu :=
  ((c.prepare op).1.receive ⟨sch.answer (c.prepare op).2 (c.prepare op).1.pins ram,
    (c.prepare op).1.nmiPending || (sch.nmi ram.accesses && !(c.prepare op).1.pins.nmi),
    held + 1⟩).complete op

/-- A tick on flat memory: the cycles in which the access was held, and the one that completes
it. -/
theorem tick_logged (sch : Schedule) {c d : Cpu} {op : MicroOp} (hn : c.next = .ok (op, d))
    (log : List BusCycle) (ram : Ram) (hram : ram.held = 0) (patience : Nat)
    (hp : sch.holds ram.accesses (d.prepare op).2 ≤ patience) :
    ∃ hs p, (∀ c ∈ hs, c.isHeld = true) ∧ hs.length = sch.holds ram.accesses (d.prepare op).2 ∧
      ((d.prepare op).1.pins.drive (d.prepare op).2).SameRequest p ∧
      c.tick patience sch.host.logged (log, ram) =
        .ok (sch.performed op d ram hs.length,
          log ++ hs ++ [⟨p, sch.answer (d.prepare op).2 (d.prepare op).1.pins ram⟩],
          ram.after (d.prepare op).2) := by
  obtain ⟨hs, p, hheld, hlen, hreq, hx⟩ := sch.exchange_logged (d.prepare op).2
    (d.prepare op).1.pins (d.prepare op).1.nmiPending log ram hram patience hp
  refine ⟨hs, p, hheld, hlen, hreq, ?_⟩
  rw [Cpu.tick_of_next hn, hx]
  simp only [Except.map, Cpu.finishTick, noteAny_logged]
  rfl

end Schedule

end Nmos6502
