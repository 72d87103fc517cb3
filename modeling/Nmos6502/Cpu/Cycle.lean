import Nmos6502.Cpu.Access
import Nmos6502.Cpu.Completion
import Nmos6502.Host

/-! # Bus cycles

A tick of the machine is one access to the bus. A read is repeated for as long as the host answers
with RDY high, so a tick takes one or more bus cycles and, on a host that never lets go, does not
end. `patience` bounds the number of repetitions; a larger one gives the same result. -/

namespace Nmos6502

inductive Stop where
  /-- The bound on the run was reached. -/
  | unfinished
  | fault (cause : Fault)
deriving Repr, DecidableEq

namespace Cpu

variable {σ : Type}

def drive (access : Access) (cpu : Cpu) : Cpu :=
  match access with
  | .read addr => { cpu with pins := { cpu.pins with addr := addr, read := true, rdy := false } }
  | .write addr value =>
    { cpu with pins := { cpu.pins with addr := addr, data := value, read := false } }

/-- One bus cycle: the host answers the pins. -/
def cycle (host : Host σ) (cpu : Cpu) (s : σ) : Cpu × σ :=
  let (pins, s) := host.tick cpu.pins s
  ({ cpu.latchPins pins with ticks := cpu.ticks + 1, total := cpu.total.next }, s)

/-- Cycles until the host answers with RDY low. The pins are driven again as the host left them,
RDY apart. -/
def hold (host : Host σ) : (patience : Nat) → Cpu → σ → Except Stop (Cpu × σ)
  | 0, cpu, s =>
    let (cpu, s) := cpu.cycle host s
    if cpu.pins.rdy then .error .unfinished else .ok (cpu, s)
  | patience + 1, cpu, s =>
    let (cpu, s) := cpu.cycle host s
    if cpu.pins.rdy then hold host patience { cpu with pins.rdy := false } s else .ok (cpu, s)

theorem hold_mono {host : Host σ} {n m : Nat} (hnm : n ≤ m) {cpu : Cpu} {s : σ} {r : Cpu × σ}
    (h : cpu.hold host n s = .ok r) : cpu.hold host m s = .ok r := by
  induction n generalizing m cpu s with
  | zero =>
    cases m with
    | zero => exact h
    | succ m =>
      simp only [hold] at h ⊢
      split at h
      · cases h
      · rename_i hr
        rw [if_neg hr]
        exact h
  | succ n ih =>
    cases m with
    | zero => omega
    | succ m =>
      simp only [hold] at h ⊢
      split at h
      · rename_i hr
        rw [if_pos hr]
        exact ih (by omega) h
      · rename_i hr
        rw [if_neg hr]
        exact h

def perform (patience : Nat) (host : Host σ) (access : Access) (cpu : Cpu) (s : σ) :
    Except Stop (Cpu × σ) :=
  match access with
  | .read _ => (cpu.drive access).hold host patience s
  | .write .. => .ok ((cpu.drive access).cycle host s)

theorem perform_mono {host : Host σ} {n m : Nat} (hnm : n ≤ m) {access : Access} {cpu : Cpu}
    {s : σ} {r : Cpu × σ} (h : cpu.perform n host access s = .ok r) :
    cpu.perform m host access s = .ok r := by
  cases access with
  | read addr => exact hold_mono hnm h
  | write addr value => exact h

/-- One access and the work around it. -/
def tick (patience : Nat) (host : Host σ) (cpu : Cpu) (s : σ) : Except Stop (Cpu × σ) :=
  match cpu.next with
  | .error cause => .error (.fault cause)
  | .ok (op, cpu) =>
    let prepared := cpu.prepare op
    match prepared.1.perform patience host prepared.2 s with
    | .error stop => .error stop
    | .ok (cpu, s) =>
      let cpu := cpu.complete op
      .ok (cpu, host.noteAny (cpu.notice? op) s)

theorem tick_mono {host : Host σ} {n m : Nat} (hnm : n ≤ m) {cpu : Cpu} {s : σ} {r : Cpu × σ}
    (h : cpu.tick n host s = .ok r) : cpu.tick m host s = .ok r := by
  simp only [tick] at h ⊢
  cases hn : cpu.next with
  | error cause => simp [hn] at h
  | ok next =>
    simp only [hn] at h ⊢
    cases hp : (next.2.prepare next.1).1.perform n host (next.2.prepare next.1).2 s with
    | error stop => simp [hp] at h
    | ok done =>
      rw [perform_mono hnm hp]
      simpa only [hp] using h

def ticking (patience : Nat) (host : Host σ) : Nat → Cpu → σ → Except Stop (Cpu × σ)
  | 0, cpu, s => .ok (cpu, s)
  | n + 1, cpu, s =>
    match cpu.tick patience host s with
    | .error stop => .error stop
    | .ok (cpu, s) => ticking patience host n cpu s

/-! ### Reset -/

/-- The pins of one of the two reads that a reset makes. -/
def resetRead (addr : UInt16) : Pins := { Pins.reading with addr := addr }

/-- Load the reset vector and go on from there. A, X and Y keep their values. The control lines of
the two answers are ignored. -/
def reset (host : Host σ) (cpu : Cpu) (s : σ) : Cpu × σ :=
  let (low, s) := host.tick (resetRead Handler.reset.vector) s
  let (high, s) := host.tick (resetRead (Handler.reset.vector + 1)) s
  let pc := addressOf low.data high.data
  ({ cpu with
      regs := { cpu.regs with p := Status.powerOn, s := 0xFD, pc := pc }
      pins := Pins.reading
      total := cpu.total.next.next
      phase := .fetch
      program := []
      step := 0
      crossed := false
      nmiPending := false
      irqMasked := true },
    host.note (.reset pc) s)

end Cpu

end Nmos6502
