import Nmos6502.Cpu.Cycle

/-! # Accesses as exchanges of pins

Of the machine an access sees only the pins and the NMI latch, and it changes only these and the
clocks. Here the access is a function of the pins, and a tick is the work of a micro-operation
around it. -/

namespace Nmos6502

/-- What an access leaves behind. -/
structure Exchange where
  pins : Pins
  nmiPending : Bool
  cycles : Nat

variable {σ : Type}

/-! ### Pins -/

namespace Pins

def drive (access : Access) (p : Pins) : Pins :=
  match access with
  | .read addr => { p with addr := addr, read := true, rdy := false }
  | .write addr value => { p with addr := addr, data := value, read := false }

def access (p : Pins) : Access := if p.read then .read p.addr else .write p.addr p.data

@[simp] theorem access_drive (a : Access) (p : Pins) : (p.drive a).access = a := by
  cases a <;> rfl

@[simp] theorem sync_drive (a : Access) (p : Pins) : (p.drive a).sync = p.sync := by
  cases a <;> rfl

end Pins

/-! ### Hosts -/

namespace Host

def answer (host : Host σ) (p : Pins) (pending : Bool) (s : σ) : Exchange × σ :=
  let (a, s) := host.tick p s
  (⟨a, pending || (a.nmi && !p.nmi), 1⟩, s)

/-- Cycles until the answer has RDY low. -/
def hold (host : Host σ) : (patience : Nat) → Pins → Bool → σ → Except Stop (Exchange × σ)
  | 0, p, pending, s =>
    let (x, s) := host.answer p pending s
    if x.pins.rdy then .error .unfinished else .ok (x, s)
  | patience + 1, p, pending, s =>
    let (x, s) := host.answer p pending s
    if x.pins.rdy then
      (hold host patience { x.pins with rdy := false } x.nmiPending s).map fun (y, s) =>
        ({ y with cycles := y.cycles + 1 }, s)
    else .ok (x, s)

def exchange (patience : Nat) (host : Host σ) (access : Access) (p : Pins) (pending : Bool)
    (s : σ) : Except Stop (Exchange × σ) :=
  match access with
  | .read _ => host.hold patience (p.drive access) pending s
  | .write .. => .ok (host.answer (p.drive access) pending s)

theorem hold_succ {host : Host σ} {p : Pins} {pending : Bool} {s : σ}
    (h : (host.answer p pending s).1.pins.rdy = true) (patience : Nat) :
    host.hold (patience + 1) p pending s =
      (host.hold patience { (host.answer p pending s).1.pins with rdy := false }
        (host.answer p pending s).1.nmiPending (host.answer p pending s).2).map fun r =>
          ({ r.1 with cycles := r.1.cycles + 1 }, r.2) := by
  simp only [hold, h, if_true]

theorem hold_error {host : Host σ} {patience : Nat} {p : Pins} {pending : Bool} {s : σ} {e : Stop}
    (h : host.hold patience p pending s = .error e) : e = .unfinished := by
  induction patience generalizing p pending s with
  | zero =>
    simp only [hold] at h
    split at h
    · exact (Except.error.inj h).symm
    · cases h
  | succ n ih =>
    simp only [hold] at h
    split at h
    · cases hn : host.hold n { (host.answer p pending s).1.pins with rdy := false }
          (host.answer p pending s).1.nmiPending (host.answer p pending s).2 with
      | error f =>
        rw [hn] at h
        obtain rfl : f = e := Except.error.inj h
        exact ih hn
      | ok r =>
        rw [hn] at h
        cases h
    · cases h

theorem exchange_error {host : Host σ} {patience : Nat} {a : Access} {p : Pins} {pending : Bool}
    {s : σ} {e : Stop} (h : host.exchange patience a p pending s = .error e) : e = .unfinished := by
  cases a with
  | read addr => exact hold_error h
  | write addr value => cases h

end Host

/-! ### The machine around an exchange -/

namespace Cpu

def receive (x : Exchange) (cpu : Cpu) : Cpu :=
  { cpu with
    pins := x.pins
    nmiPending := x.nmiPending
    ticks := cpu.ticks + UInt32.ofNat x.cycles
    total := ⟨cpu.total.count + x.cycles⟩ }

theorem drive_eq (a : Access) (cpu : Cpu) :
    cpu.drive a = { cpu with pins := cpu.pins.drive a } := by
  cases a <;> rfl

theorem cycle_eq (host : Host σ) (cpu : Cpu) (s : σ) :
    cpu.cycle host s =
      (cpu.receive (host.answer cpu.pins cpu.nmiPending s).1,
        (host.answer cpu.pins cpu.nmiPending s).2) := rfl

theorem receive_held (x y : Exchange) (hx : x.cycles = 1) (cpu : Cpu) :
    ({ cpu.receive x with pins.rdy := false } : Cpu).receive y =
      cpu.receive { y with cycles := y.cycles + 1 } := by
  simp only [receive, hx, mk.injEq, Ticks.mk.injEq, true_and, and_true]
  refine ⟨?_, by omega⟩
  rw [UInt32.ofNat_add, UInt32.add_assoc]
  congr 1
  exact UInt32.add_comm _ _

theorem hold_eq (patience : Nat) (host : Host σ) (cpu : Cpu) (s : σ) :
    cpu.hold host patience s =
      (host.hold patience cpu.pins cpu.nmiPending s).map fun (x, s) => (cpu.receive x, s) := by
  induction patience generalizing cpu s with
  | zero =>
    simp only [hold, Host.hold, cycle_eq]
    by_cases hr : (host.answer cpu.pins cpu.nmiPending s).1.pins.rdy = true
    · simp [receive, hr, Except.map]
    · simp [receive, hr, Except.map]
  | succ n ih =>
    simp only [hold, Host.hold, cycle_eq]
    by_cases hr : (host.answer cpu.pins cpu.nmiPending s).1.pins.rdy = true
    · have hd : (cpu.receive (host.answer cpu.pins cpu.nmiPending s).1).pins.rdy = true := hr
      simp only [hr, hd, if_true, ih]
      change Except.map _ (host.hold n { (host.answer cpu.pins cpu.nmiPending s).1.pins with
        rdy := false } (host.answer cpu.pins cpu.nmiPending s).1.nmiPending _) = _
      cases host.hold n { (host.answer cpu.pins cpu.nmiPending s).1.pins with rdy := false }
          (host.answer cpu.pins cpu.nmiPending s).1.nmiPending
          (host.answer cpu.pins cpu.nmiPending s).2 with
      | error stop => rfl
      | ok r =>
        simp only [Except.map]
        rw [receive_held _ r.1 rfl]
    · simp [receive, hr, Except.map]

theorem perform_eq (patience : Nat) (host : Host σ) (a : Access) (cpu : Cpu) (s : σ) :
    cpu.perform patience host a s =
      (host.exchange patience a cpu.pins cpu.nmiPending s).map
        fun (x, s) => (cpu.receive x, s) := by
  cases a with
  | read addr =>
    simp only [perform, Host.exchange, hold_eq, drive_eq]
    rfl
  | write addr value => rfl

/-- The machine after an exchange, and the host told about it. -/
def finishTick (host : Host σ) (op : MicroOp) (cpu : Cpu) (r : Exchange × σ) : Cpu × σ :=
  let done := (cpu.receive r.1).complete op
  (done, host.noteAny (done.notice? op) r.2)

theorem tick_eq (patience : Nat) (host : Host σ) (cpu : Cpu) (s : σ) :
    cpu.tick patience host s =
      match cpu.next with
      | .error cause => .error (.fault cause)
      | .ok (op, c) =>
        (host.exchange patience (c.prepare op).2 (c.prepare op).1.pins (c.prepare op).1.nmiPending
          s).map ((c.prepare op).1.finishTick host op) := by
  unfold tick
  cases cpu.next with
  | error cause => rfl
  | ok next =>
    simp only [perform_eq]
    cases host.exchange patience (next.2.prepare next.1).2 (next.2.prepare next.1).1.pins
        (next.2.prepare next.1).1.nmiPending s with
    | error stop => rfl
    | ok r => rfl

theorem tick_of_next {c d : Cpu} {op : MicroOp} (h : c.next = .ok (op, d)) (patience : Nat)
    (host : Host σ) (s : σ) :
    c.tick patience host s =
      (host.exchange patience (d.prepare op).2 (d.prepare op).1.pins (d.prepare op).1.nmiPending
        s).map ((d.prepare op).1.finishTick host op) := by
  rw [tick_eq, h]

end Cpu

end Nmos6502
