import Nmos6502.Mos6510
import Nmos6502.Proofs.Ticking

/-! # What the port asks and tells

The port is used by reads and writes of its two registers and by resets. A host with something on
the port lines is asked for their level and told what the port puts on them; here it writes down
both, in order, beside the bus cycles that it sees. -/

namespace Nmos6502

variable {σ : Type}

/-! ### Uses of the port -/

inductive PortUse where
  | readDirection
  /-- A read of the output register, with the level of the lines at that time. -/
  | readOutput (level : UInt8)
  | writeDirection (v : UInt8)
  | writeOutput (v : UInt8)
  | reset
deriving Repr, DecidableEq

def PortUse.ofAccess (access : Pins) (level : UInt8) : PortUse :=
  if access.addr = 0 then
    if access.read then readDirection else writeDirection access.data
  else
    if access.read then readOutput level else writeOutput access.data

inductive PortEvent where
  | cycle (c : BusCycle)
  /-- The port has asked for the level of its lines. -/
  | sampled (level : UInt8)
  /-- The port has told what it puts on its lines. -/
  | shown (value : UInt8)
deriving Repr, DecidableEq

namespace IoPort

def use (port : IoPort) : PortUse → IoPort
  | .readDirection => port
  | .readOutput level => port.sample level
  | .writeDirection v => port.writeDirection v
  | .writeOutput v => port.writeOutput v
  | .reset => port.reset

/-- What the port asks and tells. -/
def calls (port : IoPort) : PortUse → List PortEvent
  | .readOutput level => [.sampled level]
  | .writeDirection v => [.shown (port.use (.writeDirection v)).shown]
  | .writeOutput v => [.shown (port.use (.writeOutput v)).shown]
  | .readDirection | .reset => []

/-- What the port puts on the data bus. -/
def data? (port : IoPort) : PortUse → Option UInt8
  | .readDirection => some port.direction
  | .readOutput level => some (port.use (.readOutput level)).lines
  | .writeDirection _ | .writeOutput _ | .reset => none

end IoPort

/-! ### Hosts that write it down -/

def PortHost.recorded (host : PortHost σ) : PortHost (List PortEvent × σ) where
  tick p := fun (log, s) =>
    let (answer, s) := host.tick p s
    (answer, log ++ [.cycle ⟨p, answer⟩], s)
  note n := fun (log, s) => (log, host.note n s)
  portInput := fun (log, s) =>
    let (level, s) := host.portInput s
    (level, log ++ [.sampled level], s)
  portOutput v := fun (log, s) => (log ++ [.shown v], host.portOutput v s)

theorem PortHost.recorded_tick (host : PortHost σ) (p : Pins) (log : List PortEvent) (s : σ) :
    host.recorded.tick p (log, s) =
      ((host.tick p s).1, log ++ [.cycle ⟨p, (host.tick p s).1⟩], (host.tick p s).2) := rfl

theorem Pins.addr_of_isPortAccess {p : Pins} (h : p.isPortAccess = true) :
    p.addr = 0 ∨ p.addr = 1 := by
  have hle : p.addr.toNat ≤ 1 := of_decide_eq_true h
  rcases Nat.le_one_iff_eq_zero_or_eq_one.1 hle with h0 | h1
  · exact Or.inl (UInt16.toNat_inj.1 h0)
  · exact Or.inr (UInt16.toNat_inj.1 h1)

namespace IoPort

variable (host : PortHost σ) (port : IoPort)

/-- An access to the port is one use of it. -/
theorem answer_eq {access : Pins} (h : access.isPortAccess = true) (s : σ) :
    port.answer host access s =
      ({ access with
          data := (port.data? (.ofAccess access (host.portInput s).1)).getD access.data },
        port.use (.ofAccess access (host.portInput s).1), (port.answer host access s).2.2) := by
  obtain ⟨addr, data, read, sync, irq, nmi, rdy, aec, spare, lines, reserved⟩ := access
  rcases Pins.addr_of_isPortAccess h with haddr | haddr
  · obtain rfl : addr = 0 := haddr
    cases read <;> rfl
  · obtain rfl : addr = 1 := haddr
    cases read <;> rfl

/-- The host is asked and told what the use calls for and nothing else. -/
theorem answer_recorded {access : Pins} (h : access.isPortAccess = true) (log : List PortEvent)
    (s : σ) :
    port.answer host.recorded access (log, s) =
      let r := port.answer host access s
      (r.1, r.2.1, log ++ port.calls (.ofAccess access (host.portInput s).1), r.2.2) := by
  obtain ⟨addr, data, read, sync, irq, nmi, rdy, aec, spare, lines, reserved⟩ := access
  rcases Pins.addr_of_isPortAccess h with haddr | haddr
  · obtain rfl : addr = 0 := haddr
    cases read
    · rfl
    · exact Prod.ext rfl (Prod.ext rfl (Prod.ext (List.append_nil log).symm rfl))
  · obtain rfl : addr = 1 := haddr
    cases read <;> rfl

end IoPort

/-! ### The host of a 6510 -/

/-- The host returns the address and the direction of the access as it was given them. -/
def Host.HandsBack (host : Host σ) : Prop :=
  ∀ p s, (host.tick p s).1.addr = p.addr ∧ (host.tick p s).1.read = p.read

namespace PortHost

/-- The port answers the cycle: it is an access of its own, and not a read that is held. -/
def answersCycle (answer : Pins) : Bool := answer.isPortAccess && (answer.write || !answer.rdy)

theorem isPortAccess_of_answersCycle {p : Pins} (h : answersCycle p = true) :
    p.isPortAccess = true := (Bool.and_eq_true_iff.1 h).1

variable (host : PortHost σ)

theorem routed_answered {p : Pins} {port : IoPort} {s : σ}
    (h : answersCycle (host.tick (p.setPort port.pins) s).1 = true) :
    host.routed.tick p (port, s) =
      let r := port.answer host (host.tick (p.setPort port.pins) s).1
        (host.tick (p.setPort port.pins) s).2
      (r.1.setPort r.2.1.pins, r.2) := by
  unfold answersCycle at h
  simp only [routed, h, if_true]

theorem routed_passed {p : Pins} {port : IoPort} {s : σ}
    (h : answersCycle (host.tick (p.setPort port.pins) s).1 = false) :
    host.routed.tick p (port, s) =
      ((host.tick (p.setPort port.pins) s).1.setPort port.pins, port,
        (host.tick (p.setPort port.pins) s).2) := by
  unfold answersCycle at h
  simp only [routed, h, Bool.false_eq_true, if_false]

theorem recorded_alike :
    host.recorded.routed.Alike (fun a b => a.1 = b.1 ∧ a.2.2 = b.2) host.routed where
  answers := by
    rintro p ⟨port, log, s⟩ ⟨_, _⟩ ⟨rfl, rfl⟩
    cases h : answersCycle (host.tick (p.setPort port.pins) s).1 with
    | true =>
      rw [host.routed_answered h, @routed_answered _ host.recorded p port (log, s) h]
      simp only [recorded_tick, port.answer_recorded host (isPortAccess_of_answersCycle h),
        and_self]
    | false =>
      rw [host.routed_passed h, @routed_passed _ host.recorded p port (log, s) h]
      exact ⟨rfl, rfl, rfl⟩
  hears := by
    rintro n ⟨port, log, s⟩ ⟨_, _⟩ ⟨rfl, rfl⟩
    exact ⟨rfl, rfl⟩

end PortHost

namespace Mos6510

def ticking (patience : Nat) (host : PortHost σ) : Nat → Mos6510 → σ → Except Stop (Mos6510 × σ)
  | 0, m, s => .ok (m, s)
  | n + 1, m, s =>
    match m.tick patience host s with
    | .error stop => .error stop
    | .ok (m, s) => ticking patience host n m s

theorem tick_eq (patience : Nat) (host : PortHost σ) (m : Mos6510) (s : σ) :
    m.tick patience host s =
      (m.cpu.tick patience host.routed (m.port, s)).map fun r => (⟨r.1, r.2.1⟩, r.2.2) := by
  unfold tick
  cases m.cpu.tick patience host.routed (m.port, s) <;> rfl

/-- The ticks of a 6510 are those of its processor on the host that it sees. -/
theorem ticking_eq (patience : Nat) (host : PortHost σ) (n : Nat) (m : Mos6510) (s : σ) :
    m.ticking patience host n s =
      (m.cpu.ticking patience host.routed n (m.port, s)).map fun r => (⟨r.1, r.2.1⟩, r.2.2) := by
  induction n generalizing m s with
  | zero => rfl
  | succ n ih =>
    simp only [ticking, tick, Cpu.ticking]
    cases m.cpu.tick patience host.routed (m.port, s) with
    | error stop => rfl
    | ok r => exact ih ⟨r.1, r.2.1⟩ r.2.2

theorem ticking_ok_iff {patience : Nat} {host : PortHost σ} {n : Nat} {m m' : Mos6510} {s s' : σ} :
    m.ticking patience host n s = .ok (m', s') ↔
      m.cpu.ticking patience host.routed n (m.port, s) = .ok (m'.cpu, m'.port, s') := by
  rw [ticking_eq]
  cases m.cpu.ticking patience host.routed n (m.port, s) with
  | error stop => constructor <;> (intro h; cases h)
  | ok r => constructor <;> (intro h; cases h; rfl)

theorem tick_ok_iff {patience : Nat} {host : PortHost σ} {m m' : Mos6510} {s s' : σ} :
    m.tick patience host s = .ok (m', s') ↔
      m.cpu.tick patience host.routed (m.port, s) = .ok (m'.cpu, m'.port, s') := by
  rw [tick_eq]
  cases m.cpu.tick patience host.routed (m.port, s) with
  | error stop => constructor <;> (intro h; cases h)
  | ok r => constructor <;> (intro h; cases h; rfl)

theorem execute_eq {τ : Type} (fuel : Nat) (host : PortHost σ) (trap : Trap τ) (budget : UInt32)
    (m : Mos6510) (s : σ) (t : τ) :
    m.execute fuel host trap budget s t =
      (m.cpu.execute fuel host.routed trap budget (m.port, s) t).map fun r =>
        (⟨r.1, r.2.1.1⟩, r.2.1.2, r.2.2) := by
  unfold execute
  cases m.cpu.execute fuel host.routed trap budget (m.port, s) t <;> rfl

theorem execute_ok_iff {τ : Type} {fuel : Nat} {host : PortHost σ} {trap : Trap τ} {budget : UInt32}
    {m m' : Mos6510} {s s' : σ} {t t' : τ} :
    m.execute fuel host trap budget s t = .ok (m', s', t') ↔
      m.cpu.execute fuel host.routed trap budget (m.port, s) t =
        .ok (m'.cpu, (m'.port, s'), t') := by
  rw [execute_eq]
  cases m.cpu.execute fuel host.routed trap budget (m.port, s) t with
  | error stop => constructor <;> (intro h; cases h)
  | ok r => constructor <;> (intro h; cases h; rfl)

end Mos6510

end Nmos6502
