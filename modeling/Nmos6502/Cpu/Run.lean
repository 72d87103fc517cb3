import Nmos6502.Cpu.Cycle
import Nmos6502.Trap

/-! # Runs

A run ticks until a number of cycles has passed, but stops only between instructions, or when the
machine has locked up. A trap may stop it earlier. The cycles of a run are counted in thirty-two
bits. Nothing bounds the length of a run, so it is given `fuel`, a bound on its ticks and on the
repetitions of each read. -/

namespace Nmos6502

inductive Verdict where
  | goOn
  | enough
  | trapped (id : Int32)
deriving Repr, DecidableEq

namespace Cpu

variable {σ τ : Type}

def budgetVerdict (budget : UInt32) (cpu : Cpu) : Verdict :=
  if budget ≤ cpu.ticks then .enough else .goOn

/-- Between instructions the trap is asked and then the budget looked at; a locked machine only has
its budget. -/
def verdict (trap : Trap τ) (budget : UInt32) (cpu : Cpu) (t : τ) : Verdict × τ :=
  match cpu.phase with
  | .fetch =>
    let (id, t) := trap.ask cpu.regs.pc cpu.ticks cpu.pins t
    (if id = 0 then cpu.budgetVerdict budget else .trapped id, t)
  | .jammed => (cpu.budgetVerdict budget, t)
  | .execute => (.goOn, t)

def runLoop (patience : Nat) (host : Host σ) (trap : Trap τ) (budget : UInt32) :
    (fuel : Nat) → Cpu → σ → τ → Except Stop (Cpu × σ × τ)
  | 0, _, _, _ => .error .unfinished
  | fuel + 1, cpu, s, t =>
    match cpu.tick patience host s with
    | .error stop => .error stop
    | .ok (cpu, s) =>
      match cpu.verdict trap budget t with
      | (.goOn, t) => runLoop patience host trap budget fuel cpu s t
      | (.enough, t) => .ok (cpu, s, t)
      | (.trapped id, t) =>
        .ok ({ cpu with trapId := some id }, host.note (.trapped id cpu.regs.pc) s, t)

def beginRun (cpu : Cpu) : Cpu := { cpu with trapId := none, ticks := 0 }

/-- Run for at least `budget` cycles. The cycles of the run are left in `ticks` and what the trap
answered in `trapId`. -/
def execute (fuel : Nat) (host : Host σ) (trap : Trap τ) (budget : UInt32) (cpu : Cpu) (s : σ)
    (t : τ) : Except Stop (Cpu × σ × τ) :=
  cpu.beginRun.runLoop fuel host trap budget fuel s t

/-! ### The first tick of a run -/

/-- A run that comes to an end makes a tick, and the verdict on it says how the run goes on. -/
theorem of_runLoop_succ {patience n : Nat} {host : Host σ} {trap : Trap τ} {budget : UInt32}
    {cpu : Cpu} {s : σ} {t : τ} {r : Cpu × σ × τ}
    (h : cpu.runLoop patience host trap budget (n + 1) s t = .ok r) :
    ∃ d u v, cpu.tick patience host s = .ok (d, u) ∧
      ((d.verdict trap budget t = (.goOn, v) ∧
          d.runLoop patience host trap budget n u v = .ok r) ∨
        (d.verdict trap budget t = (.enough, v) ∧ r = (d, u, v)) ∨
        ∃ id, d.verdict trap budget t = (.trapped id, v) ∧
          r = ({ d with trapId := some id }, host.note (.trapped id d.regs.pc) u, v)) := by
  simp only [runLoop] at h
  cases ht : cpu.tick patience host s with
  | error stop =>
    rw [ht] at h
    cases h
  | ok next =>
    obtain ⟨d, u⟩ := next
    cases hv : d.verdict trap budget t with
    | mk verdict v =>
      simp only [ht, hv] at h
      refine ⟨d, u, v, rfl, ?_⟩
      cases verdict with
      | goOn => exact Or.inl ⟨hv, h⟩
      | enough => exact Or.inr (Or.inl ⟨hv, (Except.ok.inj h).symm⟩)
      | trapped id => exact Or.inr (Or.inr ⟨id, hv, (Except.ok.inj h).symm⟩)

/-! ### More fuel -/

theorem runLoop_mono {host : Host σ} {trap : Trap τ} {budget : UInt32} {p q : Nat} (hpq : p ≤ q)
    {n m : Nat} (hnm : n ≤ m) {cpu : Cpu} {s : σ} {t : τ} {r : Cpu × σ × τ}
    (h : cpu.runLoop p host trap budget n s t = .ok r) :
    cpu.runLoop q host trap budget m s t = .ok r := by
  induction n generalizing m cpu s t with
  | zero => cases h
  | succ n ih =>
    cases m with
    | zero => omega
    | succ m =>
      obtain ⟨d, u, v, ht, ⟨hv, hrest⟩ | ⟨hv, rfl⟩ | ⟨id, hv, rfl⟩⟩ := of_runLoop_succ h
      · simp only [runLoop, tick_mono hpq ht, hv]
        exact ih (by omega) hrest
      · simp only [runLoop, tick_mono hpq ht, hv]
      · simp only [runLoop, tick_mono hpq ht, hv]

theorem execute_mono {host : Host σ} {trap : Trap τ} {budget : UInt32} {n m : Nat} (hnm : n ≤ m)
    {cpu : Cpu} {s : σ} {t : τ} {r : Cpu × σ × τ}
    (h : cpu.execute n host trap budget s t = .ok r) :
    cpu.execute m host trap budget s t = .ok r :=
  runLoop_mono hnm hnm h

end Cpu

end Nmos6502
