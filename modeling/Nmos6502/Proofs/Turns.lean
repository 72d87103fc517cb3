import Nmos6502.Cpu.Run
import Nmos6502.Proofs.Beats

/-! # The turns of the host

On every bus cycle the machine drives the pins and it is the turn of the host. The turns of a run
are listed here with the machine and the host as they stand before the answer, whether or not the
run comes to an end. -/

namespace Nmos6502

variable {σ τ : Type}

/-- What the machine says in its turn and the host answers. -/
def Host.turnCycle (host : Host σ) (turn : Cpu × σ) : BusCycle :=
  ⟨turn.1.pins, (host.tick turn.1.pins turn.2).1⟩

namespace Cpu

def holdTurns (host : Host σ) : (patience : Nat) → Cpu → σ → List (Cpu × σ)
  | 0, cpu, s => [(cpu, s)]
  | patience + 1, cpu, s =>
    let (next, t) := cpu.cycle host s
    (cpu, s) ::
      if next.pins.rdy then holdTurns host patience { next with pins.rdy := false } t else []

def performTurns (patience : Nat) (host : Host σ) (access : Access) (cpu : Cpu) (s : σ) :
    List (Cpu × σ) :=
  match access with
  | .read _ => (cpu.drive access).holdTurns host patience s
  | .write .. => [(cpu.drive access, s)]

def turns (patience : Nat) (host : Host σ) (cpu : Cpu) (s : σ) : List (Cpu × σ) :=
  match cpu.next with
  | .error _ => []
  | .ok (op, cpu) => (cpu.prepare op).1.performTurns patience host (cpu.prepare op).2 s

def tickingTurns (patience : Nat) (host : Host σ) : Nat → Cpu → σ → List (Cpu × σ)
  | 0, _, _ => []
  | n + 1, cpu, s =>
    cpu.turns patience host s ++
      match cpu.tick patience host s with
      | .error _ => []
      | .ok (cpu, s) => tickingTurns patience host n cpu s

def runLoopTurns (patience : Nat) (host : Host σ) (trap : Trap τ) (budget : UInt32) :
    (fuel : Nat) → Cpu → σ → τ → List (Cpu × σ)
  | 0, _, _, _ => []
  | fuel + 1, cpu, s, t =>
    cpu.turns patience host s ++
      match cpu.tick patience host s with
      | .error _ => []
      | .ok (cpu, s) =>
        match cpu.verdict trap budget t with
        | (.goOn, t) => runLoopTurns patience host trap budget fuel cpu s t
        | (.enough, _) | (.trapped _, _) => []

def executeTurns (fuel : Nat) (host : Host σ) (trap : Trap τ) (budget : UInt32) (cpu : Cpu) (s : σ)
    (t : τ) : List (Cpu × σ) :=
  cpu.beginRun.runLoopTurns fuel host trap budget fuel s t

/-! ### Turns and the conversation -/

variable {patience : Nat} {host : Host σ}

theorem holdBeats_eq (patience : Nat) (host : Host σ) (c : Cpu) (s : σ) :
    c.holdBeats host patience s =
      (c.holdTurns host patience s).map fun turn => ⟨turn.1, (host.turnCycle turn).answer⟩ := by
  induction patience generalizing c s with
  | zero => rfl
  | succ n ih =>
    simp only [holdBeats, holdTurns, ih, List.map_cons]
    split <;> rfl

theorem performBeats_eq (patience : Nat) (host : Host σ) (a : Access) (c : Cpu) (s : σ) :
    c.performBeats patience host a s =
      (c.performTurns patience host a s).map
        fun turn => ⟨turn.1, (host.turnCycle turn).answer⟩ := by
  cases a with
  | read addr => exact holdBeats_eq patience host _ s
  | write addr value => rfl

theorem beats_eq (patience : Nat) (host : Host σ) (c : Cpu) (s : σ) :
    c.beats patience host s =
      (c.turns patience host s).map fun turn => ⟨turn.1, (host.turnCycle turn).answer⟩ := by
  unfold beats turns
  cases c.next with
  | error cause => rfl
  | ok next => exact performBeats_eq patience host _ _ s

/-- The turns of a tick are the cycles that it says on the bus. -/
theorem tick_turns {c d : Cpu} {s t : σ} (h : c.tick patience host s = .ok (d, t))
    (log : List BusCycle) :
    c.tick patience host.logged (log, s) =
      .ok (d, log ++ (c.turns patience host s).map host.turnCycle, t) := by
  rw [tick_logged h, beats_eq, List.map_map]
  rfl

theorem ticking_turns {n : Nat} {c d : Cpu} {s t : σ} (h : c.ticking patience host n s = .ok (d, t))
    (log : List BusCycle) :
    c.ticking patience host.logged n (log, s) =
      .ok (d, log ++ (c.tickingTurns patience host n s).map host.turnCycle, t) := by
  induction n generalizing c s log with
  | zero =>
    cases h
    simp only [ticking, tickingTurns, List.map_nil, List.append_nil]
  | succ n ih =>
    obtain ⟨e, u, htick, hrest⟩ := of_ticking_succ h
    simp only [ticking, tickingTurns, htick, tick_turns htick, ih hrest, List.map_append,
      List.append_assoc]

theorem runLoop_turns {trap : Trap τ} {budget : UInt32} {fuel : Nat} {c d : Cpu} {s u : σ} {t v : τ}
    (h : c.runLoop patience host trap budget fuel s t = .ok (d, u, v)) (log : List BusCycle) :
    c.runLoop patience host.logged trap budget fuel (log, s) t =
      .ok (d, (log ++ (c.runLoopTurns patience host trap budget fuel s t).map host.turnCycle, u),
        v) := by
  induction fuel generalizing c s t log with
  | zero => cases h
  | succ n ih =>
    obtain ⟨e, w, t', htick, ⟨hv, hrest⟩ | ⟨hv, hend⟩ | ⟨id, hv, hend⟩⟩ := of_runLoop_succ h
    · simp only [runLoop, runLoopTurns, htick, hv, tick_turns htick, List.map_append]
      rw [← List.append_assoc]
      exact ih hrest _
    · cases hend
      simp only [runLoop, runLoopTurns, htick, hv, tick_turns htick, List.append_nil]
    · cases hend
      simp only [runLoop, runLoopTurns, htick, hv, tick_turns htick, List.append_nil]
      rfl

/-! ### What the host keeps -/

section

variable {P : σ → Prop} (answers : ∀ p s, P s → P (host.tick p s).2)
include answers

theorem holdTurns_keep (patience : Nat) (c : Cpu) {s : σ} (hs : P s) :
    ∀ turn ∈ c.holdTurns host patience s, P turn.2 := by
  induction patience generalizing c s with
  | zero => exact List.forall_mem_singleton.2 hs
  | succ n ih =>
    refine List.forall_mem_cons.2 ⟨hs, ?_⟩
    split
    · exact ih _ (answers c.pins s hs)
    · exact fun _ h => nomatch h

theorem turns_keep (patience : Nat) (c : Cpu) {s : σ} (hs : P s) :
    ∀ turn ∈ c.turns patience host s, P turn.2 := by
  unfold turns
  cases c.next with
  | error cause => exact fun _ h => nomatch h
  | ok next =>
    simp only [performTurns]
    split
    · exact holdTurns_keep answers patience _ hs
    · exact List.forall_mem_singleton.2 hs

/-- What the host keeps with every answer and every notice holds in all its turns, those of a read
that is held for good among them. -/
theorem tickingTurns_keep (hears : ∀ n s, P s → P (host.note n s)) (patience n : Nat) (c : Cpu)
    {s : σ} (hs : P s) : ∀ turn ∈ c.tickingTurns patience host n s, P turn.2 := by
  induction n generalizing c s with
  | zero => exact fun _ h => nomatch h
  | succ n ih =>
    refine List.forall_mem_append.2 ⟨turns_keep answers patience c hs, ?_⟩
    cases htick : c.tick patience host s with
    | error stop => exact fun _ h => nomatch h
    | ok r =>
      have hone : c.ticking patience host 1 s = .ok r := by simp only [ticking, htick]
      exact ih r.1 (Host.ticking_keeps answers hears hs hone)

end

end Cpu

end Nmos6502
