import Nmos6502.Proofs.Conversation

/-! # The bus cycles of a tick

A tick takes one bus cycle or, where the host holds a read, several. What the host answers to each
of them finds a machine that has its pins driven; these machines with their answers are what the
tick says on the bus. -/

namespace Nmos6502

variable {σ : Type}

/-- A bus cycle: the machine that drives the pins, and the answer. -/
structure Beat where
  driver : Cpu
  answer : Pins

namespace Beat

def cycle (beat : Beat) : BusCycle := ⟨beat.driver.pins, beat.answer⟩

/-- A request is pending once the answer has come. -/
def requested (beat : Beat) : Bool := (beat.driver.latchPins beat.answer).nmiPending

end Beat

namespace Cpu

def holdBeats (host : Host σ) : (patience : Nat) → Cpu → σ → List Beat
  | 0, cpu, s => [⟨cpu, (host.tick cpu.pins s).1⟩]
  | patience + 1, cpu, s =>
    let (next, t) := cpu.cycle host s
    ⟨cpu, next.pins⟩ ::
      if next.pins.rdy then holdBeats host patience { next with pins.rdy := false } t else []

def performBeats (patience : Nat) (host : Host σ) (access : Access) (cpu : Cpu) (s : σ) :
    List Beat :=
  match access with
  | .read _ => (cpu.drive access).holdBeats host patience s
  | .write .. => [⟨cpu.drive access, (host.tick (cpu.drive access).pins s).1⟩]

def beats (patience : Nat) (host : Host σ) (cpu : Cpu) (s : σ) : List Beat :=
  match cpu.next with
  | .error _ => []
  | .ok (op, cpu) =>
    (cpu.prepare op).1.performBeats patience host (cpu.prepare op).2 s

variable {patience : Nat} {host : Host σ}

/-! ### The cycles and the conversation -/

theorem tick_parts {c d : Cpu} {s t : σ} (h : c.tick patience host s = .ok (d, t)) :
    ∃ op e r u, c.next = .ok (op, e) ∧
      (e.prepare op).1.perform patience host (e.prepare op).2 s = .ok (r, u) ∧
      d = r.complete op ∧ t = host.noteAny (d.notice? op) u ∧
      c.beats patience host s = (e.prepare op).1.performBeats patience host (e.prepare op).2 s ∧
      SamePlace e r := by
  simp only [tick] at h
  cases hn : c.next with
  | error cause =>
    rw [hn] at h
    cases h
  | ok next =>
    obtain ⟨op, e⟩ := next
    simp only [hn] at h
    cases hx : (e.prepare op).1.perform patience host (e.prepare op).2 s with
    | error stop =>
      rw [hx] at h
      cases h
    | ok r =>
      rw [hx] at h
      cases h
      refine ⟨op, e, r.1, r.2, rfl, hx, rfl, rfl, by simp only [beats, hn], ?_⟩
      rw [perform_eq] at hx
      cases hexchange : host.exchange patience (e.prepare op).2 (e.prepare op).1.pins
          (e.prepare op).1.nmiPending s with
      | error stop =>
        rw [hexchange] at hx
        cases hx
      | ok answered =>
        obtain ⟨x, v⟩ := answered
        rw [hexchange] at hx
        cases hx
        exact samePlace_access op x e

theorem head_performBeats (access : Access) (c : Cpu) (s : σ) :
    ((c.performBeats patience host access s).head?.map fun beat => beat.driver.pins.addr) =
      some (c.drive access).pins.addr := by
  cases access with
  | read addr => cases patience <;> rfl
  | write addr value => rfl

theorem hold_logged {c d : Cpu} {log : List BusCycle} {s t : σ}
    (h : c.hold host patience s = .ok (d, t)) :
    c.hold host.logged patience (log, s) =
      .ok (d, log ++ (c.holdBeats host patience s).map Beat.cycle, t) := by
  have hcycle : ∀ (c : Cpu) (log : List BusCycle) (s : σ), c.cycle host.logged (log, s) =
      ((c.cycle host s).1, log ++ [⟨c.pins, (c.cycle host s).1.pins⟩], (c.cycle host s).2) :=
    fun _ _ _ => rfl
  induction patience generalizing c log s with
  | zero =>
    simp only [hold, hcycle] at h ⊢
    split at h
    · cases h
    · rename_i hr
      cases h
      rw [if_neg hr]
      rfl
  | succ n ih =>
    simp only [hold, hcycle] at h ⊢
    by_cases hr : (c.cycle host s).1.pins.rdy = true
    · rw [if_pos hr] at h ⊢
      rw [ih h, List.append_assoc]
      simp only [holdBeats, if_pos hr]
      rfl
    · rw [if_neg hr] at h ⊢
      cases h
      simp only [holdBeats, if_neg hr]
      rfl

theorem perform_logged {a : Access} {c d : Cpu} {log : List BusCycle} {s t : σ}
    (h : c.perform patience host a s = .ok (d, t)) :
    c.perform patience host.logged a (log, s) =
      .ok (d, log ++ (c.performBeats patience host a s).map Beat.cycle, t) := by
  cases a with
  | read addr => exact hold_logged h
  | write addr value =>
    cases h
    rfl

/-- The cycles of a tick are its part of the conversation. -/
theorem tick_logged {c d : Cpu} {s t : σ} (h : c.tick patience host s = .ok (d, t))
    (log : List BusCycle) :
    c.tick patience host.logged (log, s) =
      .ok (d, log ++ (c.beats patience host s).map Beat.cycle, t) := by
  obtain ⟨op, e, r, u, hn, hperform, rfl, rfl, hbeats, -⟩ := tick_parts h
  simp only [tick, hn, perform_logged hperform, Host.noteAny_logged, hbeats]

theorem beats_logged {c d : Cpu} {s t : σ} (h : c.tick patience host s = .ok (d, t)) :
    c.tick patience host.logged ([], s) =
      .ok (d, (c.beats patience host s).map Beat.cycle, t) := tick_logged h []

/-! ### Requests -/

theorem requested_hold {c d : Cpu} {s t : σ} (h : c.hold host patience s = .ok (d, t)) :
    (c.holdBeats host patience s).getLast?.any Beat.requested = d.nmiPending := by
  induction patience generalizing c s with
  | zero =>
    simp only [hold] at h
    split at h
    · cases h
    · cases h
      rfl
  | succ n ih =>
    simp only [hold] at h
    by_cases hr : (c.cycle host s).1.pins.rdy = true
    · rw [if_pos hr] at h
      obtain ⟨beat, beats, hrest⟩ : ∃ beat beats,
          ({ (c.cycle host s).1 with pins.rdy := false } : Cpu).holdBeats host n
            (c.cycle host s).2 = beat :: beats := by
        cases n <;> exact ⟨_, _, rfl⟩
      rw [← ih h, hrest]
      simp only [holdBeats, if_pos hr, hrest, List.getLast?_cons_cons]
    · rw [if_neg hr] at h
      cases h
      simp only [holdBeats, if_neg hr]
      rfl

theorem requested_perform {a : Access} {c d : Cpu} {s t : σ}
    (h : c.perform patience host a s = .ok (d, t)) :
    (c.performBeats patience host a s).getLast?.any Beat.requested = d.nmiPending := by
  cases a with
  | read addr => exact requested_hold h
  | write addr value =>
    cases h
    rfl

end Cpu

end Nmos6502
