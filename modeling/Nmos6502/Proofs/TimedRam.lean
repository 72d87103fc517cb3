import Nmos6502.Proofs.Boundaries
import Nmos6502.Proofs.HeldReads

/-! # Memory with timed lines

Flat memory again, but with IRQ, NMI and RDY on a timetable of bus cycles, held cycles included.
Memory answers every cycle, also while RDY is high. As long as RDY goes low again and again, every
tick is over at some time and boundaries keep coming. -/

namespace Nmos6502

/-- The levels of the lines in each bus cycle, counted from zero. -/
structure Timetable where
  irq : Nat → Bool := fun _ => false
  nmi : Nat → Bool := fun _ => false
  rdy : Nat → Bool := fun _ => false

structure TimedRam where
  memory : Memory
  /-- The bus cycles so far. -/
  clock : Nat

namespace Timetable

def host (lines : Timetable) : Host TimedRam where
  tick p ram :=
    ({ p with
        data := p.access.byte ram.memory, irq := lines.irq ram.clock, nmi := lines.nmi ram.clock
        rdy := lines.rdy ram.clock },
      ⟨p.access.store ram.memory, ram.clock + 1⟩)

/-- At all times RDY will be low again. -/
def Fair (lines : Timetable) : Prop := ∀ n, ∃ m, n ≤ m ∧ lines.rdy m = false

end Timetable

/-! ### Hosts that let go -/

/-- Every tick of a coherent machine is over after some cycles. -/
def Host.LetsGo {σ : Type} (host : Host σ) : Prop :=
  ∀ (c : Cpu) (s : σ), c.Coherent → ∃ patience d t, c.tick patience host s = .ok (d, t)

namespace Cpu

section

variable {σ : Type} {host : Host σ} {c : Cpu} {s : σ} {k : Nat}

theorem ComesToRest.mono {p q : Nat} (hpq : p ≤ q) (h : ComesToRest p host c s k) :
    ComesToRest q host c s k where
  pos := h.pos
  ends := by
    obtain ⟨d, t, hticks, hd⟩ := h.ends
    exact ⟨d, t, ticking_mono hpq hticks, hd⟩
  inside := by
    intro j d t h0 hj hticks
    obtain ⟨e, u, hends, -⟩ := h.ends
    obtain ⟨i, rfl⟩ : ∃ i, k = j + i := ⟨k - j, by omega⟩
    -- The first `j` of the `k` ticks have a result with the smaller patience already.
    rw [ticking_add] at hends
    cases hfirst : c.ticking p host j s with
    | error stop =>
      rw [hfirst] at hends
      cases hends
    | ok r =>
      cases hticks.symm.trans (ticking_mono hpq hfirst)
      exact h.inside j d t h0 hj hfirst

/-- A run that comes to rest makes a tick, and is at rest then or goes on. -/
theorem ComesToRest.first {patience : Nat} (h : ComesToRest patience host c s k) :
    ∃ d t, c.tick patience host s = .ok (d, t) ∧
      ((k = 1 ∧ d.AtRest) ∨
        ∃ i, k = i + 1 ∧ ¬d.AtRest ∧ ComesToRest patience host d t i) := by
  obtain ⟨i, rfl⟩ : ∃ i, k = i + 1 := ⟨k - 1, by have := h.pos; omega⟩
  obtain ⟨e, u, hends, he⟩ := h.ends
  obtain ⟨d, t, ht, hrest⟩ := of_ticking_succ hends
  refine ⟨d, t, ht, ?_⟩
  have hinside : ∀ j, c.ticking patience host (j + 1) s = d.ticking patience host j t := by
    intro j
    simp only [ticking, ht]
  cases i with
  | zero =>
    cases hrest
    exact Or.inl ⟨rfl, he⟩
  | succ i =>
    refine Or.inr ⟨i + 1, rfl, h.inside 1 d t Nat.one_pos (by omega) (hinside 0), ?_⟩
    refine ⟨Nat.succ_pos i, ⟨e, u, hrest, he⟩, fun j f v h0 hj hf => ?_⟩
    exact h.inside (j + 1) f v (Nat.succ_pos j) (by omega) ((hinside j).trans hf)

theorem Coherent.rests (hgo : host.LetsGo) {n : Nat} (hc : c.Coherent) (hjam : c.phase ≠ .jammed)
    (hn : c.cyclesLeft ≤ n) (s : σ) : ∃ k ≤ n, ∃ patience, ComesToRest patience host c s k := by
  induction n generalizing c s with
  | zero =>
    have hpos := hc.cyclesLeft_pos hjam
    omega
  | succ n ih =>
    obtain ⟨p, d, t, ht⟩ := hgo c s hc
    by_cases hd : d.phase = .execute
    · have hless := cyclesLeft_tick hc ht hd
      obtain ⟨k, hk, q, hrest⟩ := ih (hc.tick ht) (by simp [hd]) (by omega) t
      exact ⟨k + 1, Nat.succ_le_succ hk, max p q,
        .later (tick_mono (Nat.le_max_left p q) ht) (fun h => (atRest_iff d).1 h hd)
          (hrest.mono (Nat.le_max_right p q))⟩
    · exact ⟨1, by omega, p, .now ht ((atRest_iff d).2 hd)⟩

end

end Cpu

/-! ### Accesses to timed memory -/

namespace Timetable

variable {lines : Timetable} {c r : Cpu} {ram t : TimedRam}

theorem cycle_reads (hread : c.pins.read = true) :
    (c.cycle lines.host ram).1.pins.data = ram.memory c.pins.addr ∧
      (c.cycle lines.host ram).2.memory = ram.memory := by
  simp only [Cpu.cycle_eq, Host.answer, host, Cpu.receive, Pins.access, hread, if_true, Access.byte,
    Access.store, and_self]

theorem hold_reads {patience : Nat} (hread : c.pins.read = true)
    (h : c.hold lines.host patience ram = .ok (r, t)) :
    r.pins.data = ram.memory c.pins.addr ∧ t.memory = ram.memory := by
  induction patience generalizing c ram with
  | zero =>
    rw [Cpu.hold_zero] at h
    split at h
    · cases h
    · cases h
      exact cycle_reads hread
  | succ n ih =>
    rw [Cpu.hold_succ] at h
    split at h
    · -- The cycle leaves the address and the memory as they are.
      have hread₁ : (c.cycle lines.host ram).1.reissued.pins.read = true := hread
      obtain ⟨hdata, hmemory⟩ := ih hread₁ h
      rw [(cycle_reads hread).2] at hdata hmemory
      exact ⟨hdata, hmemory⟩
    · cases h
      exact cycle_reads hread

/-- The byte on the data bus after an access, and the memory. -/
theorem perform_accesses {patience : Nat} {a : Access}
    (h : c.perform patience lines.host a ram = .ok (r, t)) :
    r.pins.data = a.byte ram.memory ∧ t.memory = a.store ram.memory := by
  cases a with
  | read addr => exact hold_reads rfl h
  | write addr b =>
    cases h
    exact ⟨rfl, rfl⟩

/-! ### Timed memory lets go -/

theorem hold_returns (k : Nat) (c : Cpu) {ram : TimedRam} (h : lines.rdy (ram.clock + k) = false) :
    ∃ r, c.hold lines.host k ram = .ok r := by
  induction k generalizing c ram with
  | zero =>
    have hrdy : (lines.host.tick c.pins ram).1.rdy = false := h
    exact ⟨_, by rw [Cpu.hold_zero, hrdy, if_neg Bool.false_ne_true]⟩
  | succ k ih =>
    rw [Cpu.hold_succ]
    split
    · have hnext : (c.cycle lines.host ram).2.clock + k = ram.clock + (k + 1) :=
        Nat.add_right_comm ram.clock 1 k
      exact ih _ (hnext ▸ h)
    · exact ⟨_, rfl⟩

theorem Fair.letsGo (h : lines.Fair) : lines.host.LetsGo := by
  intro c ram hc
  obtain ⟨op, e, hn, -⟩ := Cpu.next_of_wellFormed hc.wellFormed
  have hperform : ∃ patience r, (e.prepare op).1.perform patience lines.host (e.prepare op).2 ram =
      .ok r := by
    cases (e.prepare op).2 with
    | write addr value => exact ⟨0, _, rfl⟩
    | read addr =>
      obtain ⟨m, hm, hrdy⟩ := h ram.clock
      obtain ⟨k, rfl⟩ : ∃ k, m = ram.clock + k := ⟨m - ram.clock, by omega⟩
      exact ⟨k, hold_returns k _ hrdy⟩
  obtain ⟨patience, ⟨r, u⟩, hr⟩ := hperform
  exact ⟨patience, _, _, Cpu.tick_of_perform hn rfl hr⟩

end Timetable

end Nmos6502
