import Nmos6502.Proofs.NmiAccount

/-! # A held NMI

NMI is requested by a rise of its line and not by its level, so no request comes of a line that is
high and stays high. A reset forgets the level: it leaves the line low on the pins, and a line that
is held high right through it makes one request with the first cycle that follows. -/

namespace Nmos6502

variable {σ : Type}

/-! ### Levels that stay high -/

theorem rises_high {found : List (Cpu × Bool)} (h : ∀ x ∈ found, x.2 = true) :
    rises true found = 0 := by
  induction found with
  | nil => rfl
  | cons x found ih =>
    have hx : x.2 = true := h x List.mem_cons_self
    rw [rises, hx, ih fun y hy => h y (List.mem_cons_of_mem x hy)]
    simp

theorem rises_low_high {x : Cpu × Bool} {found : List (Cpu × Bool)}
    (h : ∀ y ∈ x :: found, y.2 = true) (hpending : x.1.nmiPending = false) :
    rises false (x :: found) = 1 := by
  have hx : x.2 = true := h x List.mem_cons_self
  rw [rises, hx, rises_high fun y hy => h y (List.mem_cons_of_mem x hy), hpending]
  rfl

namespace Cpu

variable {patience : Nat} {host : Host σ}

/-- So many ticks are made, and every answer among them has NMI high. -/
structure TicksHigh (patience : Nat) (host : Host σ) (n : Nat) (c : Cpu) (s : σ) (d : Cpu) (t : σ) :
    Prop where
  ticking : c.ticking patience host n s = .ok (d, t)
  high : ∀ x ∈ (c.tickEntries patience host n s).flatMap Entry.levels, x.2 = true

/-! ### The first tick -/

theorem performBeats_cons (access : Access) (c : Cpu) (s : σ) :
    ∃ a beats, c.performBeats patience host access s = ⟨c.drive access, a⟩ :: beats := by
  cases access with
  | read addr => cases patience <;> exact ⟨_, _, rfl⟩
  | write addr value => exact ⟨_, _, rfl⟩

/-- The cycle that fetches an opcode finds the requests that there were before. -/
theorem levels_fetch {c : Cpu} (hp : c.phase = .fetch) (s : σ) (d : Cpu) :
    ∃ x found, (Entry.tick c (c.beats patience host s) d).levels = x :: found ∧
      x.1.nmiPending = c.nmiPending := by
  obtain ⟨a, beats, hbeats⟩ := @performBeats_cons σ patience host (c.prepare .fetchOpcode).2
    (c.prepare .fetchOpcode).1 s
  refine ⟨Beat.level ⟨(c.prepare .fetchOpcode).1.drive (c.prepare .fetchOpcode).2, a⟩,
    beats.map Beat.level, ?_, rfl⟩
  simp only [Entry.levels, Cpu.beats, next_fetch hp, hbeats, List.map_cons]

/-- The cycle that fetches an opcode serves no request. -/
theorem served_fetch {c d : Cpu} {s t : σ} (hp : c.phase = .fetch)
    (h : c.tick patience host s = .ok (d, t)) :
    (Entry.tick c (c.beats patience host s) d).starts = false ∧
      (Entry.tick c (c.beats patience host s) d).steals = false := by
  obtain ⟨x, u, -, rfl, -⟩ := tick_ok_of_next (next_fetch hp) h
  refine ⟨decide_eq_false fun htakes => ?_, ?_⟩
  · exact Instruction.program_ne_interruptProgram _ htakes.2.1
  · simp [Entry.steals, next_fetch hp]

/-! ### No request, and one request -/

theorem TicksHigh.unserved {n : Nat} {c d : Cpu} {s t : σ} (h : TicksHigh patience host n c s d t)
    (hlevel : c.pins.nmi = true) (hpending : c.nmiPending = false) :
    served (c.tickEntries patience host n s) = 0 ∧ d.nmiPending = false := by
  have haccount := (balances_tickEntries h.ticking).account
  rw [hlevel, rises_high h.high, hpending] at haccount
  cases hd : d.nmiPending with
  | false => exact ⟨by simpa [hd] using haccount, rfl⟩
  | true => simp [hd] at haccount

theorem TicksHigh.one_request {n : Nat} {c d : Cpu} {s t : σ}
    (h : TicksHigh patience host (n + 1) c s d t) (hp : c.phase = .fetch)
    (hlevel : c.pins.nmi = false) (hpending : c.nmiPending = false) :
    served (c.tickEntries patience host (n + 1) s) + d.nmiPending.toNat = 1 ∧
      ∀ e u, c.tick patience host s = .ok (e, u) → e.nmiPending = true := by
  obtain ⟨e, u, ht, hticks⟩ := of_ticking_succ h.ticking
  obtain ⟨x, found, hfound, hx⟩ := @levels_fetch σ patience host c hp s e
  have hhigh := h.high
  have haccount := (balances_tickEntries h.ticking).account
  simp only [tickEntries, ht, List.flatMap_cons, hfound, List.cons_append] at hhigh haccount ⊢
  have hfirst : ∀ y ∈ x :: found, y.2 = true := by
    intro y hy
    refine hhigh y ?_
    rcases List.mem_cons.1 hy with rfl | hy
    · exact List.mem_cons_self
    · exact List.mem_cons_of_mem x (List.mem_append_left _ hy)
  constructor
  · rw [haccount, hlevel, rises_low_high hhigh (hx.trans hpending), hpending]
    rfl
  · intro e' u' ht'
    obtain ⟨rfl, rfl⟩ : e = e' ∧ u = u' := Prod.mk.inj (Except.ok.inj ht')
    obtain ⟨hstarts, hsteals⟩ := served_fetch hp ht
    have htick := (balances_tick ht).account
    rw [hstarts, hsteals, hfound, hlevel, rises_low_high hfirst (hx.trans hpending),
      hpending] at htick
    cases he : e.nmiPending with
    | true => rfl
    | false => simp [he] at htick

/-! ### Across a reset -/

/-- A level of NMI that stays high makes no request: there is no NMI sequence, no vector is taken
over and nothing is pending. After a reset the same level makes one request, with the first tick,
and no more: it is pending or served once. -/
theorem held_nmi_requests (host : Host σ) (patience n : Nat) (c d : Cpu) (s t : σ) :
    (c.pins.nmi = true → c.nmiPending = false → TicksHigh patience host n c s d t →
      (c.tickEntries patience host n s).countP Entry.starts = 0 ∧
        (c.tickEntries patience host n s).countP Entry.steals = 0 ∧ d.nmiPending = false) ∧
    ∀ r u, c.reset host s = (r, u) → TicksHigh patience host (n + 1) r u d t →
      (r.tickEntries patience host (n + 1) u).countP Entry.starts +
          (r.tickEntries patience host (n + 1) u).countP Entry.steals + d.nmiPending.toNat = 1 ∧
        ∀ e v, r.tick patience host u = .ok (e, v) → e.nmiPending = true := by
  constructor
  · intro hlevel hpending h
    obtain ⟨hserved, hd⟩ := h.unserved hlevel hpending
    obtain ⟨hstarts, hsteals⟩ := Nat.add_eq_zero_iff.1 hserved
    exact ⟨hstarts, hsteals, hd⟩
  · intro r u hr h
    obtain rfl : (c.reset host s).1 = r := congrArg Prod.fst hr
    exact h.one_request rfl rfl rfl

/-- Flat memory full of NOPs, with NMI high in every answer. -/
def nmiHeld : Host Ram := Schedule.host { nmi := fun _ => true }

theorem held_nmi_requests_nops :
    let c : Cpu := { powerOn .plain with pins.nmi := true }
    let ram : Ram := .ofMemory fun _ => 0xEA
    (∃ d t, TicksHigh 0 nmiHeld 4 c ram d t ∧ d.nmiPending = false) ∧
      ∃ d t, TicksHigh 0 nmiHeld 2 (c.reset nmiHeld ram).1 (c.reset nmiHeld ram).2 d t ∧
        ((c.reset nmiHeld ram).1.tickEntries 0 nmiHeld 2 (c.reset nmiHeld ram).2).countP
            Entry.starts +
          ((c.reset nmiHeld ram).1.tickEntries 0 nmiHeld 2 (c.reset nmiHeld ram).2).countP
            Entry.steals + d.nmiPending.toNat = 1 := by
  intro c ram
  obtain ⟨⟨d, t⟩, hd⟩ := ok_of_isOk (x := c.ticking 0 nmiHeld 4 ram) (by decide +kernel)
  obtain ⟨⟨e, u⟩, he⟩ := ok_of_isOk
    (x := (c.reset nmiHeld ram).1.ticking 0 nmiHeld 2 (c.reset nmiHeld ram).2) (by decide +kernel)
  have hquiet : TicksHigh 0 nmiHeld 4 c ram d t := ⟨hd, by decide +kernel⟩
  have hreset : TicksHigh 0 nmiHeld 2 (c.reset nmiHeld ram).1 (c.reset nmiHeld ram).2 e u :=
    ⟨he, by decide +kernel⟩
  have hheld := (held_nmi_requests nmiHeld 0 4 c d ram t).1 rfl rfl hquiet
  have hone := (held_nmi_requests nmiHeld 0 1 c e ram u).2 _ _ rfl hreset
  exact ⟨⟨d, t, hquiet, hheld.2.2⟩, e, u, hreset, hone.1⟩

/-- NMI is high in every answer. The machine has served the request of its rise, and a reset and two
ticks later it takes an NMI again. -/
theorem reset_requests_held_nmi :
    (∀ p ram, (nmiHeld.tick p ram).1.nmi = true) ∧
      ∃ c ram, (powerOn .plain).ticking 0 nmiHeld 9 (.ofMemory fun _ => 0xEA) = .ok (c, ram) ∧
        c.pins.nmi = true ∧ c.nmiPending = false ∧
        ∃ d t, (c.reset nmiHeld ram).1.ticking 0 nmiHeld 2 (c.reset nmiHeld ram).2 = .ok (d, t) ∧
          d.Takes .nmi := by
  have hanswer : ∀ p ram, (nmiHeld.tick p ram).1.nmi = true := by
    intro p ram
    cases hp : p.read <;> simp [nmiHeld, Schedule.host, hp]
  obtain ⟨⟨c, ram⟩, hc, hafter⟩ := ok_of_any
    (x := (powerOn .plain).ticking 0 nmiHeld 9 (.ofMemory fun _ => 0xEA))
    (p := fun r : Cpu × Ram => r.1.pins.nmi && !r.1.nmiPending &&
      ((r.1.reset nmiHeld r.2).1.ticking 0 nmiHeld 2 (r.1.reset nmiHeld r.2).2).toOption.any
        fun q : Cpu × Ram => decide (q.1.Takes .nmi))
    (by decide +kernel)
  simp only [Bool.and_eq_true, Bool.not_eq_true'] at hafter
  obtain ⟨⟨hlevel, hpending⟩, htakes⟩ := hafter
  obtain ⟨⟨d, t⟩, hd, hnmi⟩ := ok_of_any htakes
  exact ⟨hanswer, c, ram, hc, hlevel, hpending, d, t, hd, of_decide_eq_true hnmi⟩

end Cpu

end Nmos6502
