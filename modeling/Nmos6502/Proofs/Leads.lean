import Nmos6502.Proofs.Coherence
import Nmos6502.Proofs.Stack
import Nmos6502.Proofs.WaitStates

/-! # From one instruction to the next

On flat memory without wait states, with anything on the interrupt lines, the machine goes from the
beginning of an instruction or interrupt sequence to the beginning of the next. What it does in
between to the registers and to memory is what straight-line code does, but for the vector that a
BRK or an interrupt goes through: an NMI may take it over. -/

namespace Nmos6502

/-- One instruction or interrupt sequence, up to where the next one begins. -/
inductive Leads (sch : Schedule) : Cpu → Ram → List BusCycle → Cpu → Ram → Prop
  | last {c d : Cpu} {ram ram' : Ram} {b : BusCycle} :
    c.tick 0 sch.steady.host.logged ([], ram) = .ok (d, [b], ram') → d.Between →
      Leads sch c ram [b] d ram'
  | step {c d e : Cpu} {ram ram₁ ram' : Ram} {b : BusCycle} {log : List BusCycle} :
    c.tick 0 sch.steady.host.logged ([], ram) = .ok (e, [b], ram₁) → ¬e.Between →
      Leads sch e ram₁ log d ram' → Leads sch c ram (b :: log) d ram'

variable {sch : Schedule} {c d e : Cpu} {ram ram₁ ram' : Ram} {log : List BusCycle}

namespace Leads

theorem unique (h : Leads sch c ram log d ram') {log₂ : List BusCycle} {d₂ : Cpu} {ram₂ : Ram}
    (h₂ : Leads sch c ram log₂ d₂ ram₂) : log = log₂ ∧ d = d₂ ∧ ram' = ram₂ := by
  induction h generalizing log₂ with
  | last ht hb =>
    cases h₂ with
    | last ht₂ hb₂ =>
      cases ht.symm.trans ht₂
      exact ⟨rfl, rfl, rfl⟩
    | step ht₂ hn₂ _ =>
      cases ht.symm.trans ht₂
      exact absurd hb hn₂
  | step ht hn _ ih =>
    cases h₂ with
    | last ht₂ hb₂ =>
      cases ht.symm.trans ht₂
      exact absurd hb₂ hn
    | step ht₂ _ hrest =>
      cases ht.symm.trans ht₂
      obtain ⟨rfl, rfl, rfl⟩ := ih hrest
      exact ⟨rfl, rfl, rfl⟩

theorem between (h : Leads sch c ram log d ram') : d.Between := by
  induction h with
  | last _ hb => exact hb
  | step _ _ _ ih => exact ih

end Leads

/-- The run to the next instruction or interrupt sequence, if it takes no more than so many ticks.
-/
def nextWithin (sch : Schedule) : (bound : Nat) → Cpu → Ram → Option (List BusCycle × Cpu × Ram)
  | 0, _, _ => none
  | bound + 1, c, ram =>
    match c.tick 0 sch.steady.host.logged ([], ram) with
    | .ok (d, [b], ram') =>
      if d.Between then some ([b], d, ram')
      else (nextWithin sch bound d ram').map fun (log, r) => (b :: log, r)
    | _ => none

theorem leads_of_nextWithin {bound : Nat} (h : nextWithin sch bound c ram = some (log, d, ram')) :
    Leads sch c ram log d ram' := by
  induction bound generalizing c ram log with
  | zero => cases h
  | succ n ih =>
    simp only [nextWithin] at h
    split at h
    · next e b ram₁ ht =>
      split at h
      · next hb =>
        cases h
        exact .last ht hb
      · next hb =>
        obtain ⟨⟨log₁, r⟩, hr, heq⟩ := Option.map_eq_some_iff.1 h
        cases heq
        exact .step ht hb (ih hr)
    · cases h

/-- The machine after `n` instructions and interrupt sequences of no more than so many ticks. -/
def following (sch : Schedule) (bound : Nat) (c : Cpu) (ram : Ram) :
    Nat → List BusCycle × Cpu × Ram
  | 0 => ([], c, ram)
  | n + 1 =>
    let r := following sch bound c ram n
    (nextWithin sch bound r.2.1 r.2.2).getD r

theorem following_zero (sch : Schedule) (bound : Nat) (c : Cpu) (ram : Ram) :
    following sch bound c ram 0 = ([], c, ram) := rfl

theorem leads_following {bound n : Nat}
    (h : (nextWithin sch bound (following sch bound c ram n).2.1
      (following sch bound c ram n).2.2).isSome = true) :
    Leads sch (following sch bound c ram n).2.1 (following sch bound c ram n).2.2
      (following sch bound c ram (n + 1)).1 (following sch bound c ram (n + 1)).2.1
      (following sch bound c ram (n + 1)).2.2 := by
  obtain ⟨r, hr⟩ := Option.isSome_iff_exists.1 h
  have hnext : following sch bound c ram (n + 1) = r := by
    rw [following]
    simp only [hr, Option.getD_some]
  rw [hnext]
  exact leads_of_nextWithin hr

attribute [irreducible] following

/-- A tick stores what its cycle writes. -/
theorem tick_stores {b : BusCycle} (hram : ram.held = 0)
    (h : c.tick 0 sch.steady.host.logged ([], ram) = .ok (d, [b], ram')) :
    ram' = ram.after b.driven.access := by
  obtain ⟨op, e, x, u, hn, -⟩ := Cpu.tick_ok h
  obtain ⟨hs, p, -, hlen, hreq, ht⟩ := sch.steady.tick_logged hn [] ram hram 0
    (Nat.le_of_eq (sch.steady_holds _ _))
  obtain rfl : hs = [] := List.eq_nil_of_length_eq_zero (hlen.trans (sch.steady_holds _ _))
  cases h.symm.trans ht
  exact congrArg ram.after (hreq.access.trans (Pins.access_drive _ _)).symm

/-- Memory changes only where a cycle writes. -/
theorem Leads.memory (h : Leads sch c ram log d ram') (hram : ram.held = 0) {addr : UInt16}
    (hlog : ∀ b ∈ log, b.driven.read = false → b.driven.addr ≠ addr) :
    ram'.memory addr = ram.memory addr := by
  have hstore : ∀ (b : BusCycle) (ram : Ram), (b.driven.read = false → b.driven.addr ≠ addr) →
      (ram.after b.driven.access).memory addr = ram.memory addr := by
    intro b ram hb
    cases hread : b.driven.read with
    | true => simp only [Ram.after, Pins.access, hread, if_true, Access.store]
    | false =>
      simp only [Ram.after, Pins.access, hread, Bool.false_eq_true, if_false, Access.store]
      exact Function.update_of_ne (hb hread).symm _ _
  induction h with
  | last ht _ =>
    rw [tick_stores hram ht]
    exact hstore _ _ (hlog _ (List.mem_singleton.2 rfl))
  | step ht _ _ ih =>
    rw [ih (by rw [tick_stores hram ht]; rfl) fun b hb => hlog b (List.mem_cons_of_mem _ hb),
      tick_stores hram ht]
    exact hstore _ _ (hlog _ List.mem_cons_self)

namespace Cpu

open Nmos6502.Core

theorem between_settle {c : Cpu} (hp : c.phase = .execute) (ha : c.ahead = []) (masked : Bool) :
    (c.settle masked).Between := by
  rw [settle_of_end hp ha]
  split
  · exact between_poll _
  · exact Or.inl rfl

/-! ### One micro-operation -/

/-- Part of a program, and not with a vector to read. -/
def ordinary (op : MicroOp) : Bool :=
  op != .fetchOpcode && op != .jam && op != .vectorLow && op != .vectorHigh

/-- The machine runs a program on the core. -/
structure OnCore (polls : Bool) (k : Core) (c : Cpu) (ram : Ram) : Prop where
  phase : c.phase = .execute
  polls : c.polls = polls
  core : Core.ofCpu c ram.memory = k
  released : ram.held = 0

variable {polls : Bool} {k : Core}

theorem OnCore.tick (h : OnCore polls k c ram) {op : MicroOp} {ops : List MicroOp}
    (hu : c.upcoming = op :: ops) (hop : ordinary op = true) :
    ∃ d b ram', c.tick 0 sch.steady.host.logged ([], ram) = .ok (d, [b], ram') ∧
      d.regs = (k.exec op).regs ∧ ram'.memory = (k.exec op).memory ∧ ram'.held = 0 ∧
      if k.ends op = true ∨ ops = [] then d.Between
      else OnCore polls (k.exec op) d ram' ∧ d.ahead = ops ∧ ¬d.Between := by
  simp only [ordinary, Bool.and_eq_true, bne_iff_ne] at hop
  obtain ⟨⟨⟨hfetch, hjam⟩, hlow⟩, hhigh⟩ := hop
  have hsuffix : op :: ops <:+ c.program := hu ▸ c.upcoming_suffix
  obtain ⟨b, ht, -, -⟩ := tick_midTick sch.steady_holds h.phase hu hfetch [] ram h.released
  have hkeeps : (c.moveTo ops).KeepsVector op := by
    rintro (rfl | rfl)
    · exact absurd rfl hlow
    · exact absurd rfl hhigh
  have hcore := ofCpu_midTick sch.steady hkeeps ram
  have hmid := ahead_midTick sch.steady hfetch ram (c.moveTo ops)
  rw [ahead_moveTo ((List.suffix_cons op ops).trans hsuffix)] at hmid
  have hphase := (phase_midTick sch.steady hfetch hjam ram (c.moveTo ops)).trans h.phase
  have hpolls := (polls_midTick sch.steady hfetch ram (c.moveTo ops)).trans h.polls
  have hprogram : ((c.moveTo ops).midTick sch.steady op ram).program = c.program :=
    program_midTick sch.steady hfetch ram (c.moveTo ops)
  have hk : Core.ofCpu (c.moveTo ops) ram.memory = k := h.core
  rw [hk] at hcore hmid
  refine ⟨_, b, _, ht, ?_, congrArg Core.memory hcore, rfl, ?_⟩
  · rw [settle_frame]
    exact congrArg Core.regs hcore
  · by_cases hend : k.ends op = true ∨ ops = []
    · rw [if_pos hend]
      refine between_settle hphase (hmid.trans ?_) _
      split
      · rfl
      · next hgo => exact hend.resolve_left hgo
    · obtain ⟨hgo, hne⟩ := not_or.1 hend
      rw [if_neg hgo] at hmid
      rw [if_neg hend, settle_of_ahead (by rw [hmid]; exact hne)]
      refine ⟨⟨hphase, hpolls, hcore, rfl⟩, hmid, not_between_of_inside hphase ?_⟩
      exact step_of_ahead (hprogram ▸ hsuffix) hmid

/-! ### Programs -/

/-- A program runs as straight-line code, if it reads no vector. -/
theorem OnCore.leads {ops : List MicroOp} (hr : runnable ops = true) (hne : ops ≠ [])
    (hops : ops.all ordinary = true) (h : OnCore polls k c ram)
    (hu : c.upcoming =
      if ops.head? = some .fixPageIfCrossed ∧ c.crossed = false then ops.tail else ops) :
    ∃ log d ram', Leads sch c ram log d ram' ∧ d.regs = (Core.run ops k).1.regs ∧
      ram'.memory = (Core.run ops k).1.memory ∧ ram'.held = 0 := by
  -- Not on ticks: a page correction that is left out takes none.
  induction hlen : ops.length using Nat.strongRecOn generalizing ops c ram k with
  | ind len ih =>
    obtain ⟨op, rest, hdue, hrun, hs, hsuffix⟩ := Core.run_upcoming hr hne k
    obtain ⟨hop, hrest⟩ :=
      Bool.and_eq_true_iff.1 (List.all_cons.symm.trans (all_of_suffix hsuffix hops))
    have hcrossed : c.crossed = k.crossed := by rw [← h.core]; rfl
    rw [hcrossed] at hu
    obtain ⟨d, b, ram₁, ht, hregs, hmemory, hheld, hend⟩ := h.tick (hu.trans hdue) hop
    rw [hrun]
    by_cases hlast : k.ends op = true ∨ rest = []
    · rw [if_pos hlast] at hend
      rw [Core.run_end hs hlast]
      exact ⟨[b], d, ram₁, .last ht hend, hregs, hmemory, hheld⟩
    · rw [if_neg hlast] at hend
      obtain ⟨hd, hahead, hinside⟩ := hend
      obtain ⟨hgo, hne'⟩ := not_or.1 hlast
      obtain ⟨log, e, ram', hleads, hthen⟩ :=
        ih rest.length (hlen ▸ hsuffix.length_le) (runnable_tail (runnable_of_suffix hsuffix hr))
          hne' hrest hd (by rw [upcoming, hahead]) rfl
      rw [Core.run_cons hs (by simpa using hgo)]
      exact ⟨b :: log, e, ram', .step ht hinside hleads, hthen⟩

/-- The straight beginning of a program. -/
theorem OnCore.leads_execs (sch : Schedule) (ops rest : List MicroOp)
    (hops : ops.all (fun op => ordinary op && straight op) = true) (hrest : rest ≠ [])
    (h : OnCore polls k c ram) (ha : c.ahead = ops ++ rest) :
    ∃ cycles e ram₁, OnCore polls (Core.execs ops k).1 e ram₁ ∧ e.ahead = rest ∧
      ∀ log d ram', Leads sch e ram₁ log d ram' → Leads sch c ram (cycles ++ log) d ram' := by
  induction ops generalizing c ram k with
  | nil => exact ⟨[], c, ram, h, ha, fun _ _ _ hleads => hleads⟩
  | cons op ops ih =>
    obtain ⟨hop, hops⟩ := Bool.and_eq_true_iff.1 (List.all_cons.symm.trans hops)
    obtain ⟨hordinary, hstraight⟩ := Bool.and_eq_true_iff.1 hop
    have hu : c.upcoming = op :: (ops ++ rest) := by
      rw [upcoming, ha, if_neg]
      · rfl
      · rintro ⟨hfix, -⟩
        cases Option.some.inj hfix
        cases hstraight
    have hends : k.ends op = false := by
      cases op <;> first | rfl | cases hstraight
    obtain ⟨d, b, ram₁, ht, -, -, -, hend⟩ := h.tick hu hordinary
    rw [if_neg (by simp [hends, hrest])] at hend
    obtain ⟨hd, hahead, hinside⟩ := hend
    obtain ⟨cycles, e, ram₂, he, hea, hleads⟩ := ih hops hd hahead
    exact ⟨b :: cycles, e, ram₂, he, hea,
      fun log f ram' hf => .step ht hinside (hleads log f ram' hf)⟩

/-! ### Vectors -/

theorem regs_stealVector (c : Cpu) : c.stealVector.regs = c.regs := by
  unfold stealVector
  split <;> rfl

/-- A micro-operation that reads a vector, wherever that is, leaves S and memory alone. -/
theorem tick_vector (sch : Schedule) {op : MicroOp} {ops : List MicroOp}
    (hop : op = .vectorLow ∨ op = .vectorHigh) (hp : c.phase = .execute) (hram : ram.held = 0)
    (hu : c.upcoming = op :: ops) :
    ∃ d b ram', c.tick 0 sch.steady.host.logged ([], ram) = .ok (d, [b], ram') ∧
      d.regs.s = c.regs.s ∧ ram'.memory = ram.memory ∧ ram'.held = 0 ∧
      if ops = [] then d.Between else d.phase = .execute ∧ d.ahead = ops ∧ ¬d.Between := by
  have hfetch : op ≠ .fetchOpcode := by rcases hop with rfl | rfl <;> decide
  have hjam : op ≠ .jam := by rcases hop with rfl | rfl <;> decide
  have hsuffix : op :: ops <:+ c.program := hu ▸ c.upcoming_suffix
  obtain ⟨b, ht, -, -⟩ := tick_midTick sch.steady_holds hp hu hfetch [] ram hram
  have hphase := (phase_midTick sch.steady hfetch hjam ram (c.moveTo ops)).trans hp
  have hprogram : ((c.moveTo ops).midTick sch.steady op ram).program = c.program :=
    program_midTick sch.steady hfetch ram (c.moveTo ops)
  have hahead := ahead_midTick sch.steady hfetch ram (c.moveTo ops)
  have hends : (Core.ofCpu (c.moveTo ops) ram.memory).ends op = false := by
    rcases hop with rfl | rfl <;> rfl
  rw [hends, if_neg Bool.false_ne_true,
    ahead_moveTo ((List.suffix_cons op ops).trans hsuffix)] at hahead
  refine ⟨_, b, _, ht, ?_, ?_, rfl, ?_⟩
  · rw [settle_frame]
    rcases hop with rfl | rfl
    · change (c.moveTo ops).stealVector.regs.s = c.regs.s
      rw [regs_stealVector]
      rfl
    · rfl
  · rcases hop with rfl | rfl <;> rfl
  · split
    · next hnil => exact between_settle hphase (hahead.trans hnil) _
    · next hne =>
      rw [settle_of_ahead (by rw [hahead]; exact hne)]
      refine ⟨hphase, hahead, not_between_of_inside hphase ?_⟩
      exact step_of_ahead (hprogram ▸ hsuffix) hahead

/-- The end of BRK and of an interrupt sequence. -/
theorem OnCore.leads_vector (sch : Schedule) (h : OnCore polls k c ram)
    (ha : c.ahead = [.vectorLow, .vectorHigh]) :
    ∃ log d ram', Leads sch c ram log d ram' ∧ d.regs.s = k.regs.s ∧ ram'.memory = k.memory ∧
      ram'.held = 0 := by
  have hlow : c.upcoming = [.vectorLow, .vectorHigh] := by simp [upcoming, ha]
  obtain ⟨e, b, ram₁, ht, hs, hmemory, hheld, hphase, hahead, hinside⟩ :=
    tick_vector sch (Or.inl rfl) h.phase h.released hlow
  have hhigh : e.upcoming = [.vectorHigh] := by simp [upcoming, hahead]
  obtain ⟨d, b', ram', ht', hs', hmemory', hheld', hbetween⟩ :=
    tick_vector sch (Or.inr rfl) hphase hheld hhigh
  refine ⟨[b, b'], d, ram', .step ht hinside (.last ht' hbetween), ?_, ?_, hheld'⟩
  · rw [hs', hs, ← h.core]
    rfl
  · rw [hmemory', hmemory, ← h.core]
    rfl

/-! ### Whole instructions -/

/-- The core on which the program of the fetched instruction starts. -/
def fetched (c : Cpu) (m : Memory) : Core :=
  ⟨c.regs.advance, c.decimalAdder, c.address, c.operand, false, m⟩

/-- The opcode is fetched and its program begins. -/
theorem leads_fetch (sch : Schedule) (hb : c.atBoundary = true) (hram : ram.held = 0) :
    ∃ b e ram₁, OnCore (Instruction.ofOpcode (ram.memory c.regs.pc)).polls (c.fetched ram.memory)
        e ram₁ ∧
      e.ahead = (Instruction.ofOpcode (ram.memory c.regs.pc)).program ∧
      ∀ log d ram', Leads sch e ram₁ log d ram' → Leads sch c ram (b :: log) d ram' := by
  have hphase : c.phase = .fetch := by simpa [atBoundary] using hb
  have hnext := next_fetch hphase
  obtain ⟨hs, p, -, hlen, -, ht⟩ := sch.steady.tick_logged hnext [] ram hram 0
    (Nat.le_of_eq (sch.steady_holds _ _))
  obtain rfl : hs = [] := List.eq_nil_of_length_eq_zero (hlen.trans (sch.steady_holds _ _))
  refine ⟨_, _, _, ⟨rfl, rfl, rfl, rfl⟩, rfl, fun log d ram' hleads => .step ht ?_ hleads⟩
  rintro (hbound | ⟨handler, -, hprogram, -⟩)
  · cases hbound
  · exact Instruction.program_ne_interruptProgram _ hprogram

theorem ordinary_program {i : Instruction} (hjam : i ≠ .jam) (hbrk : i ≠ .brk) :
    i.program.all ordinary = true := by
  cases i with
  | jam => exact absurd rfl hjam
  | brk => exact absurd rfl hbrk
  | read op mode => cases mode <;> rfl
  | store op mode => cases mode <;> rfl
  | modify op mode => cases mode <;> rfl
  | _ => rfl

theorem leads_instruction (sch : Schedule) {i : Instruction} (hb : c.atBoundary = true)
    (hram : ram.held = 0) (hi : Instruction.ofOpcode (ram.memory c.regs.pc) = i)
    (hjam : i ≠ .jam) (hbrk : i ≠ .brk) :
    ∃ log d ram', Leads sch c ram log d ram' ∧
      d.regs = (Core.run i.program (c.fetched ram.memory)).1.regs ∧
      ram'.memory = (Core.run i.program (c.fetched ram.memory)).1.memory ∧ ram'.held = 0 := by
  subst hi
  obtain ⟨b, e, ram₁, he, hahead, hleads⟩ := leads_fetch sch hb hram
  obtain ⟨log, d, ram', hd, hrun⟩ := he.leads (Instruction.runnable_program _)
    (Instruction.program_ne_nil _) (ordinary_program hjam hbrk) (by rw [upcoming, hahead])
  exact ⟨b :: log, d, ram', hleads log d ram' hd, hrun⟩

theorem leads_brk (sch : Schedule) (hb : c.atBoundary = true) (hram : ram.held = 0)
    (hi : Instruction.ofOpcode (ram.memory c.regs.pc) = .brk) :
    ∃ log d ram', Leads sch c ram log d ram' ∧ d.regs.s = c.regs.s - 1 - 1 - 1 ∧
      ram'.memory = pushes c.regs.s [highByte (c.regs.pc + 1 + 1), lowByte (c.regs.pc + 1 + 1),
        c.regs.p.pushedByBreak] ram.memory ∧ ram'.held = 0 := by
  obtain ⟨b, e, ram₁, he, hahead, hleads⟩ := leads_fetch sch hb hram
  rw [hi] at hahead
  obtain ⟨cycles, f, ram₂, hf, hfa, hpushed⟩ := he.leads_execs sch
    [.skip, .push .pcHigh, .push .pcLow, .push .statusBreak] [.vectorLow, .vectorHigh] (by decide)
    (by decide) hahead
  obtain ⟨log, d, ram', hd, hs, hmemory, hheld⟩ := hf.leads_vector sch hfa
  exact ⟨b :: (cycles ++ log), d, ram', hleads _ d ram' (hpushed log d ram' hd), hs, hmemory, hheld⟩

theorem leads_interrupt (sch : Schedule) {handler : Handler} (hc : c.Takes handler)
    (hram : ram.held = 0) :
    ∃ log d ram', Leads sch c ram log d ram' ∧ d.regs.s = c.regs.s - 1 - 1 - 1 ∧
      ram'.memory = pushes c.regs.s [highByte c.regs.pc, lowByte c.regs.pc,
        c.regs.p.pushedByInterrupt] ram.memory ∧ ram'.held = 0 := by
  have hcore : OnCore c.polls (Core.ofCpu c ram.memory) c ram := ⟨hc.1, rfl, rfl, hram⟩
  obtain ⟨cycles, f, ram₂, hf, hfa, hpushed⟩ := hcore.leads_execs sch
    [.discard, .discard, .push .pcHigh, .push .pcLow, .push .statusInterrupt]
    [.vectorLow, .vectorHigh] (by decide) (by decide) (ahead_of_takes hc)
  obtain ⟨log, d, ram', hd, hs, hmemory, hheld⟩ := hf.leads_vector sch hfa
  exact ⟨cycles ++ log, d, ram', hpushed log d ram' hd, hs, hmemory, hheld⟩

end Cpu

end Nmos6502
