import Nmos6502.Proofs.InterruptMask
import Nmos6502.Proofs.Ram
import Nmos6502.Proofs.Slicing

/-! # When an IRQ is taken

The interrupt mask is looked at in the last cycle of an instruction, as it was when that cycle
began. Only RTI changes it earlier, so for every other instruction this is the mask as it was before
the instruction. The IRQ line counts as the answer to the last cycle has it. -/

namespace Nmos6502

variable {σ : Type}

/-! ### From one instruction to the next -/

/-- The answer that ended the last tick. -/
def Moment.answer (m : Moment σ) : Pins := (m.2.1.getLast?.map BusCycle.answer).getD Pins.low

namespace Cpu

theorem pins_of_tick {patience : Nat} {host : Host σ} {c : Cpu} {a : List BusCycle × σ}
    {m : Moment σ} (h : c.tick patience host.logged a = .ok m) :
    m.1.pins = { m.answer with sync := m.1.pins.sync } := by
  obtain ⟨held, last, hlog, hpins, -⟩ := tick_appends h
  have hanswer : m.answer = last.answer := by
    rw [Moment.answer, hlog, List.getLast?_concat]
    rfl
  rw [hanswer]
  exact hpins

/-- `k` ticks, and no fewer, lead to where an opcode is fetched or an interrupt taken. -/
structure Retires (patience : Nat) (host : Host σ) (c : Cpu) (s : σ) (k : Nat)
    (run : Nat → Moment σ) : Prop where
  pos : 0 < k
  ticking (j : Nat) : j ≤ k → c.ticking patience host.logged j ([], s) = .ok (run j)
  ends : (run k).1.Between
  inside (j : Nat) : 0 < j → j < k → ¬(run j).1.Between

section

variable {patience : Nat} {host : Host σ} {c : Cpu} {s : σ} {k : Nat} {run : Nat → Moment σ}

theorem Retires.start (h : Retires patience host c s k run) : run 0 = (c, [], s) :=
  (Except.ok.inj (h.ticking 0 (Nat.zero_le k))).symm

theorem Retires.tick (h : Retires patience host c s k run) {j : Nat} (hj : j < k) :
    (run j).1.tick patience host.logged (run j).2 = .ok (run (j + 1)) := by
  have hnext := h.ticking (j + 1) hj
  rw [ticking_succ, h.ticking j (Nat.le_of_lt hj)] at hnext
  exact hnext

/-- An instruction that runs, `j` ticks after the boundary where its opcode was fetched. -/
structure Running (i : Instruction) (before : Bool) (run : Nat → Moment σ) (j : Nat) : Prop where
  phase : (run j).1.phase = .execute
  coherent : (run j).1.Coherent
  instruction : (run j).1.instruction = i
  program : (run j).1.program = i.program
  polls : (run j).1.polls = i.polls
  nmiPending : (run j).1.nmiPending = false
  mask : i ≠ .rti → i ≠ .brk → (run j).1.regs.p.irqDisable = before
  rest : i = .rti → (run j).1.ahead = Instruction.rti.program.drop (j - 1)
  pulled : i = .rti → 4 ≤ j → (run j).1.regs.p.irqDisable = bit 2 (run 4).answer.data

theorem running_one (h : Retires patience host c s k run) (hlow : host.NmiLow)
    (hb : c.atBoundary = true) (hn : c.nmiPending = false) :
    Running (Instruction.ofOpcode (run 1).answer.data) c.regs.p.irqDisable run 1 := by
  have hp : c.phase = .fetch := of_decide_eq_true hb
  have ht := h.tick h.pos
  rw [h.start] at ht
  have hpins := pins_of_tick ht
  obtain ⟨x, u, -, hd, -⟩ := tick_ok_of_next (next_fetch hp) ht
  have hdata : (run 1).answer.data = x.pins.data := by
    rw [hd] at hpins
    exact (congrArg Pins.data hpins).symm
  rw [hdata]
  refine ⟨?_, (coherent_of_idle (by simp [hp])).tick ht, ?_, ?_, ?_,
    tick_nmiPending hlow.logged hn ht, ?_, ?_, ?_⟩
  · rw [hd]
    rfl
  · rw [hd]
    rfl
  · rw [hd]
    rfl
  · rw [hd]
    rfl
  · intro _ _
    rw [hd]
    rfl
  · intro hi
    rw [hd, ← hi]
    rfl
  · intro _ h4
    omega

theorem Running.not_between {i : Instruction} {before : Bool} {j : Nat}
    (h : Running i before run j) : ¬(run j).1.Between := by
  rintro (hb | ⟨handler, -, hprogram, -⟩)
  · simp [atBoundary, h.phase] at hb
  · exact i.program_ne_interruptProgram (h.program.symm.trans hprogram)

theorem upcoming_of_not_mem {c : Cpu} (h : MicroOp.fixPageIfCrossed ∉ c.ahead) :
    c.upcoming = c.ahead := by
  unfold upcoming
  rw [if_neg]
  rintro ⟨hhead, -⟩
  exact h (List.mem_of_mem_head? (Option.mem_def.2 hhead))

theorem Running.rti_next {before : Bool} {j : Nat} (h : Running .rti before run j) {op : MicroOp}
    {ops : List MicroOp} (hu : (run j).1.upcoming = op :: ops) :
    op :: ops = Instruction.rti.program.drop (j - 1) := by
  have hrest := h.rest rfl
  rw [← hrest, ← hu, upcoming_of_not_mem]
  rw [hrest]
  exact fun hmem => absurd (List.mem_of_mem_drop hmem) (by decide)

theorem Running.mem_dropLast {i : Instruction} {before : Bool} {j : Nat}
    (h : Running i before run j) {op : MicroOp} {ops : List MicroOp}
    (hu : (run j).1.upcoming = op :: ops) (hne : ops ≠ []) : op ∈ i.program.dropLast := by
  obtain ⟨front, hfront⟩ := hu ▸ (run j).1.upcoming_suffix
  rw [← h.program, ← hfront, List.dropLast_append_of_ne_nil (List.cons_ne_nil op ops),
    List.dropLast_cons_of_ne_nil hne]
  exact List.mem_append_right _ List.mem_cons_self

/-- The mask at the end of an instruction is this. -/
def maskOf (i : Instruction) (before : Bool) (run : Nat → Moment σ) : Bool :=
  if i = .rti then bit 2 (run 4).answer.data else before

theorem Running.mask_at_end {i : Instruction} {before : Bool} {j : Nat}
    (h : Running i before run j) {op : MicroOp} {ops : List MicroOp}
    (hu : (run j).1.upcoming = op :: ops) (hops : op.mayEnd = false → ops = []) (hbrk : i ≠ .brk) :
    (run j).1.regs.p.irqDisable = maskOf i before run := by
  by_cases hrti : i = .rti
  · subst hrti
    have hnext := h.rti_next hu
    have hplain : ∀ op ∈ Instruction.rti.program, op.mayEnd = false := by decide
    obtain rfl := hops (hplain op (List.mem_of_mem_drop (hnext ▸ List.mem_cons_self)))
    have hlen := congrArg List.length hnext
    have hwhole : Instruction.rti.program.length = 5 := rfl
    rw [List.length_singleton, List.length_drop, hwhole] at hlen
    rw [maskOf, if_pos rfl]
    exact h.pulled rfl (by omega)
  · rw [maskOf, if_neg hrti]
    exact h.mask hrti hbrk

theorem Running.step {i : Instruction} {before : Bool} {j : Nat} (hlow : host.NmiLow)
    (h : Running i before run j) (hj : 0 < j)
    (ht : (run j).1.tick patience host.logged (run j).2 = .ok (run (j + 1))) :
    (run (j + 1)).1.phase = .jammed ∨ Running i before run (j + 1) ∨
      ((run (j + 1)).1.Takes .irq ↔
        i ≠ .brk ∧ (run (j + 1)).answer.irq = true ∧ maskOf i before run = false) ∧
      ((run (j + 1)).1.Takes .irq ∨ (run (j + 1)).1.atBoundary = true) := by
  have hpins := pins_of_tick ht
  have hcoherent := h.coherent.tick ht
  have hpending := tick_nmiPending hlow.logged h.nmiPending ht
  obtain ⟨op, ops, hu, hleaves⟩ := tick_leaves hlow.logged h.coherent h.phase h.nmiPending ht
  cases hleaves with
  | jams _ hd => exact Or.inl hd
  | goesOn hne hphase hahead _ hinstruction hprogram hpolls hkeep hpull =>
    refine Or.inr (Or.inl ⟨hphase, hcoherent, hinstruction.trans h.instruction,
      hprogram.trans h.program, hpolls.trans h.polls, hpending, ?_, ?_, ?_⟩)
    · intro hrti hbrk
      rw [hkeep (i.setsMask_dropLast hrti hbrk op (h.mem_dropLast hu hne))]
      exact h.mask hrti hbrk
    · rintro rfl
      have hnext := h.rti_next hu
      rw [hahead, show j + 1 - 1 = j - 1 + 1 by omega, ← List.tail_drop, ← hnext]
      rfl
    · rintro rfl h4
      -- The status byte is pulled in the fourth tick, and one more goes on after it.
      have hnext := h.rti_next hu
      have hlen := congrArg List.length hnext
      have hpos := List.length_pos_iff.2 hne
      have hwhole : Instruction.rti.program.length = 5 := rfl
      rw [List.length_cons, List.length_drop, hwhole] at hlen
      obtain rfl | rfl : j = 3 ∨ j = 4 := by omega
      · obtain rfl : op = .pullStatus := (List.cons.inj hnext).1
        rw [hpull rfl, hpins]
      · obtain rfl : op = .pullPcLow := (List.cons.inj hnext).1
        rw [hkeep rfl]
        exact h.pulled rfl (Nat.le_refl 4)
  | ends hops htakes hor =>
    refine Or.inr (Or.inr ⟨?_, hor⟩)
    have hirq : (run (j + 1)).1.pins.irq = (run (j + 1)).answer.irq := by rw [hpins]
    have hpolls : (run j).1.polls = true ↔ i ≠ .brk := by
      rw [h.polls, Instruction.polls, bne_iff_ne]
    rw [htakes, hpolls, hirq]
    refine and_congr_right fun hbrk => ?_
    rw [h.mask_at_end hu hops hbrk]

/-! ### The law -/

theorem Retires.running (h : Retires patience host c s k run) (hlow : host.NmiLow)
    (hb : c.atBoundary = true) (hn : c.nmiPending = false) (j : Nat) (hj : j + 1 < k) :
    (run (j + 1)).1.phase = .jammed ∨
      Running (Instruction.ofOpcode (run 1).answer.data) c.regs.p.irqDisable run (j + 1) := by
  induction j with
  | zero => exact Or.inr (running_one h hlow hb hn)
  | succ j ih =>
    have ht := h.tick (Nat.lt_of_succ_lt hj)
    rcases ih (Nat.lt_of_succ_lt hj) with hjam | hrun
    · exact Or.inl (tick_jammed hjam ht)
    · rcases hrun.step hlow (Nat.succ_pos j) ht with hjam | hgo | ⟨-, hend⟩
      · exact Or.inl hjam
      · exact Or.inr hgo
      · refine absurd ?_ (h.inside (j + 1 + 1) (Nat.succ_pos _) hj)
        exact hend.elim (fun htakes => Or.inr ⟨.irq, htakes⟩) Or.inl

theorem Retires.instruction (h : Retires patience host c s k run) (hlow : host.NmiLow)
    (hb : c.atBoundary = true) (hn : c.nmiPending = false) :
    ((run k).1.Takes .irq ↔ Instruction.ofOpcode (run 1).answer.data ≠ .brk ∧
      (run k).answer.irq = true ∧
        maskOf (Instruction.ofOpcode (run 1).answer.data) c.regs.p.irqDisable run = false) ∧
      ((run k).1.Takes .irq ∨ (run k).1.atBoundary = true) := by
  have hone := running_one h hlow hb hn
  obtain ⟨j, rfl⟩ : ∃ j, k = j + 1 + 1 := by
    have hk : k ≠ 1 := by
      rintro rfl
      exact hone.not_between h.ends
    have hpos := h.pos
    exact ⟨k - 2, by omega⟩
  have ht := h.tick (Nat.lt_succ_self (j + 1))
  rcases h.running hlow hb hn j (Nat.lt_succ_self (j + 1)) with hjam | hrun
  · exact absurd h.ends (not_between_of_jammed (tick_jammed hjam ht))
  · rcases hrun.step hlow (Nat.succ_pos j) ht with hjam | hgo | hend
    · exact absurd h.ends (not_between_of_jammed hjam)
    · exact absurd h.ends hgo.not_between
    · exact hend

/-- An interrupt sequence that runs. -/
structure InSequence (c : Cpu) : Prop where
  phase : c.phase = .execute
  coherent : c.Coherent
  polls : c.polls = false
  nmiPending : c.nmiPending = false

theorem inSequence_of_takes {c : Cpu} (hc : c.Coherent) (hn : c.nmiPending = false)
    {handler : Handler} (h : c.Takes handler) : InSequence c :=
  ⟨h.1, hc, (hc.runsInterrupt h).2, hn⟩

theorem InSequence.step {c d : Cpu} {s t : σ} (hlow : host.NmiLow) (h : InSequence c)
    (ht : c.tick patience host s = .ok (d, t)) :
    d.phase = .jammed ∨ InSequence d ∧ ¬d.Between ∨ d.atBoundary = true := by
  obtain ⟨op, ops, -, hleaves⟩ := tick_leaves hlow h.coherent h.phase h.nmiPending ht
  cases hleaves with
  | jams _ hd => exact Or.inl hd
  | goesOn _ hphase _ hstep _ _ hpolls _ _ =>
    exact Or.inr (Or.inl ⟨⟨hphase, h.coherent.tick ht, hpolls.trans h.polls,
      tick_nmiPending hlow h.nmiPending ht⟩, not_between_of_inside hphase hstep⟩)
  | ends _ htakes hor =>
    have hnever : ¬d.Takes .irq := by
      intro hd
      exact Bool.noConfusion (h.polls.symm.trans (htakes.1 hd).1)
    exact Or.inr (Or.inr (hor.resolve_left hnever))

theorem Retires.sequence (h : Retires patience host c s k run) (hlow : host.NmiLow)
    (hc : InSequence c) : (run k).1.atBoundary = true := by
  have hbefore : ∀ j, j < k → (run j).1.phase = .jammed ∨ InSequence (run j).1 := by
    intro j hj
    induction j with
    | zero =>
      rw [h.start]
      exact Or.inr hc
    | succ j ih =>
      have ht := h.tick (Nat.lt_of_succ_lt hj)
      rcases ih (Nat.lt_of_succ_lt hj) with hjam | hseq
      · exact Or.inl (tick_jammed hjam ht)
      · rcases hseq.step hlow.logged ht with hjam | ⟨hgo, -⟩ | hb
        · exact Or.inl hjam
        · exact Or.inr hgo
        · exact absurd (Or.inl hb) (h.inside (j + 1) (Nat.succ_pos j) hj)
  obtain ⟨j, rfl⟩ : ∃ j, k = j + 1 := ⟨k - 1, (Nat.sub_add_cancel h.pos).symm⟩
  have ht := h.tick (Nat.lt_succ_self j)
  rcases hbefore j (Nat.lt_succ_self j) with hjam | hseq
  · exact absurd h.ends (not_between_of_jammed (tick_jammed hjam ht))
  · rcases hseq.step hlow.logged ht with hjam | ⟨-, hinside⟩ | hb
    · exact absurd h.ends (not_between_of_jammed hjam)
    · exact absurd h.ends hinside
    · exact hb

/-- When an IRQ is taken. On a host that keeps NMI low, and wherever ticks have led from a boundary
without a pending NMI: an instruction is followed by the IRQ sequence exactly if it is not BRK, the
answer to its last cycle has IRQ high, and the mask is clear, which is the mask before the
instruction or, for RTI, the one it pulled; otherwise, and after an interrupt sequence, an opcode is
fetched. -/
theorem irq_taken_iff (hlow : host.NmiLow) {n : Nat} {first : Cpu} {s₀ : σ}
    (hb : first.atBoundary = true) (hn : first.nmiPending = false)
    (hrun : first.ticking patience host n s₀ = .ok (c, s)) (h : Retires patience host c s k run) :
    (c.atBoundary = true →
      ((run k).1.Takes .irq ↔ Instruction.ofOpcode (run 1).answer.data ≠ .brk ∧
        (run k).answer.irq = true ∧
          maskOf (Instruction.ofOpcode (run 1).answer.data) c.regs.p.irqDisable run = false) ∧
        ((run k).1.Takes .irq ∨ (run k).1.atBoundary = true)) ∧
    ∀ handler, c.Takes handler → (run k).1.atBoundary = true := by
  have hfirst : first.Coherent := coherent_of_idle (by simp [of_decide_eq_true hb])
  obtain ⟨hcoherent, hpending⟩ : c.Coherent ∧ c.nmiPending = false :=
    ticking_keeps (P := fun c => c.Coherent ∧ c.nmiPending = false)
      (fun c s d t hc ht => ⟨hc.1.tick ht, tick_nmiPending hlow hc.2 ht⟩) ⟨hfirst, hn⟩ hrun
  exact ⟨fun hc => h.instruction hlow hc hpending,
    fun handler hc => h.sequence hlow (inSequence_of_takes hcoherent hpending hc)⟩

end

/-- NOP with IRQ high and a clear mask. -/
theorem irq_taken_nop :
    let sch : Schedule := { irq := fun _ => true }
    let c := (Cpu.powerOn .plain).setP 0
    let run := c.moment 0 sch.host (.ofMemory fun _ => 0xEA)
    sch.host.NmiLow ∧ c.atBoundary = true ∧ c.nmiPending = false ∧
      Retires 0 sch.host c (.ofMemory fun _ => 0xEA) 2 run ∧ (run 2).1.Takes .irq := by
  intro sch c run
  have hlow : sch.host.NmiLow := by
    intro p ram
    cases hread : p.read <;> simp [sch, Schedule.host, hread]
  have hretires : Retires 0 sch.host c (.ofMemory fun _ => 0xEA) 2 run := by
    refine ⟨by decide, ?_, Or.inr ⟨.irq, by decide +kernel⟩, ?_⟩
    · intro j hj
      have hok : ∀ j < 3,
          (c.ticking 0 sch.host.logged j ([], .ofMemory fun _ => 0xEA)).isOk = true := by
        decide +kernel
      obtain ⟨m, hm⟩ := ok_of_isOk (hok j (by omega))
      rw [hm, show run j = m from moment_of_ticking hm]
    · intro j hpos hj
      obtain rfl : j = 1 := by omega
      rintro (hb | ⟨handler, htakes⟩)
      · exact absurd hb (by decide +kernel)
      · exact absurd htakes.2.1 (by decide +kernel)
  obtain ⟨hlaw, -⟩ := irq_taken_iff hlow (n := 0) rfl rfl rfl hretires
  exact ⟨hlow, rfl, rfl, hretires, (hlaw rfl).1.2 (by decide +kernel)⟩

end Cpu

end Nmos6502
