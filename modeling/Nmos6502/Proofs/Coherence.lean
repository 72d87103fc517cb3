import Nmos6502.Proofs.Conversation

/-! # Machines that run an instruction

Between its opcode fetch and the next one the machine runs the program of the fetched instruction or
the interrupt sequence. Which of them it is decides whether interrupts are polled at the end. Every
tick keeps it so, and at an instruction boundary there is nothing to keep. -/

namespace Nmos6502

variable {σ : Type}

theorem Instruction.fetchOpcode_not_mem (i : Instruction) : MicroOp.fetchOpcode ∉ i.program := by
  cases i with
  | read op mode => cases mode <;> simp [program, Mode.program]
  | store op mode => cases mode <;> simp [program, Mode.program]
  | modify op mode => cases mode <;> simp [program, Mode.program]
  | _ => simp [program]

theorem fetchOpcode_not_mem_interruptProgram : MicroOp.fetchOpcode ∉ interruptProgram := by decide

theorem Instruction.program_ne_interruptProgram (i : Instruction) :
    i.program ≠ interruptProgram := by
  cases i with
  | read op mode => cases mode <;> simp [program, Mode.program, interruptProgram]
  | store op mode => cases mode <;> simp [program, Mode.program, interruptProgram]
  | modify op mode => cases mode <;> simp [program, Mode.program, interruptProgram]
  | _ => simp [program, interruptProgram]

namespace Cpu

def RunsInstruction (c : Cpu) : Prop :=
  c.program = c.instruction.program ∧ c.polls = c.instruction.polls

def RunsInterrupt (c : Cpu) : Prop := c.program = interruptProgram ∧ c.polls = false

def Coherent (c : Cpu) : Prop :=
  c.phase = .execute → c.ahead ≠ [] ∧ (c.RunsInstruction ∨ c.RunsInterrupt)

theorem coherent_of_idle {c : Cpu} (h : c.phase ≠ .execute) : c.Coherent :=
  fun he => absurd he h

theorem coherent_decode (opcode : UInt8) (c : Cpu) : (c.decode opcode).Coherent :=
  fun _ => ⟨Instruction.program_ne_nil _, Or.inl ⟨rfl, rfl⟩⟩

theorem coherent_interrupt (handler : Handler) (c : Cpu) : (c.interrupt handler).Coherent :=
  fun _ => ⟨List.cons_ne_nil _ _, Or.inr ⟨rfl, rfl⟩⟩

theorem Coherent.program {c : Cpu} (h : c.Coherent) (hp : c.phase = .execute) :
    runnable c.program = true ∧ MicroOp.fetchOpcode ∉ c.program := by
  rcases (h hp).2 with ⟨hprogram, -⟩ | ⟨hprogram, -⟩
  · rw [hprogram]
    exact ⟨c.instruction.runnable_program, c.instruction.fetchOpcode_not_mem⟩
  · rw [hprogram]
    exact ⟨by decide, fetchOpcode_not_mem_interruptProgram⟩

theorem Coherent.wellFormed {c : Cpu} (h : c.Coherent) : c.WellFormed :=
  fun hp => ⟨(h hp).1, runnable_drop (h.program hp).1 c.step⟩

theorem Coherent.upcoming {c : Cpu} (h : c.Coherent) (hp : c.phase = .execute) :
    ∃ op ops, c.upcoming = op :: ops ∧ op ≠ .fetchOpcode := by
  obtain ⟨op, ops, hu, -⟩ := upcoming_of_wellFormed h.wellFormed hp
  refine ⟨op, ops, hu, ?_⟩
  rintro rfl
  exact (h.program hp).2 (c.upcoming_suffix.subset (hu ▸ List.mem_cons_self))

theorem coherent_poll (c : Cpu) : c.poll.Coherent := by
  rcases poll_cases c with h | h | h
  · rw [h]
    exact coherent_of_idle (by simp)
  · rw [h]
    exact coherent_interrupt .nmi _
  · rw [h]
    exact coherent_interrupt .irq _

theorem coherent_complete {op : MicroOp} (hop : op ≠ .fetchOpcode) {c : Cpu}
    (hp : c.phase = .execute) (h : c.RunsInstruction ∨ c.RunsInterrupt) :
    (c.complete op).Coherent := by
  rcases complete_cases hop hp with ⟨-, hjam⟩ | ⟨hne, hsame, -, hahead⟩ |
    ⟨b, -, -, -, hend⟩
  · exact coherent_of_idle (by simp [hjam])
  · intro _
    refine ⟨hahead ▸ hne, ?_⟩
    rw [hsame, apply_frame hop]
    exact h
  · rw [hend]
    split
    · exact coherent_poll _
    · exact coherent_of_idle (by simp)

theorem Coherent.tick_inside {c d : Cpu} (h : c.Coherent) (hp : c.phase = .execute)
    {patience : Nat} {host : Host σ} {s t : σ} (ht : c.tick patience host s = .ok (d, t)) :
    ∃ op ops x u, c.upcoming = op :: ops ∧ op ≠ .fetchOpcode ∧
      host.exchange patience ((c.moveTo ops).prepare op).2 ((c.moveTo ops).prepare op).1.pins
        ((c.moveTo ops).prepare op).1.nmiPending s = .ok (x, u) ∧
      d = (((c.moveTo ops).prepare op).1.receive x).complete op ∧
      t = host.noteAny (d.notice? op) u := by
  obtain ⟨op, ops, hu, hop⟩ := h.upcoming hp
  obtain ⟨x, u, htick⟩ := tick_ok_of_next (next_of_execute hp hu) ht
  exact ⟨op, ops, x, u, hu, hop, htick⟩

theorem tick_jammed {c d : Cpu} (hp : c.phase = .jammed) {patience : Nat} {host : Host σ} {s t : σ}
    (ht : c.tick patience host s = .ok (d, t)) : d.phase = .jammed := by
  obtain ⟨x, u, -, rfl, -⟩ := tick_ok_of_next (next_stuck hp) ht
  rw [complete_eq (by simp), settle_of_idle (by simp [apply, receive, prepare, hp])]
  exact hp

theorem Coherent.tick {c d : Cpu} (h : c.Coherent) {patience : Nat} {host : Host σ} {s t : σ}
    (ht : c.tick patience host s = .ok (d, t)) : d.Coherent := by
  cases hp : c.phase with
  | execute =>
    obtain ⟨op, ops, x, u, -, hop, -, rfl, -⟩ := h.tick_inside hp ht
    have hplace := samePlace_access op x (c.moveTo ops)
    refine coherent_complete hop (hplace.phase.trans hp) ?_
    rw [RunsInstruction, RunsInterrupt, hplace.program, hplace.instruction, hplace.polls]
    exact (h hp).2
  | fetch =>
    obtain ⟨x, u, -, rfl, -⟩ := tick_ok_of_next (next_fetch hp) ht
    exact coherent_decode _ _
  | jammed => exact coherent_of_idle (by simp [tick_jammed hp ht])

/-! ### Between instructions -/

/-- The interrupt sequence of the handler begins with the next cycle. -/
def Takes (handler : Handler) (c : Cpu) : Prop :=
  c.phase = .execute ∧ c.program = interruptProgram ∧ c.step = 0 ∧ c.handler = handler

instance (handler : Handler) (c : Cpu) : Decidable (c.Takes handler) :=
  inferInstanceAs (Decidable (_ ∧ _ ∧ _ ∧ _))

theorem ahead_of_takes {c : Cpu} {handler : Handler} (h : c.Takes handler) :
    c.ahead = interruptProgram := by
  obtain ⟨-, hprogram, hstep, -⟩ := h
  rw [ahead, hprogram, hstep, List.drop_zero]

theorem Coherent.runsInterrupt {c : Cpu} (hc : c.Coherent) {handler : Handler}
    (h : c.Takes handler) : c.RunsInterrupt := by
  refine (hc h.1).2.resolve_left fun hinstruction => ?_
  exact Instruction.program_ne_interruptProgram _ (hinstruction.1.symm.trans h.2.1)

/-- The next cycle fetches an opcode or begins an interrupt sequence. -/
def Between (c : Cpu) : Prop := c.atBoundary = true ∨ ∃ handler, c.Takes handler

instance (c : Cpu) : Decidable c.Between :=
  decidable_of_iff (c.atBoundary = true ∨
      (c.phase = .execute ∧ c.program = interruptProgram ∧ c.step = 0)) <|
    or_congr_right ⟨fun ⟨hp, hprogram, hs⟩ => ⟨c.handler, hp, hprogram, hs, rfl⟩,
      fun ⟨_, hp, hprogram, hs, _⟩ => ⟨hp, hprogram, hs⟩⟩

theorem not_between_of_inside {c : Cpu} (hp : c.phase = .execute) (hs : c.step ≠ 0) :
    ¬c.Between := by
  rintro (hb | ⟨handler, -, -, hstep, -⟩)
  · simp [atBoundary, hp] at hb
  · exact hs hstep

theorem between_poll (c : Cpu) : c.poll.Between := by
  rcases poll_cases c with h | h | h
  · rw [h]
    exact Or.inl rfl
  · rw [h]
    exact Or.inr ⟨.nmi, rfl, rfl, rfl, rfl⟩
  · rw [h]
    exact Or.inr ⟨.irq, rfl, rfl, rfl, rfl⟩

theorem step_of_ahead {c : Cpu} {op : MicroOp} {ops : List MicroOp}
    (hsuffix : op :: ops <:+ c.program) (h : c.ahead = ops) : c.step ≠ 0 := by
  intro hs
  have hlen := hsuffix.length_le
  rw [← h, ahead, hs, List.drop_zero, List.length_cons] at hlen
  omega

theorem not_between_of_jammed {c : Cpu} (h : c.phase = .jammed) : ¬c.Between := by
  rintro (hb | ⟨handler, hphase, -⟩)
  · simp [atBoundary, h] at hb
  · rw [h] at hphase
    cases hphase

end Cpu

end Nmos6502
