import Nmos6502.Proofs.InterruptMask
import Nmos6502.Proofs.Latches
import Nmos6502.Proofs.Progress
import Nmos6502.Proofs.Ram
import Nmos6502.Proofs.Reachable
import Nmos6502.Proofs.Turns

/-! # Boundaries keep coming

On a host that never holds a read the machine is back at an instruction boundary, or locked up,
within fifteen ticks, whatever the interrupt lines do. On any host an interrupt or BRK sequence that
has fetched its vector is followed by the instruction that the vector points at, and only the end of
that instruction can start another sequence. -/

namespace Nmos6502

namespace Cpu

variable {σ : Type} {patience : Nat} {host : Host σ} {c d : Cpu} {s t : σ}

/-! ### The next boundary -/

/-- No instruction and no interrupt sequence is in progress. -/
def AtRest (c : Cpu) : Prop := c.atBoundary = true ∨ c.isJammed = true

theorem atRest_iff (c : Cpu) : c.AtRest ↔ c.phase ≠ .execute := by
  simp only [AtRest, atBoundary, isJammed]
  cases c.phase <;> simp

/-- `k` ticks lead to where the machine is at rest, and fewer do not. -/
structure ComesToRest (patience : Nat) (host : Host σ) (c : Cpu) (s : σ) (k : Nat) : Prop where
  pos : 0 < k
  ends : ∃ d t, c.ticking patience host k s = .ok (d, t) ∧ d.AtRest
  inside (j : Nat) (d : Cpu) (t : σ) : 0 < j → j < k → c.ticking patience host j s = .ok (d, t) →
    ¬d.AtRest

theorem ComesToRest.now (ht : c.tick patience host s = .ok (d, t)) (hd : d.AtRest) :
    ComesToRest patience host c s 1 where
  pos := Nat.one_pos
  ends := ⟨d, t, by simp only [ticking, ht], hd⟩
  inside := by
    intro j e u h0 h1
    omega

theorem ComesToRest.later {k : Nat} (ht : c.tick patience host s = .ok (d, t)) (hd : ¬d.AtRest)
    (h : ComesToRest patience host d t k) : ComesToRest patience host c s (k + 1) where
  pos := Nat.succ_pos k
  ends := by
    simp only [ticking, ht]
    exact h.ends
  inside := by
    intro j e u h0 hj he
    obtain ⟨i, rfl⟩ : ∃ i, j = i + 1 := ⟨j - 1, by omega⟩
    simp only [ticking, ht] at he
    cases i with
    | zero =>
      cases he
      exact hd
    | succ i => exact h.inside (i + 1) e u (Nat.succ_pos i) (by omega) he

theorem Coherent.cyclesLeft_le (hc : c.Coherent) : c.cyclesLeft ≤ 15 := by
  cases hp : c.phase with
  | fetch => simp only [cyclesLeft, hp, Nat.le_refl]
  | jammed => simp only [cyclesLeft, hp, Nat.zero_le]
  | execute =>
    have hahead : c.ahead.length ≤ c.program.length := (List.drop_suffix _ _).length_le
    rw [cyclesLeft_of_execute hp]
    rcases (hc hp).2 with ⟨hprogram, -⟩ | ⟨hprogram, hpolls⟩
    · have hlen := c.instruction.length_program
      rw [← hprogram] at hlen
      have hseven : interruptProgram.length = 7 := rfl
      split <;> omega
    · have hseven : c.program.length = 7 := by rw [hprogram]; rfl
      rw [hpolls, if_neg Bool.false_ne_true]
      omega

theorem Coherent.cyclesLeft_pos (hc : c.Coherent) (hjam : c.phase ≠ .jammed) :
    0 < c.cyclesLeft := by
  cases hp : c.phase with
  | fetch => simp only [cyclesLeft, hp, Nat.zero_lt_succ]
  | jammed => exact absurd hp hjam
  | execute =>
    have hne := List.length_pos_iff.2 (hc hp).1
    rw [cyclesLeft_of_execute hp]
    omega

/-- Every tick brings the next boundary nearer, and there are at most fifteen to come. -/
theorem Coherent.comesToRest (hprompt : host.Prompt) (patience : Nat) {n : Nat} (hc : c.Coherent)
    (hjam : c.phase ≠ .jammed) (hn : c.cyclesLeft ≤ n) (s : σ) :
    ∃ k ≤ n, ComesToRest patience host c s k := by
  induction n generalizing c s with
  | zero =>
    have hpos := hc.cyclesLeft_pos hjam
    omega
  | succ n ih =>
    obtain ⟨d, t, ht, -⟩ := tick_prompt hprompt hc patience s
    by_cases hd : d.phase = .execute
    · have hless := cyclesLeft_tick hc ht hd
      obtain ⟨k, hk, hrest⟩ := ih (hc.tick ht) (by simp [hd]) (by omega) t
      exact ⟨k + 1, Nat.succ_le_succ hk, hrest.later ht fun h => (atRest_iff d).1 h hd⟩
    · exact ⟨1, by omega, .now ht ((atRest_iff d).2 hd)⟩

/-! ### Ticks from a boundary and inside a program -/

/-- The instruction has just been fetched or runs on. -/
structure Runs (i : Instruction) (c : Cpu) : Prop where
  phase : c.phase = .execute
  instruction : c.instruction = i
  program : c.program = i.program

theorem Runs.not_takes {i : Instruction} (h : Runs i c) (handler : Handler) : ¬c.Takes handler :=
  fun htakes => i.program_ne_interruptProgram (h.program.symm.trans htakes.2.1)

theorem runs_of_fetch (hp : c.phase = .fetch) (ht : c.tick patience host s = .ok (d, t)) :
    Runs (Instruction.ofOpcode d.pins.data) d := by
  obtain ⟨x, u, -, rfl, -⟩ := tick_ok_of_next (next_fetch hp) ht
  exact ⟨rfl, rfl, rfl⟩

theorem Runs.tick {i : Instruction} (h : Runs i c) (hc : c.Coherent)
    (ht : c.tick patience host s = .ok (d, t)) :
    d.phase = .jammed ∨ Runs i d ∨ d.Between := by
  obtain ⟨op, ops, x, u, -, hop, -, rfl, -⟩ := hc.tick_inside h.phase ht
  have hplace := samePlace_access op x (c.moveTo ops)
  have hp := hplace.phase.trans h.phase
  rcases complete_cases hop hp with ⟨-, hjam⟩ | ⟨-, hsame, hphase, -⟩ | ⟨b, rfl, -, -, hend⟩
  · exact Or.inl hjam
  · refine Or.inr (Or.inl ⟨hphase, ?_, ?_⟩)
    · rw [hsame, apply_frame hop, hplace.instruction]
      exact h.instruction
    · rw [hsame, apply_frame hop, hplace.program]
      exact h.program
  · rw [hend]
    refine Or.inr (Or.inr ?_)
    split
    · exact between_poll _
    · exact Or.inl rfl

/-! ### The vector and the instruction it points at -/

/-- The next tick reads the low byte of the vector. -/
def FetchesVector (c : Cpu) : Prop := ∃ d, c.next = .ok (.vectorLow, d)

theorem vectorHigh_of_suffix {i : Instruction} {ops : List MicroOp}
    (h : MicroOp.vectorLow :: ops <:+ i.program) : i = .brk ∧ ops = [.vectorHigh] := by
  have hmem : MicroOp.vectorLow ∈ i.program := h.subset List.mem_cons_self
  cases i with
  | read op mode => cases mode <;> simp [Instruction.program, Mode.program] at hmem
  | store op mode => cases mode <;> simp [Instruction.program, Mode.program] at hmem
  | modify op mode => cases mode <;> simp [Instruction.program, Mode.program] at hmem
  | brk => simpa [Instruction.program, List.suffix_cons_iff] using h
  | _ => simp [Instruction.program] at hmem

theorem Coherent.vector (hc : c.Coherent) (h : c.FetchesVector) :
    c.phase = .execute ∧ c.ahead = [.vectorLow, .vectorHigh] ∧ c.polls = false := by
  obtain ⟨d, hn⟩ := h
  cases hp : c.phase with
  | fetch => cases hn.symm.trans (next_fetch hp)
  | jammed => cases hn.symm.trans (next_stuck hp)
  | execute =>
    have hu := upcoming_of_next hp hn
    have hsuffix : MicroOp.vectorLow :: d.ahead <:+ c.program := hu ▸ c.upcoming_suffix
    -- Neither program has a page correction that could be left out.
    have hrest : d.ahead = [.vectorHigh] ∧ MicroOp.fixPageIfCrossed ∉ c.program ∧
        c.polls = false := by
      rcases (hc hp).2 with ⟨hprogram, hpolls⟩ | ⟨hprogram, hpolls⟩
      · rw [hprogram] at hsuffix
        obtain ⟨hbrk, hrest⟩ := vectorHigh_of_suffix hsuffix
        refine ⟨hrest, ?_, ?_⟩
        · rw [hprogram, hbrk]
          decide
        · rw [hpolls, hbrk]
          rfl
      · rw [hprogram] at hsuffix
        refine ⟨by simpa [interruptProgram, List.suffix_cons_iff] using hsuffix, ?_, hpolls⟩
        rw [hprogram]
        decide
    obtain ⟨hahead, hfix, hpolls⟩ := hrest
    have hstays : c.upcoming = c.ahead := by
      rw [Cpu.upcoming, if_neg]
      rintro ⟨hhead, -⟩
      exact hfix ((List.drop_suffix _ _).subset (List.mem_of_mem_head? hhead))
    exact ⟨rfl, by rw [← hstays, hu, hahead], hpolls⟩

theorem next_of_ahead (hp : c.phase = .execute) {op : MicroOp} {ops : List MicroOp}
    (hop : op ≠ .fixPageIfCrossed) (hahead : c.ahead = op :: ops) :
    c.next = .ok (op, c.moveTo ops) ∧ (c.moveTo ops).ahead = ops := by
  have hu : c.upcoming = op :: ops := by
    rw [Cpu.upcoming, hahead, if_neg (by simp [hop])]
  exact ⟨next_of_execute hp hu,
    ahead_moveTo ((List.suffix_cons op ops).trans (hu ▸ c.upcoming_suffix))⟩

theorem tick_vectorLow (hp : c.phase = .execute) (hahead : c.ahead = [.vectorLow, .vectorHigh])
    (ht : c.tick patience host s = .ok (d, t)) :
    d.phase = .execute ∧ d.ahead = [.vectorHigh] ∧ d.polls = c.polls ∧ d.step ≠ 0 ∧
      d.operand = d.pins.data := by
  obtain ⟨hnext, hrest⟩ := next_of_ahead hp (by simp) hahead
  obtain ⟨x, u, -, rfl, -⟩ := tick_ok_of_next hnext ht
  have hplace := samePlace_access .vectorLow x (c.moveTo [.vectorHigh])
  have hstep := step_next hnext hp
  generalize ((c.moveTo [.vectorHigh]).prepare .vectorLow).1.receive x = r at hplace
  have hleft : (r.apply .vectorLow r.pins.data).ahead = [.vectorHigh] := hplace.ahead.trans hrest
  rw [complete_eq (by simp), settle_of_ahead (by simp [hleft])]
  exact ⟨hplace.phase.trans hp, hleft, hplace.polls, hplace.step ▸ hstep, rfl⟩

theorem tick_vectorHigh (hp : c.phase = .execute) (hahead : c.ahead = [.vectorHigh])
    (hpolls : c.polls = false) (ht : c.tick patience host s = .ok (d, t)) :
    d.phase = .fetch ∧ d.regs.pc = addressOf c.operand d.pins.data := by
  obtain ⟨hnext, hrest⟩ := next_of_ahead hp (by simp) hahead
  obtain ⟨x, u, -, rfl, -⟩ := tick_ok_of_next hnext ht
  have hplace := samePlace_access .vectorHigh x (c.moveTo [])
  have hoperand : (((c.moveTo []).prepare .vectorHigh).1.receive x).operand = c.operand := rfl
  generalize ((c.moveTo []).prepare .vectorHigh).1.receive x = r at hplace hoperand
  have hphase : (r.apply .vectorHigh r.pins.data).phase = .execute := hplace.phase.trans hp
  have hleft : (r.apply .vectorHigh r.pins.data).ahead = [] := hplace.ahead.trans hrest
  have hend : (r.apply .vectorHigh r.pins.data).polls = false := hplace.polls.trans hpolls
  rw [complete_eq (by simp), settle_of_end hphase hleft, hend, ← hoperand]
  exact ⟨rfl, rfl⟩

theorem not_takes_of_fetch (hp : c.phase = .fetch) (handler : Handler) : ¬c.Takes handler :=
  fun htakes => Phase.noConfusion (hp.symm.trans htakes.1)

/-- The first word of a tick from a boundary asks for the opcode at PC. -/
theorem turns_fetch (hp : c.phase = .fetch) (patience : Nat) (host : Host σ) (s : σ) :
    ∃ word, (c.turns patience host s).head?.map (fun turn => turn.1.pins) = some word ∧
      word.sync = true ∧ word.read = true ∧ word.addr = c.regs.pc := by
  simp only [turns, next_fetch hp, performTurns, prepare]
  cases patience <;> exact ⟨_, rfl, rfl, rfl, rfl⟩

/-! ### Runs -/

/-- The machine and the host after each of the first `n` ticks. -/
structure Visits (patience : Nat) (host : Host σ) (n : Nat) (c : Cpu) (s : σ)
    (run : Nat → Cpu × σ) : Prop where
  ticking (j : Nat) : j ≤ n → c.ticking patience host j s = .ok (run j)

section

variable {n : Nat} {run : Nat → Cpu × σ}

theorem Visits.tick (h : Visits patience host n c s run) {j : Nat} (hj : j < n) :
    (run j).1.tick patience host (run j).2 = .ok (run (j + 1)) := by
  have hnext := h.ticking (j + 1) hj
  rw [ticking_succ, h.ticking j (Nat.le_of_lt hj)] at hnext
  exact hnext

theorem Visits.coherent (h : Visits patience host n c s run) (hc : c.Coherent) {j : Nat}
    (hj : j ≤ n) : (run j).1.Coherent :=
  ticking_keeps (fun _ _ _ _ hc ht => hc.tick ht) hc (h.ticking j hj)

/-- The instruction that runs after the tick `first` is complete after the tick `last`. -/
structure Finishes (i : Instruction) (run : Nat → Cpu × σ) (first last : Nat) : Prop where
  lt : first < last
  runs (l : Nat) : first ≤ l → l < last → Runs i (run l).1
  ends : (run last).1.Between

/-- An instruction that runs is still running, has locked the machine up or is complete. -/
theorem Visits.finishes (h : Visits patience host n c s run) (hc : c.Coherent) {i : Instruction}
    {first : Nat} (hi : Runs i (run first).1) (k : Nat) (hk : first + k ≤ n) :
    (∀ l, first ≤ l → l ≤ first + k → Runs i (run l).1) ∨ (run (first + k)).1.phase = .jammed ∨
      ∃ last ≤ first + k, Finishes i run first last := by
  induction k with
  | zero =>
    refine Or.inl fun l hl hl' => ?_
    obtain rfl : l = first := by omega
    exact hi
  | succ k ih =>
    have ht := h.tick (j := first + k) (by omega)
    rcases ih (by omega) with hruns | hjam | ⟨last, hlast, hdone⟩
    · rcases (hruns _ (by omega) (Nat.le_refl _)).tick (h.coherent hc (by omega)) ht with
        hjam | hgo | hend
      · exact Or.inr (Or.inl hjam)
      · refine Or.inl fun l hl hl' => ?_
        by_cases heq : l = first + k + 1
        · rw [heq]
          exact hgo
        · exact hruns l hl (by omega)
      · exact Or.inr (Or.inr ⟨first + k + 1, by omega, by omega,
          fun l hl hl' => hruns l hl (by omega), hend⟩)
    · exact Or.inr (Or.inl (tick_jammed hjam ht))
    · exact Or.inr (Or.inr ⟨last, by omega, hdone⟩)

/-- What comes between a vector fetch and the next interrupt sequence: a boundary at the address
that the vector holds, the fetch of an opcode there, and the whole of the instruction. -/
structure RunsHandler (patience : Nat) (host : Host σ) (run : Nat → Cpu × σ) (i m : Nat) :
    Prop where
  boundary : (run (i + 2)).1.atBoundary = true
  fetch : ∃ word, ((run (i + 2)).1.turns patience host (run (i + 2)).2).head?.map
      (fun turn => turn.1.pins) = some word ∧ word.sync = true ∧ word.read = true ∧
    word.addr = addressOf (run (i + 1)).1.pins.data (run (i + 2)).1.pins.data
  completion : ∃ last ≤ m,
    Finishes (Instruction.ofOpcode (run (i + 3)).1.pins.data) run (i + 3) last

theorem Visits.runsHandler (h : Visits patience host n c s run) (hc : c.Coherent) {i m : Nat}
    (him : i < m) (hmn : m ≤ n) (hvector : (run i).1.FetchesVector) {handler : Handler}
    (htakes : (run m).1.Takes handler) : RunsHandler patience host run i m := by
  obtain ⟨hphase, hahead, hpolls⟩ := (h.coherent hc (by omega)).vector hvector
  obtain ⟨hphase₁, hahead₁, hpolls₁, hstep₁, hlow⟩ :=
    tick_vectorLow hphase hahead (h.tick (by omega))
  -- Neither vector read nor the opcode fetch begins a sequence, so `m` lies beyond them.
  have h₁ : i + 1 < m := by
    refine Nat.lt_of_le_of_ne him ?_
    rintro rfl
    exact hstep₁ htakes.2.2.1
  obtain ⟨hphase₂, hpc⟩ := tick_vectorHigh hphase₁ hahead₁ (hpolls₁.trans hpolls)
    (h.tick (j := i + 1) (by omega))
  have h₂ : i + 2 < m := by
    refine Nat.lt_of_le_of_ne h₁ ?_
    rintro rfl
    exact not_takes_of_fetch hphase₂ handler htakes
  have hruns := runs_of_fetch hphase₂ (h.tick (j := i + 2) (by omega))
  obtain ⟨k, rfl⟩ : ∃ k, m = i + 3 + k := ⟨m - (i + 3), by omega⟩
  refine ⟨?_, ?_, ?_⟩
  · simp [atBoundary, hphase₂]
  · rw [← hlow, ← hpc]
    exact turns_fetch hphase₂ patience host _
  · rcases h.finishes hc hruns k hmn with hall | hjam | hdone
    · exact absurd htakes ((hall _ (Nat.le_add_right _ _) (Nat.le_refl _)).not_takes handler)
    · exact absurd (Or.inr ⟨handler, htakes⟩) (not_between_of_jammed hjam)
    · exact hdone

end

/-- Boundaries keep coming and interrupts do not chain. From every reachable machine that has not
locked up, a host that never holds a read is within fifteen ticks of the next instruction boundary
or lock-up, whatever it does with the data and the interrupt lines; from a boundary it takes at
least two. On any host, between the vector fetch of an interrupt or BRK sequence and the first cycle
of the next interrupt sequence, an opcode is fetched from where the vector points and its
instruction is completed. -/
theorem boundaries_keep_coming {variant : Variant} {c : Cpu} (h : c.Reachable variant) {σ : Type}
    (host : Host σ) (patience : Nat) (s : σ) :
    (c.phase ≠ .jammed → host.Prompt → ∃ k ≤ 15, ComesToRest patience host c s k ∧
      (c.atBoundary = true → 2 ≤ k)) ∧
    ∀ (n : Nat) (run : Nat → Cpu × σ), Visits patience host n c s run → ∀ i m, i < m → m ≤ n →
      (run i).1.FetchesVector → (∃ handler, (run m).1.Takes handler) →
        RunsHandler patience host run i m := by
  refine ⟨fun hjam hprompt => ?_, ?_⟩
  · obtain ⟨k, hk, hrest⟩ := h.coherent.comesToRest hprompt patience hjam h.coherent.cyclesLeft_le s
    refine ⟨k, hk, hrest, fun hb => ?_⟩
    have hp : c.phase = .fetch := of_decide_eq_true hb
    refine Nat.lt_of_le_of_ne hrest.pos ?_
    rintro rfl
    obtain ⟨d, t, hticks, hd⟩ := hrest.ends
    rw [ticking_succ] at hticks
    exact (atRest_iff d).1 hd (runs_of_fetch hp hticks).phase
  · rintro n run hvisits i m him hmn hvector ⟨handler, htakes⟩
    exact hvisits.runsHandler h.coherent him hmn hvector htakes

/-- Memory full of CLI with IRQ high: every sequence is followed by two instructions. -/
theorem boundaries_keep_coming_cli :
    let host := Schedule.host { irq := fun _ => true }
    let start : Cpu × Ram := (.powerOn .plain, .ofMemory fun _ => 0x58)
    ∃ k ≤ 15, ComesToRest 0 host start.1 start.2 k ∧ ∃ run i m,
      Visits 0 host 15 start.1 start.2 run ∧ (run i).1.FetchesVector ∧ (run m).1.Takes .irq ∧
        RunsHandler 0 host run i m := by
  intro host start
  have hprompt : host.Prompt := by
    intro p ram
    cases hread : p.read <;> simp [host, Schedule.host, hread]
  let run : Nat → Cpu × Ram := fun j => (start.1.ticking 0 host j start.2).toOption.getD start
  have hvisits : Visits 0 host 15 start.1 start.2 run := by
    refine ⟨fun j hj => ?_⟩
    have hok : ∀ j < 16, (start.1.ticking 0 host j start.2).isOk = true := by decide +kernel
    obtain ⟨r, hr⟩ := ok_of_isOk (hok j (by omega))
    simp only [run, hr]
    rfl
  have hnew : (powerOn .plain).Reachable .plain := .powerOn
  obtain ⟨hrest, hhandler⟩ := boundaries_keep_coming hnew host 0 start.2
  obtain ⟨k, hk, hcomes, -⟩ := hrest (by decide) hprompt
  have hvector : (run 9).1.FetchesVector := by
    have hnext : (run 9).1.next.toOption.any (fun r => r.1 = .vectorLow) = true := by decide +kernel
    cases hn : (run 9).1.next with
    | error cause => simp [hn, Except.toOption] at hnext
    | ok r =>
      obtain ⟨op, d⟩ := r
      obtain rfl : op = .vectorLow := by simpa [hn, Except.toOption] using hnext
      exact ⟨d, hn⟩
  have htakes : (run 15).1.Takes .irq := by decide +kernel
  exact ⟨k, hk, hcomes, run, 9, 15, hvisits, hvector, htakes,
    hhandler 15 run hvisits 9 15 (by omega) (by omega) hvector ⟨.irq, htakes⟩⟩

end Cpu

end Nmos6502
