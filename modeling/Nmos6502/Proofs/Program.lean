import Nmos6502.Proofs.Ticking

/-! # The place in the program

While a program runs the machine takes its next micro-operation from the part of the program that
lies ahead. Every program ends in a micro-operation that cannot be left out, so the machine never
looks for one past the end. -/

namespace Nmos6502

/-- A page correction that may be left out is followed by a micro-operation that may not. -/
def runnable : List MicroOp → Bool
  | [] => true
  | [.fixPageIfCrossed] => false
  | .fixPageIfCrossed :: op :: ops => op != .fixPageIfCrossed && runnable (op :: ops)
  | _ :: ops => runnable ops

theorem runnable_tail {op : MicroOp} {ops : List MicroOp} (h : runnable (op :: ops) = true) :
    runnable ops = true := by
  cases op <;> cases ops <;> simp_all [runnable]

theorem runnable_drop {ops : List MicroOp} (h : runnable ops = true) (n : Nat) :
    runnable (ops.drop n) = true := by
  induction n generalizing ops with
  | zero => exact h
  | succ n ih =>
    cases ops with
    | nil => rfl
    | cons op ops => exact ih (runnable_tail h)

theorem runnable_of_suffix {xs ops : List MicroOp} (h : xs <:+ ops) (hr : runnable ops = true) :
    runnable xs = true := by
  obtain ⟨front, rfl⟩ := h
  have hdrop := runnable_drop hr front.length
  rwa [List.drop_left] at hdrop

theorem all_of_suffix {p : MicroOp → Bool} {xs ops : List MicroOp} (h : xs <:+ ops)
    (hall : ops.all p = true) : xs.all p = true :=
  List.all_eq_true.2 fun op hop => List.all_eq_true.1 hall op (h.subset hop)

theorem Instruction.runnable_program (i : Instruction) : runnable i.program = true := by
  cases i with
  | read op mode => cases mode <;> rfl
  | store op mode => cases mode <;> rfl
  | modify op mode => cases mode <;> rfl
  | _ => rfl

theorem Instruction.program_ne_nil (i : Instruction) : i.program ≠ [] := by
  cases i <;> simp [Instruction.program]

namespace Cpu

variable {σ : Type}

/-! ### The next micro-operation -/

/-- What is left of the program. -/
def ahead (c : Cpu) : List MicroOp := c.program.drop c.step

/-- What is left of the program without a page correction that is not needed. -/
def upcoming (c : Cpu) : List MicroOp :=
  if c.ahead.head? = some .fixPageIfCrossed ∧ c.crossed = false then c.ahead.tail else c.ahead

def moveTo (ops : List MicroOp) (c : Cpu) : Cpu :=
  { c with step := c.program.length - ops.length }

theorem upcoming_suffix (c : Cpu) : c.upcoming <:+ c.program := by
  unfold upcoming
  split
  · exact (List.tail_suffix _).trans (List.drop_suffix _ _)
  · exact List.drop_suffix _ _

theorem ahead_moveTo {ops : List MicroOp} {c : Cpu} (h : ops <:+ c.program) :
    (c.moveTo ops).ahead = ops := by
  obtain ⟨front, hp⟩ := h
  simp [ahead, moveTo, ← hp]

theorem microOpAt_eq (n : Nat) (c : Cpu) :
    c.microOpAt n =
      match (c.program.drop n).head? with
      | some op => .ok op
      | none => .error (.pastProgramEnd c.program.length n) := by
  cases hop : c.program[n]? with
  | some op => simp only [microOpAt, List.head?_drop, hop]
  | none => simp only [microOpAt, List.head?_drop, hop]

theorem next_of_execute {c : Cpu} (h : c.phase = .execute) {op : MicroOp} {ops : List MicroOp}
    (hu : c.upcoming = op :: ops) : c.next = .ok (op, c.moveTo ops) := by
  have hlen : ∀ k (x : MicroOp) (xs : List MicroOp), c.program.drop k = x :: xs →
      k + 1 = c.program.length - xs.length := by
    intro k x xs hk
    have := congrArg List.length hk
    simp only [List.length_drop, List.length_cons] at this
    omega
  unfold upcoming ahead at hu
  simp only [next, h, microOpAt_eq]
  cases ha : c.program.drop c.step with
  | nil => simp [ha] at hu
  | cons x xs =>
    simp only [ha, List.head?_cons, Option.some.injEq, List.tail_cons] at hu
    have hx : c.program.drop (c.step + 1) = xs := by
      rw [← List.drop_drop, ha, List.drop_one, List.tail_cons]
    simp only [List.head?_cons]
    by_cases hs : x = .fixPageIfCrossed ∧ c.crossed = false
    · rw [if_pos hs] at hu
      subst hu
      simp only [bind, Except.bind, pure, Except.pure, if_pos hs, hx, List.head?_cons,
        Except.ok.injEq, Prod.mk.injEq, true_and, moveTo, h]
      rw [← hlen (c.step + 1) op ops hx]
    · rw [if_neg hs] at hu
      obtain ⟨rfl, rfl⟩ : x = op ∧ xs = ops := by simpa using hu
      simp only [bind, Except.bind, pure, Except.pure, if_neg hs, Except.ok.injEq, Prod.mk.injEq,
        true_and, moveTo, h]
      rw [← hlen c.step x xs ha]

theorem next_of_end {c : Cpu} (h : c.phase = .execute) (hu : c.upcoming = []) :
    ∃ n, c.next = .error (.pastProgramEnd c.program.length n) := by
  unfold upcoming ahead at hu
  simp only [next, h, microOpAt_eq]
  cases ha : c.program.drop c.step with
  | nil => exact ⟨c.step, rfl⟩
  | cons x xs =>
    simp only [ha, List.head?_cons, Option.some.injEq, List.tail_cons] at hu
    by_cases hs : x = .fixPageIfCrossed ∧ c.crossed = false
    · rw [if_pos hs] at hu
      have hx : c.program.drop (c.step + 1) = [] := by
        rw [← List.drop_drop, ha, List.drop_one, List.tail_cons, hu]
      refine ⟨c.step + 1, ?_⟩
      simp [bind, Except.bind, if_pos hs, hx]
    · simp [if_neg hs] at hu

/-- Finding the next micro-operation moves the place in the program and nothing else. -/
theorem next_frame {c d : Cpu} {op : MicroOp} (h : c.next = .ok (op, d)) :
    d = { c with step := d.step } := by
  unfold next at h
  cases hp : c.phase with
  | fetch =>
    rw [hp] at h
    cases h
    rw [← hp]
  | jammed =>
    rw [hp] at h
    cases h
    rw [← hp]
  | execute =>
    simp only [hp, bind, Except.bind, pure, Except.pure] at h
    split at h
    · cases h
    · split at h
      · split at h
        · cases h
        · cases h
          rfl
      · cases h
        rfl

theorem step_next {c e : Cpu} {op : MicroOp} (h : c.next = .ok (op, e)) (hp : c.phase = .execute) :
    e.step ≠ 0 := by
  unfold next at h
  simp only [hp, bind, Except.bind, pure, Except.pure] at h
  split at h
  · cases h
  · split at h
    · split at h
      · cases h
      · cases h
        exact Nat.succ_ne_zero _
    · cases h
      exact Nat.succ_ne_zero _

/-- Machines at the same place of the same program take the same micro-operation next. -/
theorem next_alike {c d : Cpu} (hphase : c.phase = d.phase)
    (h : c.phase = .execute → c.program = d.program ∧ c.step = d.step ∧ c.crossed = d.crossed) :
    (∃ cause, c.next = .error cause ∧ d.next = .error cause) ∨
      ∃ op c' d', c.next = .ok (op, c') ∧ d.next = .ok (op, d') ∧
        (c.step = d.step → c'.step = d'.step) := by
  cases hp : c.phase with
  | fetch =>
    rw [hp] at hphase
    exact Or.inr ⟨.fetchOpcode, c, d, next_fetch hp, next_fetch hphase.symm, id⟩
  | jammed =>
    rw [hp] at hphase
    exact Or.inr ⟨.stuck, c, d, next_stuck hp, next_stuck hphase.symm, id⟩
  | execute =>
    obtain ⟨hprogram, hstep, hcrossed⟩ := h hp
    rw [hp] at hphase
    have hat : ∀ n, d.microOpAt n = c.microOpAt n := by
      intro n
      simp only [microOpAt, hprogram]
    simp only [next, hp, ← hphase, hat, ← hstep, ← hcrossed, bind, Except.bind, pure, Except.pure]
    cases c.microOpAt c.step with
    | error cause => exact Or.inl ⟨cause, rfl, rfl⟩
    | ok op =>
      by_cases hs : op = .fixPageIfCrossed ∧ c.crossed = false
      · simp only [if_pos hs]
        cases c.microOpAt (c.step + 1) with
        | error cause => exact Or.inl ⟨cause, rfl, rfl⟩
        | ok op => exact Or.inr ⟨op, _, _, rfl, rfl, fun _ => rfl⟩
      · simp only [if_neg hs]
        exact Or.inr ⟨op, _, _, rfl, rfl, fun _ => rfl⟩

/-! ### What a micro-operation leaves alone -/

theorem prepare_frame (op : MicroOp) (c : Cpu) :
    (c.prepare op).1 =
      { c with
        regs := (c.prepare op).1.regs, pins := (c.prepare op).1.pins
        address := (c.prepare op).1.address, handler := (c.prepare op).1.handler
        nmiPending := (c.prepare op).1.nmiPending } := by
  cases op with
  | write op =>
    simp only [prepare, prepareStore]
    split <;> rfl
  | vectorLow =>
    simp only [prepare, stealVector]
    split <;> rfl
  | _ => rfl

theorem phase_prepare (op : MicroOp) (c : Cpu) : (c.prepare op).1.phase = c.phase := by
  rw [prepare_frame]

theorem ahead_prepare (op : MicroOp) (c : Cpu) : (c.prepare op).1.ahead = c.ahead := by
  rw [prepare_frame]
  rfl

/-- The machines are at the same place of the same program. -/
structure SamePlace (c d : Cpu) : Prop where
  phase : d.phase = c.phase
  instruction : d.instruction = c.instruction
  program : d.program = c.program
  step : d.step = c.step
  polls : d.polls = c.polls

theorem SamePlace.ahead {c d : Cpu} (h : SamePlace c d) : d.ahead = c.ahead := by
  rw [Cpu.ahead, h.program, h.step]
  rfl

/-- An access leaves the place alone. -/
theorem samePlace_access (op : MicroOp) (x : Exchange) (c : Cpu) :
    SamePlace c ((c.prepare op).1.receive x) := by
  rw [receive, prepare_frame]
  exact ⟨rfl, rfl, rfl, rfl, rfl⟩

theorem apply_frame {op : MicroOp} (hop : op ≠ .fetchOpcode) (byte : UInt8) (c : Cpu) :
    c.apply op byte =
      { c with
        regs := (c.apply op byte).regs, phase := (c.apply op byte).phase
        step := (c.apply op byte).step, address := (c.apply op byte).address
        operand := (c.apply op byte).operand, crossed := (c.apply op byte).crossed } := by
  cases op with
  | fetchOpcode => exact absurd rfl hop
  | branchOffset condition =>
    simp only [apply, finish]
    split <;> rfl
  | branchTaken =>
    simp only [apply, finish]
    split <;> rfl
  | _ => rfl

theorem program_apply {op : MicroOp} (hop : op ≠ .fetchOpcode) (byte : UInt8) (c : Cpu) :
    (c.apply op byte).program = c.program := by
  rw [apply_frame hop]

theorem handler_apply {op : MicroOp} (hop : op ≠ .fetchOpcode) (byte : UInt8) (c : Cpu) :
    (c.apply op byte).handler = c.handler := by
  rw [apply_frame hop]

theorem polls_apply {op : MicroOp} (hop : op ≠ .fetchOpcode) (byte : UInt8) (c : Cpu) :
    (c.apply op byte).polls = c.polls := by
  rw [apply_frame hop]

theorem instruction_apply {op : MicroOp} (hop : op ≠ .fetchOpcode) (byte : UInt8) (c : Cpu) :
    (c.apply op byte).instruction = c.instruction := by
  rw [apply_frame hop]

theorem irqMasked_apply {op : MicroOp} (hop : op ≠ .fetchOpcode) (byte : UInt8) (c : Cpu) :
    (c.apply op byte).irqMasked = c.irqMasked := by
  rw [apply_frame hop]

theorem phase_apply {op : MicroOp} (hop : op ≠ .fetchOpcode) (hjam : op ≠ .jam) (byte : UInt8)
    (c : Cpu) : (c.apply op byte).phase = c.phase := by
  cases op with
  | fetchOpcode => exact absurd rfl hop
  | jam => exact absurd rfl hjam
  | branchOffset condition =>
    simp only [apply, finish]
    split <;> rfl
  | branchTaken =>
    simp only [apply, finish]
    split <;> rfl
  | _ => rfl

theorem step_apply {op : MicroOp} (hop : op ≠ .fetchOpcode) (byte : UInt8) (c : Cpu) :
    (c.apply op byte).step = c.step ∨ (c.apply op byte).step = c.program.length := by
  cases op with
  | fetchOpcode => exact absurd rfl hop
  | branchOffset condition =>
    simp only [apply, finish]
    split
    · exact Or.inl rfl
    · exact Or.inr rfl
  | branchTaken =>
    simp only [apply, finish]
    split
    · exact Or.inr rfl
    · exact Or.inl rfl
  | _ => exact Or.inl rfl

theorem step_apply_ne_zero {op : MicroOp} (hop : op ≠ .fetchOpcode) {c : Cpu} (hs : c.step ≠ 0)
    (hp : c.program ≠ []) (byte : UInt8) : (c.apply op byte).step ≠ 0 := by
  rcases step_apply hop byte c with h | h
  · exact h ▸ hs
  · exact h ▸ fun h0 => hp (List.eq_nil_of_length_eq_zero h0)

theorem ahead_apply {op : MicroOp} (hop : op ≠ .fetchOpcode) (byte : UInt8) (c : Cpu) :
    (c.apply op byte).ahead = c.ahead ∨ (c.apply op byte).ahead = [] := by
  unfold ahead
  rw [program_apply hop]
  rcases step_apply hop byte c with hs | hs
  · exact Or.inl (by rw [hs])
  · exact Or.inr (by rw [hs, List.drop_length])

/-! ### The end of a program -/

theorem complete_eq {op : MicroOp} (hop : op ≠ .fetchOpcode) (c : Cpu) :
    c.complete op = (c.apply op c.pins.data).settle c.regs.p.irqDisable := by
  cases op <;> first | rfl | exact absurd rfl hop

theorem ahead_eq_nil_iff (c : Cpu) : c.ahead = [] ↔ c.program.length ≤ c.step :=
  List.drop_eq_nil_iff

theorem settle_of_idle {c : Cpu} (h : c.phase ≠ .execute) (masked : Bool) :
    c.settle masked = c := by
  simp [settle, h]

theorem settle_of_ahead {c : Cpu} (h : c.ahead ≠ []) (masked : Bool) : c.settle masked = c := by
  rw [Ne, ahead_eq_nil_iff] at h
  simp [settle, h]

theorem settle_of_end {c : Cpu} (hp : c.phase = .execute) (h : c.ahead = []) (masked : Bool) :
    c.settle masked =
      if c.polls then { c with irqMasked := masked }.poll
      else { c with irqMasked := masked, phase := .fetch } := by
  rw [ahead_eq_nil_iff] at h
  simp [settle, hp, h]

/-- What the end of a micro-operation inside a program can be. -/
theorem complete_cases {op : MicroOp} (hop : op ≠ .fetchOpcode) {c : Cpu}
    (hp : c.phase = .execute) :
    (op = .jam ∧ (c.complete op).phase = .jammed) ∨
      (c.ahead ≠ [] ∧ c.complete op = c.apply op c.pins.data ∧
        (c.complete op).phase = .execute ∧ (c.complete op).ahead = c.ahead) ∨
      ∃ b, b = { c.apply op c.pins.data with irqMasked := c.regs.p.irqDisable } ∧
        b.phase = .execute ∧ b.ahead = [] ∧
        c.complete op = if c.polls then b.poll else { b with phase := .fetch } := by
  rw [complete_eq hop]
  by_cases hjam : op = .jam
  · subst hjam
    left
    rw [settle_of_idle (by simp [apply])]
    exact ⟨rfl, rfl⟩
  · right
    have hphase := (phase_apply hop hjam c.pins.data c).trans hp
    by_cases ha : (c.apply op c.pins.data).ahead = []
    · right
      have hpolls := polls_apply hop c.pins.data c
      rw [settle_of_end hphase ha, ← hpolls]
      exact ⟨_, rfl, hphase, ha, rfl⟩
    · left
      have hsame := (ahead_apply hop c.pins.data c).resolve_right ha
      rw [settle_of_ahead ha, ← hsame]
      exact ⟨ha, rfl, hphase, rfl⟩

theorem poll_cases (c : Cpu) :
    c.poll = { c with phase := .fetch } ∨
      c.poll = { c with nmiPending := false }.interrupt .nmi ∨ c.poll = c.interrupt .irq := by
  unfold poll
  split
  · exact Or.inr (Or.inl rfl)
  · split
    · exact Or.inr (Or.inr rfl)
    · exact Or.inl rfl

theorem settle_cases (masked : Bool) (c : Cpu) :
    c.settle masked = c ∨ c.settle masked = { c with irqMasked := masked, phase := .fetch } ∨
      c.settle masked = { c with irqMasked := masked, nmiPending := false }.interrupt .nmi ∨
      c.settle masked = { c with irqMasked := masked }.interrupt .irq := by
  by_cases hp : c.phase = .execute
  · by_cases ha : c.ahead = []
    · rw [settle_of_end hp ha]
      split
      · exact Or.inr (poll_cases { c with irqMasked := masked })
      · exact Or.inr (Or.inl rfl)
    · exact Or.inl (settle_of_ahead ha masked)
  · exact Or.inl (settle_of_idle hp masked)

theorem settle_frame (masked : Bool) (c : Cpu) :
    c.settle masked =
      { c with
        phase := (c.settle masked).phase, program := (c.settle masked).program
        step := (c.settle masked).step, crossed := (c.settle masked).crossed
        handler := (c.settle masked).handler, polls := (c.settle masked).polls
        nmiPending := (c.settle masked).nmiPending
        irqMasked := (c.settle masked).irqMasked } := by
  rcases settle_cases masked c with hc | hc | hc | hc <;> rw [hc] <;> rfl

theorem pins_complete (op : MicroOp) (c : Cpu) :
    (c.complete op).pins = { c.pins with sync := (c.complete op).pins.sync } := by
  by_cases hop : op = .fetchOpcode
  · subst hop
    rfl
  · rw [complete_eq hop, settle_frame, apply_frame hop]

/-! ### Machines that stay inside their programs -/

/-- A running program has a micro-operation left that cannot be left out. -/
def WellFormed (c : Cpu) : Prop := c.phase = .execute → c.ahead ≠ [] ∧ runnable c.ahead = true

theorem wellFormed_of_idle {c : Cpu} (h : c.phase ≠ .execute) : c.WellFormed :=
  fun he => absurd he h

theorem wellFormed_of_start {c : Cpu} (program : List MicroOp) (hp : c.program = program)
    (hs : c.step = 0) (hne : program ≠ []) (hr : runnable program = true) : c.WellFormed := by
  intro _
  simp only [ahead, hp, hs, List.drop_zero]
  exact ⟨hne, hr⟩

theorem wellFormed_interrupt (handler : Handler) (c : Cpu) : (c.interrupt handler).WellFormed :=
  wellFormed_of_start interruptProgram rfl rfl (by decide) (by decide)

theorem wellFormed_settle {c : Cpu} (h : c.phase = .execute → runnable c.ahead = true)
    (masked : Bool) : (c.settle masked).WellFormed := by
  by_cases hp : c.phase = .execute
  · by_cases ha : c.ahead = []
    · rw [settle_of_end hp ha]
      split
      · rcases poll_cases { c with irqMasked := masked } with hc | hc | hc
        · rw [hc]
          exact wellFormed_of_idle (by simp)
        · rw [hc]
          exact wellFormed_interrupt _ _
        · rw [hc]
          exact wellFormed_interrupt _ _
      · exact wellFormed_of_idle (by simp)
    · rw [settle_of_ahead ha]
      exact fun _ => ⟨ha, h hp⟩
  · rw [settle_of_idle hp]
    exact wellFormed_of_idle hp

theorem wellFormed_complete {c : Cpu} (h : c.phase = .execute → runnable c.ahead = true)
    (op : MicroOp) : (c.complete op).WellFormed := by
  by_cases hop : op = .fetchOpcode
  · subst hop
    exact wellFormed_of_start _ rfl rfl (Instruction.program_ne_nil _)
      (Instruction.runnable_program _)
  · rw [complete_eq hop]
    apply wellFormed_settle
    intro hp
    by_cases hjam : op = .jam
    · subst hjam
      simp [apply] at hp
    · rw [phase_apply hop hjam] at hp
      rcases ahead_apply hop c.pins.data c with ha | ha
      · rw [ha]
        exact h hp
      · rw [ha]
        rfl

theorem upcoming_of_wellFormed {c : Cpu} (h : c.WellFormed) (hp : c.phase = .execute) :
    ∃ op ops, c.upcoming = op :: ops ∧ runnable ops = true := by
  obtain ⟨hne, hr⟩ := h hp
  obtain ⟨x, xs, hx⟩ := List.exists_cons_of_ne_nil hne
  rw [hx] at hr
  unfold upcoming
  rw [hx]
  split
  · rename_i hs
    obtain rfl : x = .fixPageIfCrossed := by simpa using hs.1
    cases xs with
    | nil => simp [runnable] at hr
    | cons y ys => exact ⟨y, ys, rfl, runnable_tail (runnable_tail hr)⟩
  · exact ⟨x, xs, rfl, runnable_tail hr⟩

theorem next_of_wellFormed {c : Cpu} (h : c.WellFormed) :
    ∃ op d, c.next = .ok (op, d) ∧ (d.phase = .execute → runnable d.ahead = true) := by
  cases hp : c.phase with
  | fetch => exact ⟨.fetchOpcode, c, next_fetch hp, by simp [hp]⟩
  | jammed => exact ⟨.stuck, c, next_stuck hp, by simp [hp]⟩
  | execute =>
    obtain ⟨op, ops, hu, hr⟩ := upcoming_of_wellFormed h hp
    have hs : ops <:+ c.program := (List.suffix_cons op ops).trans (hu ▸ c.upcoming_suffix)
    exact ⟨op, c.moveTo ops, next_of_execute hp hu, fun _ => (ahead_moveTo hs).symm ▸ hr⟩

/-- A tick keeps the machine inside its program, and does not fail but for a read that is held too
long. -/
theorem tick_wellFormed {c : Cpu} (h : c.WellFormed) (patience : Nat) (host : Host σ) (s : σ) :
    (∃ d t, c.tick patience host s = .ok (d, t) ∧ d.WellFormed) ∨
      c.tick patience host s = .error .unfinished := by
  obtain ⟨op, d, hn, hr⟩ := next_of_wellFormed h
  rw [tick_of_next hn]
  cases hx : host.exchange patience (d.prepare op).2 (d.prepare op).1.pins
      (d.prepare op).1.nmiPending s with
  | error stop =>
    rw [Host.exchange_error hx]
    exact Or.inr rfl
  | ok r =>
    refine Or.inl ⟨_, _, rfl, wellFormed_complete ?_ op⟩
    intro hp
    exact ahead_prepare op d ▸ hr ((phase_prepare op d).symm.trans hp)

theorem wellFormed_of_tick {host : Host σ} {c d : Cpu} {s t : σ} {patience : Nat}
    (h : c.WellFormed) (ht : c.tick patience host s = .ok (d, t)) : d.WellFormed := by
  rcases tick_wellFormed h patience host s with ⟨e, u, he, hw⟩ | he
  · rw [ht] at he
    cases he
    exact hw
  · rw [ht] at he
    cases he

end Cpu

end Nmos6502
