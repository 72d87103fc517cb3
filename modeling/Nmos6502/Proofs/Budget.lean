import Nmos6502.Cpu.Run
import Nmos6502.Proofs.Progress
import Nmos6502.Proofs.Ram

/-! # Budgets

A run compares its cycles with the budget at instruction boundaries only, and counts them in
thirty-two bits. Where the count cannot wrap round between the last boundary below the budget and
the next one, a run on a host without wait states returns, with the budget met and at most fifteen
cycles more. Above that there are budgets that a run never meets. -/

namespace Nmos6502

variable {σ : Type}

/-- The most cycles of a run: the last boundary is one cycle below the budget, and then come an
instruction of eight cycles and an interrupt sequence. -/
def longestRun (budget : UInt32) : Nat := budget.toNat - 1 + 15

theorem Schedule.quiet_prompt : Schedule.quiet.host.Prompt := by
  intro p ram
  cases hread : p.read <;> simp [host, hread, quiet]

namespace Cpu

/-! ### Every round of the loop -/

theorem verdict_never (budget : UInt32) (d : Cpu) :
    d.verdict .never budget () =
      (if d.phase ≠ .execute ∧ budget ≤ d.ticks then .enough else .goOn, ()) := by
  cases hd : d.phase <;> simp [verdict, hd, Trap.never, budgetVerdict]

/-- A run that goes on is on its way to a boundary that comes soon enough. -/
structure OnBudget (budget : UInt32) (c : Cpu) : Prop where
  coherent : c.Coherent
  bound : c.ticks.toNat + c.cyclesLeft ≤ longestRun budget
  jammed : c.phase = .jammed → c.ticks < budget

theorem onBudget_beginRun {c : Cpu} (h : c.atBoundary = true) (budget : UInt32) :
    OnBudget budget c.beginRun := by
  have hp : c.beginRun.phase = .fetch := of_decide_eq_true h
  have hleft : c.beginRun.cyclesLeft = 15 := by simp only [cyclesLeft, hp]
  refine ⟨coherent_of_idle (by simp [hp]), ?_, by simp [hp]⟩
  rw [hleft]
  exact Nat.le_add_left 15 (budget.toNat - 1)

theorem OnBudget.ticks_lt {budget : UInt32} {c : Cpu} (h : OnBudget budget c) :
    c.ticks.toNat < longestRun budget := by
  have hbound := h.bound
  cases hp : c.phase with
  | fetch =>
    simp only [cyclesLeft, hp] at hbound
    omega
  | execute =>
    have hlen := List.length_pos_iff.2 (h.coherent hp).1
    rw [cyclesLeft_of_execute hp] at hbound
    omega
  | jammed =>
    have hlt := UInt32.lt_iff_toNat_lt.1 (h.jammed hp)
    unfold longestRun
    omega

theorem OnBudget.ticks_tick {budget : UInt32} {c d : Cpu} (h : OnBudget budget c)
    (hfits : longestRun budget < UInt32.size) (hd : d.ticks = c.ticks + 1) :
    d.ticks.toNat = c.ticks.toNat + 1 := by
  have hlt := h.ticks_lt
  rw [UInt32.size] at hfits
  rw [hd, UInt32.toNat_add]
  exact Nat.mod_eq_of_lt (by simp only [UInt32.toNat_one]; omega)

theorem onBudget_of_below {budget : UInt32} {d : Cpu} (hc : d.Coherent)
    (hp : d.phase ≠ .execute) (hlt : d.ticks < budget) : OnBudget budget d := by
  refine ⟨hc, ?_, fun _ => hlt⟩
  have hnat := UInt32.lt_iff_toNat_lt.1 hlt
  unfold longestRun
  cases hd : d.phase with
  | execute => exact absurd hd hp
  | fetch =>
    simp only [cyclesLeft, hd]
    omega
  | jammed =>
    simp only [cyclesLeft, hd]
    omega

/-- One round: the run is over, with its budget met, or goes on. -/
theorem OnBudget.round {budget : UInt32} {c : Cpu} (h : OnBudget budget c)
    (hfits : longestRun budget < UInt32.size) {host : Host σ} (hprompt : host.Prompt)
    (patience : Nat) (s : σ) :
    ∃ d t, c.tick patience host s = .ok (d, t) ∧ d.ticks.toNat = c.ticks.toNat + 1 ∧
      (d.verdict .never budget () = (.enough, ()) ∧ budget ≤ d.ticks ∨
        d.verdict .never budget () = (.goOn, ()) ∧ OnBudget budget d) := by
  obtain ⟨d, t, ht, hticks⟩ := tick_prompt hprompt h.coherent patience s
  have hnext := h.ticks_tick hfits hticks
  have hcoherent := h.coherent.tick ht
  refine ⟨d, t, ht, hnext, ?_⟩
  rw [verdict_never]
  by_cases hend : d.phase ≠ .execute ∧ budget ≤ d.ticks
  · left
    rw [if_pos hend]
    exact ⟨rfl, hend.2⟩
  · right
    rw [if_neg hend]
    refine ⟨rfl, ?_⟩
    by_cases hp : d.phase = .execute
    · have hleft := cyclesLeft_tick h.coherent ht hp
      have hbound := h.bound
      exact ⟨hcoherent, by omega, by simp [hp]⟩
    · exact onBudget_of_below hcoherent hp (UInt32.not_le.1 fun hbudget => hend ⟨hp, hbudget⟩)

/-! ### Whole runs -/

theorem OnBudget.runLoop {budget : UInt32} {host : Host σ} (hprompt : host.Prompt)
    (hfits : longestRun budget < UInt32.size) (patience n : Nat) {c : Cpu} (h : OnBudget budget c)
    (s : σ) (hn : longestRun budget ≤ c.ticks.toNat + n) :
    ∃ r t, c.runLoop patience host .never budget n s () = .ok (r, t, ()) ∧ budget ≤ r.ticks ∧
      r.ticks.toNat ≤ longestRun budget := by
  induction n generalizing c s with
  | zero =>
    have hlt := h.ticks_lt
    omega
  | succ n ih =>
    obtain ⟨d, t, ht, hnext, hend⟩ := h.round hfits hprompt patience s
    have hlt := h.ticks_lt
    simp only [Cpu.runLoop, ht]
    rcases hend with ⟨hv, hbudget⟩ | ⟨hv, hgo⟩
    · simp only [hv]
      exact ⟨d, t, rfl, hbudget, by omega⟩
    · simp only [hv]
      exact ih hgo t (by omega)

theorem budget_le_of_runLoop {budget : UInt32} {host : Host σ} {patience n : Nat} {c r : Cpu}
    {s t : σ} (h : c.runLoop patience host .never budget n s () = .ok (r, t, ())) :
    budget ≤ r.ticks := by
  induction n generalizing c s with
  | zero => cases h
  | succ n ih =>
    simp only [runLoop] at h
    cases ht : c.tick patience host s with
    | error stop =>
      rw [ht] at h
      cases h
    | ok next =>
      simp only [ht, verdict_never] at h
      by_cases hend : next.1.phase ≠ .execute ∧ budget ≤ next.1.ticks
      · rw [if_pos hend] at h
        cases h
        exact hend.2
      · rw [if_neg hend] at h
        exact ih h

/-- A run without a trap on a host without wait states returns unless its cycles may wrap round, and
a run that returns has met its budget with fifteen cycles over at most. -/
theorem execute_meets_budget {host : Host σ} (hprompt : host.Prompt) {c : Cpu}
    (hb : c.atBoundary = true) (budget : UInt32) (s : σ) :
    (longestRun budget < UInt32.size →
      ∃ r t, c.execute (budget.toNat + 15) host .never budget s () = .ok (r, t, ())) ∧
    ∀ fuel r t, c.execute fuel host .never budget s () = .ok (r, t, ()) →
      budget ≤ r.ticks ∧ r.ticks.toNat ≤ budget.toNat + 15 := by
  have hlongest : longestRun budget ≤ budget.toNat + 15 := by
    unfold longestRun
    omega
  have hzero : c.beginRun.ticks.toNat = 0 := rfl
  have hrun : longestRun budget < UInt32.size → ∀ patience, ∃ r t,
      c.beginRun.runLoop patience host .never budget (budget.toNat + 15) s () = .ok (r, t, ()) ∧
        budget ≤ r.ticks ∧ r.ticks.toNat ≤ longestRun budget :=
    fun hfits patience =>
      (onBudget_beginRun hb budget).runLoop hprompt hfits patience _ s (by omega)
  refine ⟨?_, ?_⟩
  · intro hfits
    obtain ⟨r, t, hr, -⟩ := hrun hfits (budget.toNat + 15)
    exact ⟨r, t, hr⟩
  · intro fuel r t h
    refine ⟨budget_le_of_runLoop h, ?_⟩
    by_cases hfits : longestRun budget < UInt32.size
    · obtain ⟨r', t', hr', -, hle⟩ := hrun hfits fuel
      -- More rounds than either run needs: they end alike.
      have hmore := runLoop_mono (Nat.le_refl fuel) (Nat.le_max_left fuel (budget.toNat + 15)) h
      have hmore' := runLoop_mono (Nat.le_refl fuel) (Nat.le_max_right fuel (budget.toNat + 15)) hr'
      rw [hmore] at hmore'
      cases hmore'
      omega
    · have hlt := r.ticks.toNat_lt
      rw [UInt32.size] at hfits
      omega

theorem execute_meets_budget_nops :
    Schedule.quiet.host.Prompt ∧ (Cpu.powerOn .plain).atBoundary = true ∧
      longestRun 3 < UInt32.size ∧
    (∃ r t,
      (Cpu.powerOn .plain).execute 18 Schedule.quiet.host .never 3 (.ofMemory fun _ => 0xEA) () =
      .ok (r, t, ()) ∧ 3 ≤ r.ticks ∧ r.ticks.toNat ≤ 18) := by
  obtain ⟨hreturns, hmeets⟩ := execute_meets_budget Schedule.quiet_prompt
    (show (Cpu.powerOn .plain).atBoundary = true from rfl) 3 (.ofMemory fun _ => 0xEA)
  obtain ⟨r, t, hr⟩ := hreturns (by decide)
  exact ⟨Schedule.quiet_prompt, rfl, by decide, r, t, hr, hmeets 18 r t hr⟩

/-! ### A budget that is never met -/

theorem tick_quiet {c e : Cpu} {op : MicroOp} (hn : c.next = .ok (op, e)) (patience : Nat)
    (ram : Ram) :
    c.tick patience Schedule.quiet.host ram =
      .ok (((e.prepare op).1.receive (Schedule.quiet.host.answer ((e.prepare op).1.pins.drive
        (e.prepare op).2) (e.prepare op).1.nmiPending ram).1).complete op,
        (Schedule.quiet.host.answer ((e.prepare op).1.pins.drive (e.prepare op).2)
          (e.prepare op).1.nmiPending ram).2) := by
  rw [tick_of_prompt Schedule.quiet_prompt hn, finishTick]
  cases Cpu.notice? op _ <;> rfl

/-- BPL to itself across the end of a page. -/
def branchLoop : Memory := fun addr =>
  if addr = 0x00FE then 0x10 else if addr = 0x00FF then 0xFE else 0

/-- The machine is in the loop, so many cycles after an opcode fetch. -/
inductive InLoop (c : Cpu) : Nat → Prop
  | fetch : c.phase = .fetch ∧ c.regs.pc = 0x00FE → InLoop c 0
  | offset : c.phase = .execute ∧ c.program = (Instruction.branch .pl).program ∧ c.polls = true ∧
      c.step = 0 ∧ c.regs.pc = 0x00FF → InLoop c 1
  | taken : c.phase = .execute ∧ c.program = (Instruction.branch .pl).program ∧ c.polls = true ∧
      c.step = 1 ∧ c.regs.pc = 0x0100 ∧ c.operand = 0xFE → InLoop c 2
  | fixPage : c.phase = .execute ∧ c.program = (Instruction.branch .pl).program ∧ c.polls = true ∧
      c.step = 2 ∧ c.address = 0x00FE → InLoop c 3

theorem InLoop.tick {c : Cpu} {k : Nat} (h : InLoop c k) (hpending : c.nmiPending = false)
    (hpositive : c.regs.p.negative = false) (patience accesses held : Nat) :
    ∃ d accesses' held', c.tick patience Schedule.quiet.host ⟨branchLoop, accesses, held⟩ =
        .ok (d, ⟨branchLoop, accesses', held'⟩) ∧
      d.ticks = c.ticks + 1 ∧ d.nmiPending = false ∧ d.regs.p.negative = false ∧
      InLoop d ((k + 1) % 4) := by
  have htick := fun op e hn => @tick_quiet c e op hn patience ⟨branchLoop, accesses, held⟩
  obtain ⟨⟨a, x, y, s, pc, ⟨n, v, u, b, dec, i, z, carry⟩⟩, pins, adder, phase, i, program, step,
    address, operand, crossed, handler, polls, pending, masked, ticks, total, trapId⟩ := c
  obtain rfl : pending = false := hpending
  obtain rfl : n = false := hpositive
  cases h with
  | fetch h =>
    obtain ⟨rfl, rfl⟩ := h
    exact ⟨_, _, _, htick .fetchOpcode _ rfl, rfl, rfl, rfl, .offset ⟨rfl, rfl, rfl, rfl, rfl⟩⟩
  | offset h =>
    obtain ⟨rfl, rfl, rfl, rfl, rfl⟩ := h
    exact ⟨_, _, _, htick (.branchOffset .pl) _ rfl, rfl, rfl, rfl,
      .taken ⟨rfl, rfl, rfl, rfl, rfl, rfl⟩⟩
  | taken h =>
    obtain ⟨rfl, rfl, rfl, rfl, rfl, rfl⟩ := h
    have hcross : samePage ((0x0100 : UInt16) + signExtend 0xFE) 0x0100 = false := by decide
    refine ⟨_, _, _, htick .branchTaken _ rfl, ?_⟩
    simp only [complete, apply, receive, prepare, hcross]
    exact ⟨rfl, rfl, rfl, .fixPage ⟨rfl, rfl, rfl, rfl, rfl⟩⟩
  | fixPage h =>
    obtain ⟨rfl, rfl, rfl, rfl, rfl⟩ := h
    exact ⟨_, _, _, htick .branchFixPage _ rfl, rfl, rfl, rfl, .fetch ⟨rfl, rfl⟩⟩

/-- The count of cycles is a multiple of four at every boundary of the loop, and the budget is not
one. -/
theorem InLoop.runLoop (patience n : Nat) {c : Cpu} {k : Nat} (h : InLoop c k)
    (hticks : c.ticks.toNat % 4 = k) (hpending : c.nmiPending = false)
    (hpositive : c.regs.p.negative = false) (accesses held : Nat) :
    c.runLoop patience Schedule.quiet.host .never 0xFFFFFFFF n ⟨branchLoop, accesses, held⟩ () =
      .error .unfinished := by
  induction n generalizing c k accesses held with
  | zero => rfl
  | succ n ih =>
    obtain ⟨d, accesses', held', ht, hcount, hpending', hpositive', hd⟩ :=
      h.tick hpending hpositive patience accesses held
    have hplace : d.ticks.toNat % 4 = (k + 1) % 4 := by
      rw [hcount, UInt32.toNat_add, UInt32.toNat_one]
      omega
    have hgo : ¬(d.phase ≠ .execute ∧ (0xFFFFFFFF : UInt32) ≤ d.ticks) := by
      rintro ⟨hidle, hbudget⟩
      have hmax : 0xFFFFFFFF ≤ d.ticks.toNat := UInt32.le_iff_toNat_le.1 hbudget
      have hlt := d.ticks.toNat_lt
      generalize (k + 1) % 4 = j at hd hplace
      cases hd with
      | fetch _ => omega
      | offset h | taken h | fixPage h => exact hidle h.1
    simp only [Cpu.runLoop, ht, verdict_never, if_neg hgo]
    exact ih hd hplace hpending' hpositive' accesses' held'

/-- The largest budget is never met by a branch to itself that takes four cycles. -/
theorem execute_branchLoop :
    Schedule.quiet.host.Prompt ∧ ((Cpu.powerOn .plain).setPc 0x00FE).atBoundary = true ∧
    ∀ fuel, ((Cpu.powerOn .plain).setPc 0x00FE).execute fuel Schedule.quiet.host .never 0xFFFFFFFF
      (.ofMemory branchLoop) () = .error .unfinished :=
  ⟨Schedule.quiet_prompt, rfl, fun fuel =>
    InLoop.runLoop fuel fuel (.fetch ⟨rfl, rfl⟩) rfl rfl rfl 0 0⟩

end Cpu

end Nmos6502
