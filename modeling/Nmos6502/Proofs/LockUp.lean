import Nmos6502.Proofs.Boundaries
import Nmos6502.Proofs.BusTrace
import Nmos6502.Proofs.Calls
import Nmos6502.Proofs.HeldReads
import Nmos6502.Proofs.Reset

/-! # Lock-up

A machine that has fetched a JAM reads the same address for ever. No answer gets it out, no
interrupt is taken, no trap is asked and no register changes; only a reset helps. Nothing but a JAM
locks a machine up. -/

namespace Nmos6502

variable {σ τ : Type}

/-! ### Turns of calls -/

namespace Call

/-- The turns of a call that may use so much fuel, whether or not it returns. -/
def turns (fuel : Nat) (host : Host σ) (c : Cpu) (s : σ) : Call → List (Cpu × σ)
  | tick => c.turns fuel host s
  | execute trap t budget => c.executeTurns fuel host trap budget s t

def run (fuel : Nat) (host : Host σ) (c : Cpu) (s : σ) : Call → Except Stop (Cpu × σ)
  | tick => c.tick fuel host s
  | execute trap t budget =>
    (c.execute fuel host trap budget s t).map fun r => (r.1, r.2.1)

end Call

namespace Cpu

/-- The machine and the host after calls that all return. -/
def runCalls (fuel : Nat) (host : Host σ) : List Nmos6502.Call → Cpu → σ → Except Stop (Cpu × σ)
  | [], c, s => .ok (c, s)
  | call :: calls, c, s =>
    match call.run fuel host c s with
    | .error stop => .error stop
    | .ok (d, t) => runCalls fuel host calls d t

/-- The turns of calls, up to one that does not return. -/
def callsTurns (fuel : Nat) (host : Host σ) : List Nmos6502.Call → Cpu → σ → List (Cpu × σ)
  | [], _, _ => []
  | call :: calls, c, s =>
    call.turns fuel host c s ++
      match call.run fuel host c s with
      | .error _ => []
      | .ok (d, t) => callsTurns fuel host calls d t

end Cpu

/-! ### Hosts that hand back SYNC -/

namespace Host

def HandsBackSync (host : Host σ) : Prop := ∀ p s, (host.tick p s).1.sync = p.sync

variable {host : Host σ}

theorem HandsBackSync.hold (h : host.HandsBackSync) {patience : Nat} {p : Pins} {pending : Bool}
    {s u : σ} {x : Exchange} (hx : host.hold patience p pending s = .ok (x, u)) :
    x.pins.sync = p.sync := by
  induction patience generalizing p pending s x with
  | zero =>
    simp only [Host.hold] at hx
    split at hx
    · cases hx
    · cases hx
      exact h p s
  | succ n ih =>
    by_cases hrdy : (host.answer p pending s).1.pins.rdy = true
    · rw [hold_succ hrdy] at hx
      obtain ⟨y, hy, hyx⟩ := ok_of_map hx
      cases hyx
      exact (ih hy).trans (h p s)
    · simp only [Host.hold, hrdy, Bool.false_eq_true, if_false] at hx
      cases hx
      exact h p s

theorem HandsBackSync.exchange (h : host.HandsBackSync) {patience : Nat} {a : Access} {p : Pins}
    {pending : Bool} {s u : σ} {x : Exchange}
    (hx : host.exchange patience a p pending s = .ok (x, u)) : x.pins.sync = (p.drive a).sync := by
  cases a with
  | read addr => exact h.hold hx
  | write addr value =>
    cases hx
    exact h _ s

end Host

/-! ### JAM opcodes -/

namespace Instruction

theorem ofOpcode_eq_jam_iff {op : UInt8} : ofOpcode op = .jam ↔ op ∈ Isa.jams := by
  constructor
  · intro h
    by_contra hop
    exact Cpu.ofOpcode_ne_jam hop h
  · have hjams : ∀ op ∈ Isa.jams, ofOpcode op = .jam := by decide +kernel
    exact hjams op

theorem jam_mem_program {i : Instruction} (h : MicroOp.jam ∈ i.program) : i = .jam := by
  cases i with
  | read op mode => cases mode <;> simp [program, Mode.program] at h
  | store op mode => cases mode <;> simp [program, Mode.program] at h
  | modify op mode => cases mode <;> simp [program, Mode.program] at h
  | jam => rfl
  | _ => simp [program] at h

end Instruction

namespace Cpu

/-! ### Machines that lock up -/

/-- The machine has fetched a JAM, and its registers are these. -/
structure Locked (r : Registers) (c : Cpu) : Prop where
  regs : c.regs = r
  sync : c.pins.sync = false
  program : c.program = Instruction.jam.program
  coherent : c.Coherent
  place : c.phase = .jammed ∨ c.phase = .execute ∧ c.step = 0

/-- What the machine is like in a turn while it is locked up. -/
structure LockedTurn (r : Registers) (c : Cpu) : Prop where
  access : c.pins.access = .read 0xFFFF
  sync : c.pins.sync = false
  regs : c.regs = r
  program : c.program = Instruction.jam.program

section

variable {r : Registers} {c d : Cpu} {patience : Nat} {host : Host σ} {s t : σ}

theorem Locked.not_takes (h : Locked r c) (handler : Handler) : ¬c.Takes handler :=
  fun htakes => Instruction.jam.program_ne_interruptProgram (h.program.symm.trans htakes.2.1)

/-- The next micro-operation makes the same read whether the machine has just fetched the JAM or is
stuck in it, and leaves it stuck. -/
theorem Locked.next (h : Locked r c) :
    ∃ op e, c.next = .ok (op, e) ∧ e.prepare op = (e, .read 0xFFFF) ∧
      e = { c with step := e.step } ∧
      ∀ x, (e.receive x).complete op = { e.receive x with phase := .jammed } := by
  rcases h.place with hp | ⟨hp, hs⟩
  · refine ⟨.stuck, c, next_stuck hp, rfl, rfl, fun x => ?_⟩
    have hx : (c.receive x).phase = .jammed := hp
    rw [complete_eq (by simp), settle_of_idle (by simp [apply, hx]), ← hx]
    rfl
  · have hu : c.upcoming = [.jam] := by
      simp only [upcoming, ahead, h.program, hs]
      rfl
    exact ⟨.jam, c.moveTo [], next_of_execute hp hu, rfl, rfl,
      fun x => by rw [complete_eq (by simp), settle_of_idle (by simp [apply])]; rfl⟩

theorem Locked.tick (h : Locked r c) (hsync : host.HandsBackSync)
    (ht : c.tick patience host s = .ok (d, t)) : Locked r d ∧ d.phase = .jammed := by
  obtain ⟨op, e, hn, hprepare, he, hdone⟩ := h.next
  have hcoherent := h.coherent.tick ht
  obtain ⟨x, u, hx, rfl, -⟩ := tick_ok_of_next hn ht
  rw [hprepare] at hx hcoherent ⊢
  rw [hdone] at hcoherent ⊢
  refine ⟨⟨?_, ?_, ?_, hcoherent, Or.inl rfl⟩, rfl⟩
  · rw [← h.regs, he]
    rfl
  · have hlow : e.pins.sync = false := by
      rw [he]
      exact h.sync
    exact (hsync.exchange hx).trans ((Pins.sync_drive _ _).trans hlow)
  · rw [← h.program, he]
    rfl

theorem lockedTurn_holdTurns (hback : host.HandsBack) (hsync : host.HandsBackSync) (patience : Nat)
    (h : LockedTurn r c) (s : σ) : ∀ turn ∈ c.holdTurns host patience s, LockedTurn r turn.1 := by
  induction patience generalizing c s with
  | zero => exact List.forall_mem_singleton.2 h
  | succ n ih =>
    rw [holdTurns_succ]
    refine List.forall_mem_cons.2 ⟨h, ?_⟩
    split
    · refine ih (c := (c.cycle host s).1.reissued)
        ⟨?_, (hsync c.pins s).trans h.sync, h.regs, h.program⟩ _
      have hc := h.access
      obtain ⟨haddr, hread⟩ := hback c.pins s
      cases hr : c.pins.read with
      | true =>
        simp only [Pins.access, hr, if_true, Access.read.injEq] at hc
        simp only [reissued, cycle, latchPins, Pins.access, haddr, hread, hr, hc, if_true]
      | false => simp only [Pins.access, hr, Bool.false_eq_true, if_false, reduceCtorEq] at hc
    · exact List.forall_mem_nil _

theorem Locked.turns (h : Locked r c) (hback : host.HandsBack) (hsync : host.HandsBackSync)
    (patience : Nat) (s : σ) : ∀ turn ∈ c.turns patience host s, LockedTurn r turn.1 := by
  obtain ⟨op, e, hn, hprepare, he, -⟩ := h.next
  simp only [Cpu.turns, hn, hprepare]
  refine lockedTurn_holdTurns hback hsync patience ⟨rfl, ?_, ?_, ?_⟩ s
  · rw [he]
    exact h.sync
  · rw [he]
    exact h.regs
  · rw [he]
    exact h.program

/-! ### Runs of locked machines -/

/-- A locked machine has only its budget. -/
theorem verdict_jammed (hp : c.phase = .jammed) (trap : Trap τ) (budget : UInt32) (q : τ) :
    c.verdict trap budget q = (c.budgetVerdict budget, q) := by
  simp only [verdict, hp]

theorem Locked.runLoopTurns (h : Locked r c) (hback : host.HandsBack) (hsync : host.HandsBackSync)
    (trap : Trap τ) (budget : UInt32) (fuel : Nat) (s : σ) (q : τ) :
    ∀ turn ∈ c.runLoopTurns patience host trap budget fuel s q, LockedTurn r turn.1 := by
  induction fuel generalizing c s with
  | zero => exact List.forall_mem_nil _
  | succ n ih =>
    simp only [Cpu.runLoopTurns]
    refine List.forall_mem_append.2 ⟨h.turns hback hsync patience s, ?_⟩
    cases ht : c.tick patience host s with
    | error stop => exact List.forall_mem_nil _
    | ok d =>
      obtain ⟨hd, hp⟩ := h.tick hsync ht
      simp only [verdict_jammed hp, budgetVerdict]
      split
      · rename_i hv
        split at hv
        · cases hv
        · cases hv
          exact ih hd _
      · exact List.forall_mem_nil _
      · exact List.forall_mem_nil _

/-- A run of a locked machine goes as without its trap, and leaves the trap as it was. -/
theorem Locked.runLoop (h : Locked r c) (hsync : host.HandsBackSync) (trap : Trap τ)
    (budget : UInt32) (fuel : Nat) (s : σ) (q : τ) :
    c.runLoop patience host trap budget fuel s q =
      (c.runLoop patience host .never budget fuel s ()).map fun a => (a.1, a.2.1, q) := by
  induction fuel generalizing c s with
  | zero => rfl
  | succ n ih =>
    simp only [Cpu.runLoop]
    cases ht : c.tick patience host s with
    | error stop => rfl
    | ok d =>
      obtain ⟨hd, hp⟩ := h.tick hsync ht
      simp only [verdict_jammed hp, budgetVerdict]
      by_cases hbudget : budget ≤ d.1.ticks
      · simp only [if_pos hbudget]
        rfl
      · simp only [if_neg hbudget]
        exact ih hd _

theorem Locked.of_runLoop (h : Locked r c) (hsync : host.HandsBackSync) {trap : Trap τ}
    {budget : UInt32} {fuel : Nat} {q q' : τ}
    (hrun : c.runLoop patience host trap budget fuel s q = .ok (d, t, q')) :
    Locked r d ∧ d.phase = .jammed := by
  induction fuel generalizing c s q with
  | zero => cases hrun
  | succ n ih =>
    obtain ⟨e, u, v, ht, hround⟩ := of_runLoop_succ hrun
    obtain ⟨he, hp⟩ := h.tick hsync ht
    rw [verdict_jammed hp] at hround
    rcases hround with ⟨-, hrest⟩ | ⟨-, hend⟩ | ⟨id, hv, -⟩
    · exact ih he hrest
    · cases hend
      exact ⟨he, hp⟩
    · simp only [budgetVerdict, Prod.mk.injEq] at hv
      split at hv <;> cases hv.1

theorem Locked.beginRun (h : Locked r c) : Locked r c.beginRun :=
  ⟨h.regs, h.sync, h.program, h.coherent, h.place⟩

theorem Locked.tick_prompt (h : Locked r c) (hprompt : host.Prompt) (patience : Nat) (s : σ) :
    ∃ d t, c.tick patience host s = .ok (d, t) ∧ d.ticks = c.ticks + 1 :=
  Cpu.tick_prompt hprompt h.coherent patience s

/-- On a host that never holds a read the budget is spent to the cycle. -/
theorem Locked.runLoop_spends (h : Locked r c) (hsync : host.HandsBackSync) (hprompt : host.Prompt)
    (trap : Trap τ) (budget : UInt32) (fuel : Nat) (s : σ) (q : τ)
    (hticks : c.ticks.toNat < max budget.toNat 1)
    (hfuel : max budget.toNat 1 ≤ c.ticks.toNat + fuel) :
    ∃ d t, c.runLoop patience host trap budget fuel s q = .ok (d, t, q) ∧
      d.ticks.toNat = max budget.toNat 1 := by
  induction fuel generalizing c s with
  | zero => omega
  | succ n ih =>
    obtain ⟨d, t, ht, hd⟩ := h.tick_prompt hprompt patience s
    obtain ⟨hlocked, hp⟩ := h.tick hsync ht
    have hlt := budget.toNat_lt
    have hnext : d.ticks.toNat = c.ticks.toNat + 1 := by
      rw [hd, UInt32.toNat_add, UInt32.toNat_one, Nat.mod_eq_of_lt]
      omega
    simp only [Cpu.runLoop, ht, verdict_jammed hp, budgetVerdict]
    by_cases hbudget : budget ≤ d.ticks
    · rw [if_pos hbudget]
      have hle := UInt32.le_iff_toNat_le.1 hbudget
      exact ⟨d, t, rfl, by omega⟩
    · rw [if_neg hbudget]
      rw [UInt32.le_iff_toNat_le] at hbudget
      exact ih hlocked t (by omega) (by omega)

/-! ### Calls on locked machines -/

theorem Locked.call (h : Locked r c) (hsync : host.HandsBackSync) {fuel : Nat}
    {call : Nmos6502.Call} (hrun : call.run fuel host c s = .ok (d, t)) :
    Locked r d ∧ d.phase = .jammed := by
  cases call with
  | tick => exact h.tick hsync hrun
  | execute trap q budget =>
    obtain ⟨a, ha, hd⟩ := ok_of_map hrun
    cases hd
    exact h.beginRun.of_runLoop hsync ha

theorem Locked.runCalls (h : Locked r c) (hsync : host.HandsBackSync) {fuel : Nat}
    {calls : List Nmos6502.Call} (hrun : Cpu.runCalls fuel host calls c s = .ok (d, t)) :
    Locked r d ∧ (calls ≠ [] ∨ c.phase = .jammed → d.phase = .jammed) := by
  induction calls generalizing c s with
  | nil =>
    cases hrun
    exact ⟨h, fun hp => hp.resolve_left fun hne => hne rfl⟩
  | cons call calls ih =>
    simp only [Cpu.runCalls] at hrun
    cases hcall : call.run fuel host c s with
    | error stop => simp only [hcall, reduceCtorEq] at hrun
    | ok a =>
      obtain ⟨ha, hp⟩ := h.call hsync hcall
      rw [hcall] at hrun
      obtain ⟨hd, hjam⟩ := ih ha hrun
      exact ⟨hd, fun _ => hjam (Or.inr hp)⟩

theorem Locked.callsTurns (h : Locked r c) (hback : host.HandsBack) (hsync : host.HandsBackSync)
    (fuel : Nat) (calls : List Nmos6502.Call) (s : σ) :
    ∀ turn ∈ Cpu.callsTurns fuel host calls c s, LockedTurn r turn.1 := by
  induction calls generalizing c s with
  | nil => exact List.forall_mem_nil _
  | cons call calls ih =>
    refine List.forall_mem_append.2 ⟨?_, ?_⟩
    · cases call with
      | tick => exact h.turns hback hsync fuel s
      | execute trap q budget => exact h.beginRun.runLoopTurns hback hsync trap budget fuel s q
    · cases hcall : call.run fuel host c s with
      | error stop => exact List.forall_mem_nil _
      | ok a => exact ih (h.call hsync hcall).1 _

/-! ### The fetch of a JAM -/

theorem locked_of_fetch (hp : c.phase = .fetch) (ht : c.tick patience host s = .ok (d, t))
    (hdata : d.pins.data ∈ Isa.jams) : Locked c.regs.advance d ∧ d.phase = .execute := by
  have hruns := runs_of_fetch hp ht
  rw [Instruction.ofOpcode_eq_jam_iff.2 hdata] at hruns
  have hcoherent := (coherent_of_idle (by simp [hp])).tick ht
  obtain ⟨x, u, -, rfl, -⟩ := tick_ok_of_next (next_fetch hp) ht
  exact ⟨⟨rfl, rfl, hruns.program, hcoherent, Or.inr ⟨rfl, rfl⟩⟩, rfl⟩

/-- The first tick of a run is the tick that the machine would make outside the run. -/
theorem fetch_of_beginRun (hp : c.phase = .fetch) (ht : c.tick patience host s = .ok (d, t))
    (hdata : d.pins.data ∈ Isa.jams) :
    ∃ d', c.beginRun.tick patience host s = .ok (d', t) ∧ Locked c.regs.advance d' ∧
      d'.phase = .execute := by
  have halike := tick_sameButCall patience host (c := c) (d := c.beginRun) rfl s
  rw [ht] at halike
  obtain ⟨⟨d', t'⟩, ht', hsame, rfl⟩ := halike.of_ok
  have hpins : d'.pins = d.pins := by rw [show d' = _ from hsame]
  obtain ⟨hlocked, hphase⟩ := locked_of_fetch (c := c.beginRun) hp ht' (hpins ▸ hdata)
  exact ⟨d', ht', hlocked, hphase⟩

theorem length_turns_beginRun (hp : c.phase = .fetch) (patience : Nat) (host : Host σ) (s : σ) :
    (c.beginRun.turns patience host s).length = (c.turns patience host s).length := by
  have hp' : c.beginRun.phase = .fetch := hp
  have hsaid : (c.beginRun.turns patience host s).map said =
      (c.turns patience host s).map said := by
    simp only [Cpu.turns, next_fetch hp, next_fetch hp']
    exact performTurns_said (c := (c.beginRun.prepare .fetchOpcode).1)
      (d := (c.prepare .fetchOpcode).1) patience (.read c.regs.pc) rfl s
  simpa only [List.length_map] using congrArg List.length hsaid

/-- A run of the machine goes as without its trap, and leaves the trap as it was. -/
def AsksNoTrap (fuel : Nat) (host : Host σ) (c : Cpu) (s : σ) : Prop :=
  ∀ {τ : Type} (trap : Trap τ) (budget : UInt32) (q : τ),
    c.execute fuel host trap budget s q =
      (c.execute fuel host .never budget s ()).map fun a => (a.1, a.2.1, q)

theorem Locked.asksNoTrap (h : Locked r c) (hsync : host.HandsBackSync) (fuel : Nat) (s : σ) :
    AsksNoTrap fuel host c s :=
  fun trap budget q => h.beginRun.runLoop hsync trap budget fuel s q

section

variable {fuel : Nat} (hp : c.phase = .fetch) (ht : c.tick fuel host s = .ok (d, t))
  (hdata : d.pins.data ∈ Isa.jams)
include hp ht hdata

/-- A run that begins with the fetch goes on as the run of a locked machine. -/
theorem runLoop_of_fetch (trap : Trap τ) (budget : UInt32) (n : Nat) (q : τ) :
    ∃ d', Locked c.regs.advance d' ∧
      c.beginRun.runLoop fuel host trap budget (n + 1) s q =
        d'.runLoop fuel host trap budget n t q ∧
      c.beginRun.runLoopTurns fuel host trap budget (n + 1) s q =
        c.beginRun.turns fuel host s ++ d'.runLoopTurns fuel host trap budget n t q := by
  obtain ⟨d', ht', hlocked, hphase⟩ := fetch_of_beginRun hp ht hdata
  refine ⟨d', hlocked, ?_, ?_⟩
  · simp only [Cpu.runLoop, ht', verdict, hphase]
  · simp only [Cpu.runLoopTurns, ht', verdict, hphase]

theorem asksNoTrap_of_fetch (hsync : host.HandsBackSync) : AsksNoTrap fuel host c s := by
  intro τ trap budget q
  cases fuel with
  | zero => rfl
  | succ n =>
    obtain ⟨d₁, ht', hlocked, hphase⟩ := fetch_of_beginRun hp ht hdata
    simp only [execute, Cpu.runLoop, ht', verdict, hphase]
    exact hlocked.runLoop hsync trap budget n t q

theorem run_of_fetch (hsync : host.HandsBackSync) {call : Nmos6502.Call} {e : Cpu} {u : σ}
    (hrun : call.run fuel host c s = .ok (e, u)) :
    Locked c.regs.advance e ∧ (e.phase = .jammed ∨ call = .tick) := by
  cases call with
  | tick =>
    obtain ⟨rfl, rfl⟩ := Prod.mk.inj (Except.ok.inj (ht.symm.trans hrun))
    exact ⟨(locked_of_fetch hp ht hdata).1, Or.inr rfl⟩
  | execute trap q budget =>
    obtain ⟨a, ha, hd⟩ := ok_of_map hrun
    cases hd
    cases fuel with
    | zero => cases ha
    | succ n =>
      obtain ⟨d', hlocked, hloop, -⟩ := runLoop_of_fetch hp ht hdata trap budget n q
      obtain ⟨he, hjam⟩ := hlocked.of_runLoop hsync (hloop.symm.trans ha)
      exact ⟨he, Or.inl hjam⟩

theorem turns_of_fetch (hback : host.HandsBack) (hsync : host.HandsBackSync)
    (call : Nmos6502.Call) :
    ∀ turn ∈ (call.turns fuel host c s).drop (c.turns fuel host s).length,
      LockedTurn c.regs.advance turn.1 := by
  cases call with
  | tick =>
    intro turn hturn
    simp only [Nmos6502.Call.turns, List.drop_length, List.not_mem_nil] at hturn
  | execute trap q budget =>
    intro turn hturn
    simp only [Nmos6502.Call.turns, executeTurns] at hturn
    cases fuel with
    | zero => simp only [Cpu.runLoopTurns, List.drop_nil, List.not_mem_nil] at hturn
    | succ n =>
      obtain ⟨d', hlocked, -, hturns⟩ := runLoop_of_fetch hp ht hdata trap budget n q
      rw [hturns, ← length_turns_beginRun hp, List.drop_left] at hturn
      exact hlocked.runLoopTurns hback hsync trap budget n t q turn hturn

theorem callsTurns_of_fetch (hback : host.HandsBack) (hsync : host.HandsBackSync)
    (calls : List Nmos6502.Call) :
    ∀ turn ∈ (Cpu.callsTurns fuel host calls c s).drop (c.turns fuel host s).length,
      LockedTurn c.regs.advance turn.1 := by
  cases calls with
  | nil =>
    exact fun _ hturn => by simp only [Cpu.callsTurns, List.drop_nil, List.not_mem_nil] at hturn
  | cons call calls =>
    intro turn hturn
    simp only [Cpu.callsTurns, List.drop_append] at hturn
    rcases List.mem_append.1 hturn with hfirst | hrest
    · exact turns_of_fetch hp ht hdata hback hsync call turn hfirst
    · replace hrest := List.mem_of_mem_drop hrest
      cases hcall : call.run fuel host c s with
      | error stop => simp only [hcall, List.not_mem_nil] at hrest
      | ok a =>
        rw [hcall] at hrest
        exact (run_of_fetch hp ht hdata hsync hcall).1.callsTurns hback hsync fuel calls a.2 turn
          hrest

theorem runCalls_of_fetch (hsync : host.HandsBackSync) {calls : List Nmos6502.Call}
    (hne : calls ≠ []) {e : Cpu} {u : σ} (hrun : Cpu.runCalls fuel host calls c s = .ok (e, u)) :
    Locked c.regs.advance e ∧ (e.phase = .jammed ∨ calls = [.tick]) := by
  cases calls with
  | nil => exact absurd rfl hne
  | cons call calls =>
    simp only [Cpu.runCalls] at hrun
    cases hcall : call.run fuel host c s with
    | error stop => simp only [hcall, reduceCtorEq] at hrun
    | ok a =>
      obtain ⟨ha, hfirst⟩ := run_of_fetch hp ht hdata hsync hcall
      rw [hcall] at hrun
      obtain ⟨he, hjam⟩ := ha.runCalls hsync hrun
      refine ⟨he, ?_⟩
      rcases hfirst with hstuck | rfl
      · exact Or.inl (hjam (Or.inr hstuck))
      · by_cases hcalls : calls = []
        · exact Or.inr (by rw [hcalls])
        · exact Or.inl (hjam (Or.inl hcalls))

end

end

/-! ### Machines that do not lock up -/

/-- The machine is not locked up and does not run a JAM. -/
structure SparesJam (c : Cpu) : Prop where
  phase : c.phase ≠ .jammed
  program : c.phase = .execute → MicroOp.jam ∉ c.program

section

variable {c d : Cpu} {patience : Nat} {host : Host σ} {s t : σ}

theorem sparesJam_of_between (h : c.Between) : SparesJam c := by
  rcases h with hb | ⟨handler, hp, hprogram, -⟩
  · have hp : c.phase = .fetch := of_decide_eq_true hb
    exact ⟨by simp [hp], by simp [hp]⟩
  · refine ⟨by simp [hp], fun _ => ?_⟩
    rw [hprogram]
    decide

/-- Nothing but the fetch of a JAM leads to a lock-up. -/
theorem SparesJam.tick (h : SparesJam c) (hc : c.Coherent)
    (ht : c.tick patience host s = .ok (d, t))
    (hfetch : c.atBoundary = true → d.pins.data ∉ Isa.jams) : SparesJam d := by
  cases hp : c.phase with
  | jammed => exact absurd hp h.phase
  | fetch =>
    have hruns := runs_of_fetch hp ht
    refine ⟨by simp [hruns.phase], fun _ hjam => ?_⟩
    rw [hruns.program] at hjam
    have hop := Instruction.jam_mem_program hjam
    exact hfetch (by simp [atBoundary, hp]) (Instruction.ofOpcode_eq_jam_iff.1 hop)
  | execute =>
    obtain ⟨op, ops, x, u, hu, hop, -, rfl, -⟩ := hc.tick_inside hp ht
    have hplace := samePlace_access op x (c.moveTo ops)
    have hmem : op ∈ c.program := c.upcoming_suffix.subset (hu ▸ List.mem_cons_self)
    have hjam := h.program hp
    rcases complete_cases hop (hplace.phase.trans hp) with
      ⟨rfl, -⟩ | ⟨-, hsame, hphase, -⟩ | ⟨b, -, -, -, hend⟩
    · exact absurd hmem hjam
    · refine ⟨by simp [hphase], fun _ => ?_⟩
      rw [hsame, program_apply hop, hplace.program]
      exact hjam
    · rw [hend]
      split
      · exact sparesJam_of_between (between_poll _)
      · exact sparesJam_of_between (Or.inl rfl)

theorem Visits.sparesJam {n : Nat} {run : Nat → Cpu × σ} (h : Visits patience host n c s run)
    (hc : c.Coherent) (hspares : SparesJam c) {j : Nat} (hj : j ≤ n) :
    SparesJam (run j).1 ∨ ∃ i < j, (run i).1.atBoundary = true ∧
      (run (i + 1)).1.pins.data ∈ Isa.jams := by
  induction j with
  | zero =>
    have hstart : run 0 = (c, s) := (Except.ok.inj (h.ticking 0 hj)).symm
    exact Or.inl (by rw [hstart]; exact hspares)
  | succ j ih =>
    rcases ih (by omega) with hstill | ⟨i, hi, hjam⟩
    · by_cases hfetch : (run j).1.atBoundary = true ∧ (run (j + 1)).1.pins.data ∈ Isa.jams
      · exact Or.inr ⟨j, Nat.lt_succ_self j, hfetch⟩
      · exact Or.inl (hstill.tick (h.coherent hc (by omega)) (h.tick hj)
          fun hb hdata => hfetch ⟨hb, hdata⟩)
    · exact Or.inr ⟨i, by omega, hjam⟩

/-- In a run the machine is locked up from the second tick of a JAM on. -/
theorem Visits.jammed {n : Nat} {run : Nat → Cpu × σ} (h : Visits patience host n c s run)
    (hc : c.Coherent) (hspares : SparesJam c) {j : Nat} (hj : j ≤ n)
    (hjam : (run j).1.phase = .jammed) :
    ∃ i, i + 2 ≤ j ∧ (run i).1.atBoundary = true ∧ (run (i + 1)).1.pins.data ∈ Isa.jams := by
  rcases h.sparesJam hc hspares hj with hstill | ⟨i, hi, hb, hdata⟩
  · exact absurd hjam hstill.phase
  · refine ⟨i, Nat.lt_of_le_of_ne hi ?_, hb, hdata⟩
    rintro rfl
    have hruns := runs_of_fetch (of_decide_eq_true hb) (h.tick hj)
    rw [hruns.phase] at hjam
    cases hjam

end

/-! ### Calls on a machine that is stuck -/

def Command.isReset : Command → Bool
  | .reset .. => true
  | _ => false

theorem jammed_obey {c d : Cpu} {fuel : Nat} {command : Command} (hp : c.phase = .jammed)
    (h : c.obey fuel command = .ok d) :
    if command.isReset then d.phase = .fetch else d.phase = .jammed := by
  cases command with
  | reset host s =>
    cases h
    rfl
  | tick host s =>
    obtain ⟨a, ha, rfl⟩ := ok_of_map h
    exact tick_jammed hp ha
  | execute host trap budget s t =>
    obtain ⟨a, ha, rfl⟩ := ok_of_map h
    exact runLoop_keeps (P := fun c => c.phase = .jammed) (fun _ _ _ _ hp ht => tick_jammed hp ht)
      (fun _ _ hp => hp) (c := c.beginRun) hp ha
  | setA v | setX v | setY v | setS v | setP v | setPc v =>
    cases h
    exact hp
  | latchPins pins =>
    cases h
    exact hp

/-! ### The whole of it -/

/-- Calls from the boundary at which `c` stands and a JAM is fetched. -/
structure LocksUp (fuel : Nat) (host : Host σ) (c : Cpu) (s : σ) : Prop where
  /-- After the words of the fetch every word reads the same address, in every call. -/
  turns (calls : List Nmos6502.Call) :
    ∀ turn ∈ (callsTurns fuel host calls c s).drop (c.turns fuel host s).length,
      LockedTurn c.regs.advance turn.1
  /-- The machine has locked up after all calls but the tick of the fetch itself. -/
  machine (calls : List Nmos6502.Call) (e : Cpu) (u : σ) : calls ≠ [] →
    runCalls fuel host calls c s = .ok (e, u) →
      e.regs = c.regs.advance ∧ (e.isJammed = true ∨ calls = [.tick]) ∧
        ∀ handler, ¬e.Takes handler
  untrapped (calls : List Nmos6502.Call) (e : Cpu) (u : σ) :
    runCalls fuel host calls c s = .ok (e, u) → AsksNoTrap fuel host e u
  spends (calls : List Nmos6502.Call) (e : Cpu) (u : σ) : host.Prompt → calls ≠ [] →
    runCalls fuel host calls c s = .ok (e, u) →
      ∀ {τ : Type} (trap : Trap τ) (q : τ) (budget : UInt32) (n : Nat), max budget.toNat 1 ≤ n →
        ∃ f v, e.execute n host trap budget u q = .ok (f, v, q) ∧
          f.ticks.toNat = max budget.toNat 1

theorem locksUp {c d : Cpu} {fuel : Nat} {host : Host σ} {s t : σ} (hback : host.HandsBack)
    (hsync : host.HandsBackSync) (hp : c.phase = .fetch) (ht : c.tick fuel host s = .ok (d, t))
    (hdata : d.pins.data ∈ Isa.jams) : LocksUp fuel host c s where
  turns := callsTurns_of_fetch hp ht hdata hback hsync
  machine calls e u hne hrun := by
    obtain ⟨he, hjam⟩ := runCalls_of_fetch hp ht hdata hsync hne hrun
    exact ⟨he.regs, hjam.imp_left fun h => by simp [isJammed, h], he.not_takes⟩
  untrapped calls e u hrun := by
    by_cases hne : calls = []
    · subst hne
      cases hrun
      exact asksNoTrap_of_fetch hp ht hdata hsync
    · exact (runCalls_of_fetch hp ht hdata hsync hne hrun).1.asksNoTrap hsync fuel u
  spends calls e u hprompt hne hrun τ trap q budget n hn := by
    have he := (runCalls_of_fetch hp ht hdata hsync hne hrun).1.beginRun
    have hzero : e.beginRun.ticks.toNat = 0 := rfl
    exact he.runLoop_spends hsync hprompt trap budget n u q (by omega) (by omega)

/-- A JAM locks the machine up. From any boundary, on any host that hands back the address, the
direction and SYNC, once a JAM has been fetched every word of every sequence of calls reads FFFF
without SYNC, whatever the budgets and the traps; the registers stay as the fetch left them; no
interrupt sequence begins and no trap is asked; and on a host that never holds a read a run spends
exactly its budget, one cycle at least. Of all calls only a reset gets a machine out that is stuck.
In every run that begins between instructions a machine that is stuck has fetched a JAM. -/
theorem jam_locks_up :
    (∀ {σ : Type} (host : Host σ) (fuel : Nat) (c d : Cpu) (s t : σ), host.HandsBack →
      host.HandsBackSync → c.atBoundary = true → c.tick fuel host s = .ok (d, t) →
        d.pins.data ∈ Isa.jams → LocksUp fuel host c s) ∧
    (∀ (fuel : Nat) (command : Command) (c d : Cpu), c.isJammed = true →
      c.obey fuel command = .ok d →
        if command.isReset then d.atBoundary = true else d.isJammed = true) ∧
    ∀ {variant : Variant} {σ : Type} (host : Host σ) (patience n : Nat) (c : Cpu) (s : σ)
      (run : Nat → Cpu × σ), c.Reachable variant → c.Between → Visits patience host n c s run →
        ∀ j ≤ n, (run j).1.isJammed = true → ∃ i, i + 2 ≤ j ∧ (run i).1.atBoundary = true ∧
          (run (i + 1)).1.pins.data ∈ Isa.jams := by
  refine ⟨?_, ?_, ?_⟩
  · intro σ host fuel c d s t hback hsync hb ht hdata
    exact locksUp hback hsync (of_decide_eq_true hb) ht hdata
  · intro fuel command c d hjam hobey
    have hd := jammed_obey (of_decide_eq_true hjam) hobey
    cases hreset : command.isReset <;> simp_all [atBoundary, isJammed]
  · intro variant σ host patience n c s run hc hbetween hvisits j hj hjam
    exact hvisits.jammed hc.coherent (sparesJam_of_between hbetween) hj (of_decide_eq_true hjam)

/-- Memory full of JAMs, with IRQ and NMI going up and down. -/
theorem jam_locks_up_toggling :
    let host := Schedule.host { irq := fun n => n % 2 = 0, nmi := fun n => n % 3 = 0 }
    let start : Cpu × Ram := (powerOn .plain, .ofMemory fun _ => 0x02)
    host.HandsBack ∧ host.HandsBackSync ∧ host.Prompt ∧ LocksUp 5 host start.1 start.2 ∧
      ∃ c s, start.1.ticking 5 host 2 start.2 = .ok (c, s) ∧ c.isJammed = true ∧
        (∃ d, c.obey 5 (.tick host s) = .ok d ∧ d.isJammed = true) ∧
        (c.reset host s).1.atBoundary = true ∧ ∃ run, Visits 5 host 2 start.1 start.2 run ∧
          ∃ i, i + 2 ≤ 2 ∧ (run i).1.atBoundary = true ∧ (run (i + 1)).1.pins.data ∈ Isa.jams := by
  intro host start
  obtain ⟨hlocks, hcalls, hruns⟩ := jam_locks_up
  have hback : host.HandsBack := by
    intro p ram
    cases hread : p.read <;> simp [host, Schedule.host, hread]
  have hsync : host.HandsBackSync := by
    intro p ram
    cases hread : p.read <;> simp [host, Schedule.host, hread]
  have hprompt : host.Prompt := by
    intro p ram
    cases hread : p.read <;> simp [host, Schedule.host, hread]
  obtain ⟨⟨d, t⟩, ht, hdata⟩ := ok_of_any (x := start.1.tick 5 host start.2)
    (p := fun r => r.1.pins.data ∈ Isa.jams) (by decide +kernel)
  obtain ⟨⟨c, s⟩, hc, hjam⟩ := ok_of_any (x := start.1.ticking 5 host 2 start.2)
    (p := fun r => r.1.isJammed) (by decide +kernel)
  obtain ⟨e, he⟩ := ok_of_isOk (x := start.1.ticking 5 host 3 start.2) (by decide +kernel)
  have hstuck : c.obey 5 (.tick host s) = .ok e.1 := by
    rw [ticking_succ, hc] at he
    exact congrArg (Except.map Prod.fst) he
  let run : Nat → Cpu × Ram := fun j => if j = 0 then start else if j = 1 then (d, t) else (c, s)
  have hvisits : Visits 5 host 2 start.1 start.2 run := by
    have hone : start.1.ticking 5 host 1 start.2 = .ok (d, t) := by simp only [ticking, ht]
    refine ⟨fun j hj => ?_⟩
    obtain rfl | rfl | rfl : j = 0 ∨ j = 1 ∨ j = 2 := by omega
    · rfl
    · exact hone
    · exact hc
  have hnew : (powerOn .plain).Reachable .plain := .powerOn
  have hreset := hcalls 0 (.reset host s) c _ hjam rfl
  exact ⟨hback, hsync, hprompt,
    hlocks host 5 start.1 d start.2 t hback hsync rfl ht (of_decide_eq_true hdata), c, s, hc, hjam,
    ⟨e.1, hstuck, hcalls 5 (.tick host s) c e.1 hjam hstuck⟩, hreset, run, hvisits,
    hruns host 5 2 start.1 start.2 run hnew (Or.inl rfl) hvisits 2 (Nat.le_refl 2) hjam⟩

end Cpu

end Nmos6502
