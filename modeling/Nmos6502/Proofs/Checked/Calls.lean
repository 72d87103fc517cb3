import Nmos6502.Proofs.Checked.Machine
import Nmos6502.Proofs.Reachable

/-! # Calls that are never refused

A new machine is called in any order, on any hosts, with any traps and with breakpoints. The machine
that makes every check answers as the machine that makes none until its clock is full, and no other
check refuses anything. -/

namespace Nmos6502

open Ticks (inTime inTime_bind inTime_congr inTime_later inTime_of_lt)

variable {σ τ : Type}

theorem Ticks.inTime_map {α β : Type} (count : Nat) (x : Except Stop α) (f : α → β) :
    (inTime count x).map f = inTime count (x.map f) := by
  unfold inTime
  split <;> rfl

theorem ok_ne_fault {α : Type} (a : α) (cause : Fault) :
    (.ok a : Except Stop α) ≠ .error (.fault cause) := by
  intro heq
  cases heq

theorem unfinished_ne_fault {α : Type} (cause : Fault) :
    (.error .unfinished : Except Stop α) ≠ .error (.fault cause) := by
  intro heq
  cases heq

theorem map_ne_fault {α β : Type} {x : Except Stop α} (h : ∀ cause, x ≠ .error (.fault cause))
    (f : α → β) (cause : Fault) : x.map f ≠ .error (.fault cause) := by
  cases x with
  | error stop => exact fun heq => h cause (congrArg Except.error (Except.error.inj heq))
  | ok a => exact ok_ne_fault (f a) cause

/-! ### Series of calls -/

section

variable {α : Type} {γ : Type 1}

/-- The bus cycles of a series of calls. After a call that does not come to an end there are none.
-/
def seriesCycles (call : α → γ → Except Stop α) (cycles : α → γ → Nat) : α → List γ → Nat
  | _, [] => 0
  | a, x :: xs =>
    cycles a x +
      match call a x with
      | .ok b => seriesCycles call cycles b xs
      | .error _ => 0

/-- The checked calls are the calls for as long as the clock has room, the clock counts the cycles,
and the calls themselves are not refused. -/
structure ChecksOut (P : α → Prop) (count : α → Nat) (cycles : α → γ → Nat)
    (call checked : α → γ → Except Stop α) : Prop where
  agrees {a : α} (x : γ) : P a → count a < Ticks.limit →
    checked a x = inTime (count a + cycles a x) (call a x)
  keeps {a b : α} {x : γ} : P a → call a x = .ok b → P b
  counts {a b : α} {x : γ} : P a → call a x = .ok b → count b = count a + cycles a x
  faultless {a : α} (x : γ) (cause : Fault) : P a → call a x ≠ .error (.fault cause)

namespace ChecksOut

variable {P : α → Prop} {count : α → Nat} {cycles : α → γ → Nat}
  {call checked : α → γ → Except Stop α}
  (h : ChecksOut P count cycles call checked)
include h

theorem foldlM (xs : List γ) {a : α} (ha : P a) (hcount : count a < Ticks.limit) :
    xs.foldlM checked a = inTime (count a + seriesCycles call cycles a xs) (xs.foldlM call a) := by
  induction xs generalizing a with
  | nil => exact (inTime_of_lt hcount _).symm
  | cons x xs ih =>
    simp only [List.foldlM_cons, h.agrees x ha hcount, bind, inTime_bind, seriesCycles]
    cases hx : call a x with
    | error stop => rfl
    | ok b =>
      rw [← Nat.add_assoc, ← h.counts ha hx]
      simp only [Except.bind]
      -- What is in time for the whole series is in time for its first call.
      rw [← inTime_later (Nat.le_add_right (count b) _)]
      exact inTime_congr fun hb => ih (h.keeps ha hx) hb

theorem foldlM_faultless (xs : List γ) {a : α} (ha : P a) (cause : Fault) :
    xs.foldlM call a ≠ .error (.fault cause) := by
  induction xs generalizing a with
  | nil => exact ok_ne_fault a cause
  | cons x xs ih =>
    have hx := h.faultless x cause ha
    simp only [List.foldlM_cons, bind]
    cases hcall : call a x with
    | error stop =>
      rw [hcall] at hx
      exact hx
    | ok b => exact ih (h.keeps ha hcall)

end ChecksOut

end

/-! ### Calls on the processor -/

namespace Cpu

/-- A call, or a run that watches breakpoints. -/
inductive Call where
  | command (command : Command)
  | watch {σ : Type} (host : Host σ) (b : Breakpoints) (budget : UInt32) (s : σ)

def Call.toCommand : Call → Command
  | .command c => c
  | .watch host b budget s => .execute host b.trap budget s ()

/-- The bus cycles of a call, also of one that does not come to an end. -/
def cyclesOf (fuel : Nat) (c : Cpu) : Command → Nat
  | .reset .. => 2
  | .tick host s => (c.turns fuel host s).length
  | .execute host trap budget s t => (c.executeTurns fuel host trap budget s t).length
  | .setA _ | .setX _ | .setY _ | .setS _ | .setP _ | .setPc _ | .latchPins _ => 0

def checkedObey (fuel : Nat) (c : Cpu) : Call → Except Stop Cpu
  | .command (.reset host s) =>
    (orStop (c.checkedReset host.checked s)).map Prod.fst
  | .command (.tick host s) => (c.checkedTick fuel host.checked s).map Prod.fst
  | .command (.execute host trap budget s t) =>
    (c.checkedExecute fuel host.checked trap.checked budget s t).map Prod.fst
  | .watch host b budget s =>
    (c.checkedExecute fuel host.checked b.checkedTrap budget s ()).map Prod.fst
  | .command command => c.obey fuel command

def obeyAll (fuel : Nat) (c : Cpu) (calls : List Call) : Except Stop Cpu :=
  calls.foldlM (fun c call => c.obey fuel call.toCommand) c

def checkedObeyAll (fuel : Nat) (c : Cpu) (calls : List Call) : Except Stop Cpu :=
  calls.foldlM (fun c call => c.checkedObey fuel call) c

def cyclesOfAll (fuel : Nat) (c : Cpu) (calls : List Call) : Nat :=
  seriesCycles (fun c call => c.obey fuel call.toCommand)
    (fun c call => c.cyclesOf fuel call.toCommand) c calls

theorem total_runLoop {patience : Nat} {host : Host σ} {trap : Trap τ} {budget : UInt32}
    {fuel : Nat} {c d : Cpu} {s s' : σ} {t t' : τ}
    (h : c.runLoop patience host trap budget fuel s t = .ok (d, s', t')) :
    d.total.count = c.total.count + (c.runLoopTurns patience host trap budget fuel s t).length := by
  induction fuel generalizing c s t with
  | zero => cases h
  | succ n ih =>
    obtain ⟨e, u, t₁, htick, hround⟩ := of_runLoop_succ h
    have htotal := total_turns htick
    simp only [runLoopTurns, htick, List.length_append]
    rcases hround with ⟨hv, hrest⟩ | ⟨hv, hend⟩ | ⟨id, hv, hend⟩
    · have hlater := ih hrest
      simp only [hv]
      omega
    · cases hend
      simp only [hv]
      exact htotal
    · cases hend
      simp only [hv]
      exact htotal

theorem Coherent.tick_ne_fault {c : Cpu} (h : c.Coherent) (patience : Nat) (host : Host σ) (s : σ)
    (cause : Fault) : c.tick patience host s ≠ .error (.fault cause) := by
  rcases tick_wellFormed h.wellFormed patience host s with ⟨d, t, ht, -⟩ | ht
  · rw [ht]
    exact ok_ne_fault (d, t) cause
  · rw [ht]
    exact unfinished_ne_fault cause

theorem Coherent.runLoop_ne_fault {c : Cpu} (h : c.Coherent) (patience : Nat) (host : Host σ)
    (trap : Trap τ) (budget : UInt32) (fuel : Nat) (s : σ) (t : τ) (cause : Fault) :
    c.runLoop patience host trap budget fuel s t ≠ .error (.fault cause) := by
  induction fuel generalizing c s t with
  | zero => exact unfinished_ne_fault cause
  | succ n ih =>
    have hone := h.tick_ne_fault patience host s cause
    simp only [runLoop]
    cases htick : c.tick patience host s with
    | error stop =>
      rw [htick] at hone
      exact fun heq => hone (congrArg Except.error (Except.error.inj heq))
    | ok r =>
      obtain ⟨d, u⟩ := r
      simp only
      generalize d.verdict trap budget t = verdict
      obtain ⟨_ | _ | id, t₁⟩ := verdict
      · exact ih (h.tick htick) u t₁
      · exact ok_ne_fault _ cause
      · exact ok_ne_fault _ cause

theorem checkedObey_eq {fuel : Nat} {c : Cpu} (h : c.Coherent) (hc : c.total.count < Ticks.limit)
    (call : Call) :
    c.checkedObey fuel call =
      inTime (c.total.count + c.cyclesOf fuel call.toCommand) (c.obey fuel call.toCommand) := by
  cases call with
  | watch host b budget s =>
    rw [checkedObey, b.checkedTrap_eq, checkedExecute_eq h hc, Ticks.inTime_map]
    rfl
  | command command =>
    cases command with
    | reset host s =>
      rw [checkedObey, checkedReset_eq, Ticks.inTime_map]
      rfl
    | tick host s =>
      rw [checkedObey, checkedTick_eq h, Ticks.inTime_map]
      rfl
    | execute host trap budget s t =>
      rw [checkedObey, checkedExecute_eq h hc, Ticks.inTime_map]
      rfl
    | _ => exact (inTime_of_lt hc _).symm

theorem total_obey {fuel : Nat} {c d : Cpu} {command : Command} (h : c.obey fuel command = .ok d) :
    d.total.count = c.total.count + c.cyclesOf fuel command := by
  cases command with
  | tick host s =>
    obtain ⟨r, htick, rfl⟩ := ok_of_map h
    exact total_turns htick
  | execute host trap budget s t =>
    obtain ⟨r, hrun, rfl⟩ := ok_of_map h
    exact total_runLoop (c := c.beginRun) hrun
  | _ =>
    cases h
    rfl

theorem Coherent.obey_ne_fault {c : Cpu} (h : c.Coherent) (fuel : Nat) (command : Command)
    (cause : Fault) : c.obey fuel command ≠ .error (.fault cause) := by
  cases command with
  | tick host s => exact map_ne_fault (h.tick_ne_fault fuel host s) _ cause
  | execute host trap budget s t =>
    exact map_ne_fault
      (Coherent.runLoop_ne_fault (c := c.beginRun) h fuel host trap budget fuel s t) _ cause
  | _ => exact ok_ne_fault _ cause

theorem checksOut (fuel : Nat) :
    ChecksOut Coherent (fun c => c.total.count) (fun c call => c.cyclesOf fuel call.toCommand)
      (fun c call => c.obey fuel call.toCommand) (fun c call => c.checkedObey fuel call) where
  agrees call h hc := checkedObey_eq h hc call
  keeps h hcall := kept_coherent.obey h hcall
  counts _ hcall := total_obey hcall
  faultless call cause h := h.obey_ne_fault fuel call.toCommand cause

end Cpu

/-! ### Calls on the 6510 -/

/-- The calls that a program makes on the machine, or past the port on its processor. Requests to
the port from outside are left out: at an address that is not the port's they are refused. -/
inductive Mos6510.Call where
  | reset {σ : Type} (host : PortHost σ) (s : σ)
  | tick {σ : Type} (host : PortHost σ) (s : σ)
  | execute {σ τ : Type} (host : PortHost σ) (trap : Trap τ) (budget : UInt32) (s : σ) (t : τ)
  /-- A run that watches breakpoints. -/
  | watch {σ : Type} (host : PortHost σ) (b : Breakpoints) (budget : UInt32) (s : σ)
  | cpu (call : Cpu.Call)

namespace Mos6510

def Call.toCommand : Call → Command
  | .reset host s => .reset host s
  | .tick host s => .tick host s
  | .execute host trap budget s t => .execute host trap budget s t
  | .watch host b budget s => .execute host b.trap budget s ()
  | .cpu call => .cpu call.toCommand

/-- The same call on the processor, which sees its host through the port. -/
def Call.onCpu (port : IoPort) : Call → Cpu.Call
  | .reset host s => .command (.reset host.toHost s)
  | .tick host s => .command (.tick host.routed (port, s))
  | .execute host trap budget s t => .command (.execute host.routed trap budget (port, s) t)
  | .watch host b budget s => .watch host.routed b budget (port, s)
  | .cpu call => call

def checkedObey (fuel : Nat) (m : Mos6510) : Call → Except Stop Mos6510
  | .reset host s =>
    (orStop (m.cpu.checkedReset host.toHost.checked s)).map fun r =>
      ⟨r.1, m.port.reset⟩
  | .tick host s =>
    (m.cpu.checkedTick fuel host.checkedRouted (m.port, s)).map fun r => ⟨r.1, r.2.1⟩
  | .execute host trap budget s t =>
    (m.cpu.checkedExecute fuel host.checkedRouted trap.checked budget (m.port, s) t).map fun r =>
      ⟨r.1, r.2.1.1⟩
  | .watch host b budget s =>
    (m.cpu.checkedExecute fuel host.checkedRouted b.checkedTrap budget (m.port, s) ()).map fun r =>
      ⟨r.1, r.2.1.1⟩
  | .cpu call => (m.cpu.checkedObey fuel call).map fun cpu => { m with cpu := cpu }

/-- The bus cycles of a call, also of one that does not come to an end. -/
def cyclesOf (fuel : Nat) (m : Mos6510) (call : Call) : Nat :=
  m.cpu.cyclesOf fuel (call.onCpu m.port).toCommand

def obeyAll (fuel : Nat) (m : Mos6510) (calls : List Call) : Except Stop Mos6510 :=
  calls.foldlM (fun m call => m.obey fuel call.toCommand) m

def checkedObeyAll (fuel : Nat) (m : Mos6510) (calls : List Call) : Except Stop Mos6510 :=
  calls.foldlM (fun m call => m.checkedObey fuel call) m

def cyclesOfAll (fuel : Nat) (m : Mos6510) (calls : List Call) : Nat :=
  seriesCycles (fun m call => m.obey fuel call.toCommand) (fun m call => m.cyclesOf fuel call) m
    calls

theorem obey_onCpu (fuel : Nat) (m : Mos6510) (call : Call) :
    (m.obey fuel call.toCommand).map Mos6510.cpu =
      m.cpu.obey fuel (call.onCpu m.port).toCommand := by
  cases call with
  | reset host s => rfl
  | tick host s =>
    simp only [Call.toCommand, obey, tick_eq, Call.onCpu, Cpu.Call.toCommand, Cpu.obey]
    cases m.cpu.tick fuel host.routed (m.port, s) <;> rfl
  | execute host trap budget s t =>
    simp only [Call.toCommand, obey, execute_eq, Call.onCpu, Cpu.Call.toCommand, Cpu.obey]
    cases m.cpu.execute fuel host.routed trap budget (m.port, s) t <;> rfl
  | watch host b budget s =>
    simp only [Call.toCommand, obey, execute_eq, Call.onCpu, Cpu.Call.toCommand, Cpu.obey]
    cases m.cpu.execute fuel host.routed b.trap budget (m.port, s) () <;> rfl
  | cpu call =>
    simp only [Call.toCommand, obey, Call.onCpu]
    cases m.cpu.obey fuel call.toCommand <;> rfl

theorem checkedObey_eq {fuel : Nat} {m : Mos6510} (h : m.cpu.Coherent)
    (hm : m.cpu.total.count < Ticks.limit) (call : Call) :
    m.checkedObey fuel call =
      inTime (m.cpu.total.count + m.cyclesOf fuel call) (m.obey fuel call.toCommand) := by
  cases call with
  | reset host s =>
    rw [checkedObey, Cpu.checkedReset_eq, Ticks.inTime_map]
    rfl
  | tick host s =>
    rw [checkedObey, host.checkedRouted_eq, Cpu.checkedTick_eq h, Ticks.inTime_map, Call.toCommand,
      obey, tick_eq]
    cases m.cpu.tick fuel host.routed (m.port, s) <;> rfl
  | execute host trap budget s t =>
    rw [checkedObey, host.checkedRouted_eq, Cpu.checkedExecute_eq h hm, Ticks.inTime_map,
      Call.toCommand, obey, execute_eq]
    cases m.cpu.execute fuel host.routed trap budget (m.port, s) t <;> rfl
  | watch host b budget s =>
    rw [checkedObey, host.checkedRouted_eq, b.checkedTrap_eq, Cpu.checkedExecute_eq h hm,
      Ticks.inTime_map, Call.toCommand, obey, execute_eq]
    cases m.cpu.execute fuel host.routed b.trap budget (m.port, s) () <;> rfl
  | cpu call =>
    rw [checkedObey, Cpu.checkedObey_eq h hm, Ticks.inTime_map]
    rfl

theorem checksOut (fuel : Nat) :
    ChecksOut (fun m : Mos6510 => m.cpu.Coherent) (fun m => m.cpu.total.count)
      (fun m call => m.cyclesOf fuel call) (fun m call => m.obey fuel call.toCommand)
      (fun m call => m.checkedObey fuel call) where
  agrees call h hm := checkedObey_eq h hm call
  keeps {m m' call} h hcall := by
    have honcpu := obey_onCpu fuel m call
    rw [hcall] at honcpu
    exact Cpu.kept_coherent.obey h honcpu.symm
  counts {m m' call} _ hcall := by
    have honcpu := obey_onCpu fuel m call
    rw [hcall] at honcpu
    exact Cpu.total_obey honcpu.symm
  faultless {m} call cause h hcall := by
    have honcpu := obey_onCpu fuel m call
    rw [hcall] at honcpu
    exact h.obey_ne_fault fuel _ cause honcpu.symm

end Mos6510

/-! ### What is refused -/

/-- Calls on a new machine are never refused before its clock is full. With every check made the
processor and the 6510 come to the same result as without for as long as fewer cycles have passed
than the clock can count, and without the check of the clock nothing is refused at all. -/
theorem calls_never_refused (variant : Variant) (fuel : Nat) :
    (∀ calls : List Cpu.Call,
      (Cpu.powerOn variant).checkedObeyAll fuel calls =
          Ticks.inTime ((Cpu.powerOn variant).cyclesOfAll fuel calls)
            ((Cpu.powerOn variant).obeyAll fuel calls) ∧
        ∀ cause, (Cpu.powerOn variant).obeyAll fuel calls ≠ .error (.fault cause)) ∧
    (∀ calls : List Mos6510.Call,
      (Mos6510.powerOn variant).checkedObeyAll fuel calls =
          Ticks.inTime ((Mos6510.powerOn variant).cyclesOfAll fuel calls)
            ((Mos6510.powerOn variant).obeyAll fuel calls) ∧
        ∀ cause, (Mos6510.powerOn variant).obeyAll fuel calls ≠ .error (.fault cause)) := by
  have hnew : (Cpu.powerOn variant).Coherent := Cpu.Reachable.powerOn.coherent
  have hclock : (Cpu.powerOn variant).total.count < Ticks.limit := Nat.pow_pos (n := 64) Nat.two_pos
  refine ⟨fun calls => ⟨?_, ?_⟩, fun calls => ⟨?_, ?_⟩⟩
  · have h := (Cpu.checksOut fuel).foldlM calls hnew hclock
    exact h.trans (congrArg (inTime · _) (Nat.zero_add _))
  · exact (Cpu.checksOut fuel).foldlM_faultless calls hnew
  · have h := (Mos6510.checksOut fuel).foldlM (a := .powerOn variant) calls hnew hclock
    exact h.trans (congrArg (inTime · _) (Nat.zero_add _))
  · exact (Mos6510.checksOut fuel).foldlM_faultless (a := .powerOn variant) calls hnew

end Nmos6502
