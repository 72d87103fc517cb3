import Nmos6502.Proofs.Coherence
import Nmos6502.Proofs.Port.Recorded

/-! # What calls can reach

A program builds a machine and then calls it in any order: it resets it, makes it tick or run, sets
its registers and its pins. Every call may come with a host of its own and every run with a trap of
its own, and between calls the program may do to its host what it likes. What the machine is built
with stays, and after every call the machine runs an instruction or an interrupt sequence. -/

namespace Nmos6502

theorem ok_of_map {ε α β : Type} {x : Except ε α} {f : α → β} {b : β} (h : x.map f = .ok b) :
    ∃ a, x = .ok a ∧ f a = b := by
  cases x with
  | error e => cases h
  | ok a =>
    cases h
    exact ⟨a, rfl, rfl⟩

/-! ### Calls on the processor -/

inductive Cpu.Command where
  | reset {σ : Type} (host : Host σ) (s : σ)
  | tick {σ : Type} (host : Host σ) (s : σ)
  | execute {σ τ : Type} (host : Host σ) (trap : Trap τ) (budget : UInt32) (s : σ) (t : τ)
  | setA (v : UInt8)
  | setX (v : UInt8)
  | setY (v : UInt8)
  | setS (v : UInt8)
  | setP (v : UInt8)
  | setPc (v : UInt16)
  | latchPins (pins : Pins)

namespace Cpu

variable {σ τ : Type}

/-- The machine after a call that needs no more than `fuel`. -/
def obey (fuel : Nat) (c : Cpu) : Command → Except Stop Cpu
  | .reset host s => .ok (c.reset host s).1
  | .tick host s => (c.tick fuel host s).map Prod.fst
  | .execute host trap budget s t => (c.execute fuel host trap budget s t).map Prod.fst
  | .setA v => .ok (c.setA v)
  | .setX v => .ok (c.setX v)
  | .setY v => .ok (c.setY v)
  | .setS v => .ok (c.setS v)
  | .setP v => .ok (c.setP v)
  | .setPc v => .ok (c.setPc v)
  | .latchPins pins => .ok (c.latchPins pins)

/-- Calls lead from a new machine of the variant to this one. -/
inductive Reachable (variant : Variant) : Cpu → Prop
  | powerOn : Reachable variant (powerOn variant)
  | call {c d : Cpu} (fuel : Nat) (command : Command) :
    Reachable variant c → c.obey fuel command = .ok d → Reachable variant d

/-! ### What calls keep -/

/-- What every tick of a run keeps, and what does not depend on the trap that ends it, the run
keeps. -/
theorem runLoop_keeps {P : Cpu → Prop} {patience : Nat} {host : Host σ}
    (step : ∀ c s d t, P c → c.tick patience host s = .ok (d, t) → P d)
    (trapped : ∀ (c : Cpu) (id : Int32), P c → P { c with trapId := some id }) {trap : Trap τ}
    {budget : UInt32} {fuel : Nat} {c d : Cpu} {s s' : σ} {t t' : τ} (hc : P c)
    (hrun : c.runLoop patience host trap budget fuel s t = .ok (d, s', t')) : P d := by
  induction fuel generalizing c s t with
  | zero => cases hrun
  | succ n ih =>
    obtain ⟨e, u, t₁, htick, ⟨-, hrest⟩ | ⟨-, hend⟩ | ⟨id, -, hend⟩⟩ := of_runLoop_succ hrun
    · exact ih (step c s e u hc htick) hrest
    · cases hend
      exact step c s d s' hc htick
    · cases hend
      exact trapped e id (step c s e u hc htick)

/-- What ticks and resets keep, and what does not depend on the registers, the pins and the state of
a call. -/
structure Kept (P : Cpu → Prop) : Prop where
  tick {σ : Type} {patience : Nat} {host : Host σ} {c d : Cpu} {s t : σ} :
    P c → c.tick patience host s = .ok (d, t) → P d
  reset {σ : Type} (host : Host σ) {c : Cpu} (s : σ) : P c → P (c.reset host s).1
  between {c : Cpu} (regs : Registers) (pins : Pins) (nmiPending : Bool) (ticks : UInt32)
    (trapId : Option Int32) : P c →
    P { c with
      regs := regs, pins := pins, nmiPending := nmiPending, ticks := ticks, trapId := trapId }

namespace Kept

variable {P : Cpu → Prop} (h : Kept P)
include h

theorem runLoop {patience : Nat} {host : Host σ} {trap : Trap τ} {budget : UInt32} {fuel : Nat}
    {c d : Cpu} {s s' : σ} {t t' : τ} (hc : P c)
    (hrun : c.runLoop patience host trap budget fuel s t = .ok (d, s', t')) : P d :=
  runLoop_keeps (fun _ _ _ _ hc ht => h.tick hc ht)
    (fun c id hc => h.between c.regs c.pins c.nmiPending c.ticks (some id) hc) hc hrun

theorem obey {fuel : Nat} {command : Command} {c d : Cpu} (hc : P c)
    (hcall : c.obey fuel command = .ok d) : P d := by
  cases command with
  | reset host s =>
    cases hcall
    exact h.reset host s hc
  | tick host s =>
    obtain ⟨r, htick, rfl⟩ := ok_of_map hcall
    exact h.tick hc htick
  | execute host trap budget s t =>
    obtain ⟨r, hrun, rfl⟩ := ok_of_map hcall
    exact h.runLoop (h.between c.regs c.pins c.nmiPending 0 none hc) hrun
  | setA v | setX v | setY v | setS v | setP v | setPc v =>
    cases hcall
    exact h.between _ c.pins c.nmiPending c.ticks c.trapId hc
  | latchPins pins =>
    cases hcall
    exact h.between c.regs pins _ c.ticks c.trapId hc

theorem reachable {variant : Variant} (hnew : P (powerOn variant)) {c : Cpu}
    (hc : c.Reachable variant) : P c := by
  induction hc with
  | powerOn => exact hnew
  | call fuel command _ hcall ih => exact h.obey ih hcall

end Kept

/-! ### What every reachable machine is like -/

theorem decimalAdder_complete (op : MicroOp) (c : Cpu) :
    (c.complete op).decimalAdder = c.decimalAdder := by
  by_cases hop : op = .fetchOpcode
  · subst hop
    rfl
  · rw [complete_eq hop, settle_frame, apply_frame hop]

theorem decimalAdder_tick {patience : Nat} {host : Host σ} {c d : Cpu} {s t : σ}
    (h : c.tick patience host s = .ok (d, t)) : d.decimalAdder = c.decimalAdder := by
  obtain ⟨op, e, x, u, hn, -, rfl, -⟩ := tick_ok h
  rw [decimalAdder_complete, receive, prepare_frame, next_frame hn]

theorem kept_decimalAdder (adder : Bool) : Kept fun c => c.decimalAdder = adder where
  tick hc h := (decimalAdder_tick h).trans hc
  reset _ _ _ hc := hc
  between _ _ _ _ _ hc := hc

theorem kept_coherent : Kept Coherent where
  tick hc h := hc.tick h
  reset _ _ _ _ := coherent_of_idle (by simp [Cpu.reset])
  between _ _ _ _ _ hc := hc

namespace Reachable

variable {variant : Variant} {c : Cpu} (h : c.Reachable variant)
include h

theorem decimalAdder : c.decimalAdder = variant.decimalAdder :=
  (kept_decimalAdder variant.decimalAdder).reachable rfl h

theorem coherent : c.Coherent := by
  have hnew : (Cpu.powerOn variant).Coherent := coherent_of_idle (by simp [Cpu.powerOn])
  exact kept_coherent.reachable hnew h

end Reachable

end Cpu

/-! ### What a host keeps in a run -/

section

variable {σ τ : Type} {host : Host σ} {P : σ → Prop} (answers : ∀ p s, P s → P (host.tick p s).2)
  (hears : ∀ n s, P s → P (host.note n s))
include answers hears

theorem Host.tick_keeps {patience : Nat} {c d : Cpu} {s t : σ} (hs : P s)
    (h : c.tick patience host s = .ok (d, t)) : P t := by
  have hone : c.ticking patience host 1 s = .ok (d, t) := by simp only [Cpu.ticking, h]
  exact Host.ticking_keeps answers hears hs hone

theorem Host.runLoop_keeps {patience : Nat} {trap : Trap τ} {budget : UInt32} {fuel : Nat}
    {c d : Cpu} {s s' : σ} {t t' : τ} (hs : P s)
    (h : c.runLoop patience host trap budget fuel s t = .ok (d, s', t')) : P s' := by
  induction fuel generalizing c s t with
  | zero => cases h
  | succ n ih =>
    obtain ⟨e, u, t₁, htick, hround⟩ := Cpu.of_runLoop_succ h
    have hu := Host.tick_keeps answers hears hs htick
    rcases hround with ⟨-, hrest⟩ | ⟨-, hend⟩ | ⟨id, -, hend⟩
    · exact ih hu hrest
    · cases hend
      exact hu
    · cases hend
      exact hears _ u hu

end

/-! ### The wiring of the port -/

/-- The board around the port is that of the variant. -/
def IoPort.Wired (variant : Variant) (port : IoPort) : Prop :=
  port.pullup = variant.pullup ∧ port.floating = variant.floating

namespace IoPort

variable {σ : Type} {variant : Variant} {port : IoPort}

theorem Wired.use (h : port.Wired variant) (use : PortUse) : (port.use use).Wired variant := by
  cases use <;> exact h

theorem Wired.answer (h : port.Wired variant) (host : PortHost σ) {access : Pins}
    (haddr : access.isPortAccess = true) (s : σ) :
    (port.answer host access s).2.1.Wired variant := by
  rw [port.answer_eq host haddr]
  exact h.use _

theorem Wired.routed (h : port.Wired variant) (host : PortHost σ) (p : Pins) (s : σ) :
    (host.routed.tick p (port, s)).2.1.Wired variant := by
  cases ha : PortHost.answersCycle (host.tick (p.setPort port.pins) s).1 with
  | true =>
    rw [host.routed_answered ha]
    exact h.answer host (PortHost.isPortAccess_of_answersCycle ha) _
  | false =>
    rw [host.routed_passed ha]
    exact h

end IoPort

/-! ### Calls on the 6510 -/

inductive Mos6510.Command where
  | reset {σ : Type} (host : PortHost σ) (s : σ)
  | tick {σ : Type} (host : PortHost σ) (s : σ)
  | execute {σ τ : Type} (host : PortHost σ) (trap : Trap τ) (budget : UInt32) (s : σ) (t : τ)
  /-- An access to the port from outside. -/
  | request {σ : Type} (host : PortHost σ) (access : Pins) (s : σ)
  /-- A call on the processor that passes the port by. -/
  | cpu (command : Cpu.Command)

namespace Mos6510

/-- The machine after a call that needs no more than `fuel`. -/
def obey (fuel : Nat) (m : Mos6510) : Command → Except Stop Mos6510
  | .reset host s => .ok (m.reset host s).1
  | .tick host s => (m.tick fuel host s).map Prod.fst
  | .execute host trap budget s t => (m.execute fuel host trap budget s t).map Prod.fst
  | .request host access s =>
    match m.request host access s with
    | .ok (_, m, _) => .ok m
    | .error cause => .error (.fault cause)
  | .cpu command => (m.cpu.obey fuel command).map fun cpu => { m with cpu := cpu }

/-- Calls lead from a new machine of the variant to this one. -/
inductive Reachable (variant : Variant) : Mos6510 → Prop
  | powerOn : Reachable variant (powerOn variant)
  | call {m m' : Mos6510} (fuel : Nat) (command : Command) :
    Reachable variant m → m.obey fuel command = .ok m' → Reachable variant m'

/-! ### What every reachable 6510 is like -/

theorem obey_request {σ : Type} {fuel : Nat} {host : PortHost σ} {access : Pins} {s : σ}
    {m m' : Mos6510} (h : m.obey fuel (.request host access s) = .ok m') :
    access.isPortAccess = true ∧ m' = { m with port := (m.port.answer host access s).2.1 } := by
  by_cases haddr : access.isPortAccess = true
  · simp only [obey, request, IoPort.request, if_pos haddr, Except.map] at h
    cases h
    exact ⟨haddr, rfl⟩
  · simp only [obey, request, IoPort.request, if_neg haddr, Except.map] at h
    cases h

/-- The processor of a 6510 does nothing that a processor on its own could not do. -/
theorem Reachable.cpu {variant : Variant} {m : Mos6510} (h : m.Reachable variant) :
    m.cpu.Reachable variant := by
  induction h with
  | powerOn => exact .powerOn
  | @call m m' fuel command _ hcall ih =>
    cases command with
    | reset host s =>
      cases hcall
      exact ih.call fuel (.reset host.toHost s) rfl
    | tick host s =>
      obtain ⟨⟨m', s'⟩, htick, rfl⟩ := ok_of_map hcall
      exact ih.call fuel (.tick host.routed (m.port, s))
        (by rw [Cpu.obey, tick_ok_iff.1 htick]; rfl)
    | execute host trap budget s t =>
      obtain ⟨⟨m', s', t'⟩, hrun, rfl⟩ := ok_of_map hcall
      exact ih.call fuel (.execute host.routed trap budget (m.port, s) t)
        (by rw [Cpu.obey, execute_ok_iff.1 hrun]; rfl)
    | request host access s =>
      obtain ⟨-, rfl⟩ := obey_request hcall
      exact ih
    | cpu command =>
      obtain ⟨d, hd, rfl⟩ := ok_of_map hcall
      exact ih.call fuel command hd

theorem Reachable.wired {variant : Variant} {m : Mos6510} (h : m.Reachable variant) :
    m.port.Wired variant := by
  induction h with
  | powerOn => exact ⟨rfl, rfl⟩
  | @call m m' fuel command _ hcall ih =>
    cases command with
    | reset host s =>
      cases hcall
      exact ih
    | tick host s =>
      obtain ⟨⟨m', s'⟩, htick, rfl⟩ := ok_of_map hcall
      exact Host.tick_keeps (P := fun r : IoPort × _ => r.1.Wired variant)
        (fun p r hr => hr.routed host p r.2) (fun _ _ hr => hr) ih (tick_ok_iff.1 htick)
    | execute host trap budget s t =>
      obtain ⟨⟨m', s', t'⟩, hrun, rfl⟩ := ok_of_map hcall
      exact Host.runLoop_keeps (P := fun r : IoPort × _ => r.1.Wired variant)
        (fun p r hr => hr.routed host p r.2) (fun _ _ hr => hr) ih (execute_ok_iff.1 hrun)
    | request host access s =>
      obtain ⟨haddr, rfl⟩ := obey_request hcall
      exact ih.answer host haddr s
    | cpu command =>
      obtain ⟨d, -, rfl⟩ := ok_of_map hcall
      exact ih

end Mos6510

end Nmos6502
