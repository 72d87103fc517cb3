import Nmos6502.Proofs.CanonicalFlags
import Nmos6502.Proofs.HeldReads
import Nmos6502.Proofs.LockUp
import Nmos6502.Proofs.Reachable

/-! # The break flag on the stack

The break flag has no storage: it is made when a status byte is pushed, and it tells who pushes. PHP
and BRK push it set, an interrupt pushes it clear, whatever vector is read afterwards. In P itself
it never appears, and the unused bit always does, unless the break flag is put there from outside.
-/

namespace Nmos6502

variable {σ τ : Type}

/-! ### Status bytes -/

namespace Status

theorem bit_toByte (p : Status) : bit 4 p.toByte = p.brk ∧ bit 5 p.toByte = p.unused := by
  have h := p.ofByte_toByte
  exact ⟨congrArg brk h, congrArg unused h⟩

theorem canonical_write {b : UInt8} (h : bit 4 b = false) : (write b).Canonical := ⟨h, rfl⟩

end Status

namespace Pushed

def isStatus : Pushed → Bool
  | statusBreak | statusInterrupt => true
  | pcHigh | pcLow | accumulator => false

end Pushed

/-! ### Who pushes the status -/

theorem Instruction.push_status_mem {i : Instruction} {what : Pushed} (hwhat : what.isStatus = true)
    (h : MicroOp.push what ∈ i.program) : what = .statusBreak ∧ (i = .php ∨ i = .brk) := by
  cases what with
  | pcHigh | pcLow | accumulator => cases hwhat
  | statusBreak | statusInterrupt =>
    cases i with
    | read op mode => cases mode <;> simp [program, Mode.program] at h
    | store op mode => cases mode <;> simp [program, Mode.program] at h
    | modify op mode => cases mode <;> simp [program, Mode.program] at h
    | _ => simp_all [program]

theorem push_status_mem_interruptProgram {what : Pushed} (hwhat : what.isStatus = true)
    (h : MicroOp.push what ∈ interruptProgram) : what = .statusInterrupt := by
  cases what with
  | pcHigh | pcLow | accumulator => cases hwhat
  | statusBreak => simp [interruptProgram] at h
  | statusInterrupt => rfl

namespace Cpu

/-! ### Calls that leave the break flag alone -/

/-- The call does not put a break flag into P. -/
def Command.SparesBreak : Command → Prop
  | .setP v => bit 4 v = false
  | _ => True

/-- Calls that leave the break flag alone lead from a new machine of the variant to this one, or to
where this one is in a run. -/
inductive Driven (variant : Variant) : Cpu → Prop
  | powerOn : Driven variant (powerOn variant)
  | call {c d : Cpu} (fuel : Nat) (command : Command) : Driven variant c → command.SparesBreak →
    c.obey fuel command = .ok d → Driven variant d
  | beginRun {c : Cpu} : Driven variant c → Driven variant c.beginRun

section

variable {c d : Cpu}

theorem canonical_obey (h : c.regs.p.Canonical) {fuel : Nat} {command : Command}
    (hcommand : command.SparesBreak) (hobey : c.obey fuel command = .ok d) :
    d.regs.p.Canonical := by
  cases command with
  | reset host s =>
    cases hobey
    exact ⟨rfl, rfl⟩
  | tick host s =>
    obtain ⟨a, ha, rfl⟩ := ok_of_map hobey
    exact h.tick ha
  | execute host trap budget s t =>
    obtain ⟨a, ha, rfl⟩ := ok_of_map hobey
    exact runLoop_keeps (P := fun c => c.regs.p.Canonical) (fun _ _ _ _ hc ht => hc.tick ht)
      (fun _ _ hc => hc) (c := c.beginRun) h ha
  | setP v =>
    cases hobey
    exact Status.canonical_write hcommand
  | setA v | setX v | setY v | setS v | setPc v =>
    cases hobey
    exact h
  | latchPins pins =>
    cases hobey
    exact h

namespace Driven

variable {variant : Variant}

theorem canonical (h : c.Driven variant) : c.regs.p.Canonical := by
  induction h with
  | powerOn => exact ⟨rfl, rfl⟩
  | call fuel command _ hcommand hobey ih => exact canonical_obey ih hcommand hobey
  | beginRun _ ih => exact ih

theorem coherent (h : c.Driven variant) : c.Coherent := by
  induction h with
  | powerOn => exact coherent_of_idle (by simp [Cpu.powerOn])
  | call fuel command _ _ hobey ih => exact kept_coherent.obey ih hobey
  | beginRun _ ih => exact ih

theorem ticking {patience n : Nat} {host : Host σ} {s t : σ} (h : c.Driven variant)
    (hd : c.ticking patience host n s = .ok (d, t)) : d.Driven variant :=
  ticking_keeps (fun _ s _ _ hc ht => hc.call patience (.tick host s) trivial
    (congrArg (Except.map Prod.fst) ht)) h hd

end Driven

/-! ### Pushes -/

/-- A status byte is pushed by PHP or BRK with the break flag, and by an interrupt without it. -/
theorem Coherent.pushes_status (hc : c.Coherent) {what : Pushed} {e : Cpu}
    (hn : c.next = .ok (.push what, e)) (hwhat : what.isStatus = true) :
    (what = .statusBreak ∧
      (c.program = Instruction.php.program ∨ c.program = Instruction.brk.program)) ∨
      what = .statusInterrupt ∧ c.program = interruptProgram := by
  cases hp : c.phase with
  | fetch => cases hn.symm.trans (next_fetch hp)
  | jammed => cases hn.symm.trans (next_stuck hp)
  | execute =>
    have hu := upcoming_of_next hp hn
    have hmem : MicroOp.push what ∈ c.program := c.upcoming_suffix.subset (hu ▸ List.mem_cons_self)
    rcases (hc hp).2 with ⟨hprogram, -⟩ | ⟨hprogram, -⟩
    · rw [hprogram] at hmem
      obtain ⟨hbreak, hphp | hbrk⟩ := Instruction.push_status_mem hwhat hmem
      · exact Or.inl ⟨hbreak, Or.inl (by rw [hprogram, hphp])⟩
      · exact Or.inl ⟨hbreak, Or.inr (by rw [hprogram, hbrk])⟩
    · rw [hprogram] at hmem
      exact Or.inr ⟨push_status_mem_interruptProgram hwhat hmem, hprogram⟩

/-- A push of the status register: one word, with the unused bit, with the break flag if and only if
PHP or BRK makes it, and with P in its other bits. -/
structure PushesStatus (patience : Nat) (host : Host σ) (c : Cpu) (s : σ) : Prop where
  word : ∃ p b, (c.tickCycles patience host s).map BusCycle.driven = [p] ∧
    p.access = .write (stackAddress c.regs.s) b ∧ bit 5 b = true ∧
    (bit 4 b = true ↔
      c.program = Instruction.php.program ∨ c.program = Instruction.brk.program) ∧
    (bit 4 b = false ↔ c.program = interruptProgram) ∧ Status.pulled b = c.regs.p

theorem Driven.pushesStatus {variant : Variant} (h : c.Driven variant) {what : Pushed} {e : Cpu}
    (hn : c.next = .ok (.push what, e)) (hwhat : what.isStatus = true) (patience : Nat)
    (host : Host σ) (s : σ) : PushesStatus patience host c s := by
  have hregs : e.regs = c.regs := by rw [next_frame hn]
  have hpulled : { c.regs.p with brk := false, unused := true } = c.regs.p := by
    obtain ⟨hbrk, hunused⟩ := h.canonical
    rw [← hbrk, ← hunused]
  have hwrite : (e.prepare (.push what)).2 =
      .write (stackAddress c.regs.s) (what.value c.regs) := by
    simp only [prepare, hregs]
  have honce : WritesOnce patience host (.push what) _ _ c e s := writesOnce hn hwrite
  obtain ⟨cycle, hcycles, haccess⟩ := honce.once
  refine ⟨cycle.driven, what.value c.regs, by rw [hcycles]; rfl, haccess, ?_⟩
  rcases h.coherent.pushes_status hn hwhat with ⟨rfl, hprogram⟩ | ⟨rfl, hprogram⟩
  · obtain ⟨hbreak, hunused⟩ := Status.bit_toByte { c.regs.p with brk := true, unused := true }
    refine ⟨hunused, ⟨fun _ => hprogram, fun _ => hbreak⟩, ⟨fun hclear => ?_, fun hi => ?_⟩, ?_⟩
    · cases hclear.symm.trans hbreak
    · rcases hprogram with hphp | hbrk
      · exact absurd (hphp.symm.trans hi) (Instruction.program_ne_interruptProgram _)
      · exact absurd (hbrk.symm.trans hi) (Instruction.program_ne_interruptProgram _)
    · exact (Status.pulled_pushedByBreak c.regs.p).trans hpulled
  · obtain ⟨hclear, hunused⟩ := Status.bit_toByte { c.regs.p with brk := false, unused := true }
    refine ⟨hunused, ⟨fun hbreak => ?_, fun hi => ?_⟩, ⟨fun _ => hprogram, fun _ => hclear⟩, ?_⟩
    · cases hbreak.symm.trans hclear
    · rcases hi with hphp | hbrk
      · exact absurd (hphp.symm.trans hprogram) (Instruction.program_ne_interruptProgram _)
      · exact absurd (hbrk.symm.trans hprogram) (Instruction.program_ne_interruptProgram _)
    · exact (Status.pulled_pushedByInterrupt c.regs.p).trans hpulled

end

/-- The break flag is never stored. However a machine is driven, on any hosts and with any traps, if
no call writes the break flag into P, then after every call and every tick of a run P has the unused
bit and no break flag. Every status byte that the machine pushes has the unused bit; it has the
break flag when PHP or BRK pushes it, also if the vector of the BRK will be taken by an NMI, and has
it not when an interrupt does. -/
theorem break_flag_never_stored {variant : Variant} {c : Cpu} (h : c.Driven variant) :
    bit 5 c.regs.p.toByte = true ∧ bit 4 c.regs.p.toByte = false ∧
      ∀ {σ : Type} (host : Host σ) (patience : Nat) (s : σ) (what : Pushed) (e : Cpu),
        c.next = .ok (.push what, e) → what.isStatus = true → PushesStatus patience host c s := by
  obtain ⟨hbrk, hunused⟩ := Status.bit_toByte c.regs.p
  exact ⟨hunused.trans h.canonical.2, hbrk.trans h.canonical.1,
    fun host patience s _ _ hn hwhat => h.pushesStatus hn hwhat patience host s⟩

/-- NMI rises while a BRK makes its pushes: the status is pushed with the break flag, and the vector
is that of NMI. -/
theorem break_flag_never_stored_stolen :
    let host := Schedule.host { nmi := fun n => 2 ≤ n }
    let start : Cpu × Ram := (powerOn .plain, .ofMemory fun _ => 0)
    ∃ c ram, start.1.ticking 0 host 4 start.2 = .ok (c, ram) ∧ c.Driven .plain ∧
      (∃ e, c.next = .ok (.push .statusBreak, e)) ∧ c.program = Instruction.brk.program ∧
      PushesStatus 0 host c ram ∧
      ∃ d t, c.tick 0 host ram = .ok (d, t) ∧
        (d.tickCycles 0 host t).map (fun cycle => cycle.driven.addr) = [Handler.nmi.vector] := by
  intro host start
  obtain ⟨⟨c, ram⟩, hc, hat⟩ := ok_of_any (x := start.1.ticking 0 host 4 start.2)
    (p := fun r => r.1.next.toOption.any (fun a => a.1 = .push .statusBreak) ∧
      r.1.program = Instruction.brk.program ∧
      (r.1.tick 0 host r.2).toOption.any (fun a =>
        (a.1.tickCycles 0 host a.2).map (fun cycle => cycle.driven.addr) = [Handler.nmi.vector]))
    (by decide +kernel)
  obtain ⟨hnext, hprogram, htick⟩ := of_decide_eq_true hat
  have hnew : (powerOn .plain).Driven .plain := .powerOn
  have hreached := hnew.ticking hc
  obtain ⟨-, -, hpushes⟩ := break_flag_never_stored hreached
  cases hn : c.next with
  | error cause => simp [hn, Except.toOption] at hnext
  | ok a =>
    obtain ⟨op, e⟩ := a
    obtain rfl : op = .push .statusBreak := by simpa [hn, Except.toOption] using hnext
    obtain ⟨⟨d, t⟩, hd, haddr⟩ := ok_of_any htick
    exact ⟨c, ram, hc, hreached, ⟨e, hn⟩, hprogram, hpushes host 0 ram _ e hn rfl, d, t, hd,
      of_decide_eq_true haddr⟩

end Cpu

end Nmos6502
