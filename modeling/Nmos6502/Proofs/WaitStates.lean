import Nmos6502.Proofs.Ram
import Nmos6502.Proofs.Timing

/-! # Wait states

A host that holds reads makes the machine slower and changes nothing else: the registers, the
latches, the memory and the accesses that complete are those of a run without wait states. -/

namespace Nmos6502

def Pins.released (p : Pins) : Pins := { p with rdy := false }

namespace Cpu

/-- The machine without RDY and the clocks. -/
def untimed (c : Cpu) : Cpu := { c with pins := c.pins.released, ticks := 0, total := Ticks.zero }

theorem pins_of_untimed {c d : Cpu} (h : c.untimed = d.untimed) :
    c.pins.released = d.pins.released := by
  have hp := congrArg pins h
  exact hp

theorem nmiPending_of_untimed {c d : Cpu} (h : c.untimed = d.untimed) :
    c.nmiPending = d.nmiPending := by
  have hp := congrArg nmiPending h
  exact hp

theorem untimed_eq_retimed (c : Cpu) :
    c.untimed = c.retimed ⟨false, 0, Ticks.zero, c.trapId⟩ := rfl

theorem prepare_untimed (op : MicroOp) (c : Cpu) :
    c.untimed.prepare op = ((c.prepare op).1.untimed, (c.prepare op).2) := by
  have hid : (c.prepare op).1.trapId = c.trapId := congrArg Timing.trapId (c.timing_prepare op)
  rw [untimed_eq_retimed, prepare_retimed, untimed_eq_retimed, hid]

theorem complete_untimed (op : MicroOp) (c : Cpu) :
    c.untimed.complete op = (c.complete op).untimed := by
  have hid : (c.complete op).trapId = c.trapId := congrArg Timing.trapId (c.timing_complete op)
  rw [untimed_eq_retimed, complete_retimed, untimed_eq_retimed, hid]

theorem receive_untimed {c d : Cpu} (h : c.untimed = d.untimed) {x y : Exchange}
    (hp : x.pins.released = y.pins.released) (hn : x.nmiPending = y.nmiPending) :
    (c.receive x).untimed = (d.receive y).untimed := by
  have hx : (c.receive x).untimed =
      { c.untimed with pins := x.pins.released, nmiPending := x.nmiPending } := rfl
  have hy : (d.receive y).untimed =
      { d.untimed with pins := y.pins.released, nmiPending := y.nmiPending } := rfl
  rw [hx, hy, h, hp, hn]

theorem next_untimed {c d : Cpu} (h : c.untimed = d.untimed) :
    (∃ cause, c.next = .error cause ∧ d.next = .error cause) ∨
      ∃ op c' d', c.next = .ok (op, c') ∧ d.next = .ok (op, d') ∧ c'.untimed = d'.untimed := by
  have hu := h
  simp only [untimed, mk.injEq] at hu
  obtain ⟨-, -, -, hphase, -, hprogram, hstep, -, -, hcrossed, -⟩ := hu
  rcases next_alike hphase fun _ => ⟨hprogram, hstep, hcrossed⟩ with
    herror | ⟨op, c', d', hc, hd, hs⟩
  · exact Or.inl herror
  · refine Or.inr ⟨op, c', d', hc, hd, ?_⟩
    rw [next_frame hc, next_frame hd, hs hstep]
    exact congrArg (fun e : Cpu => { e with step := d'.step }) h

/-! ### The clock -/

theorem total_next {c d : Cpu} {op : MicroOp} (h : c.next = .ok (op, d)) : d.total = c.total := by
  rw [next_frame h]

theorem total_prepare (op : MicroOp) (c : Cpu) : (c.prepare op).1.total = c.total :=
  congrArg Timing.total (c.timing_prepare op)

theorem total_complete (op : MicroOp) (c : Cpu) : (c.complete op).total = c.total :=
  congrArg Timing.total (c.timing_complete op)

end Cpu

/-! ### Transfers -/

namespace BusCycle

/-- Address, direction and byte of the cycle. -/
def transfer (c : BusCycle) : UInt16 × Bool × UInt8 := (c.driven.addr, c.driven.read, c.answer.data)

end BusCycle

def Access.transfer (m : Memory) : Access → UInt16 × Bool × UInt8
  | read addr => (addr, true, m addr)
  | write addr value => (addr, false, value)

namespace BusCycle

def transfers (log : List BusCycle) : List (UInt16 × Bool × UInt8) :=
  (log.filter fun c => !c.isHeld).map transfer

def heldCount (log : List BusCycle) : Nat := (log.filter isHeld).length

theorem transfers_append_held {log hs : List BusCycle} (h : ∀ c ∈ hs, c.isHeld = true)
    (c : BusCycle) (hc : c.isHeld = false) :
    transfers (log ++ hs ++ [c]) = transfers log ++ [c.transfer] := by
  have hnil : hs.filter (fun c => !c.isHeld) = [] := by
    simpa [List.filter_eq_nil_iff] using h
  simp [transfers, hnil, hc]

theorem heldCount_append_held {log hs : List BusCycle} (h : ∀ c ∈ hs, c.isHeld = true)
    (c : BusCycle) (hc : c.isHeld = false) :
    heldCount (log ++ hs ++ [c]) = heldCount log + hs.length := by
  have hall : hs.filter isHeld = hs := List.filter_eq_self.2 h
  simp [heldCount, hall, hc]

end BusCycle

open BusCycle

/-! ### A run with wait states beside a run without -/

/-- The second run is the first one with held cycles in between. -/
structure SameButTiming (a b : Cpu × List BusCycle × Ram) : Prop where
  machine : a.1.untimed = b.1.untimed
  ram : a.2.2 = b.2.2
  transfers : transfers a.2.1 = transfers b.2.1
  total : b.1.total.count = a.1.total.count + heldCount b.2.1

namespace Schedule

theorem steady_holds (sch : Schedule) (n : Nat) (a : Access) : sch.steady.holds n a = 0 := by
  cases a <;> rfl

theorem answer_steady (sch : Schedule) (a : Access) {p q : Pins}
    (h : p.released = q.released) (ram : Ram) :
    (sch.steady.answer a p ram).released = (sch.answer a q ram).released := by
  have hr : ∀ (t : Schedule) (r : Pins),
      (t.answer a r ram).released = (t.answer a r.released ram).released := by
    intro t r
    cases a <;> rfl
  rw [hr sch.steady, hr sch, h]
  cases a <;> rfl

theorem transfer_answer (sch : Schedule) (a : Access) {p d : Pins} (h : (p.drive a).SameRequest d)
    (ram : Ram) : BusCycle.transfer ⟨d, sch.answer a p ram⟩ = a.transfer ram.memory := by
  simp only [BusCycle.transfer, h.addr, h.read]
  cases a <;> rfl

theorem isHeld_answer (sch : Schedule) (a : Access) {p d : Pins} (h : (p.drive a).SameRequest d)
    (ram : Ram) : BusCycle.isHeld ⟨d, sch.answer a p ram⟩ = false := by
  simp only [BusCycle.isHeld, h.read]
  cases a <;> rfl

theorem performed_untimed (sch : Schedule) (op : MicroOp) {c d : Cpu} (h : c.untimed = d.untimed)
    (ram : Ram) (n m : Nat) :
    (sch.steady.performed op c ram n).untimed = (sch.performed op d ram m).untimed := by
  have hpc := Cpu.prepare_untimed op c
  rw [h, Cpu.prepare_untimed op d] at hpc
  obtain ⟨hu, ha⟩ := Prod.mk.inj hpc
  have hpins := Cpu.pins_of_untimed hu
  have hnmi : (d.prepare op).1.pins.nmi = (c.prepare op).1.pins.nmi := by
    have hn := congrArg Pins.nmi hpins
    exact hn
  unfold performed
  rw [← Cpu.complete_untimed, ← Cpu.complete_untimed]
  congr 1
  apply Cpu.receive_untimed hu.symm
  · rw [← ha]
    exact sch.answer_steady _ hpins.symm ram
  · rw [hnmi, Cpu.nmiPending_of_untimed hu]
    rfl

theorem total_performed (sch : Schedule) (op : MicroOp) (c : Cpu) (ram : Ram) (n : Nat) :
    (sch.performed op c ram n).total.count = c.total.count + (n + 1) := by
  rw [performed, Cpu.total_complete, ← Cpu.total_prepare op c]
  rfl

/-- One tick with wait states beside one without: both end, unless the program has run out. -/
theorem tick_sameButTiming (sch : Schedule) {c d : Cpu} {logc logd : List BusCycle} {ram : Ram}
    (h : SameButTiming (c, logc, ram) (d, logd, ram)) (hram : ram.held = 0) :
    (∃ c' d' logc' logd' ram', (∀ q, (sch.held ram.accesses).length ≤ q →
        c.tick q sch.steady.host.logged (logc, ram) = .ok (c', logc', ram') ∧
          d.tick q sch.host.logged (logd, ram) = .ok (d', logd', ram')) ∧
        SameButTiming (c', logc', ram') (d', logd', ram') ∧ ram'.held = 0) ∨
      ∃ cause, ∀ q, c.tick q sch.steady.host.logged (logc, ram) = .error (.fault cause) ∧
        d.tick q sch.host.logged (logd, ram) = .error (.fault cause) := by
  rcases Cpu.next_untimed h.machine with ⟨cause, hc, hd⟩ | ⟨op, c', d', hc, hd, hu⟩
  · refine Or.inr ⟨cause, fun q => ?_⟩
    simp only [Cpu.tick_eq, hc, hd, and_self]
  · left
    have ha : (c'.prepare op).2 = (d'.prepare op).2 := by
      have hpc := Cpu.prepare_untimed op c'
      rw [hu, Cpu.prepare_untimed op d'] at hpc
      exact (Prod.mk.inj hpc).2.symm
    have hholds : sch.holds ram.accesses (d'.prepare op).2 ≤ (sch.held ram.accesses).length := by
      cases (d'.prepare op).2 with
      | read addr => exact Nat.le_refl _
      | write addr v => exact Nat.zero_le _
    obtain ⟨hsc, pc, -, hclen, hcreq, hct⟩ := sch.steady.tick_logged hc logc ram hram
      (sch.held ram.accesses).length (by rw [steady_holds]; exact Nat.zero_le _)
    obtain ⟨hsd, pd, hdheld, -, hdreq, hdt⟩ := sch.tick_logged hd logd ram hram _ hholds
    obtain rfl : hsc = [] := List.eq_nil_of_length_eq_zero (hclen.trans (steady_holds _ _ _))
    rw [← ha] at hdt hdreq
    refine ⟨_, _, _, _, _, fun q hq => ⟨Cpu.tick_mono hq hct, Cpu.tick_mono hq hdt⟩, ?_, rfl⟩
    have hch := sch.steady.isHeld_answer (c'.prepare op).2 hcreq ram
    have hdh := sch.isHeld_answer (c'.prepare op).2 hdreq ram
    refine ⟨sch.performed_untimed op hu ram _ _, rfl, ?_, ?_⟩
    · rw [transfers_append_held (by simp) _ hch, transfers_append_held hdheld _ hdh,
        transfer_answer sch.steady _ hcreq, transfer_answer sch _ hdreq]
      have ht := h.transfers
      simp only at ht
      rw [ht]
    · rw [heldCount_append_held hdheld _ hdh, total_performed, total_performed, Cpu.total_next hc,
        Cpu.total_next hd]
      have htot := h.total
      simp only [List.length_nil] at htot ⊢
      omega

theorem ticking_sameButTiming_from (sch : Schedule) (k : Nat) {c d : Cpu}
    {logc logd : List BusCycle} {ram : Ram}
    (h : SameButTiming (c, logc, ram) (d, logd, ram)) (hram : ram.held = 0) :
    ∃ p, ∀ q, p ≤ q →
      EndAlike SameButTiming (c.ticking q sch.steady.host.logged k (logc, ram))
        (d.ticking q sch.host.logged k (logd, ram)) ∧
      (d.WellFormed → ∃ r, d.ticking q sch.host.logged k (logd, ram) = .ok r) := by
  induction k generalizing c d logc logd ram with
  | zero => exact ⟨0, fun q _ => ⟨.ok h, fun _ => ⟨_, rfl⟩⟩⟩
  | succ k ih =>
    rcases sch.tick_sameButTiming h hram with
      ⟨c', d', logc', logd', ram', htick, hsame, hram'⟩ | ⟨cause, htick⟩
    · -- The patience has to last for the longest hold of all ticks.
      obtain ⟨p, hp⟩ := ih hsame hram'
      refine ⟨max p (sch.held ram.accesses).length, fun q hq => ?_⟩
      obtain ⟨hc, hd⟩ := htick q (by omega)
      obtain ⟨halike, hok⟩ := hp q (by omega)
      simp only [Cpu.ticking, hc, hd]
      exact ⟨halike, fun hw => hok (Cpu.wellFormed_of_tick hw hd)⟩
    · refine ⟨0, fun q _ => ?_⟩
      obtain ⟨hc, hd⟩ := htick q
      simp only [Cpu.ticking, hc, hd]
      refine ⟨.error _, fun hw => ?_⟩
      rcases Cpu.tick_wellFormed hw q sch.host.logged (logd, ram) with ⟨e, u, he, -⟩ | he
      · rw [hd] at he
        cases he
      · rw [hd] at he
        cases he

/-- Wait states change only the timing. A schedule holds every read a finite number of times, with
anything on the data bus, and may raise RDY on writes; the same interrupt lines without any of it
give the same run, and a machine that is inside its program has one. -/
theorem ticking_sameButTiming (sch : Schedule) (cpu : Cpu) (m : Memory) (k : Nat) :
    ∃ p, ∀ q, p ≤ q →
      EndAlike SameButTiming (cpu.ticking q sch.steady.host.logged k ([], .ofMemory m))
        (cpu.ticking q sch.host.logged k ([], .ofMemory m)) ∧
      (cpu.WellFormed → ∃ r, cpu.ticking q sch.host.logged k ([], .ofMemory m) = .ok r) :=
  sch.ticking_sameButTiming_from k ⟨rfl, rfl, rfl, rfl⟩ rfl

end Schedule

end Nmos6502
