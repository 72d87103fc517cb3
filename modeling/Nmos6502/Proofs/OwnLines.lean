import Nmos6502.Proofs.LockUp
import Nmos6502.Proofs.Port.Recorded

/-! # The lines of the processor

Of the pins the processor sets the address bus, the data bus, RW, SYNC and RDY; all others it hands
back as it got them, and on a read the data bus as well. So every word on the bus is the word before
it, outside these lines: the answer to the last word, or what a reset or the program has put on the
pins since. -/

namespace Nmos6502

variable {σ : Type}

namespace Pins

/-! ### Masks -/

/-- The lines that are high in both. -/
def meet (p q : Pins) : Pins where
  addr := p.addr &&& q.addr
  data := p.data &&& q.data
  read := p.read && q.read
  sync := p.sync && q.sync
  irq := p.irq && q.irq
  nmi := p.nmi && q.nmi
  rdy := p.rdy && q.rdy
  aec := p.aec && q.aec
  spare := p.spare &&& q.spare
  port := p.port &&& q.port
  reserved := p.reserved &&& q.reserved

theorem ofWord_and (v w : UInt64) : ofWord (v &&& w) = (ofWord v).meet (ofWord w) := by
  have hdiv : ∀ n, (v.toNat &&& w.toNat) / 2 ^ n = v.toNat / 2 ^ n &&& w.toNat / 2 ^ n :=
    fun n => Nat.and_div_two_pow
  have hbit : ∀ n, ((v.toNat &&& w.toNat) / 2 ^ n % 2 == 1) =
      ((v.toNat / 2 ^ n % 2 == 1) && (w.toNat / 2 ^ n % 2 == 1)) := by
    intro n
    have h := Nat.testBit_and v.toNat w.toNat n
    simp only [Nat.testBit_eq_decide_div_mod_eq] at h
    exact h
  simp only [ofWord, meet, UInt64.toNat_and, mk.injEq]
  refine ⟨?_, ?_, hbit 24, hbit 25, hbit 26, hbit 27, hbit 28, hbit 29, ?_, ?_, ?_⟩
  · exact UInt16.ofNat_and v.toNat w.toNat
  · exact (congrArg UInt8.ofNat (hdiv 16)).trans (UInt8.ofNat_and _ _)
  · exact (congrArg (BitVec.ofNat 2) (hdiv 30)).trans BitVec.ofNat_and
  · exact (congrArg (BitVec.ofNat 6) (hdiv 32)).trans BitVec.ofNat_and
  · exact (congrArg (BitVec.ofNat 26) (hdiv 38)).trans BitVec.ofNat_and

theorem lower_eq (lines : UInt64) (p : Pins) : p.lower lines = p.meet (ofWord (~~~lines)) := by
  rw [lower, ofWord_and, ofWord_toWord]

/-- The lines that a read sets: the address bus, RW, SYNC and RDY. -/
def readLines : UInt64 := 0xFFFF ||| rwLine ||| syncLine ||| rdyLine

def dataLines : UInt64 := 0xFF0000

/-- The lines that the processor sets. -/
def ownLines : UInt64 := readLines ||| dataLines

theorem lower_readLines (p : Pins) :
    p.lower readLines = { p with addr := 0, read := false, sync := false, rdy := false } := by
  have hmask : ofWord (~~~readLines) =
      ⟨0, -1, false, false, true, true, false, true, .allOnes 2, .allOnes 6, .allOnes 26⟩ := by
    decide
  simp only [lower_eq, hmask, meet, UInt16.and_zero, UInt8.and_neg_one, Bool.and_true,
    Bool.and_false, BitVec.and_allOnes]

theorem lower_ownLines (p : Pins) :
    p.lower ownLines =
      { p with addr := 0, data := 0, read := false, sync := false, rdy := false } := by
  have hmask : ofWord (~~~ownLines) =
      ⟨0, 0, false, false, true, true, false, true, .allOnes 2, .allOnes 6, .allOnes 26⟩ := by
    decide
  simp only [lower_eq, hmask, meet, UInt16.and_zero, UInt8.and_zero, Bool.and_true,
    Bool.and_false, BitVec.and_allOnes]

theorem lower_portLines (p : Pins) : p.lower portLines = { p with port := 0 } := by
  have hmask : ofWord (~~~portLines) =
      ⟨-1, -1, true, true, true, true, true, true, .allOnes 2, 0, .allOnes 26⟩ := by
    decide
  simp only [lower_eq, hmask, meet, UInt16.and_neg_one, UInt8.and_neg_one, Bool.and_true,
    BitVec.and_allOnes, BitVec.ofNat_eq_ofNat, BitVec.and_zero]

/-- The words are the same on every bit but those of the mask. -/
def AgreeOutside (lines : UInt64) (p q : Pins) : Prop :=
  p.toWord &&& ~~~lines = q.toWord &&& ~~~lines

instance (lines : UInt64) (p q : Pins) : Decidable (AgreeOutside lines p q) :=
  inferInstanceAs (Decidable (_ = _))

theorem agreeOutside_iff {lines : UInt64} {p q : Pins} :
    AgreeOutside lines p q ↔ p.lower lines = q.lower lines := by
  refine ⟨fun h => congrArg ofWord h, fun h => ?_⟩
  have hword := congrArg toWord h
  rwa [lower, lower, toWord_ofWord, toWord_ofWord] at hword

theorem agreeOutside_readLines (p : Pins) (addr : UInt16) (read sync rdy : Bool) :
    AgreeOutside readLines p { p with addr := addr, read := read, sync := sync, rdy := rdy } := by
  rw [agreeOutside_iff, lower_readLines, lower_readLines]

theorem agreeOutside_ownLines (p : Pins) (addr : UInt16) (data : UInt8) (read sync rdy : Bool) :
    AgreeOutside ownLines p
      { p with addr := addr, data := data, read := read, sync := sync, rdy := rdy } := by
  rw [agreeOutside_iff, lower_ownLines, lower_ownLines]

theorem agreeOutside_setPort (p : Pins) (v : UInt8) : AgreeOutside portLines (p.setPort v) p := by
  rw [agreeOutside_iff, lower_portLines, lower_portLines]
  rfl

theorem portByte_setPort_eq (p : Pins) (v : UInt8) : (p.setPort v).portByte = v &&& 0x3F := by
  have hlow : (v &&& 0x3F).toNat = v.toNat % 64 := Nat.and_two_pow_sub_one_eq_mod v.toNat 6
  rw [portByte_setPort, ← hlow, UInt8.ofNat_toNat]

end Pins

/-! ### Words one after the other -/

/-- `law` holds of every element and of what `step` has made of the elements before it. -/
def Threads {α β : Type} (law : α → β → Prop) (step : α → β → α) : α → List β → Prop
  | _, [] => True
  | a, b :: bs => law a b ∧ Threads law step (step a b) bs

theorem threads_append {α β : Type} {law : α → β → Prop} {step : α → β → α} {a : α}
    {bs cs : List β} :
    Threads law step a (bs ++ cs) ↔
      Threads law step a bs ∧ Threads law step (bs.foldl step a) cs := by
  induction bs generalizing a with
  | nil => exact (true_and _).symm.to_iff
  | cons b bs ih => rw [List.cons_append, Threads, ih, Threads, List.foldl_cons, and_assoc]

theorem threads_unit {β : Type} {law : β → Prop} {bs : List β}
    (h : Threads (fun (_ : Unit) b => law b) (fun _ _ => ()) () bs) : ∀ b ∈ bs, law b := by
  induction bs with
  | nil => exact List.forall_mem_nil _
  | cons b bs ih => exact List.forall_mem_cons.2 ⟨h.1, ih h.2⟩

namespace Host

/-- What the ticks of a machine keep: `P` between them, and in every turn `law`. The state `a` is
what `step` has made of the turns so far. -/
structure Traces {α : Type} (patience : Nat) (host : Host σ) (law : α → Cpu × σ → Prop)
    (step : α → Cpu × σ → α) (P : α → Cpu → σ → Prop) : Prop where
  drives {a : α} {c e : Cpu} {s : σ} {op : MicroOp} : P a c s → c.next = .ok (op, e) →
    law a ((e.prepare op).1.drive (e.prepare op).2, s)
  again {a : α} {c : Cpu} {s : σ} : law a (c, s) →
    law (step a (c, s)) ((c.cycle host s).1.reissued, (c.cycle host s).2)
  completes {a b : α} {c d e r : Cpu} {s u t : σ} {op : MicroOp} : P a c s →
    c.next = .ok (op, e) → c.tick patience host s = .ok (d, t) → law b (r, u) →
    r.phase = c.phase → d = (r.cycle host u).1.complete op →
    t = host.noteAny (d.notice? op) (r.cycle host u).2 → P (step b (r, u)) d t
  untimed {a : α} {c : Cpu} {s : σ} (ticks : UInt32) (trapId : Option Int32) : P a c s →
    P a { c with ticks := ticks, trapId := trapId } s
  hears {a : α} {c : Cpu} {s : σ} (n : Notice) : P a c s → P a c (host.note n s)

end Host

namespace Cpu

/-! ### Holds -/

section

variable {α : Type} {host : Host σ} {law : α → Cpu × σ → Prop} {step : α → Cpu × σ → α}

theorem threads_holdTurns
    (again : ∀ {a c s}, law a (c, s) →
      law (step a (c, s)) ((c.cycle host s).1.reissued, (c.cycle host s).2))
    (patience : Nat) {a : α} {c : Cpu} {s : σ} (h : law a (c, s)) :
    Threads law step a (c.holdTurns host patience s) := by
  induction patience generalizing a c s with
  | zero => exact ⟨h, trivial⟩
  | succ n ih =>
    rw [holdTurns_succ]
    refine ⟨h, ?_⟩
    split
    · exact ih (again h)
    · trivial

/-- A hold ends with the cycle of its last turn. -/
theorem hold_last {patience : Nat} {c : Cpu} {s : σ} {r : Cpu × σ}
    (h : c.hold host patience s = .ok r) :
    ∃ before last, c.holdTurns host patience s = before ++ [last] ∧
      last.1.phase = c.phase ∧ r = last.1.cycle host last.2 := by
  induction patience generalizing c s with
  | zero =>
    rw [hold_zero] at h
    split at h
    · cases h
    · cases h
      exact ⟨[], (c, s), rfl, rfl, rfl⟩
  | succ n ih =>
    rw [hold_succ] at h
    rw [holdTurns_succ]
    split at h
    · rename_i hrdy
      obtain ⟨before, last, hturns, hphase, hr⟩ := ih h
      exact ⟨(c, s) :: before, last, by rw [if_pos hrdy, hturns, List.cons_append], hphase, hr⟩
    · rename_i hrdy
      cases h
      exact ⟨[], (c, s), by rw [if_neg hrdy, List.nil_append], rfl, rfl⟩

theorem perform_last {patience : Nat} {a : Access} {c : Cpu} {s : σ} {r : Cpu × σ}
    (h : c.perform patience host a s = .ok r) :
    ∃ before last, c.performTurns patience host a s = before ++ [last] ∧
      last.1.phase = c.phase ∧ r = last.1.cycle host last.2 := by
  cases a with
  | read addr => exact hold_last h
  | write addr value =>
    cases h
    exact ⟨[], _, rfl, rfl, rfl⟩

end

/-- A tick that returns ends with its last turn. -/
theorem tick_last {patience : Nat} {host : Host σ} {c d : Cpu} {s t : σ}
    (h : c.tick patience host s = .ok (d, t)) :
    ∃ op e before last, c.next = .ok (op, e) ∧ c.turns patience host s = before ++ [last] ∧
      last.1.phase = c.phase ∧ d = (last.1.cycle host last.2).1.complete op ∧
      t = host.noteAny (d.notice? op) (last.1.cycle host last.2).2 := by
  obtain ⟨op, e, r, u, hn, hperform, rfl, rfl, -⟩ := tick_parts h
  obtain ⟨before, last, hturns, hphase, hr⟩ := perform_last hperform
  rw [phase_prepare, next_frame hn] at hphase
  refine ⟨op, e, before, last, hn, ?_, hphase, ?_, ?_⟩
  · simp only [turns, hn, hturns]
  · rw [← hr]
  · rw [← hr]

end Cpu

/-! ### Turns of calls -/

namespace Host.Traces

open Cpu

variable {α τ : Type} {patience fuel : Nat} {host : Host σ} {law : α → Cpu × σ → Prop}
  {step : α → Cpu × σ → α} {P : α → Cpu → σ → Prop} {a : α} {c d : Cpu} {s t : σ}

theorem turns (h : host.Traces patience law step P) (hc : P a c s) :
    Threads law step a (c.turns patience host s) := by
  cases hn : c.next with
  | error cause =>
    simp only [Cpu.turns, hn]
    trivial
  | ok next =>
    obtain ⟨op, e⟩ := next
    have hlaw := h.drives hc hn
    simp only [Cpu.turns, hn]
    generalize (e.prepare op).2 = access at hlaw ⊢
    cases access with
    | read addr => exact threads_holdTurns h.again patience hlaw
    | write addr value => exact ⟨hlaw, trivial⟩

theorem tick (h : host.Traces patience law step P) (hc : P a c s)
    (ht : c.tick patience host s = .ok (d, t)) :
    P ((c.turns patience host s).foldl step a) d t := by
  obtain ⟨op, e, before, last, hn, hturns, hphase, hd, hnote⟩ := tick_last ht
  have hthreads := h.turns hc
  rw [hturns, threads_append] at hthreads
  rw [hturns, List.foldl_append]
  exact h.completes hc hn ht hthreads.2.1 hphase hd hnote

theorem runLoop (h : host.Traces patience law step P) (trap : Trap τ) (budget : UInt32) (n : Nat)
    (hc : P a c s) (q : τ) :
    Threads law step a (c.runLoopTurns patience host trap budget n s q) ∧
      ∀ d t q', c.runLoop patience host trap budget n s q = .ok (d, t, q') →
        P ((c.runLoopTurns patience host trap budget n s q).foldl step a) d t := by
  induction n generalizing a c s q with
  | zero => exact ⟨trivial, fun d t q' hrun => by cases hrun⟩
  | succ n ih =>
    simp only [Cpu.runLoopTurns, Cpu.runLoop, threads_append, List.foldl_append]
    cases ht : c.tick patience host s with
    | error stop => exact ⟨⟨h.turns hc, trivial⟩, fun d t q' hrun => by cases hrun⟩
    | ok r =>
      obtain ⟨d, t⟩ := r
      have hd := h.tick hc ht
      cases hv : d.verdict trap budget q with
      | mk verdict q₁ =>
        cases verdict with
        | goOn =>
          simp only [hv]
          obtain ⟨hrest, hend⟩ := ih hd q₁
          exact ⟨⟨h.turns hc, hrest⟩, hend⟩
        | enough =>
          simp only [hv]
          refine ⟨⟨h.turns hc, trivial⟩, fun d' t' q' hrun => ?_⟩
          cases hrun
          exact hd
        | trapped id =>
          simp only [hv]
          refine ⟨⟨h.turns hc, trivial⟩, fun d' t' q' hrun => ?_⟩
          cases hrun
          exact h.hears _ (h.untimed d.ticks (some id) hd)

theorem call (h : host.Traces fuel law step P) (call : Nmos6502.Call) (hc : P a c s) :
    Threads law step a (call.turns fuel host c s) ∧
      ∀ d t, call.run fuel host c s = .ok (d, t) →
        P ((call.turns fuel host c s).foldl step a) d t := by
  cases call with
  | tick => exact ⟨h.turns hc, fun d t ht => h.tick hc ht⟩
  | execute trap q budget =>
    obtain ⟨hturns, hend⟩ := h.runLoop trap budget fuel (h.untimed 0 none hc) q
    refine ⟨hturns, fun d t hrun => ?_⟩
    obtain ⟨r, hloop, hr⟩ := ok_of_map hrun
    cases hr
    exact hend _ _ _ hloop

/-- What every tick keeps, every sequence of calls keeps. -/
theorem calls (h : host.Traces fuel law step P) (calls : List Nmos6502.Call) (hc : P a c s) :
    Threads law step a (callsTurns fuel host calls c s) ∧
      ∀ d t, runCalls fuel host calls c s = .ok (d, t) →
        P ((callsTurns fuel host calls c s).foldl step a) d t := by
  induction calls generalizing a c s with
  | nil =>
    refine ⟨trivial, fun d t hrun => ?_⟩
    cases hrun
    exact hc
  | cons call calls ih =>
    obtain ⟨hturns, hend⟩ := h.call call hc
    simp only [callsTurns, runCalls, threads_append, List.foldl_append]
    cases hcall : call.run fuel host c s with
    | error stop => exact ⟨⟨hturns, trivial⟩, fun d t hrun => by cases hrun⟩
    | ok r =>
      obtain ⟨hrest, hlast⟩ := ih (hend _ _ hcall)
      exact ⟨⟨hturns, hrest⟩, hlast⟩

end Host.Traces

/-! ### Other lines -/

/-- Every word is the word before it on every bit but those of the mask. Before the first word
stands `p`, and before any other the answer to the last. -/
def Host.KeepsOutside (lines : UInt64) (host : Host σ) : Pins → List (Cpu × σ) → Prop :=
  Threads (fun p turn => p.AgreeOutside lines turn.1.pins)
    fun _ turn => (host.turnCycle turn).answer

/-- The answer to the last word, or `p` if there is none. -/
def Host.lastAnswer (host : Host σ) : Pins → List (Cpu × σ) → Pins :=
  List.foldl fun _ turn => (host.turnCycle turn).answer

namespace Cpu

theorem pins_prepare (op : MicroOp) (c : Cpu) :
    (c.prepare op).1.pins = { c.pins with sync := op = .fetchOpcode || c.pins.sync } := by
  cases op with
  | write op =>
    simp only [prepare, prepareStore]
    split <;> rfl
  | vectorLow =>
    simp only [prepare, stealVector]
    split <;> rfl
  | _ => rfl

variable {patience : Nat} {host : Host σ} {c d e : Cpu} {op : MicroOp} {s t : σ}

theorem pins_drive_prepare (hn : c.next = .ok (op, e)) (a : Access) :
    ((e.prepare op).1.drive a).pins =
      ({ c.pins with sync := op = .fetchOpcode || c.pins.sync } : Pins).drive a := by
  rw [drive_eq, pins_prepare, next_frame hn]

theorem traces_ownLines (patience : Nat) (host : Host σ) :
    host.Traces patience (fun p turn => p.AgreeOutside Pins.ownLines turn.1.pins)
      (fun _ turn => (host.turnCycle turn).answer)
      (fun p c _ => c.pins = { p with sync := c.pins.sync }) where
  drives := by
    intro p c e s op hpins hn
    rw [pins_drive_prepare hn, hpins]
    cases (e.prepare op).2 with
    | read addr => exact p.agreeOutside_ownLines addr p.data true _ false
    | write addr value => exact p.agreeOutside_ownLines addr value false _ p.rdy
  again := by
    intro p c s _
    exact Pins.agreeOutside_ownLines (host.tick c.pins s).1 _ _ _ _ false
  completes := by
    rintro p q c d e r s u t op - - - - - rfl -
    exact pins_complete op _
  untimed _ _ h := h
  hears _ h := h

theorem keepsOutside_turns (patience : Nat) (host : Host σ) (c : Cpu) (s : σ) :
    host.KeepsOutside Pins.ownLines c.pins (c.turns patience host s) :=
  (traces_ownLines patience host).turns rfl

/-! ### SYNC -/

theorem Coherent.fetches_eq (hc : c.Coherent) (hn : c.next = .ok (op, e)) :
    decide (op = .fetchOpcode) = c.atBoundary := by
  cases hp : c.phase with
  | fetch =>
    cases (next_fetch hp).symm.trans hn
    simp [atBoundary, hp]
  | jammed =>
    cases (next_stuck hp).symm.trans hn
    simp [atBoundary, hp]
  | execute =>
    obtain ⟨op', ops, hu, hop⟩ := hc.upcoming hp
    cases (next_of_execute hp hu).symm.trans hn
    simp [atBoundary, hp, hop]

theorem sync_complete (op : MicroOp) (c : Cpu) :
    (c.complete op).pins.sync = (!decide (op = .fetchOpcode) && c.pins.sync) := by
  by_cases hop : op = .fetchOpcode
  · subst hop
    rfl
  · rw [complete_eq hop, settle_frame, apply_frame hop, decide_eq_false hop]
    rfl

theorem traces_sync (hsync : host.HandsBackSync) (patience : Nat) :
    host.Traces patience (fun (_ : Unit) turn => turn.1.pins.sync = turn.1.atBoundary)
      (fun _ _ => ()) (fun _ c _ => c.Coherent ∧ c.pins.sync = false) where
  drives := by
    rintro _ c e s op ⟨hc, hlow⟩ hn
    have hphase : ((e.prepare op).1.drive (e.prepare op).2).atBoundary = c.atBoundary := by
      rw [drive_eq, atBoundary, phase_prepare, next_frame hn]
      rfl
    rw [pins_drive_prepare hn, Pins.sync_drive, hlow, hphase, Bool.or_false]
    exact hc.fetches_eq hn
  again h := (hsync _ _).trans h
  completes := by
    rintro _ _ c d e r s u t op ⟨hc, -⟩ hn ht hlaw hphase rfl -
    have hanswer : (r.cycle host u).1.pins.sync = c.atBoundary := by
      rw [atBoundary, ← hphase]
      exact (hsync r.pins u).trans hlaw
    refine ⟨hc.tick ht, ?_⟩
    rw [sync_complete, hanswer, hc.fetches_eq hn, Bool.not_and_self]
  untimed _ _ h := h
  hears _ h := h

theorem phase_turns (patience : Nat) (c : Cpu) (s : σ) :
    ∀ turn ∈ c.turns patience host s, turn.1.phase = c.phase := by
  unfold turns
  cases hn : c.next with
  | error cause => exact List.forall_mem_nil _
  | ok next =>
    obtain ⟨op, e⟩ := next
    have hphase : ((e.prepare op).1.drive (e.prepare op).2).phase = c.phase := by
      rw [drive_eq, phase_prepare, next_frame hn]
    dsimp only
    generalize (e.prepare op).2 = access at hphase ⊢
    cases access with
    | read addr =>
      -- A hold leaves the phase alone.
      exact threads_unit (threads_holdTurns (fun h => h) patience hphase)
    | write addr value => exact List.forall_mem_singleton.2 hphase

/-! ### Ticks -/

/-- What a tick that makes the access puts on the pins. -/
structure Drives (patience : Nat) (host : Host σ) (a : Access) (c : Cpu) (s : σ) : Prop where
  others : host.KeepsOutside Pins.ownLines c.pins (c.turns patience host s)
  /-- The words of a read leave the data bus alone as well. -/
  reads (addr : UInt16) : a = .read addr →
    host.KeepsOutside Pins.readLines c.pins (c.turns patience host s) ∧
      ∃ turn rest, c.turns patience host s = turn :: rest ∧ turn.1.pins.addr = addr ∧
        turn.1.pins.read = true ∧ turn.1.pins.rdy = false
  writes (addr : UInt16) (value : UInt8) : a = .write addr value →
    ∃ turn, c.turns patience host s = [turn] ∧ turn.1.pins.addr = addr ∧
      turn.1.pins.data = value ∧ turn.1.pins.read = false ∧ turn.1.pins.rdy = c.pins.rdy
  fetches : c.atBoundary = true → a = .read c.regs.pc
  /-- SYNC marks the words of an opcode fetch and is off again after it. -/
  sync : host.HandsBackSync → c.pins.sync = false →
    (∀ turn ∈ c.turns patience host s, turn.1.pins.sync = c.atBoundary) ∧
      ∀ d t, c.tick patience host s = .ok (d, t) → d.pins.sync = false

theorem drives_tick (hc : c.Coherent) (hn : c.next = .ok (op, e)) (patience : Nat) (host : Host σ)
    (s : σ) : Drives patience host (e.prepare op).2 c s where
  others := keepsOutside_turns patience host c s
  reads addr ha := by
    have hpins := pins_drive_prepare hn (.read addr)
    simp only [turns, hn, ha]
    constructor
    · refine threads_holdTurns (fun _ => ?_) patience ?_
      · exact Pins.agreeOutside_readLines _ _ _ _ false
      · rw [hpins]
        exact c.pins.agreeOutside_readLines addr true _ false
    · cases patience <;> exact ⟨_, _, rfl, rfl, rfl, rfl⟩
  writes addr value ha := by
    have hrdy : ((e.prepare op).1.drive (.write addr value)).pins.rdy = c.pins.rdy := by
      rw [pins_drive_prepare hn]
      rfl
    simp only [turns, hn, ha]
    exact ⟨_, rfl, rfl, rfl, rfl, hrdy⟩
  fetches hb := by
    cases (next_fetch (of_decide_eq_true hb)).symm.trans hn
    rfl
  sync hsync hlow := by
    have htraces := traces_sync hsync patience
    refine ⟨fun turn hturn => ?_, fun d t ht => ?_⟩
    · have hturns := threads_unit (htraces.turns ⟨hc, hlow⟩) turn hturn
      rw [hturns, atBoundary, atBoundary, phase_turns patience c s turn hturn]
    · exact (htraces.tick (a := ()) ⟨hc, hlow⟩ ht).2

/-! ### Calls -/

/-- What the turns of a run put on the pins. -/
structure OwnTurns (host : Host σ) (c : Cpu) (turns : List (Cpu × σ)) : Prop where
  others : host.KeepsOutside Pins.ownLines c.pins turns
  sync : host.HandsBackSync → c.pins.sync = false →
    ∀ turn ∈ turns, turn.1.pins.sync = turn.1.atBoundary

theorem ownTurns_calls (hc : c.Coherent) (fuel : Nat) (host : Host σ)
    (calls : List Nmos6502.Call) (s : σ) : OwnTurns host c (callsTurns fuel host calls c s) where
  others := ((traces_ownLines fuel host).calls calls rfl).1
  sync hsync hlow := threads_unit ((traces_sync hsync fuel).calls calls ⟨hc, hlow⟩).1

/-- The pins that a call leaves, SYNC apart. -/
def Command.leaves (fuel : Nat) (c : Cpu) : Command → Pins
  | .reset .. => Pins.reading
  | .tick host s => host.lastAnswer c.pins (c.turns fuel host s)
  | .execute host trap budget s t =>
    host.lastAnswer c.pins (c.executeTurns fuel host trap budget s t)
  | .latchPins pins => pins
  | .setA _ | .setX _ | .setY _ | .setS _ | .setP _ | .setPc _ => c.pins

theorem pins_obey {fuel : Nat} {command : Command} (h : c.obey fuel command = .ok d) :
    d.pins = { command.leaves fuel c with sync := d.pins.sync } := by
  cases command with
  | tick host s =>
    obtain ⟨⟨d', t⟩, ht, rfl⟩ := ok_of_map h
    exact (traces_ownLines fuel host).tick (a := c.pins) rfl ht
  | execute host trap budget s q =>
    obtain ⟨⟨d', t, q'⟩, hrun, rfl⟩ := ok_of_map h
    exact ((traces_ownLines fuel host).runLoop (a := c.pins) (c := c.beginRun) trap budget fuel rfl
      q).2 _ _ _ hrun
  | _ =>
    cases h
    rfl

end Cpu

/-! ### The host of a 6510 -/

def PortEvent.word? : PortEvent → Option Pins
  | cycle c => some c.driven
  | sampled _ | shown _ => none

/-- The words that the host has seen. -/
def PortEvent.words (log : List PortEvent) : List Pins := log.filterMap word?

/-- The word of a turn with the port on its lines. -/
def Mos6510.shown (turn : Cpu × IoPort × σ) : Pins := turn.1.pins.setPort turn.2.1.pins

namespace PortHost

open PortEvent

theorem words_calls (port : IoPort) (use : PortUse) : words (port.calls use) = [] := by
  cases use <;> rfl

theorem words_append (log log' : List PortEvent) : words (log ++ log') = words log ++ words log' :=
  List.filterMap_append

variable (host : PortHost σ)

/-- In every turn the host sees one word. -/
theorem words_routed (p : Pins) (port : IoPort) (log : List PortEvent) (s : σ) :
    words (host.recorded.routed.tick p (port, log, s)).2.2.1 =
      words log ++ [p.setPort port.pins] := by
  have hone : ∀ a, words (log ++ [.cycle ⟨p.setPort port.pins, a⟩]) =
      words log ++ [p.setPort port.pins] := fun a => words_append _ _
  cases h : answersCycle (host.tick (p.setPort port.pins) s).1 with
  | true =>
    rw [@routed_answered _ host.recorded p port (log, s) h]
    simp only [recorded_tick, port.answer_recorded host (isPortAccess_of_answersCycle h)]
    rw [words_append, words_calls, List.append_nil, hone]
  | false =>
    rw [@routed_passed _ host.recorded p port (log, s) h]
    exact hone _

theorem traces_words (patience : Nat) :
    host.recorded.routed.Traces patience (fun log turn => words turn.2.2.1 = log)
      (fun log turn => log ++ [Mos6510.shown turn]) (fun log _ r => words r.2.1 = log) where
  drives hlog _ := hlog
  again := by
    rintro _ c ⟨port, log, s⟩ rfl
    exact host.words_routed c.pins port log s
  completes := by
    rintro _ _ c d e r s ⟨port, log, u⟩ t op - - - rfl - - rfl
    cases d.notice? op <;> exact host.words_routed r.pins port log u
  untimed _ _ hlog := hlog
  hears _ hlog := hlog

theorem handsBackSync_routed (h : host.HandsBackSync) : host.recorded.routed.HandsBackSync := by
  rintro p ⟨port, log, s⟩
  have hsync := h (p.setPort port.pins) s
  cases ha : answersCycle (host.tick (p.setPort port.pins) s).1 with
  | true =>
    rw [@routed_answered _ host.recorded p port (log, s) ha]
    simp only [recorded_tick, port.answer_recorded host (isPortAccess_of_answersCycle ha)]
    rw [port.answer_eq host (isPortAccess_of_answersCycle ha)]
    exact hsync
  | false =>
    rw [@routed_passed _ host.recorded p port (log, s) ha]
    exact hsync

end PortHost

/-- The host of a 6510 sees the words of the turns, with the port on the port lines. -/
structure ShowsPort (turns : List (Cpu × IoPort × List PortEvent × σ)) : Prop where
  seen (before after : List (Cpu × IoPort × List PortEvent × σ))
    (turn : Cpu × IoPort × List PortEvent × σ) : turns = before ++ turn :: after →
    PortEvent.words turn.2.2.1 = before.map Mos6510.shown
  word (turn : Cpu × IoPort × List PortEvent × σ) : turn ∈ turns →
    (Mos6510.shown turn).AgreeOutside Pins.portLines turn.1.pins ∧
      (Mos6510.shown turn).portByte = turn.2.1.pins &&& 0x3F

theorem showsPort_calls (host : PortHost σ) (fuel : Nat) (calls : List Call) (c : Cpu)
    (port : IoPort) (s : σ) :
    ShowsPort (Cpu.callsTurns fuel host.recorded.routed calls c (port, [], s)) ∧
      ∀ d port' log t,
        Cpu.runCalls fuel host.recorded.routed calls c (port, [], s) = .ok (d, port', log, t) →
          PortEvent.words log =
            (Cpu.callsTurns fuel host.recorded.routed calls c (port, [], s)).map Mos6510.shown := by
  have hfold : ∀ turns : List (Cpu × IoPort × List PortEvent × σ),
      turns.foldl (fun log turn => log ++ [Mos6510.shown turn]) [] = turns.map Mos6510.shown := by
    intro turns
    rw [List.foldl_append_eq_append, List.nil_append]
    exact (List.map_eq_flatMap (f := Mos6510.shown)).symm
  obtain ⟨hturns, hend⟩ :=
    (host.traces_words fuel).calls (a := []) (c := c) (s := (port, [], s)) calls rfl
  refine ⟨⟨fun before after turn hsplit => ?_, fun turn _ => ?_⟩, fun d port' log t hrun => ?_⟩
  · rw [hsplit, threads_append] at hturns
    exact hturns.2.1.trans (hfold before)
  · exact ⟨Pins.agreeOutside_setPort _ _, Pins.portByte_setPort_eq _ _⟩
  · exact (hend _ _ hrun).trans (hfold _)

/-! ### The whole of it -/

/-- The processor drives its own lines only. From every reachable state and on every host each tick
makes one access, a read or a write, and every word of it is the word before it outside the address
bus, the data bus, RW, SYNC and RDY; a read leaves the data bus alone as well. The first word of a
read has RW high and RDY low, a write has RW low and RDY as it came. So it goes on from call to
call, a read that is held for good included, and the word before a tick is the last answer, or what
a reset or the program has put on the pins since. On a host that hands back SYNC, and once SYNC is
low, it marks the words of the opcode fetches, and no others. The host of a 6510 sees these words
with the port on the port lines. -/
theorem only_own_lines_driven :
    (∀ {variant : Variant} {σ : Type} (host : Host σ) (patience : Nat) (c : Cpu) (s : σ),
      c.Reachable variant →
        ∃ op e, c.next = .ok (op, e) ∧ Cpu.Drives patience host (e.prepare op).2 c s) ∧
    (∀ {variant : Variant} {σ : Type} (host : Host σ) (fuel : Nat) (calls : List Call) (c : Cpu)
      (s : σ), c.Reachable variant → Cpu.OwnTurns host c (Cpu.callsTurns fuel host calls c s)) ∧
    (∀ (fuel : Nat) (command : Cpu.Command) (c d : Cpu), c.obey fuel command = .ok d →
      d.pins = { command.leaves fuel c with sync := d.pins.sync }) ∧
    ∀ {variant : Variant} {σ : Type} (host : PortHost σ) (fuel : Nat) (calls : List Call)
      (m : Mos6510) (s : σ), m.Reachable variant →
        let turns := Cpu.callsTurns fuel host.recorded.routed calls m.cpu (m.port, [], s)
        m.cpu.Reachable variant ∧ Cpu.OwnTurns host.recorded.routed m.cpu turns ∧
        (host.HandsBackSync → host.recorded.routed.HandsBackSync) ∧ ShowsPort turns ∧
        ∀ d port log t,
          Cpu.runCalls fuel host.recorded.routed calls m.cpu (m.port, [], s) =
              .ok (d, port, log, t) →
            PortEvent.words log = turns.map Mos6510.shown := by
  refine ⟨?_, ?_, fun fuel command c d h => Cpu.pins_obey h, ?_⟩
  · intro variant σ host patience c s hc
    obtain ⟨op, e, hn, -⟩ := Cpu.next_of_wellFormed hc.coherent.wellFormed
    exact ⟨op, e, hn, Cpu.drives_tick hc.coherent hn patience host s⟩
  · intro variant σ host fuel calls c s hc
    exact Cpu.ownTurns_calls hc.coherent fuel host calls s
  · intro variant σ host fuel calls m s hm
    obtain ⟨hshows, hend⟩ := showsPort_calls host fuel calls m.cpu m.port s
    exact ⟨hm.cpu, Cpu.ownTurns_calls hm.cpu.coherent fuel _ calls _, host.handsBackSync_routed,
      hshows, hend⟩

/-- Every byte read is the opcode of a store to an absolute address; the lines that are not the
processor's change in every cycle, and the first read is held once. -/
def restlessHost : PortHost Nat where
  tick p now :=
    ({ p with
        data := if p.read then 0x8D else ~~~p.data
        irq := now % 2 = 1, nmi := now % 3 = 1, rdy := now = 0, aec := now % 2 = 0
        port := BitVec.ofNat 6 (7 * now), reserved := BitVec.ofNat 26 (99 * now) }, now + 1)
  portInput now := (0, now)
  portOutput _ now := now

/-- The fetch with its repetition, the two bytes of the address and the write. -/
theorem only_own_lines_driven_store :
    let calls : List Call := [.tick, .tick, .tick, .tick]
    let turns := Cpu.callsTurns 1 restlessHost.toHost calls (Cpu.powerOn .plain) 0
    restlessHost.HandsBackSync ∧
      turns.map (fun turn => (turn.1.pins.addr, turn.1.pins.read, turn.1.pins.sync)) =
        [(0, true, true), (0, true, true), (1, true, false), (2, true, false),
          (0x8D8D, false, false)] ∧
      (∃ op e, (Cpu.powerOn .plain).next = .ok (op, e) ∧
        Cpu.Drives 1 restlessHost.toHost (e.prepare op).2 (Cpu.powerOn .plain) 0) ∧
      Cpu.OwnTurns restlessHost.toHost (Cpu.powerOn .plain) turns ∧
      (∀ turn ∈ turns, turn.1.pins.sync = turn.1.atBoundary) ∧
      (∃ d, (Cpu.powerOn .plain).obey 1 (.tick restlessHost.toHost 0) = .ok d ∧
        d.pins = { Cpu.Command.leaves 1 (Cpu.powerOn .plain) (.tick restlessHost.toHost 0) with
          sync := d.pins.sync }) ∧
      ShowsPort (Cpu.callsTurns 1 restlessHost.recorded.routed calls (Cpu.powerOn .c64)
        (IoPort.powerOn .c64, [], 0)) := by
  intro calls turns
  obtain ⟨htick, hcalls, hcommands, hport⟩ := only_own_lines_driven
  have hsync : restlessHost.HandsBackSync := fun p now => rfl
  have hplain : (Cpu.powerOn .plain).Reachable .plain := .powerOn
  have hc64 : (Mos6510.powerOn .c64).Reachable .c64 := .powerOn
  have hown := hcalls restlessHost.toHost 1 calls (Cpu.powerOn .plain) 0 hplain
  obtain ⟨d, hd⟩ := ok_of_isOk (x := (Cpu.powerOn .plain).obey 1 (.tick restlessHost.toHost 0))
    (by decide +kernel)
  exact ⟨hsync, by decide +kernel, htick restlessHost.toHost 1 _ 0 hplain, hown,
    hown.sync hsync rfl, ⟨d, hd, hcommands 1 _ _ d hd⟩,
    (hport restlessHost 1 calls (Mos6510.powerOn .c64) 0 hc64).2.2.2.1⟩

end Nmos6502
