import Nmos6502.Proofs.Beats
import Nmos6502.Proofs.Calls
import Nmos6502.Proofs.Coherence

/-! # The account of NMI

An NMI is requested by a rise of its line. A rise that finds no request pending is served exactly
once: by an interrupt sequence at the end of an instruction, or by the vector of a BRK or IRQ
sequence that is under way, unless it is pending still. -/

namespace Nmos6502

variable {σ : Type}

/-- The level of NMI in the answer, with the machine that it finds. -/
def Beat.level (beat : Beat) : Cpu × Bool := (beat.driver, beat.answer.nmi)

/-! ### Sessions -/

/-- What a machine goes through: ticks and pins that are set from outside. -/
inductive Entry where
  | tick (before : Cpu) (beats : List Beat) (after : Cpu)
  | setPins (before : Cpu) (pins : Pins)

namespace Entry

/-- The levels of NMI that arrive, each with the machine that it finds. -/
def levels : Entry → List (Cpu × Bool)
  | tick _ beats _ => beats.map Beat.level
  | setPins before pins => [(before, pins.nmi)]

def starts : Entry → Bool
  | tick _ _ after => after.Takes .nmi
  | setPins .. => false

/-- A BRK or IRQ sequence fetches its vector from where that of NMI is. -/
def steals : Entry → Bool
  | tick before beats _ =>
    match before.next with
    | .ok (.vectorLow, _) =>
      before.handler = .irq ∧ beats.head?.map (·.driver.pins.addr) = some Handler.nmi.vector
    | _ => false
  | setPins .. => false

/-- An instruction other than BRK ends. -/
def EndsInstruction : Entry → Prop
  | tick before _ after =>
    before.phase = .execute ∧ before.program = before.instruction.program ∧
      before.instruction ≠ .brk ∧ after.Between
  | setPins .. => False

def pending : Entry → Bool
  | tick _ beats _ => beats.getLast?.any Beat.requested
  | setPins .. => false

/-- The cycles of a tick are what it says on the bus. -/
def Tells (host : Host σ) : Entry → Prop
  | tick before beats after =>
    ∃ patience s t, before.tick patience host.logged ([], s) = .ok (after, beats.map Beat.cycle, t)
  | setPins .. => True

end Entry

/-- The rises of NMI that find no request pending; `level` is the level before. -/
def rises (level : Bool) : List (Cpu × Bool) → Nat
  | [] => 0
  | (found, next) :: rest =>
    (if next && !level && !found.nmiPending then 1 else 0) + rises next rest

def Cpu.tickEntries (patience : Nat) (host : Host σ) : Nat → Cpu → σ → List Entry
  | 0, _, _ => []
  | n + 1, cpu, s =>
    match cpu.tick patience host s with
    | .error _ => []
    | .ok (next, t) =>
      .tick cpu (cpu.beats patience host s) next :: next.tickEntries patience host n t

/-- Calls of `tick`, `execute` and `latchPins` that return, one after the other, and the entries
that they make. -/
inductive Session (host : Host σ) : List Entry → Cpu × σ → Cpu × σ → Prop
  | none (a : Cpu × σ) : Session host [] a a
  | tick {entries : List Entry} {a b e : Cpu × σ} (patience : Nat) :
    a.1.tick patience host a.2 = .ok b → Session host entries b e →
      Session host (.tick a.1 (a.1.beats patience host a.2) b.1 :: entries) a e
  | setPins {entries : List Entry} {a e : Cpu × σ} (pins : Pins) :
    Session host entries (a.1.latchPins pins, a.2) e →
      Session host (.setPins a.1 pins :: entries) a e
  | execute {entries : List Entry} {a b e : Cpu × σ} {τ : Type} {trap : Trap τ} {t t' : τ}
      {budget : UInt32} {k : Nat} (fuel : Nat) :
    a.1.execute fuel host trap budget a.2 t = .ok (b.1, b.2, t') →
      a.1.RunsFor fuel host trap budget a.2 t k → Session host entries b e →
      Session host (a.1.beginRun.tickEntries fuel host k a.2 ++ entries) a e

/-! ### Rises -/

def lastLevel (level : Bool) (found : List (Cpu × Bool)) : Bool :=
  (found.getLast?.map Prod.snd).getD level

theorem rises_append (level : Bool) (xs ys : List (Cpu × Bool)) :
    rises level (xs ++ ys) = rises level xs + rises (lastLevel level xs) ys := by
  induction xs generalizing level with
  | nil => simp [rises, lastLevel]
  | cons x xs ih =>
    have hlast : lastLevel level (x :: xs) = lastLevel x.2 xs := by
      cases xs with
      | nil => rfl
      | cons y ys => simp [lastLevel, List.getLast?_cons]
    rw [List.cons_append, rises, rises, ih, hlast, Nat.add_assoc]

/-- From `c` to `d` the levels in `found` arrived and `served` requests were served. -/
structure Balances (found : List (Cpu × Bool)) (served : Nat) (c d : Cpu) : Prop where
  account : served + d.nmiPending.toNat = rises c.pins.nmi found + c.nmiPending.toNat
  level : d.pins.nmi = lastLevel c.pins.nmi found

namespace Balances

theorem trans {xs ys : List (Cpu × Bool)} {m n : Nat} {c d e : Cpu} (h : Balances xs m c d)
    (h' : Balances ys n d e) : Balances (xs ++ ys) (m + n) c e := by
  have hfirst := h.account
  have hthen := h'.account
  rw [h.level] at hthen
  refine ⟨?_, ?_⟩
  · rw [rises_append]
    omega
  · rw [h'.level, h.level]
    cases ys with
    | nil => simp [lastLevel]
    | cons y ys => simp [lastLevel, List.getLast?_append, List.getLast?_cons]

theorem of_same {found : List (Cpu × Bool)} {served : Nat} {c d e : Cpu}
    (h : Balances found served d e) (hpending : d.nmiPending = c.nmiPending)
    (hlevel : d.pins.nmi = c.pins.nmi) : Balances found served c e :=
  ⟨hpending ▸ hlevel ▸ h.account, hlevel ▸ h.level⟩

theorem latchPins (pins : Pins) (c : Cpu) :
    Balances [(c, pins.nmi)] 0 c (c.latchPins pins) := by
  refine ⟨?_, rfl⟩
  simp only [rises, Cpu.latchPins]
  cases pins.nmi <;> cases c.pins.nmi <;> cases c.nmiPending <;> rfl

end Balances

/-! ### The account of a tick -/

namespace Cpu

variable {patience : Nat} {host : Host σ}

theorem balances_cycle (c : Cpu) (s : σ) :
    Balances [(c, (host.tick c.pins s).1.nmi)] 0 c (c.cycle host s).1 := by
  have h := Balances.latchPins (host.tick c.pins s).1 c
  exact ⟨h.account, h.level⟩

theorem balances_hold {c d : Cpu} {s t : σ} (h : c.hold host patience s = .ok (d, t)) :
    Balances ((c.holdBeats host patience s).map Beat.level) 0 c d := by
  induction patience generalizing c s with
  | zero =>
    simp only [hold] at h
    split at h
    · cases h
    · cases h
      exact balances_cycle c s
  | succ n ih =>
    simp only [hold] at h
    by_cases hr : (c.cycle host s).1.pins.rdy = true
    · rw [if_pos hr] at h
      simp only [holdBeats, if_pos hr, List.map_cons]
      -- RDY is let go before the read is made again; NMI stays.
      exact (balances_cycle c s).trans ((ih h).of_same rfl rfl)
    · rw [if_neg hr] at h
      cases h
      simp only [holdBeats, if_neg hr, List.map_cons, List.map_nil]
      exact balances_cycle c s

theorem balances_perform {a : Access} {c d : Cpu} {s t : σ}
    (h : c.perform patience host a s = .ok (d, t)) :
    Balances ((c.performBeats patience host a s).map Beat.level) 0
      c d := by
  cases a with
  | read addr => exact (balances_hold h).of_same rfl rfl
  | write addr value =>
    cases h
    exact (balances_cycle (c.drive (.write addr value)) s).of_same rfl rfl

theorem balances_prepare (op : MicroOp) (c : Cpu) :
    Balances [] (if op = .vectorLow ∧ c.handler = .irq ∧ c.nmiPending = true then 1 else 0) c
      (c.prepare op).1 := by
  cases op with
  | vectorLow =>
    simp only [prepare, stealVector, true_and]
    by_cases h : c.handler = .irq ∧ c.nmiPending = true
    · rw [if_pos h, if_pos h]
      exact ⟨by simp [rises, h.2], rfl⟩
    · rw [if_neg h, if_neg h]
      exact ⟨rfl, rfl⟩
  | write op => cases op <;> exact ⟨rfl, rfl⟩
  | _ => exact ⟨rfl, rfl⟩

theorem balances_poll (c : Cpu) : Balances [] (if c.poll.Takes .nmi then 1 else 0) c c.poll := by
  by_cases hn : c.nmiPending = true
  · have hpoll : c.poll = { c with nmiPending := false }.interrupt .nmi := by simp [poll, hn]
    have htakes : c.poll.Takes .nmi := by
      rw [hpoll]
      exact ⟨rfl, rfl, rfl, rfl⟩
    rw [if_pos htakes, hpoll]
    exact ⟨by rw [hn]; rfl, rfl⟩
  · by_cases hirq : c.pins.irq = true ∧ c.irqMasked = false
    · have hpoll : c.poll = c.interrupt .irq := by simp [poll, hn, hirq]
      rw [hpoll, if_neg fun h => Handler.noConfusion h.2.2.2]
      exact ⟨rfl, rfl⟩
    · have hpoll : c.poll = { c with phase := .fetch } := by simp [poll, hn, hirq]
      rw [hpoll, if_neg fun h => Phase.noConfusion h.1]
      exact ⟨rfl, rfl⟩

theorem balances_settle (masked : Bool) {c : Cpu} (h : ¬c.Takes .nmi) :
    Balances [] (if (c.settle masked).Takes .nmi then 1 else 0) c (c.settle masked) := by
  by_cases hp : c.phase = .execute
  · by_cases ha : c.ahead = []
    · rw [settle_of_end hp ha]
      split
      · exact (balances_poll { c with irqMasked := masked }).of_same rfl rfl
      · exact ⟨rfl, rfl⟩
    · rw [settle_of_ahead ha, if_neg h]
      exact ⟨rfl, rfl⟩
  · rw [settle_of_idle hp, if_neg h]
    exact ⟨rfl, rfl⟩

theorem balances_complete (op : MicroOp) {c : Cpu} (h : c.phase = .execute → c.step ≠ 0) :
    Balances [] (if (c.complete op).Takes .nmi then 1 else 0) c (c.complete op) := by
  by_cases hop : op = .fetchOpcode
  · subst hop
    rw [if_neg]
    · exact ⟨rfl, rfl⟩
    · exact fun htakes => Instruction.program_ne_interruptProgram _ htakes.2.1
  · rw [complete_eq hop]
    have hframe := apply_frame hop c.pins.data c
    refine (balances_settle _ ?_).of_same (by rw [hframe]) (by rw [hframe])
    rintro ⟨hphase, hprogram, hstep, -⟩
    by_cases hjam : op = .jam
    · subst hjam
      cases hphase
    · have hne : c.program ≠ [] := by
        rw [← program_apply hop c.pins.data c, hprogram]
        decide
      have hinside := h ((phase_apply hop hjam _ c).symm.trans hphase)
      exact step_apply_ne_zero hop hinside hne _ hstep

theorem vector_stealVector (c : Cpu) :
    c.handler = .irq ∧ c.stealVector.handler.vector = Handler.nmi.vector ↔
      c.handler = .irq ∧ c.nmiPending = true := by
  refine and_congr_right fun hirq => ?_
  unfold stealVector
  by_cases hn : c.nmiPending = true
  · simp [hirq, hn]
  · simp [hirq, hn, Handler.vector]

theorem steals_iff {c d e : Cpu} {op : MicroOp} {s : σ} (hn : c.next = .ok (op, e))
    (hbeats : c.beats patience host s =
      (e.prepare op).1.performBeats patience host (e.prepare op).2 s) :
    (Entry.tick c (c.beats patience host s) d).steals = true ↔
      op = .vectorLow ∧ e.handler = .irq ∧ e.nmiPending = true := by
  have hhandler : e.handler = c.handler := by rw [next_frame hn]
  cases op with
  | vectorLow =>
    have haddr := @head_performBeats σ patience host (e.prepare .vectorLow).2
      (e.prepare .vectorLow).1 s
    simp only [Entry.steals, hn, hbeats, haddr, ← hhandler, decide_eq_true_eq, true_and]
    rw [← vector_stealVector, Option.some.injEq]
    rfl
  | _ => simp [Entry.steals, hn]

theorem balances_tick {c d : Cpu} {s t : σ} (h : c.tick patience host s = .ok (d, t)) :
    Balances (Entry.tick c (c.beats patience host s) d).levels
      ((Entry.tick c (c.beats patience host s) d).starts.toNat +
        (Entry.tick c (c.beats patience host s) d).steals.toNat) c d := by
  obtain ⟨op, e, r, u, hn, hperform, rfl, -, hbeats, hplace⟩ := tick_parts h
  have he := next_frame hn
  have hstep : r.phase = .execute → r.step ≠ 0 := by
    intro hp
    rw [hplace.phase, he] at hp
    exact hplace.step ▸ step_next hn hp
  have hprepare := balances_prepare op e
  have hcomplete := balances_complete op hstep
  have hsteals := steals_iff (d := r.complete op) hn hbeats
  have hall := (hprepare.trans (balances_perform hperform)).trans hcomplete
  have hserved : (Entry.tick c (c.beats patience host s) (r.complete op)).starts.toNat +
      (Entry.tick c (c.beats patience host s) (r.complete op)).steals.toNat =
      (if op = .vectorLow ∧ e.handler = .irq ∧ e.nmiPending = true then 1 else 0) + 0 +
        if (r.complete op).Takes .nmi then 1 else 0 := by
    rw [Nat.add_zero, Nat.add_comm]
    congr 1
    · by_cases hs : op = .vectorLow ∧ e.handler = .irq ∧ e.nmiPending = true
      · rw [if_pos hs, hsteals.2 hs]
        rfl
      · rw [if_neg hs, Bool.eq_false_iff.2 (fun h => hs (hsteals.1 h))]
        rfl
    · by_cases ht : (r.complete op).Takes .nmi
      · simp [Entry.starts, ht]
      · simp [Entry.starts, ht]
  rw [hserved]
  refine Balances.of_same (d := e) ?_ (by rw [he]) (by rw [he])
  simpa only [List.nil_append, List.append_nil, Entry.levels, hbeats] using hall

end Cpu

/-! ### The account of a session -/

def served (entries : List Entry) : Nat :=
  entries.countP Entry.starts + entries.countP Entry.steals

theorem served_cons (entry : Entry) (entries : List Entry) :
    served (entry :: entries) = entry.starts.toNat + entry.steals.toNat + served entries := by
  simp only [served, List.countP_cons]
  cases entry.starts <;> cases entry.steals <;> simp <;> omega

theorem served_append (xs ys : List Entry) : served (xs ++ ys) = served xs + served ys := by
  simp only [served, List.countP_append]
  omega

theorem Cpu.balances_tickEntries {patience n : Nat} {host : Host σ} {c d : Cpu} {s t : σ}
    (h : c.ticking patience host n s = .ok (d, t)) :
    Balances ((c.tickEntries patience host n s).flatMap Entry.levels)
      (served (c.tickEntries patience host n s)) c d := by
  induction n generalizing c s with
  | zero =>
    cases h
    exact ⟨rfl, rfl⟩
  | succ n ih =>
    obtain ⟨e, u, ht, hticks⟩ := of_ticking_succ h
    simp only [tickEntries, ht, List.flatMap_cons, served_cons]
    exact (balances_tick ht).trans (ih hticks)

theorem Cpu.ticking_beginRun {τ : Type} {fuel : Nat} {host : Host σ} {trap : Trap τ}
    {budget : UInt32} {c c' : Cpu} {s s' : σ} {t t' : τ} {k : Nat}
    (h : c.execute fuel host trap budget s t = .ok (c', s', t'))
    (hk : c.RunsFor fuel host trap budget s t k) :
    ∃ d u, c.beginRun.ticking fuel host k s = .ok (d, u) ∧ SameButCall d c' := by
  obtain ⟨d, u, hd, hsame, -⟩ := ticking_of_execute h hk
  have halike := ticking_sameButCall fuel host k (c := c) (d := c.beginRun) rfl s
  rw [hd] at halike
  obtain ⟨⟨e, v⟩, he, hcall, -⟩ := halike.of_ok
  exact ⟨e, v, he, hcall.symm.trans hsame⟩

theorem Session.balances {host : Host σ} {entries : List Entry} {a e : Cpu × σ}
    (h : Session host entries a e) :
    Balances (entries.flatMap Entry.levels) (served entries) a.1 e.1 := by
  induction h with
  | none a => exact ⟨rfl, rfl⟩
  | tick patience ht _ ih =>
    rw [List.flatMap_cons, served_cons]
    exact (Cpu.balances_tick ht).trans ih
  | setPins pins _ ih =>
    rw [List.flatMap_cons, served_cons]
    exact (Balances.latchPins pins _).trans ih
  | execute fuel hrun hk _ ih =>
    obtain ⟨d, u, hd, hsame⟩ := Cpu.ticking_beginRun hrun hk
    rw [List.flatMap_append, served_append]
    refine Balances.of_same (d := Cpu.beginRun _) ?_ rfl rfl
    refine (Cpu.balances_tickEntries hd).trans (ih.of_same ?_ ?_)
    · rw [show _ = _ from hsame]
    · rw [show _ = _ from hsame]

/-! ### Pending requests -/

namespace Cpu

variable {patience : Nat} {host : Host σ}

/-- An instruction other than BRK that ends with a request pending is followed by the NMI
sequence. -/
theorem starts_of_pending {c d : Cpu} {s t : σ} (h : c.tick patience host s = .ok (d, t))
    (hc : c.Coherent) (hends : (Entry.tick c (c.beats patience host s) d).EndsInstruction)
    (hpending : (Entry.tick c (c.beats patience host s) d).pending = true) :
    (Entry.tick c (c.beats patience host s) d).starts = true := by
  obtain ⟨hp, hprogram, hbrk, hbetween⟩ := hends
  have hpolls : c.polls = true := by
    rcases (hc hp).2 with ⟨-, hpolls⟩ | ⟨hsequence, -⟩
    · rw [hpolls, Instruction.polls, bne_iff_ne]
      exact hbrk
    · exact absurd (hprogram.symm.trans hsequence) (Instruction.program_ne_interruptProgram _)
  obtain ⟨op, e, r, u, hn, hperform, rfl, -, hbeats, hplace⟩ := tick_parts h
  obtain ⟨next, ops, hu, hop⟩ := hc.upcoming hp
  obtain ⟨rfl, rfl⟩ : next = op ∧ c.moveTo ops = e := by
    rw [next_of_execute hp hu] at hn
    exact Prod.mk.inj (Except.ok.inj hn)
  have hrequested : r.nmiPending = true := by
    rw [← requested_perform hperform, ← hbeats]
    exact hpending
  refine decide_eq_true ?_
  have hphase : r.phase = .execute := hplace.phase.trans hp
  rcases complete_cases hop hphase with ⟨-, hjam⟩ | ⟨hne, hsame, hinside, -⟩ | ⟨b, rfl, -, -, hend⟩
  · exact absurd hbetween (not_between_of_jammed hjam)
  · have hstep : r.step ≠ 0 := hplace.step ▸ step_next hn hp
    have hprogram : r.program ≠ [] := fun h => hne (by rw [ahead, h, List.drop_nil])
    exact absurd hbetween <| not_between_of_inside hinside <|
      hsame ▸ step_apply_ne_zero hop hstep hprogram _
  · have hfound : (r.apply next r.pins.data).nmiPending = true := by
      rw [apply_frame hop]
      exact hrequested
    rw [hend, if_pos (hplace.polls.trans hpolls), poll, if_pos hfound]
    exact ⟨rfl, rfl, rfl, rfl⟩

end Cpu

/-! ### The account -/

/-- The entry is that of a tick that returned. If the first machine is coherent, so is the one that
made the tick. -/
inductive Entry.From (host : Host σ) (first : Cpu) : Entry → Prop
  | tick {patience : Nat} {c d : Cpu} {s t : σ} :
    c.tick patience host s = .ok (d, t) → (first.Coherent → c.Coherent) →
      From host first (.tick c (c.beats patience host s) d)
  | setPins (c : Cpu) (pins : Pins) : From host first (.setPins c pins)

theorem Entry.From.later {host : Host σ} {first second : Cpu} {entry : Entry}
    (h : entry.From host second) (hc : first.Coherent → second.Coherent) :
    entry.From host first := by
  cases h with
  | tick ht hsecond => exact .tick ht fun hfirst => hsecond (hc hfirst)
  | setPins c pins => exact .setPins c pins

theorem Cpu.from_of_mem_tickEntries {patience n : Nat} {host : Host σ} {c : Cpu} {s : σ}
    {entry : Entry} (h : entry ∈ c.tickEntries patience host n s) : entry.From host c := by
  induction n generalizing c s with
  | zero => cases h
  | succ n ih =>
    simp only [tickEntries] at h
    split at h
    · cases h
    · rename_i d t ht
      rcases List.mem_cons.1 h with rfl | hrest
      · exact .tick ht id
      · exact (ih hrest).later fun hc => hc.tick ht

theorem Session.from_of_mem {host : Host σ} {entries : List Entry} {a e : Cpu × σ}
    (h : Session host entries a e) {entry : Entry} (hmem : entry ∈ entries) :
    entry.From host a.1 := by
  induction h with
  | none a => cases hmem
  | tick patience ht _ ih =>
    rcases List.mem_cons.1 hmem with rfl | hrest
    · exact .tick ht id
    · exact (ih hrest).later fun hc => hc.tick ht
  | @setPins entries a e pins _ ih =>
    rcases List.mem_cons.1 hmem with rfl | hrest
    · exact .setPins _ pins
    · exact (ih hrest).later fun hc => hc
  | execute fuel hrun hk _ ih =>
    have hbegin : ∀ c : Cpu, c.Coherent → c.beginRun.Coherent := fun _ hc => hc
    rcases List.mem_append.1 hmem with hticks | hrest
    · exact (Cpu.from_of_mem_tickEntries hticks).later (hbegin _)
    · obtain ⟨d, u, hd, hsame⟩ := Cpu.ticking_beginRun hrun hk
      refine (ih hrest).later fun hc => ?_
      have hcoherent : d.Coherent :=
        Cpu.ticking_keeps (P := Cpu.Coherent) (fun c s d t hc ht => hc.tick ht) (hbegin _ hc) hd
      rw [show _ = _ from hsame]
      exact hcoherent

/-- Requests for NMI are neither lost nor served twice. Over ticks, runs and pins that are set, on
any host: every rise that finds no request pending, and a request that is pending at the start, is
served by an NMI sequence, served by the vector of a BRK or IRQ sequence, or pending at the end. An
instruction other than BRK that ends with a request pending is followed by the NMI sequence. -/
theorem nmi_account {host : Host σ} {entries : List Entry} {a e : Cpu × σ}
    (h : Session host entries a e) :
    entries.countP Entry.starts + entries.countP Entry.steals + e.1.nmiPending.toNat =
        rises a.1.pins.nmi (entries.flatMap Entry.levels) + a.1.nmiPending.toNat ∧
      ∀ entry ∈ entries, entry.Tells host ∧
        (a.1.Coherent → entry.EndsInstruction → entry.pending = true → entry.starts = true) := by
  refine ⟨h.balances.account, fun entry hmem => ?_⟩
  cases h.from_of_mem hmem with
  | tick ht hc =>
    exact ⟨⟨_, _, _, Cpu.beats_logged ht⟩, fun hfirst => Cpu.starts_of_pending ht (hc hfirst)⟩
  | setPins c pins => exact ⟨trivial, fun _ hends => hends.elim⟩

/-- A request that is made before a run over NOPs is served in it. -/
theorem nmi_account_nops :
    let host := Schedule.quiet.host
    let start : Cpu × Ram := (.powerOn .plain, .ofMemory fun _ => 0xEA)
    ∃ entries e, Session host entries start e ∧ rises false (entries.flatMap Entry.levels) = 1 ∧
      entries.countP Entry.starts + entries.countP Entry.steals + e.1.nmiPending.toNat = 1 := by
  intro host start
  let pins : Pins := { start.1.pins with nmi := true }
  let c := start.1.latchPins pins
  obtain ⟨⟨d, ram, _⟩, hrun⟩ := ok_of_isOk (x := c.execute 9 host .never 1 start.2 ())
    (by decide +kernel)
  have hk : c.RunsFor 9 host .never 1 start.2 () 9 := by decide +kernel
  have hafter :
      Session host (c.beginRun.tickEntries 9 host 9 start.2 ++ []) (c, start.2) (d, ram) :=
    .execute (a := (c, start.2)) (b := (d, ram)) 9 hrun hk (.none _)
  have hsession := Session.setPins (a := start) pins hafter
  have hrises : rises false ((Entry.setPins start.1 pins ::
      (c.beginRun.tickEntries 9 host 9 start.2 ++ [])).flatMap Entry.levels) = 1 := by
    decide +kernel
  exact ⟨_, _, hsession, hrises, (nmi_account hsession).1.trans (congrArg (· + 0) hrises)⟩

end Nmos6502

