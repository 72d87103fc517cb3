import Nmos6502.Proofs.Port.Recorded
import Nmos6502.Proofs.Ram
import Nmos6502.Proofs.Turns
import Nmos6502.Proofs.Unread

/-! # A port that is left alone

Between the processor of a 6510 and its host stands the port, and it puts its level on six lines of
every word. As long as no cycle is at one of its two addresses nothing but these lines tells the
machine from one without a port. -/

namespace Nmos6502

variable {σ τ : Type}

/-! ### Everything but the port lines -/

def Pins.SameButPort (p q : Pins) : Prop := ∃ lines, q = { p with port := lines }

def Cpu.SameButPort (c d : Cpu) : Prop := ∃ lines, d = { c with pins.port := lines }

/-- The host does not look at the port lines: from states that are related by `R` it gives the same
answers, port lines apart. -/
structure Host.IgnoresPort (R : σ → σ → Prop) (host : Host σ) : Prop where
  answers (p q : Pins) (s t : σ) : p.SameButPort q → R s t →
    (host.tick p s).1.SameButPort (host.tick q t).1 ∧ R (host.tick p s).2 (host.tick q t).2
  hears (n : Notice) (s t : σ) : R s t → R (host.note n s) (host.note n t)

structure Trap.IgnoresPort (Q : τ → τ → Prop) (trap : Trap τ) : Prop where
  asks (pc : UInt16) (ticks : UInt32) (p q : Pins) (u v : τ) : p.SameButPort q → Q u v →
    (trap.ask pc ticks p u).1 = (trap.ask pc ticks q v).1 ∧
      Q (trap.ask pc ticks p u).2 (trap.ask pc ticks q v).2

namespace Cpu

variable (c : Cpu) (lines : BitVec 6)

theorem prepare_port (op : MicroOp) :
    prepare op { c with pins.port := lines } =
      ({ (c.prepare op).1 with pins.port := lines }, (c.prepare op).2) := by
  have hunread := c.unread_prepare op
  refine (c.prepare_withUnread { c.unread with port := lines } op).trans ?_
  rw [← hunread]
  rfl

theorem complete_port (op : MicroOp) :
    complete op { c with pins.port := lines } = { c.complete op with pins.port := lines } := by
  have hunread := c.unread_complete op
  refine (c.complete_withUnread { c.unread with port := lines } op).trans ?_
  rw [← hunread]
  rfl

theorem next_port :
    (∃ cause, c.next = .error cause ∧ next { c with pins.port := lines } = .error cause) ∨
      ∃ op d, c.next = .ok (op, d) ∧
        next { c with pins.port := lines } = .ok (op, { d with pins.port := lines }) := by
  rcases c.next_withUnread { c.unread with port := lines } with herror | ⟨op, d, hc, hd⟩
  · exact Or.inl herror
  · refine Or.inr ⟨op, d, hc, hd.trans ?_⟩
    rw [next_frame hc]
    rfl

theorem drive_port (a : Access) :
    drive a { c with pins.port := lines } = { c.drive a with pins.port := lines } := by
  cases a <;> rfl

end Cpu

/-! ### Up to the first stop -/

/-- The lists agree element by element up to the first one that stops the comparison, which is
compared still, or to their common end. -/
inductive UpTo {α β : Type} (stop : α → Prop) (T : α → β → Prop) : List α → List β → Prop
  | nil : UpTo stop T [] []
  | stop {a : α} {b : β} {as : List α} {bs : List β} :
    T a b → stop a → UpTo stop T (a :: as) (b :: bs)
  | next {a : α} {b : β} {as : List α} {bs : List β} :
    T a b → ¬stop a → UpTo stop T as bs → UpTo stop T (a :: as) (b :: bs)

theorem UpTo.append {α β : Type} {stop : α → Prop} {T : α → β → Prop} {as as' : List α}
    {bs bs' : List β} (h : UpTo stop T as bs)
    (hrest : (∀ a ∈ as, ¬stop a) → UpTo stop T as' bs') : UpTo stop T (as ++ as') (bs ++ bs') := by
  induction h with
  | nil => exact hrest (fun _ ha => nomatch ha)
  | stop hab hstop => exact .stop hab hstop
  | next hab hgo _ ih =>
    exact .next hab hgo (ih fun has => hrest (List.forall_mem_cons.2 ⟨hgo, has⟩))

def AtPort (turn : Cpu × σ) : Prop := turn.1.pins.isPortAccess = true

instance (turn : Cpu × σ) : Decidable (AtPort turn) := inferInstanceAs (Decidable (_ = true))

/-! ### With and without a port -/

/-- A machine without a port and one with it, each with its host: the port has not been used, and
the host has been asked and told nothing for it. -/
structure Twins (R : σ → σ → Prop) (port : IoPort) (a : Cpu × σ)
    (b : Cpu × IoPort × List PortEvent × σ) : Prop where
  cpu : a.1.SameButPort b.1
  port : b.2.1 = port
  silent : ∀ e ∈ b.2.2.1, ∃ c, e = .cycle c
  host : R a.2 b.2.2.2

/-- The turns agree up to the first at the port, and if there is none the results agree. -/
structure Follows {α β : Type} (R : σ → σ → Prop) (port : IoPort) (S : α → β → Prop)
    (as : List (Cpu × σ)) (bs : List (Cpu × IoPort × List PortEvent × σ)) (x : Except Stop α)
    (y : Except Stop β) : Prop where
  turns : UpTo AtPort (Twins R port) as bs
  ends : (∀ a ∈ as, ¬AtPort a) → EndAlike S x y

namespace Follows

variable {α β γ δ : Type} {R : σ → σ → Prop} {port : IoPort} {S : α → β → Prop}
  {S' : γ → δ → Prop} {as as' : List (Cpu × σ)} {bs bs' : List (Cpu × IoPort × List PortEvent × σ)}
  {x : Except Stop α} {y : Except Stop β} {x' : Except Stop γ} {y' : Except Stop δ}

theorem nil (h : EndAlike S x y) : Follows R port S [] [] x y := ⟨.nil, fun _ => h⟩

theorem cons {a : Cpu × σ} {b : Cpu × IoPort × List PortEvent × σ} (h : Twins R port a b)
    (hrest : ¬AtPort a → Follows R port S as bs x y) :
    Follows R port S (a :: as) (b :: bs) x y := by
  by_cases hstop : AtPort a
  · exact ⟨.stop h hstop, fun hall => absurd hstop (List.forall_mem_cons.1 hall).1⟩
  · exact ⟨.next h hstop (hrest hstop).turns,
      fun hall => (hrest hstop).ends (List.forall_mem_cons.1 hall).2⟩

theorem append (h : Follows R port S as bs x y)
    (hrest : EndAlike S x y → Follows R port S' as' bs' x' y') :
    Follows R port S' (as ++ as') (bs ++ bs') x' y' where
  turns := h.turns.append fun hall => (hrest (h.ends hall)).turns
  ends := by
    intro hall
    obtain ⟨hfirst, hlast⟩ := List.forall_mem_append.1 hall
    exact (hrest (h.ends hfirst)).ends hlast

end Follows

namespace Twins

variable {host : PortHost σ} {R : σ → σ → Prop} {port : IoPort} {c d : Cpu} {s : σ}
  {r : IoPort × List PortEvent × σ}

theorem cycle (hback : host.HandsBack) (hignores : host.toHost.IgnoresPort R)
    (h : Twins R port (c, s) (d, r)) (hoff : ¬AtPort (c, s)) :
    Twins R port (c.cycle host.toHost s) (d.cycle host.recorded.routed r) := by
  obtain ⟨⟨lines, rfl⟩, rfl, hsilent, hr⟩ := h
  obtain ⟨port, log, t⟩ := r
  obtain ⟨⟨lines', hanswer⟩, ht⟩ := hignores.answers c.pins
    (Pins.setPort port.pins { c.pins with port := lines }) s t ⟨_, rfl⟩ hr
  -- The host has handed the address back, so the port looks at the one that was driven.
  have hpass : PortHost.answersCycle
      (host.tick (Pins.setPort port.pins { c.pins with port := lines }) t).1 = false := by
    have haddr := (hback (Pins.setPort port.pins { c.pins with port := lines }) t).1
    rw [PortHost.answersCycle, Pins.isPortAccess, haddr]
    rw [AtPort, Pins.isPortAccess, Bool.not_eq_true] at hoff
    exact (congrArg (· && _) hoff).trans (Bool.false_and _)
  have htick := @PortHost.routed_passed _ host.recorded { c.pins with port := lines } port (log, t)
    hpass
  simp only [Cpu.cycle, htick, PortHost.recorded_tick, hanswer]
  refine ⟨⟨_, rfl⟩, rfl, fun e he => ?_, ht⟩
  rcases List.mem_append.1 he with he | he
  · exact hsilent e he
  · exact ⟨_, List.mem_singleton.1 he⟩

theorem hold (hback : host.HandsBack) (hignores : host.toHost.IgnoresPort R) (patience : Nat)
    (h : Twins R port (c, s) (d, r)) :
    Follows R port (Twins R port) (c.holdTurns host.toHost patience s)
      (d.holdTurns host.recorded.routed patience r) (c.hold host.toHost patience s)
      (d.hold host.recorded.routed patience r) := by
  have hlevel : ∀ {a b}, Twins R port a b → b.1.pins.rdy = a.1.pins.rdy := by
    rintro a b ⟨⟨lines, hb⟩, -, -, -⟩
    rw [hb]
  induction patience generalizing c d s r with
  | zero =>
    refine .cons h fun hoff => .nil ?_
    have hcycle := h.cycle hback hignores hoff
    simp only [Cpu.hold, hlevel hcycle]
    split
    · exact .error _
    · exact .ok hcycle
  | succ n ih =>
    simp only [Cpu.holdTurns, Cpu.hold]
    refine .cons h fun hoff => ?_
    have hcycle := h.cycle hback hignores hoff
    rw [hlevel hcycle]
    split
    · -- Both hold, and go on from the answer with RDY low.
      refine ih ⟨?_, hcycle.port, hcycle.silent, hcycle.host⟩
      obtain ⟨lines, hd⟩ := hcycle.cpu
      exact ⟨lines, by rw [hd]⟩
    · exact .nil (.ok hcycle)

theorem perform (hback : host.HandsBack) (hignores : host.toHost.IgnoresPort R) (patience : Nat)
    (a : Access) (h : Twins R port (c, s) (d, r)) :
    Follows R port (Twins R port) (c.performTurns patience host.toHost a s)
      (d.performTurns patience host.recorded.routed a r) (c.perform patience host.toHost a s)
      (d.perform patience host.recorded.routed a r) := by
  have hdriven : Twins R port (c.drive a, s) (d.drive a, r) := by
    obtain ⟨⟨lines, rfl⟩, hport, hsilent, hr⟩ := h
    exact ⟨⟨lines, c.drive_port lines a⟩, hport, hsilent, hr⟩
  cases a with
  | read addr => exact hdriven.hold hback hignores patience
  | write addr value =>
    exact .cons hdriven fun hoff => .nil (.ok (hdriven.cycle hback hignores hoff))

theorem noteAny (hignores : host.toHost.IgnoresPort R) (n : Option Notice)
    (h : Twins R port (c, s) (d, r)) :
    Twins R port (c, host.toHost.noteAny n s) (d, host.recorded.routed.noteAny n r) := by
  cases n with
  | none => exact h
  | some n => exact ⟨h.cpu, h.port, h.silent, hignores.hears n _ _ h.host⟩

theorem tick (hback : host.HandsBack) (hignores : host.toHost.IgnoresPort R) (patience : Nat)
    (h : Twins R port (c, s) (d, r)) :
    Follows R port (Twins R port) (c.turns patience host.toHost s)
      (d.turns patience host.recorded.routed r) (c.tick patience host.toHost s)
      (d.tick patience host.recorded.routed r) := by
  obtain ⟨⟨lines, rfl⟩, hport, hsilent, hr⟩ := h
  rcases c.next_port lines with ⟨cause, hc, hd⟩ | ⟨op, e, hc, hd⟩
  · simp only [Cpu.turns, Cpu.tick, hc, hd]
    exact .nil (.error _)
  · have hprepare := e.prepare_port lines op
    simp only [Cpu.turns, Cpu.tick, hc, hd, hprepare]
    have hprepared : Twins R port ((e.prepare op).1, s)
        ({ (e.prepare op).1 with pins.port := lines }, r) := ⟨⟨lines, rfl⟩, hport, hsilent, hr⟩
    obtain ⟨hturns, hends⟩ := hprepared.perform hback hignores patience (e.prepare op).2
    refine ⟨hturns, fun hall => ?_⟩
    have halike := hends hall
    generalize Cpu.perform patience host.toHost _ _ s = x at halike ⊢
    generalize Cpu.perform patience host.recorded.routed _ _ r = y at halike ⊢
    cases halike with
    | error stop => exact .error stop
    | @ok a b hab =>
      obtain ⟨f, u⟩ := a
      obtain ⟨g, v⟩ := b
      obtain ⟨⟨lines', rfl⟩, hport', hsilent', hr'⟩ := hab
      have hcomplete := f.complete_port lines' op
      have hnotice : Cpu.notice? op { f.complete op with pins.port := lines' } =
          (f.complete op).notice? op :=
        Cpu.notice_withUnread { (f.complete op).unread with port := lines' } (f.complete op) op
      simp only [hcomplete, hnotice]
      exact .ok (noteAny hignores _ ⟨⟨lines', rfl⟩, hport', hsilent', hr'⟩)

theorem ticking (hback : host.HandsBack) (hignores : host.toHost.IgnoresPort R) (patience n : Nat)
    (h : Twins R port (c, s) (d, r)) :
    Follows R port (Twins R port) (c.tickingTurns patience host.toHost n s)
      (d.tickingTurns patience host.recorded.routed n r) (c.ticking patience host.toHost n s)
      (d.ticking patience host.recorded.routed n r) := by
  induction n generalizing c d s r with
  | zero => exact .nil (.ok h)
  | succ n ih =>
    refine (h.tick hback hignores patience).append fun halike => ?_
    simp only [Cpu.ticking]
    generalize c.tick patience host.toHost s = x at halike ⊢
    generalize d.tick patience host.recorded.routed r = y at halike ⊢
    cases halike with
    | error stop => exact .nil (.error stop)
    | ok hab => exact ih hab

end Twins

/-! ### Runs with a trap -/

/-- The trap with a list of its answers. -/
def Trap.recorded (trap : Trap τ) : Trap (List Int32 × τ) where
  ask pc ticks p := fun (answers, t) =>
    let (id, t) := trap.ask pc ticks p t
    (id, answers ++ [id], t)

theorem Trap.IgnoresPort.recorded {Q : τ → τ → Prop} {trap : Trap τ} (h : trap.IgnoresPort Q) :
    trap.recorded.IgnoresPort fun a b => a.1 = b.1 ∧ Q a.2 b.2 where
  asks := by
    rintro pc ticks p q ⟨answers, u⟩ ⟨_, v⟩ hpq ⟨rfl, huv⟩
    obtain ⟨hid, hstate⟩ := h.asks pc ticks p q u v hpq huv
    exact ⟨hid, congrArg (fun id => answers ++ [id]) hid, hstate⟩

namespace Twins

variable {host : PortHost σ} {R : σ → σ → Prop} {port : IoPort} {c d : Cpu} {s : σ}
  {r : IoPort × List PortEvent × σ} {Q : τ → τ → Prop} {trap : Trap τ} {u v : τ}

theorem verdict (htrap : trap.IgnoresPort Q) (h : Twins R port (c, s) (d, r)) (hq : Q u v)
    (budget : UInt32) :
    (c.verdict trap budget u).1 = (d.verdict trap budget v).1 ∧
      Q (c.verdict trap budget u).2 (d.verdict trap budget v).2 := by
  obtain ⟨⟨lines, rfl⟩, -, -, -⟩ := h
  simp only [Cpu.verdict]
  cases c.phase with
  | fetch =>
    obtain ⟨hid, hstate⟩ := htrap.asks c.regs.pc c.ticks c.pins { c.pins with port := lines } u v
      ⟨lines, rfl⟩ hq
    exact ⟨by simp only [hid, Cpu.budgetVerdict], hstate⟩
  | jammed => exact ⟨rfl, hq⟩
  | execute => exact ⟨rfl, hq⟩

theorem runLoop (hback : host.HandsBack) (hignores : host.toHost.IgnoresPort R)
    (htrap : trap.IgnoresPort Q) (patience : Nat) (budget : UInt32) (fuel : Nat)
    (h : Twins R port (c, s) (d, r)) (hq : Q u v) :
    Follows R port (fun a b => Twins R port (a.1, a.2.1) (b.1, b.2.1) ∧ Q a.2.2 b.2.2)
      (c.runLoopTurns patience host.toHost trap budget fuel s u)
      (d.runLoopTurns patience host.recorded.routed trap budget fuel r v)
      (c.runLoop patience host.toHost trap budget fuel s u)
      (d.runLoop patience host.recorded.routed trap budget fuel r v) := by
  induction fuel generalizing c d s r u v with
  | zero => exact .nil (.error .unfinished)
  | succ n ih =>
    refine (h.tick hback hignores patience).append fun halike => ?_
    simp only [Cpu.runLoop]
    generalize c.tick patience host.toHost s = x at halike ⊢
    generalize d.tick patience host.recorded.routed r = y at halike ⊢
    cases halike with
    | error stop => exact .nil (.error stop)
    | @ok a b hab =>
      obtain ⟨c, s⟩ := a
      obtain ⟨d, r⟩ := b
      obtain ⟨hverdict, hq'⟩ := hab.verdict htrap hq budget
      dsimp only
      generalize c.verdict trap budget u = x at hverdict hq' ⊢
      generalize d.verdict trap budget v = y at hverdict hq' ⊢
      obtain ⟨verdict, u'⟩ := x
      obtain ⟨_, v'⟩ := y
      obtain rfl : verdict = _ := hverdict
      cases verdict with
      | goOn => exact ih hab hq'
      | enough => exact .nil (.ok ⟨hab, hq'⟩)
      | trapped id =>
        obtain ⟨⟨lines, rfl⟩, hport, hsilent, hr⟩ := hab
        exact .nil (.ok ⟨⟨⟨lines, rfl⟩, hport, hsilent, hignores.hears _ _ _ hr⟩, hq'⟩)

end Twins

/-- A 6510 and a machine without a port, on a host that hands back the address and RW and does not
look at the port lines: the machines drive the same words, port lines apart, and stand the same
before every answer, up to the first cycle at the port and before its answer. If no cycle is at the
port, so do they at the end, whether ticks are made or a run with a trap. -/
theorem port_unseen_until_touched {host : PortHost σ} {R : σ → σ → Prop} (hback : host.HandsBack)
    (hignores : host.toHost.IgnoresPort R) (patience : Nat) {c : Cpu} {m : Mos6510}
    (hc : c.SameButPort m.cpu) {s t : σ} (hs : R s t) :
    (∀ n, Follows R m.port (fun a b => Twins R m.port a (b.1.cpu, b.1.port, b.2))
      (c.tickingTurns patience host.toHost n s)
      (m.cpu.tickingTurns patience host.recorded.routed n (m.port, [], t))
      (c.ticking patience host.toHost n s) (m.ticking patience host.recorded n ([], t))) ∧
    ∀ (τ : Type) (trap : Trap τ) (Q : τ → τ → Prop) (budget : UInt32) (u v : τ),
      trap.IgnoresPort Q → Q u v → Follows R m.port
        (fun a b => Twins R m.port (a.1, a.2.1) (b.1.cpu, b.1.port, b.2.1) ∧
          a.2.2.1 = b.2.2.1 ∧ Q a.2.2.2 b.2.2.2)
        (c.executeTurns patience host.toHost trap.recorded budget s ([], u))
        (m.cpu.executeTurns patience host.recorded.routed trap.recorded budget (m.port, [], t)
          ([], v))
        (c.execute patience host.toHost trap.recorded budget s ([], u))
        (m.execute patience host.recorded trap.recorded budget ([], t) ([], v)) := by
  have hstart : Twins R m.port (c, s) (m.cpu, m.port, [], t) :=
    ⟨hc, rfl, fun _ he => (nomatch he), hs⟩
  constructor
  · intro n
    obtain ⟨hturns, hends⟩ := hstart.ticking hback hignores patience n
    refine ⟨hturns, fun hall => ?_⟩
    rw [Mos6510.ticking_eq]
    refine .map_right (fun _ _ hab => ?_) (hends hall)
    exact hab
  · intro τ trap Q budget u v htrap hq
    have hbegin : Twins R m.port (c.beginRun, s) (m.cpu.beginRun, m.port, [], t) := by
      obtain ⟨lines, hlines⟩ := hc
      exact ⟨⟨lines, by rw [hlines]; rfl⟩, rfl, hstart.silent, hs⟩
    obtain ⟨hturns, hends⟩ := hbegin.runLoop hback hignores htrap.recorded patience budget patience
      (u := ([], u)) (v := ([], v)) ⟨rfl, hq⟩
    refine ⟨hturns, fun hall => ?_⟩
    rw [Mos6510.execute_eq]
    refine .map_right (fun _ _ hab => ?_) (hends hall)
    exact hab

/-- Flat memory with nothing on the port lines. -/
def portlessRam : PortHost Ram :=
  { Schedule.quiet.host with portInput := fun ram => (0, ram), portOutput := fun _ ram => ram }

/-- Two NOPs, as ticks and as a run that a trap stops. -/
theorem port_unseen_until_touched_nops :
    let c : Cpu := (Cpu.powerOn .c64).setPc 0x0200
    let m : Mos6510 := ⟨c, { IoPort.powerOn .c64 with pins := 0x37 }⟩
    let ram : Ram := .ofMemory fun _ => 0xEA
    let trap : Trap Unit := ⟨fun pc _ _ t => (if pc = 0x0202 then 7 else 0, t)⟩
    portlessRam.HandsBack ∧ portlessRam.toHost.IgnoresPort (· = ·) ∧ trap.IgnoresPort (· = ·) ∧
      (∃ a b, c.ticking 0 portlessRam.toHost 4 ram = .ok a ∧
        m.ticking 0 portlessRam.recorded 4 ([], ram) = .ok b ∧
        Twins (· = ·) m.port a (b.1.cpu, b.1.port, b.2)) ∧
      ∃ a b, c.execute 5 portlessRam.toHost trap.recorded 9 ram ([], ()) = .ok a ∧
        m.execute 5 portlessRam.recorded trap.recorded 9 ([], ram) ([], ()) = .ok b ∧
        Twins (· = ·) m.port (a.1, a.2.1) (b.1.cpu, b.1.port, b.2.1) ∧ a.2.2.1 = b.2.2.1 := by
  intro c m ram trap
  have hback : portlessRam.HandsBack := by
    intro p s
    cases hp : p.read <;> simp [portlessRam, Schedule.host, Schedule.quiet, hp]
  have hignores : portlessRam.toHost.IgnoresPort (· = ·) := by
    refine ⟨?_, fun n s t hst => hst⟩
    rintro p q s t ⟨lines, rfl⟩ rfl
    cases hp : p.read <;>
      simp [portlessRam, Schedule.host, Schedule.quiet, hp, Pins.SameButPort, Pins.access]
  have htrap : trap.IgnoresPort (· = ·) := ⟨fun _ _ _ _ _ _ _ hst => ⟨rfl, hst⟩⟩
  have hm : c.SameButPort m.cpu := ⟨_, rfl⟩
  refine ⟨hback, hignores, htrap, ?_, ?_⟩
  · obtain ⟨a, ha⟩ := ok_of_isOk (x := c.ticking 0 portlessRam.toHost 4 ram) (by decide +kernel)
    have hticks := (port_unseen_until_touched hback hignores 0 hm (s := ram) rfl).1 4
    have halike := hticks.ends (by decide +kernel)
    rw [ha] at halike
    obtain ⟨b, hb, htwins⟩ := halike.of_ok
    exact ⟨a, b, ha, hb, htwins⟩
  · obtain ⟨a, ha⟩ := ok_of_isOk
      (x := c.execute 5 portlessRam.toHost trap.recorded 9 ram ([], ())) (by decide +kernel)
    have hrun := (port_unseen_until_touched hback hignores 5 hm (s := ram) rfl).2 Unit trap
      (· = ·) 9 () () htrap rfl
    have halike := hrun.ends (by decide +kernel)
    rw [ha] at halike
    obtain ⟨b, hb, htwins, hanswers, -⟩ := halike.of_ok
    exact ⟨a, b, ha, hb, htwins, hanswers⟩

end Nmos6502
