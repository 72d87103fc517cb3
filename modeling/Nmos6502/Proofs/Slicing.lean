import Nmos6502.Cpu.Run
import Nmos6502.Proofs.Conversation

/-! # Runs as ticks

A run makes ticks and does nothing else to the machine but reset and read its call counter. How the
ticks are distributed over runs and single ticks can therefore not be seen in the machine or its
host afterwards, the counter and the trap that stopped the last run apart. -/

namespace Nmos6502

variable {σ τ : Type}

/-! ### Traps that write down their questions -/

structure Question where
  pc : UInt16
  cycles : UInt32
  pins : Pins
deriving Repr, DecidableEq

namespace Trap

/-- What the trap answers to questions asked one after the other, and the trap afterwards. -/
def answers (trap : Trap τ) : List Question → τ → List Int32 × τ
  | [], t => ([], t)
  | q :: qs, t =>
    let (id, t) := trap.ask q.pc q.cycles q.pins t
    let (ids, t) := trap.answers qs t
    (id :: ids, t)

def logged (trap : Trap τ) : Trap (List Question × τ) where
  ask pc cycles pins := fun (log, t) =>
    let (id, t) := trap.ask pc cycles pins t
    (id, log ++ [⟨pc, cycles, pins⟩], t)

theorem ask_logged (trap : Trap τ) (q : Question) (log : List Question) (t : τ) :
    trap.logged.ask q.pc q.cycles q.pins (log, t) =
      ((trap.ask q.pc q.cycles q.pins t).1, log ++ [q], (trap.ask q.pc q.cycles q.pins t).2) := rfl

theorem answers_concat (trap : Trap τ) (qs : List Question) (q : Question) (t : τ) :
    trap.answers (qs ++ [q]) t =
      ((trap.answers qs t).1 ++ [(trap.ask q.pc q.cycles q.pins (trap.answers qs t).2).1],
        (trap.ask q.pc q.cycles q.pins (trap.answers qs t).2).2) := by
  induction qs generalizing t with
  | nil => rfl
  | cons first qs ih =>
    simp only [List.cons_append, answers, ih]

end Trap

/-! ### Ticks on other clocks -/

namespace Cpu

/-- The second machine is the first one in another call: the counter and the trap that stopped the
last run may differ. -/
def SameButCall (c d : Cpu) : Prop := d = { c with ticks := d.ticks, trapId := d.trapId }

theorem SameButCall.refl (c : Cpu) : SameButCall c c := rfl

theorem SameButCall.trans {c d e : Cpu} (h : SameButCall c d) (h' : SameButCall d e) :
    SameButCall c e := by
  unfold SameButCall at *
  rw [h', h]

theorem SameButCall.symm {c d : Cpu} (h : SameButCall c d) : SameButCall d c := by
  unfold SameButCall at *
  rw [h]

theorem sameButCall_retimed {z : Timing} {c : Cpu} (hrdy : c.pins.rdy = z.rdy)
    (htotal : c.total = z.total) : SameButCall c (c.retimed z) := by
  obtain ⟨rdy, ticks, total, trapId⟩ := z
  obtain rfl : c.pins.rdy = rdy := hrdy
  obtain rfl : c.total = total := htotal
  rfl

def InOtherCall (a b : Cpu × σ) : Prop := SameButCall a.1 b.1 ∧ a.2 = b.2

theorem InOtherCall.total {a b : Cpu × σ} (h : InOtherCall a b) : a.1.total = b.1.total := by
  rw [show b.1 = _ from h.1]

theorem tick_sameButCall (patience : Nat) (host : Host σ) {c d : Cpu} (h : SameButCall c d)
    (s : σ) : EndAlike InOtherCall (c.tick patience host s) (d.tick patience host s) := by
  have hd : d = c.retimed ⟨c.pins.rdy, d.ticks, c.total, d.trapId⟩ := h
  rw [hd]
  generalize d.ticks = ticks
  generalize d.trapId = trapId
  simp only [tick_eq]
  rcases c.next_retimed ⟨c.pins.rdy, ticks, c.total, trapId⟩ with
    ⟨cause, hc, hz⟩ | ⟨op, e, hc, hz⟩
  · rw [hc, hz]
    exact .error _
  · have ht : (e.prepare op).1.timing = c.timing := by
      rw [timing_prepare, next_frame hc]
      rfl
    obtain ⟨hrdy, -, htotal, -⟩ := Timing.mk.inj ht
    -- The exchange gets the same pins, so its outcome is the same.
    have hpins : ((e.prepare op).1.retimed ⟨c.pins.rdy, ticks, c.total, trapId⟩).pins =
        (e.prepare op).1.pins := by
      rw [← hrdy]
      rfl
    have hpending : ((e.prepare op).1.retimed ⟨c.pins.rdy, ticks, c.total, trapId⟩).nmiPending =
        (e.prepare op).1.nmiPending := rfl
    simp only [hc, hz, prepare_retimed, hpins, hpending]
    cases host.exchange patience (e.prepare op).2 (e.prepare op).1.pins
        (e.prepare op).1.nmiPending s with
    | error stop => exact .error stop
    | ok r =>
      have hdone := timing_complete ((e.prepare op).1.receive r.1) op
      obtain ⟨hrdy', -, htotal', -⟩ := Timing.mk.inj hdone
      refine .ok ⟨?_, ?_⟩
      · simp only [finishTick, receive_retimed, complete_retimed]
        apply sameButCall_retimed hrdy'
        rw [htotal', receive, htotal]
      · simp only [finishTick, receive_retimed, complete_retimed, notice_retimed]

theorem ticking_sameButCall (patience : Nat) (host : Host σ) (n : Nat) {c d : Cpu}
    (h : SameButCall c d) (s : σ) :
    EndAlike InOtherCall (c.ticking patience host n s) (d.ticking patience host n s) := by
  refine ticking_alike ?_ n (R := InOtherCall) ⟨h, rfl⟩
  rintro c s d t ⟨hcd, hst⟩
  obtain rfl : s = t := hst
  exact tick_sameButCall patience host hcd s

end Cpu

/-! ### The moments of a run -/

/-- The machine, the cycles so far and the host. -/
abbrev Moment (σ : Type) := Cpu × List BusCycle × σ

/-- The cycles so far as a call counts them. -/
def Moment.cycles (m : Moment σ) : UInt32 := UInt32.ofNat m.2.1.length

section

variable (run : Nat → Moment σ)

/-- One question for each instruction boundary among the first `k` ticks. -/
def questions : Nat → List Question
  | 0 => []
  | k + 1 => questions k ++
      if (run (k + 1)).1.atBoundary then
        [⟨(run (k + 1)).1.regs.pc, (run (k + 1)).cycles, (run (k + 1)).1.pins⟩]
      else []

variable (trap : Trap τ) (t : τ)

/-- The last answer of the trap, unless it is to go on. -/
def trappedBy (k : Nat) : Option Int32 :=
  (trap.answers (questions run k) t).1.getLast?.filter (· != 0)

/-- A call ends here: at a boundary the trap or the budget ends it, on a locked machine the
budget. -/
def Stops (budget : UInt32) (k : Nat) : Prop :=
  (run k).1.atBoundary = true ∧ (trappedBy run trap t k ≠ none ∨ budget ≤ (run k).cycles) ∨
    (run k).1.isJammed = true ∧ budget ≤ (run k).cycles

instance (budget : UInt32) (k : Nat) : Decidable (Stops run trap t budget k) :=
  inferInstanceAs (Decidable (_ ∧ (_ ∨ _) ∨ _ ∧ _))

/-- Where a call is at the moment `k` of the run. -/
def callAt (k : Nat) : Cpu × (List BusCycle × σ) × (List Question × τ) :=
  ({ (run k).1 with ticks := (run k).cycles, trapId := none }, (run k).2,
    (questions run k, (trap.answers (questions run k) t).2))

/-- What a call that ends at the moment `k` leaves: the machine, the conversations with the host and
the trap, and the host and the trap. -/
def callEnd (host : Host σ) (k : Nat) : Cpu × (List BusCycle × σ) × (List Question × τ) :=
  ({ (run k).1 with ticks := (run k).cycles, trapId := trappedBy run trap t k },
    ((run k).2.1,
      host.noteAny ((trappedBy run trap t k).map fun id => .trapped id (run k).1.regs.pc)
        (run k).2.2),
    (questions run k, (trap.answers (questions run k) t).2))

end

/-- `run` holds the moments of the first `k` ticks, and `k` is the first at which a call ends. -/
structure Slices (patience : Nat) (host : Host σ) (trap : Trap τ) (budget : UInt32) (c : Cpu)
    (s : σ) (t : τ) (k : Nat) (run : Nat → Moment σ) : Prop where
  pos : 0 < k
  ticking (j : Nat) : j ≤ k → c.ticking patience host.logged j ([], s) = .ok (run j)
  stops : Stops run trap t budget k
  goesOn (j : Nat) : 0 < j → j < k → ¬Stops run trap t budget j

/-! ### The loop -/

section

variable {run : Nat → Moment σ} {k : Nat} (trap : Trap τ) (t : τ)

theorem trappedBy_inside (h : (run (k + 1)).1.atBoundary = false) :
    trappedBy run trap t (k + 1) = trappedBy run trap t k := by
  simp [trappedBy, questions, h]

theorem trappedBy_boundary (h : (run (k + 1)).1.atBoundary = true) :
    trappedBy run trap t (k + 1) =
      (some (trap.ask (run (k + 1)).1.regs.pc (run (k + 1)).cycles (run (k + 1)).1.pins
        (trap.answers (questions run k) t).2).1).filter (· != 0) := by
  simp [trappedBy, questions, h, Trap.answers_concat]

theorem verdict_callAt (budget : UInt32) (hnone : trappedBy run trap t k = none) :
    (callAt run trap t (k + 1)).1.verdict trap.logged budget (callAt run trap t k).2.2 =
      (if Stops run trap t budget (k + 1) then
          match trappedBy run trap t (k + 1) with
          | some id => .trapped id
          | none => .enough
        else .goOn,
        (callAt run trap t (k + 1)).2.2) := by
  cases hp : (run (k + 1)).1.phase with
  | fetch =>
    have hb : (run (k + 1)).1.atBoundary = true := by simp [Cpu.atBoundary, hp]
    have hj : (run (k + 1)).1.isJammed = false := by simp [Cpu.isJammed, hp]
    have htrap := trappedBy_boundary trap t hb
    have hask := trap.ask_logged
      ⟨(run (k + 1)).1.regs.pc, (run (k + 1)).cycles, (run (k + 1)).1.pins⟩
      (questions run k) (trap.answers (questions run k) t).2
    simp only [callAt, Cpu.verdict, hp, hask, questions, hb, if_true, Trap.answers_concat]
    generalize trap.ask (run (k + 1)).1.regs.pc (run (k + 1)).cycles (run (k + 1)).1.pins
      (trap.answers (questions run k) t).2 = answer at htrap
    by_cases hid : answer.1 = 0
    · have hgo : trappedBy run trap t (k + 1) = none := by simp [htrap, hid]
      by_cases hbudget : budget ≤ (run (k + 1)).cycles
      · simp [Stops, hb, hj, hid, hgo, hbudget, Cpu.budgetVerdict]
      · simp [Stops, hb, hj, hid, hgo, hbudget, Cpu.budgetVerdict]
    · have hgo : trappedBy run trap t (k + 1) = some answer.1 := by simp [htrap, hid]
      simp [Stops, hb, hid, hgo]
  | jammed =>
    have hb : (run (k + 1)).1.atBoundary = false := by simp [Cpu.atBoundary, hp]
    have hj : (run (k + 1)).1.isJammed = true := by simp [Cpu.isJammed, hp]
    have htrap := (trappedBy_inside trap t hb).trans hnone
    by_cases hbudget : budget ≤ (run (k + 1)).cycles
    · simp [callAt, Cpu.verdict, hp, Stops, hb, hj, htrap, hbudget, questions, Cpu.budgetVerdict]
    · simp [callAt, Cpu.verdict, hp, Stops, hb, hj, hbudget, questions, Cpu.budgetVerdict]
  | execute =>
    have hb : (run (k + 1)).1.atBoundary = false := by simp [Cpu.atBoundary, hp]
    have hj : (run (k + 1)).1.isJammed = false := by simp [Cpu.isJammed, hp]
    simp [callAt, Cpu.verdict, hp, Stops, hb, hj, questions]

end

namespace Cpu

theorem tick_callAt {patience : Nat} {host : Host σ} {run : Nat → Moment σ} (trap : Trap τ) (t : τ)
    {k : Nat} (h : (run k).1.tick patience host.logged (run k).2 = .ok (run (k + 1))) :
    (callAt run trap t k).1.tick patience host.logged (callAt run trap t k).2.1 =
      .ok ((callAt run trap t (k + 1)).1, (callAt run trap t (k + 1)).2.1) := by
  have hsame := tick_sameButCall patience host.logged (c := (run k).1)
    (d := (callAt run trap t k).1) rfl (run k).2
  rw [h] at hsame
  obtain ⟨⟨d, u⟩, hd, hcall, hu⟩ := hsame.of_ok
  obtain rfl : (run (k + 1)).2 = u := hu
  obtain ⟨held, last, hlog, -, htiming⟩ := tick_appends hd
  obtain ⟨-, hticks, -, hid⟩ := Timing.mk.inj htiming
  have hcycles : d.ticks = (run (k + 1)).cycles := by
    have hlen : (run (k + 1)).2.1.length = (run k).2.1.length + (held.length + 1) := by
      rw [hlog, List.length_append, List.length_append, List.length_singleton, Nat.add_assoc]
    rw [hticks, Moment.cycles, hlen, UInt32.ofNat_add _ (held.length + 1)]
    rfl
  have hd' : d = { (run (k + 1)).1 with ticks := d.ticks, trapId := d.trapId } := hcall
  rw [hd', hcycles, hid] at hd
  exact hd

/-- One round of the loop: the call ends at the next moment or goes on from it. -/
theorem runLoop_callAt {patience : Nat} {host : Host σ} {run : Nat → Moment σ} {trap : Trap τ}
    {t : τ} {k : Nat} (h : (run k).1.tick patience host.logged (run k).2 = .ok (run (k + 1)))
    (hnone : trappedBy run trap t k = none) (budget : UInt32) (n : Nat) :
    (callAt run trap t k).1.runLoop patience host.logged trap.logged budget (n + 1)
        (callAt run trap t k).2.1 (callAt run trap t k).2.2 =
      if Stops run trap t budget (k + 1) then .ok (callEnd run trap t host (k + 1))
      else (callAt run trap t (k + 1)).1.runLoop patience host.logged trap.logged budget n
        (callAt run trap t (k + 1)).2.1 (callAt run trap t (k + 1)).2.2 := by
  simp only [runLoop, tick_callAt trap t h, verdict_callAt trap t budget hnone]
  by_cases hs : Stops run trap t budget (k + 1)
  · simp only [if_pos hs]
    cases htrap : trappedBy run trap t (k + 1) with
    | none => simp only [callEnd, htrap]; rfl
    | some id => simp only [callEnd, htrap]; rfl
  · simp only [if_neg hs]

/-- The moment after `k` ticks, if so many can be made. -/
def moment (patience : Nat) (host : Host σ) (c : Cpu) (s : σ) (k : Nat) : Moment σ :=
  match c.ticking patience host.logged k ([], s) with
  | .ok m => m
  | .error _ => (c, [], s)

theorem moment_of_ticking {patience : Nat} {host : Host σ} {c : Cpu} {s : σ} {k : Nat}
    {m : Moment σ} (h : c.ticking patience host.logged k ([], s) = .ok m) :
    c.moment patience host s k = m := by
  simp only [moment, h]

/-- The call gets to the moment `k` without coming to an end. -/
structure GetsTo (patience : Nat) (host : Host σ) (trap : Trap τ) (budget : UInt32) (c : Cpu)
    (s : σ) (t : τ) (k : Nat) : Prop where
  ticking (j : Nat) : j ≤ k →
    c.ticking patience host.logged j ([], s) = .ok (c.moment patience host s j)
  goesOn (j : Nat) : 0 < j → j ≤ k → ¬Stops (c.moment patience host s) trap t budget j
  untrapped : trappedBy (c.moment patience host s) trap t k = none

section

variable {patience : Nat} {host : Host σ} {trap : Trap τ} {budget : UInt32} {c : Cpu} {s : σ}
  {t : τ}

theorem getsTo_zero : GetsTo patience host trap budget c s t 0 where
  ticking := by
    intro j hj
    obtain rfl : j = 0 := by omega
    rfl
  goesOn := by
    intro j hpos hj
    omega
  untrapped := rfl

namespace GetsTo

variable {k : Nat} {m : Moment σ}

theorem ticking_succ (h : GetsTo patience host trap budget c s t k)
    (ht : (c.moment patience host s k).1.tick patience host.logged (c.moment patience host s k).2 =
      .ok m) :
    c.moment patience host s (k + 1) = m ∧ ∀ j ≤ k + 1,
      c.ticking patience host.logged j ([], s) = .ok (c.moment patience host s j) := by
  have hnext : c.ticking patience host.logged (k + 1) ([], s) = .ok m := by
    rw [Cpu.ticking_succ, h.ticking k (Nat.le_refl k)]
    exact ht
  have hm := moment_of_ticking hnext
  refine ⟨hm, ?_⟩
  intro j hj
  rcases Nat.lt_or_eq_of_le hj with hlt | rfl
  · exact h.ticking j (by omega)
  · rw [hm, hnext]

theorem next (h : GetsTo patience host trap budget c s t k)
    (ht : (c.moment patience host s k).1.tick patience host.logged (c.moment patience host s k).2 =
      .ok m)
    (hs : ¬Stops (c.moment patience host s) trap t budget (k + 1)) :
    GetsTo patience host trap budget c s t (k + 1) where
  ticking := (h.ticking_succ ht).2
  goesOn := by
    intro j hpos hj
    rcases Nat.lt_or_eq_of_le hj with hlt | rfl
    · exact h.goesOn j hpos (by omega)
    · exact hs
  untrapped := by
    cases hb : (c.moment patience host s (k + 1)).1.atBoundary with
    | false => exact (trappedBy_inside trap t hb).trans h.untrapped
    | true =>
      cases htrap : trappedBy (c.moment patience host s) trap t (k + 1) with
      | none => rfl
      | some id => exact absurd (Or.inl ⟨hb, Or.inl (by simp [htrap])⟩) hs

/-- A call that gets to the moment `k` and ends within `n` more rounds does so at the first moment
that ends it. -/
theorem slices (n : Nat) (h : GetsTo patience host trap budget c s t k)
    {r : Cpu × (List BusCycle × σ) × (List Question × τ)}
    (hr : (callAt (c.moment patience host s) trap t k).1.runLoop patience host.logged trap.logged
      budget n (callAt (c.moment patience host s) trap t k).2.1
        (callAt (c.moment patience host s) trap t k).2.2 = .ok r) :
    ∃ i < n, Slices patience host trap budget c s t (k + (i + 1)) (c.moment patience host s) ∧
      r = callEnd (c.moment patience host s) trap t host (k + (i + 1)) ∧
      (callAt (c.moment patience host s) trap t k).1.runLoop patience host.logged trap.logged
        budget (i + 1) (callAt (c.moment patience host s) trap t k).2.1
          (callAt (c.moment patience host s) trap t k).2.2 = .ok r := by
  induction n generalizing k with
  | zero => cases hr
  | succ n ih =>
    cases ht : (c.moment patience host s k).1.tick patience host.logged
        (c.moment patience host s k).2 with
    | error stop =>
      have hsame := tick_sameButCall patience host.logged (c := (c.moment patience host s k).1)
        (d := (callAt (c.moment patience host s) trap t k).1) rfl (c.moment patience host s k).2
      rw [ht] at hsame
      have hcall : (callAt (c.moment patience host s) trap t k).1.tick patience host.logged
          (callAt (c.moment patience host s) trap t k).2.1 = .error stop := hsame.of_error
      simp only [runLoop, hcall] at hr
      cases hr
    | ok m =>
      obtain ⟨hm, hticks⟩ := h.ticking_succ ht
      have ht' := ht
      rw [← hm] at ht'
      have hround := runLoop_callAt ht' h.untrapped budget
      rw [hround] at hr
      by_cases hs : Stops (c.moment patience host s) trap t budget (k + 1)
      · rw [if_pos hs] at hr
        refine ⟨0, by omega, ⟨by omega, hticks, hs, ?_⟩, (Except.ok.inj hr).symm, ?_⟩
        · intro j hpos hj
          exact h.goesOn j hpos (by omega)
        · rw [hround, if_pos hs]
          exact hr
      · rw [if_neg hs] at hr
        obtain ⟨i, hi, hslices, hend, hloop⟩ := ih (h.next ht hs) hr
        have hk : k + 1 + (i + 1) = k + (i + 1 + 1) := by omega
        rw [hk] at hslices hend
        refine ⟨i + 1, by omega, hslices, hend, ?_⟩
        rw [hround, if_neg hs]
        exact hloop

end GetsTo

end

/-! ### Calls without records -/

theorem verdict_logged (trap : Trap τ) (budget : UInt32) (c : Cpu) (qs : List Question) (t : τ) :
    ∃ qs', c.verdict trap.logged budget (qs, t) =
      ((c.verdict trap budget t).1, qs', (c.verdict trap budget t).2) := by
  cases hp : c.phase with
  | fetch =>
    have hask := trap.ask_logged ⟨c.regs.pc, c.ticks, c.pins⟩ qs t
    simp only [verdict, hp, hask]
    exact ⟨_, rfl⟩
  | jammed =>
    simp only [verdict, hp]
    exact ⟨_, rfl⟩
  | execute =>
    simp only [verdict, hp]
    exact ⟨_, rfl⟩

theorem runLoop_logged (patience : Nat) (host : Host σ) (trap : Trap τ) (budget : UInt32) (n : Nat)
    (c : Cpu) (log : List BusCycle) (s : σ) (qs : List Question) (t : τ) :
    EndAlike (fun a b => a.1 = b.1 ∧ a.2.1.2 = b.2.1 ∧ a.2.2.2 = b.2.2)
      (c.runLoop patience host.logged trap.logged budget n (log, s) (qs, t))
      (c.runLoop patience host trap budget n s t) := by
  induction n generalizing c log s qs t with
  | zero => exact .error _
  | succ n ih =>
    have ht := host.logged_alike.tick patience c (s := (log, s)) rfl
    simp only [runLoop]
    generalize c.tick patience host.logged (log, s) = x at ht
    generalize c.tick patience host s = y at ht
    cases ht with
    | error stop => exact .error stop
    | @ok a b hab =>
      obtain ⟨d, log', s'⟩ := a
      obtain ⟨e, u⟩ := b
      obtain ⟨rfl, rfl⟩ : d = e ∧ s' = u := hab
      obtain ⟨qs', hv⟩ := verdict_logged trap budget d qs t
      simp only [hv]
      generalize d.verdict trap budget t = answer
      obtain ⟨v, t'⟩ := answer
      cases v with
      | goOn => exact ih d log' s' qs' t'
      | enough => exact .ok ⟨rfl, rfl, rfl⟩
      | trapped id => exact .ok ⟨rfl, rfl, rfl⟩

/-- A run makes `k` ticks: so many rounds of its loop are enough and fewer are not. -/
structure RunsFor (patience : Nat) (host : Host σ) (trap : Trap τ) (budget : UInt32) (c : Cpu)
    (s : σ) (t : τ) (k : Nat) : Prop where
  ends : (c.beginRun.runLoop patience host trap budget k s t).isOk = true
  goesOn : ∀ j < k, (c.beginRun.runLoop patience host trap budget j s t).isOk = false

section

variable {fuel : Nat} {host : Host σ} {trap : Trap τ} {budget : UInt32} {c : Cpu} {s : σ} {t : τ}

instance (k : Nat) : Decidable (RunsFor fuel host trap budget c s t k) :=
  decidable_of_iff
    ((c.beginRun.runLoop fuel host trap budget k s t).isOk = true ∧
      ∀ j < k, (c.beginRun.runLoop fuel host trap budget j s t).isOk = false)
    ⟨fun h => ⟨h.1, h.2⟩, fun h => ⟨h.ends, h.goesOn⟩⟩

theorem RunsFor.unique {k j : Nat} (hk : RunsFor fuel host trap budget c s t k)
    (hj : RunsFor fuel host trap budget c s t j) : k = j := by
  have hkj : ¬k < j := by
    intro h
    have := hj.goesOn k h
    rw [hk.ends] at this
    cases this
  have hjk : ¬j < k := by
    intro h
    have := hk.goesOn j h
    rw [hj.ends] at this
    cases this
  omega

theorem runLoop_logged_ok {n : Nat} {r : Cpu × σ × τ}
    (h : c.beginRun.runLoop fuel host trap budget n s t = .ok r) :
    ∃ r', c.beginRun.runLoop fuel host.logged trap.logged budget n ([], s) ([], t) = .ok r' ∧
      r'.1 = r.1 ∧ r'.2.1.2 = r.2.1 ∧ r'.2.2.2 = r.2.2 := by
  have halike := (runLoop_logged fuel host trap budget n c.beginRun [] s [] t).symm
  rw [h] at halike
  exact halike.of_ok

theorem execute_slices {c' : Cpu} {s' : σ} {t' : τ}
    (h : c.execute fuel host trap budget s t = .ok (c', s', t')) :
    ∃ k, Slices fuel host trap budget c s t k (c.moment fuel host s) ∧
      RunsFor fuel host trap budget c s t k ∧
      c.execute fuel host.logged trap.logged budget ([], s) ([], t) =
        .ok (callEnd (c.moment fuel host s) trap t host k) ∧
      c' = (callEnd (c.moment fuel host s) trap t host k).1 ∧
      s' = (callEnd (c.moment fuel host s) trap t host k).2.1.2 ∧
      t' = (callEnd (c.moment fuel host s) trap t host k).2.2.2 := by
  obtain ⟨r, hr, hc, hs, ht⟩ := runLoop_logged_ok h
  obtain ⟨i, -, hslices, rfl, hloop⟩ := getsTo_zero.slices fuel hr
  rw [Nat.zero_add] at hslices hr hloop hc hs ht
  refine ⟨i + 1, hslices, ⟨?_, ?_⟩, hr, hc.symm, hs.symm, ht.symm⟩
  · have halike := runLoop_logged fuel host trap budget (i + 1) c.beginRun [] s [] t
    rw [show c.beginRun.runLoop fuel host.logged trap.logged budget (i + 1) ([], s) ([], t) = _
      from hloop] at halike
    obtain ⟨r, hr, -⟩ := halike.of_ok
    rw [hr]
    rfl
  · intro j hj
    cases hr : c.beginRun.runLoop fuel host trap budget j s t with
    | error stop => rfl
    | ok r =>
      obtain ⟨r', hr', -⟩ := runLoop_logged_ok hr
      obtain ⟨i', hi', hslices', -⟩ := getsTo_zero.slices j hr'
      rw [Nat.zero_add] at hslices'
      exact absurd hslices'.stops (hslices.goesOn (i' + 1) (by omega) (by omega))

end

end Cpu

end Nmos6502
