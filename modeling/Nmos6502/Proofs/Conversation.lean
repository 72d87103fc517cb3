import Nmos6502.Proofs.Timing

/-! # What a tick says on the bus

A tick hands the host one word for each bus cycle, and the log of the host grows by these cycles.
The answer to the last of them is what the pins hold afterwards, SYNC apart, and the clocks have
moved by as many cycles as the log. -/

namespace Nmos6502

variable {σ : Type}

/-! ### Exchanges -/

namespace Host

theorem hold_logged_appends {host : Host σ} {patience : Nat} {p : Pins} {pending : Bool}
    {log log' : List BusCycle} {s s' : σ} {x : Exchange}
    (h : host.logged.hold patience p pending (log, s) = .ok (x, log', s')) :
    ∃ held last, log' = log ++ held ++ [last] ∧ last.answer = x.pins ∧
      x.cycles = held.length + 1 := by
  have hanswer : host.logged.answer p pending (log, s) =
      ((host.answer p pending s).1,
        log ++ [⟨p, (host.answer p pending s).1.pins⟩], (host.answer p pending s).2) := rfl
  have hone : (host.answer p pending s).1.cycles = 1 := rfl
  induction patience generalizing p pending log s x with
  | zero =>
    simp only [hold, hanswer] at h
    split at h
    · cases h
    · cases h
      exact ⟨[], _, by rw [List.append_nil], rfl, hone⟩
  | succ n ih =>
    simp only [hold, hanswer] at h
    split at h
    · -- The rest of the hold is a hold from the answer with RDY low.
      cases hr : host.logged.hold n { (host.answer p pending s).1.pins with rdy := false }
          (host.answer p pending s).1.nmiPending
          (log ++ [⟨p, (host.answer p pending s).1.pins⟩], (host.answer p pending s).2) with
      | error stop =>
        rw [hr] at h
        cases h
      | ok r =>
        obtain ⟨y, log₁, s₁⟩ := r
        rw [hr] at h
        cases h
        obtain ⟨held, last, hlog, hlast, hcycles⟩ := ih hr rfl rfl
        refine ⟨⟨p, (host.answer p pending s).1.pins⟩ :: held, last, ?_, hlast, ?_⟩
        · rw [hlog]
          simp only [List.append_assoc, List.cons_append, List.nil_append]
        · simp only [hcycles, List.length_cons]
    · cases h
      exact ⟨[], _, by rw [List.append_nil], rfl, hone⟩

theorem exchange_logged_appends {host : Host σ} {patience : Nat} {a : Access} {p : Pins}
    {pending : Bool} {log log' : List BusCycle} {s s' : σ} {x : Exchange}
    (h : host.logged.exchange patience a p pending (log, s) = .ok (x, log', s')) :
    ∃ held last, log' = log ++ held ++ [last] ∧ last.answer = x.pins ∧
      x.cycles = held.length + 1 := by
  cases a with
  | read addr => exact hold_logged_appends h
  | write addr value =>
    cases h
    exact ⟨[], _, by rw [List.append_nil], rfl, rfl⟩

end Host

/-! ### Ticks -/

namespace Cpu

theorem tick_ok {patience : Nat} {host : Host σ} {c d : Cpu} {s t : σ}
    (h : c.tick patience host s = .ok (d, t)) :
    ∃ op e x u, c.next = .ok (op, e) ∧
      host.exchange patience (e.prepare op).2 (e.prepare op).1.pins (e.prepare op).1.nmiPending s =
        .ok (x, u) ∧
      d = ((e.prepare op).1.receive x).complete op ∧ t = host.noteAny (d.notice? op) u := by
  rw [tick_eq] at h
  cases hn : c.next with
  | error cause =>
    rw [hn] at h
    cases h
  | ok next =>
    obtain ⟨op, e⟩ := next
    simp only [hn] at h
    cases hx : host.exchange patience (e.prepare op).2 (e.prepare op).1.pins
        (e.prepare op).1.nmiPending s with
    | error stop =>
      rw [hx] at h
      cases h
    | ok r =>
      rw [hx] at h
      obtain ⟨x, u⟩ := r
      cases h
      exact ⟨op, e, x, u, rfl, hx, rfl, rfl⟩

/-- A tick that is known to do this micro-operation. -/
theorem tick_ok_of_next {patience : Nat} {host : Host σ} {c d e : Cpu} {op : MicroOp} {s t : σ}
    (hn : c.next = .ok (op, e)) (h : c.tick patience host s = .ok (d, t)) :
    ∃ x u, host.exchange patience (e.prepare op).2 (e.prepare op).1.pins
        (e.prepare op).1.nmiPending s = .ok (x, u) ∧
      d = ((e.prepare op).1.receive x).complete op ∧ t = host.noteAny (d.notice? op) u := by
  obtain ⟨op', e', x, u, hn', hx, hd, ht⟩ := tick_ok h
  obtain ⟨rfl, rfl⟩ := Prod.mk.inj (Except.ok.inj (hn.symm.trans hn'))
  exact ⟨x, u, hx, hd, ht⟩

/-- The clocks move by the cycles of the access, and no tick is stopped by a trap. -/
theorem timing_done {c e : Cpu} {op : MicroOp} (hn : c.next = .ok (op, e)) (x : Exchange) :
    (((e.prepare op).1.receive x).complete op).timing =
      ⟨x.pins.rdy, c.ticks + UInt32.ofNat x.cycles, ⟨c.total.count + x.cycles⟩, c.trapId⟩ := by
  have htiming : (e.prepare op).1.timing = c.timing := by
    rw [timing_prepare, next_frame hn]
    rfl
  rw [timing_complete, ← (e.prepare op).1.retimed_timing, htiming, receive_retimed, timing_retimed]
  rfl

/-- A tick adds one or more cycles to the log, and its work is done on the answer to the last. -/
theorem tick_latches {patience : Nat} {host : Host σ} {c d : Cpu} {log log' : List BusCycle}
    {s s' : σ} (h : c.tick patience host.logged (log, s) = .ok (d, log', s')) :
    ∃ (held : List BusCycle) (last : BusCycle) (op : MicroOp) (e : Cpu) (x : Exchange),
      log' = log ++ held ++ [last] ∧ last.answer = x.pins ∧ x.cycles = held.length + 1 ∧
      c.next = .ok (op, e) ∧ d = ((e.prepare op).1.receive x).complete op := by
  obtain ⟨op, e, x, ⟨log₁, s₁⟩, hn, hx, rfl, ht⟩ := tick_ok h
  obtain ⟨held, last, hlog, hlast, hcycles⟩ := Host.exchange_logged_appends hx
  rw [Host.noteAny_logged] at ht
  exact ⟨held, last, op, e, x, (congrArg Prod.fst ht).trans hlog, hlast, hcycles, hn, rfl⟩

/-- What a tick adds to the log, and what it leaves on the pins and in the clocks. -/
theorem tick_appends {patience : Nat} {host : Host σ} {c d : Cpu} {log log' : List BusCycle}
    {s s' : σ} (h : c.tick patience host.logged (log, s) = .ok (d, log', s')) :
    ∃ held last, log' = log ++ held ++ [last] ∧
      d.pins = { last.answer with sync := d.pins.sync } ∧
      d.timing = ⟨last.answer.rdy, c.ticks + UInt32.ofNat (held.length + 1),
        ⟨c.total.count + (held.length + 1)⟩, c.trapId⟩ := by
  obtain ⟨held, last, op, e, x, hlog, hlast, hcycles, hn, rfl⟩ := tick_latches h
  refine ⟨held, last, hlog, ?_, ?_⟩
  · rw [hlast]
    exact pins_complete op _
  · rw [timing_done hn, hlast, hcycles]

/-- The work of the last tick is done on the answer to the last cycle. -/
theorem ticking_latches {patience : Nat} {host : Host σ} {n : Nat} (hn : 0 < n) {c d : Cpu}
    {log log' : List BusCycle} {s s' : σ}
    (h : c.ticking patience host.logged n (log, s) = .ok (d, log', s')) :
    ∃ (last : BusCycle) (e : Cpu) (op : MicroOp),
      log'.getLast? = some last ∧ e.pins = last.answer ∧ d = e.complete op := by
  obtain ⟨k, rfl⟩ : ∃ k, n = k + 1 := ⟨n - 1, by omega⟩
  rw [ticking_succ] at h
  cases hr : c.ticking patience host.logged k (log, s) with
  | error stop =>
    rw [hr] at h
    cases h
  | ok r =>
    rw [hr] at h
    obtain ⟨held, last, op, e, x, rfl, hlast, -, -, hd⟩ := tick_latches h
    exact ⟨last, _, op, List.getLast?_concat, hlast.symm, hd⟩

/-- The clock moves with the log. -/
theorem total_ticking_logged {patience : Nat} {host : Host σ} {n : Nat} {c d : Cpu}
    {log log' : List BusCycle} {s s' : σ}
    (h : c.ticking patience host.logged n (log, s) = .ok (d, log', s')) :
    d.total.count + log.length = c.total.count + log'.length := by
  induction n generalizing c log s with
  | zero =>
    cases h
    rfl
  | succ n ih =>
    obtain ⟨e, ⟨log₁, s₁⟩, ht, hticks⟩ := of_ticking_succ h
    obtain ⟨held, last, hlog, -, htiming⟩ := tick_appends ht
    have htotal : e.total = ⟨c.total.count + (held.length + 1)⟩ := congrArg Timing.total htiming
    have hlen := congrArg List.length hlog
    have hrest := ih hticks
    simp only [htotal, List.length_append, List.length_singleton] at hlen hrest
    omega

end Cpu

end Nmos6502
