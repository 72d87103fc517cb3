import Nmos6502.Proofs.Ram
import Nmos6502.Proofs.Slicing

/-! # Sequences of calls

A program drives the machine with runs and single ticks. Where the machine and its host get to
depends on the number of ticks that are made in this way and on nothing else: not on where the calls
divide them, nor on the budgets and the traps. -/

namespace Nmos6502

variable {σ : Type}

/-- A call on the machine. Every run may have a trap of its own. -/
inductive Call where
  | tick
  | execute {τ : Type} (trap : Trap τ) (t : τ) (budget : UInt32)

/-- The calls return one after the other, and together they make so many ticks. -/
inductive Makes (host : Host σ) : List Call → Nat → Cpu × σ → Cpu × σ → Prop
  | none (a : Cpu × σ) : Makes host [] 0 a a
  | tick {calls : List Call} {n : Nat} {a b e : Cpu × σ} (patience : Nat) :
    a.1.tick patience host a.2 = .ok b → Makes host calls n b e →
      Makes host (.tick :: calls) (n + 1) a e
  | execute {calls : List Call} {n k : Nat} {a b e : Cpu × σ} {τ : Type} {trap : Trap τ} {t t' : τ}
      {budget : UInt32} (fuel : Nat) :
    a.1.execute fuel host trap budget a.2 t = .ok (b.1, b.2, t') →
      a.1.RunsFor fuel host trap budget a.2 t k → Makes host calls n b e →
      Makes host (.execute trap t budget :: calls) (k + n) a e

namespace Cpu

/-! ### Time passes -/

theorem total_tick {patience : Nat} {host : Host σ} {c d : Cpu} {s u : σ}
    (h : c.tick patience host s = .ok (d, u)) : c.total.count < d.total.count := by
  have halike := (host.logged_alike.tick patience c (s := ([], s)) rfl).symm
  rw [h] at halike
  obtain ⟨⟨e, log, u'⟩, he, hde, -⟩ := halike.of_ok
  obtain rfl : e = d := hde
  obtain ⟨held, last, -, -, htiming⟩ := tick_appends he
  have htotal : e.total = ⟨c.total.count + (held.length + 1)⟩ := congrArg Timing.total htiming
  rw [htotal]
  exact Nat.lt_add_of_pos_right (Nat.succ_pos _)

theorem total_ticking {patience : Nat} {host : Host σ} {n : Nat} {c : Cpu} {s : σ} {r : Cpu × σ}
    (h : c.ticking patience host n s = .ok r) : c.total.count + n ≤ r.1.total.count := by
  induction n generalizing c s with
  | zero =>
    cases h
    exact Nat.le_refl _
  | succ n ih =>
    obtain ⟨d, t, ht, hticks⟩ := of_ticking_succ h
    have hfirst := total_tick ht
    have hrest := ih hticks
    omega

theorem ticks_of_total {p q : Nat} {host : Host σ} {n m : Nat} {c : Cpu} {s : σ} {a b : Cpu × σ}
    (ha : c.ticking p host n s = .ok a) (hb : c.ticking q host m s = .ok b)
    (htotal : a.1.total = b.1.total) : n ≤ m := by
  cases Nat.lt_or_ge m n with
  | inr hle => exact hle
  | inl hlt =>
    obtain ⟨k, rfl⟩ : ∃ k, n = m + k := ⟨n - m, by omega⟩
    have hb' := ticking_mono (Nat.le_max_right p q) hb
    have ha' := ticking_mono (Nat.le_max_left p q) ha
    rw [ticking_add, hb'] at ha'
    have hlater := total_ticking ha'
    rw [htotal] at hlater
    omega

/-! ### Calls as ticks -/

/-- A run leaves what its ticks leave, but for the call that the machine is in and for what the host
has been told of the trap. -/
theorem ticking_of_execute {τ : Type} {fuel : Nat} {host : Host σ} {trap : Trap τ}
    {budget : UInt32} {c c' : Cpu} {s s' : σ} {t t' : τ} {k : Nat}
    (h : c.execute fuel host trap budget s t = .ok (c', s', t'))
    (hk : c.RunsFor fuel host trap budget s t k) :
    ∃ d u, c.ticking fuel host k s = .ok (d, u) ∧ SameButCall d c' ∧
      ∃ id : Option Int32, s' = host.noteAny (id.map fun id => .trapped id d.regs.pc) u := by
  obtain ⟨j, hslices, hj, -, hc, hs, -⟩ := execute_slices h
  obtain rfl : k = j := hk.unique hj
  obtain ⟨u, hd, hu⟩ := host.logged_alike.ticking_ok (s := ([], s)) rfl
    (hslices.ticking k (Nat.le_refl k))
  obtain rfl : (c.moment fuel host s k).2.2 = u := hu
  refine ⟨_, _, hd, ?_, trappedBy (c.moment fuel host s) trap t k, hs⟩
  rw [hc]
  rfl

end Cpu

/-- The host is not told of traps: only a log is. -/
def Host.Unaware (host : Host σ) : Prop := ∀ id pc s, host.note (.trapped id pc) s = s

theorem Makes.ticking {host : Host σ} (hnote : host.Unaware) {calls : List Call} {n : Nat}
    {a e : Cpu × σ} (h : Makes host calls n a e) {c : Cpu} {s : σ}
    (hc : Cpu.InOtherCall a (c, s)) :
    ∃ patience r, c.ticking patience host n s = .ok r ∧ Cpu.InOtherCall e r := by
  induction h generalizing c s with
  | none a => exact ⟨0, _, rfl, hc⟩
  | @tick calls n a b e patience ht _ ih =>
    obtain ⟨hcall, rfl⟩ := hc
    have halike := Cpu.tick_sameButCall patience host hcall a.2
    rw [ht] at halike
    obtain ⟨⟨d, u⟩, hd, hdu⟩ := halike.of_ok
    obtain ⟨p, r, hr, hsame⟩ := ih hdu
    refine ⟨max patience p, r, ?_, hsame⟩
    simp only [Cpu.ticking, Cpu.tick_mono (Nat.le_max_left patience p) hd]
    exact Cpu.ticking_mono (Nat.le_max_right patience p) hr
  | @execute calls n k a b e τ trap t t' budget fuel hrun hk _ ih =>
    obtain ⟨hcall, rfl⟩ := hc
    obtain ⟨d, u, hd, hdb, id, hb⟩ := Cpu.ticking_of_execute hrun hk
    have hub : b.2 = u := by
      rw [hb]
      cases id with
      | none => rfl
      | some id => exact hnote id d.regs.pc u
    -- The ticks of the run on the other machine.
    have halike := Cpu.ticking_sameButCall fuel host k hcall a.2
    rw [hd] at halike
    obtain ⟨⟨f, v⟩, hf, hdf, huv⟩ := halike.of_ok
    obtain ⟨p, r, hr, hsame⟩ := ih (c := f) (s := v) ⟨hdb.symm.trans hdf, hub.trans huv⟩
    refine ⟨max fuel p, r, ?_, hsame⟩
    rw [Cpu.ticking_add, Cpu.ticking_mono (Nat.le_max_left fuel p) hf]
    exact Cpu.ticking_mono (Nat.le_max_right fuel p) hr

theorem Makes.ticks {patience : Nat} {host : Host σ} {n : Nat} {a e : Cpu × σ}
    (h : a.1.ticking patience host n a.2 = .ok e) : Makes host (List.replicate n .tick) n a e := by
  induction n generalizing a with
  | zero =>
    obtain rfl : a = e := Except.ok.inj h
    exact .none a
  | succ n ih =>
    obtain ⟨d, t, ht, hrest⟩ := Cpu.of_ticking_succ h
    exact .tick patience ht (ih (a := (d, t)) hrest)

/-! ### Runs are sliced ticks -/

/-- A run that returns is made of the ticks up to the first moment that ends it: the machine is that
after these ticks, the conversation with the host is theirs, the trap has been asked at the
boundaries among them and not elsewhere, and the cycles are counted. So calls that make the same
number of ticks, or take the same time, leave the same machine and the same host, however they
divide the ticks. -/
theorem Cpu.execute_slices_ticks (host : Host σ) :
    (∀ {τ : Type} (trap : Trap τ) (fuel : Nat) (budget : UInt32) (c c' : Cpu) (s s' : σ)
      (t t' : τ), c.execute fuel host trap budget s t = .ok (c', s', t') →
      ∃ k run, Slices fuel host trap budget c s t k run ∧
        c.ticking fuel host k s = .ok ((run k).1, (run k).2.2) ∧
        c.execute fuel host.logged trap.logged budget ([], s) ([], t) =
          .ok (c', ((run k).2.1, s'), (questions run k, t')) ∧
        c' = { (run k).1 with ticks := (run k).cycles, trapId := trappedBy run trap t k } ∧
        s' = host.noteAny ((trappedBy run trap t k).map fun id => .trapped id (run k).1.regs.pc)
          (run k).2.2 ∧
        c'.total.count = c.total.count + (run k).2.1.length) ∧
    (host.Unaware → ∀ (calls calls' : List Call) (n m : Nat) (a d e : Cpu × σ),
      Makes host calls n a d → Makes host calls' m a e → n = m ∨ d.1.total = e.1.total →
        InOtherCall d e) := by
  refine ⟨?_, ?_⟩
  · intro τ trap fuel budget c c' s s' t t' h
    obtain ⟨k, hslices, -, hlogged, rfl, rfl, rfl⟩ := execute_slices h
    have hk := hslices.ticking k (Nat.le_refl k)
    obtain ⟨u, hd, rfl⟩ := host.logged_alike.ticking_ok (s := ([], s)) rfl hk
    exact ⟨k, c.moment fuel host s, hslices, hd, hlogged, rfl, rfl, total_ticking_logged hk⟩
  · intro hnote calls calls' n m a d e hd he hnm
    obtain ⟨p, r, hr, hdr⟩ := hd.ticking hnote ⟨.refl a.1, rfl⟩
    obtain ⟨q, r', hr', her⟩ := he.ticking hnote ⟨.refl a.1, rfl⟩
    have hn : n = m := by
      rcases hnm with hn | htotal
      · exact hn
      · have hsame : r.1.total = r'.1.total := by
          rw [← hdr.total, htotal, her.total]
        have hle := ticks_of_total hr hr' hsame
        have hge := ticks_of_total hr' hr hsame.symm
        omega
    subst hn
    -- One patience is enough for the ticks of both.
    have hp := ticking_mono (Nat.le_max_left p q) hr
    rw [ticking_mono (Nat.le_max_right p q) hr'] at hp
    cases hp
    exact ⟨hdr.1.trans her.1.symm, hdr.2.trans her.2.symm⟩

/-- A run of at least three cycles over NOPs makes four ticks. -/
theorem Cpu.execute_slices_nops :
    let host := Schedule.quiet.host
    let start : Cpu × Ram := (.powerOn .plain, .ofMemory fun _ => 0xEA)
    (∃ c s k run, start.1.execute 5 host .never 3 start.2 () = .ok (c, s, ()) ∧
      Slices 5 host .never 3 start.1 start.2 () k run) ∧
    ∃ d e, Makes host [.execute .never () 3] 4 start d ∧
      Makes host [.tick, .tick, .tick, .tick] 4 start e ∧ InOtherCall d e := by
  intro host start
  obtain ⟨hslices, hsame⟩ := execute_slices_ticks host
  obtain ⟨⟨c, s, _⟩, hrun⟩ := ok_of_isOk (x := start.1.execute 5 host .never 3 start.2 ())
    (by decide +kernel)
  obtain ⟨e, he⟩ := ok_of_isOk (x := start.1.ticking 5 host 4 start.2) (by decide +kernel)
  have hd : Makes host [.execute .never () 3] 4 start (c, s) :=
    .execute (b := (c, s)) 5 hrun (by decide +kernel) (.none _)
  obtain ⟨k, run, hk, -⟩ := hslices _ _ _ _ _ _ _ _ _ hrun
  exact ⟨⟨c, s, k, run, hrun, hk⟩, _, e, hd, .ticks he,
    hsame (fun _ _ _ => rfl) _ _ _ _ _ _ _ hd (.ticks he) (Or.inl rfl)⟩

end Nmos6502
