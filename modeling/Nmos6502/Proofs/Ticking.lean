import Nmos6502.Proofs.Exchange

/-! # Runs of ticks

Runs are compared tick by tick: what one tick preserves, any number of ticks preserves. A host that
writes down the cycles it sees answers as before, so what is proved about a run with a log holds of
the run without. -/

namespace Nmos6502

variable {σ τ : Type}

/-! ### Runs that end alike -/

theorem ok_of_isOk {α : Type} {x : Except Stop α} (h : x.isOk = true) : ∃ a, x = .ok a := by
  cases x with
  | error stop => cases h
  | ok a => exact ⟨a, rfl⟩

theorem ok_of_any {α : Type} {x : Except Stop α} {p : α → Bool} (h : x.toOption.any p = true) :
    ∃ a, x = .ok a ∧ p a = true := by
  cases x with
  | error stop => cases h
  | ok a => exact ⟨a, rfl, h⟩

/-- Both runs have results and these are related, or both have none for the same reason. -/
inductive EndAlike {α β : Type} (R : α → β → Prop) : Except Stop α → Except Stop β → Prop
  | ok {a : α} {b : β} : R a b → EndAlike R (.ok a) (.ok b)
  | error (stop : Stop) : EndAlike R (.error stop) (.error stop)

namespace EndAlike

theorem map {α β γ δ : Type} {R : α → β → Prop} {S : γ → δ → Prop} {f : α → γ} {g : β → δ}
    (hfg : ∀ a b, R a b → S (f a) (g b)) {x : Except Stop α} {y : Except Stop β}
    (h : EndAlike R x y) : EndAlike S (x.map f) (y.map g) := by
  cases h with
  | ok hab => exact .ok (hfg _ _ hab)
  | error stop => exact .error stop

theorem map_right {α β δ : Type} {R : α → β → Prop} {S : α → δ → Prop} {g : β → δ}
    (hg : ∀ a b, R a b → S a (g b)) {x : Except Stop α} {y : Except Stop β}
    (h : EndAlike R x y) : EndAlike S x (y.map g) := by
  cases h with
  | ok hab => exact .ok (hg _ _ hab)
  | error stop => exact .error stop

theorem mono {α β : Type} {R S : α → β → Prop} (hRS : ∀ a b, R a b → S a b) {x : Except Stop α}
    {y : Except Stop β} (h : EndAlike R x y) : EndAlike S x y := by
  cases h with
  | ok hab => exact .ok (hRS _ _ hab)
  | error stop => exact .error stop

theorem bind {α β γ δ : Type} {R : α → β → Prop} {S : γ → δ → Prop} {f : α → Except Stop γ}
    {g : β → Except Stop δ} (hfg : ∀ a b, R a b → EndAlike S (f a) (g b)) {x : Except Stop α}
    {y : Except Stop β} (h : EndAlike R x y) : EndAlike S (x.bind f) (y.bind g) := by
  cases h with
  | ok hab => exact hfg _ _ hab
  | error stop => exact .error stop

theorem of_ok {α β : Type} {R : α → β → Prop} {a : α} {y : Except Stop β}
    (h : EndAlike R (.ok a) y) : ∃ b, y = .ok b ∧ R a b := by
  cases h with
  | ok hab => exact ⟨_, rfl, hab⟩

theorem of_error {α β : Type} {R : α → β → Prop} {stop : Stop} {y : Except Stop β}
    (h : EndAlike R (.error stop) y) : y = .error stop := by
  cases h with
  | error stop => rfl

theorem symm {α β : Type} {R : α → β → Prop} {x : Except Stop α} {y : Except Stop β}
    (h : EndAlike R x y) : EndAlike (fun b a => R a b) y x := by
  cases h with
  | ok hab => exact .ok hab
  | error stop => exact .error stop

end EndAlike

namespace Cpu

/-- What every tick preserves, every number of ticks preserves. -/
theorem ticking_alike {p q : Nat} {host : Host σ} {host' : Host τ}
    {R : Cpu × σ → Cpu × τ → Prop}
    (step : ∀ c s d t, R (c, s) (d, t) → EndAlike R (c.tick p host s) (d.tick q host' t))
    (n : Nat) {c d : Cpu} {s : σ} {t : τ} (h : R (c, s) (d, t)) :
    EndAlike R (c.ticking p host n s) (d.ticking q host' n t) := by
  induction n generalizing c d s t with
  | zero => exact .ok h
  | succ n ih =>
    have hs := step c s d t h
    simp only [ticking]
    generalize c.tick p host s = x at hs
    generalize d.tick q host' t = y at hs
    cases hs with
    | ok hr => exact ih hr
    | error stop => exact .error stop

end Cpu

/-! ### Ticks one after the other -/

namespace Cpu

theorem ticking_add (patience : Nat) (host : Host σ) (n k : Nat) (c : Cpu) (s : σ) :
    c.ticking patience host (n + k) s =
      (c.ticking patience host n s).bind fun r => r.1.ticking patience host k r.2 := by
  induction n generalizing c s with
  | zero =>
    rw [Nat.zero_add]
    rfl
  | succ n ih =>
    rw [Nat.succ_add]
    simp only [ticking]
    cases c.tick patience host s with
    | error stop => rfl
    | ok r => exact ih r.1 r.2

theorem ticking_succ (patience : Nat) (host : Host σ) (n : Nat) (c : Cpu) (s : σ) :
    c.ticking patience host (n + 1) s =
      (c.ticking patience host n s).bind fun r => r.1.tick patience host r.2 := by
  rw [ticking_add]
  congr 1
  funext r
  simp only [ticking]
  cases r.1.tick patience host r.2 <;> rfl

theorem of_ticking_succ {patience : Nat} {host : Host σ} {n : Nat} {c : Cpu} {s : σ} {r : Cpu × σ}
    (h : c.ticking patience host (n + 1) s = .ok r) :
    ∃ d t, c.tick patience host s = .ok (d, t) ∧ d.ticking patience host n t = .ok r := by
  simp only [ticking] at h
  cases ht : c.tick patience host s with
  | error stop =>
    rw [ht] at h
    cases h
  | ok next =>
    rw [ht] at h
    exact ⟨next.1, next.2, rfl, h⟩

theorem ticking_mono {host : Host σ} {p q : Nat} (hpq : p ≤ q) {n : Nat} {c : Cpu} {s : σ}
    {r : Cpu × σ} (h : c.ticking p host n s = .ok r) : c.ticking q host n s = .ok r := by
  induction n generalizing c s with
  | zero => exact h
  | succ n ih =>
    obtain ⟨d, t, ht, hrest⟩ := of_ticking_succ h
    rw [ticking, tick_mono hpq ht]
    exact ih hrest

/-- What every tick keeps, every number of ticks keeps. -/
theorem ticking_keeps {patience : Nat} {host : Host σ} {P : Cpu → Prop}
    (step : ∀ c s d t, P c → c.tick patience host s = .ok (d, t) → P d) {n : Nat} {c d : Cpu}
    {s t : σ} (hc : P c) (h : c.ticking patience host n s = .ok (d, t)) : P d := by
  induction n generalizing c s with
  | zero =>
    cases h
    exact hc
  | succ n ih =>
    obtain ⟨e, u, ht, hrest⟩ := of_ticking_succ h
    exact ih (step c s e u hc ht) hrest

end Cpu

/-! ### Hosts that answer alike -/

/-- The hosts give the same answers from related states and stay related. -/
structure Host.Alike (R : σ → τ → Prop) (host : Host σ) (host' : Host τ) : Prop where
  answers (p : Pins) (s : σ) (t : τ) : R s t →
    (host.tick p s).1 = (host'.tick p t).1 ∧ R (host.tick p s).2 (host'.tick p t).2
  hears (n : Notice) (s : σ) (t : τ) : R s t → R (host.note n s) (host'.note n t)

def WithHosts {α : Type} (R : σ → τ → Prop) (a : α × σ) (b : α × τ) : Prop :=
  a.1 = b.1 ∧ R a.2 b.2

namespace Host.Alike

variable {R : σ → τ → Prop} {host : Host σ} {host' : Host τ}

theorem answer (h : host.Alike R host') (p : Pins) (pending : Bool) {s : σ} {t : τ} (hr : R s t) :
    WithHosts R (host.answer p pending s) (host'.answer p pending t) := by
  obtain ⟨ha, hn⟩ := h.answers p s t hr
  simp only [WithHosts, Host.answer, ha, true_and]
  exact hn

theorem hold (h : host.Alike R host') (patience : Nat) (p : Pins) (pending : Bool) {s : σ} {t : τ}
    (hr : R s t) :
    EndAlike (WithHosts R) (host.hold patience p pending s) (host'.hold patience p pending t) := by
  induction patience generalizing p pending s t with
  | zero =>
    obtain ⟨hx, hs⟩ := h.answer p pending hr
    simp only [Host.hold, hx]
    split
    · exact .error _
    · exact .ok ⟨rfl, hs⟩
  | succ n ih =>
    obtain ⟨hx, hs⟩ := h.answer p pending hr
    simp only [Host.hold, hx]
    split
    · refine (ih _ _ hs).map ?_
      rintro a b ⟨hab, hst⟩
      exact ⟨by simp only [hab], hst⟩
    · exact .ok ⟨rfl, hs⟩

theorem exchange (h : host.Alike R host') (patience : Nat) (a : Access) (p : Pins)
    (pending : Bool) {s : σ} {t : τ} (hr : R s t) :
    EndAlike (WithHosts R) (host.exchange patience a p pending s)
      (host'.exchange patience a p pending t) := by
  cases a with
  | read addr => exact h.hold patience _ pending hr
  | write addr value => exact .ok (h.answer _ pending hr)

theorem noteAny (h : host.Alike R host') (n : Option Notice) {s : σ} {t : τ} (hr : R s t) :
    R (host.noteAny n s) (host'.noteAny n t) := by
  cases n with
  | none => exact hr
  | some n => exact h.hears n s t hr

theorem tick (h : host.Alike R host') (patience : Nat) (c : Cpu) {s : σ} {t : τ} (hr : R s t) :
    EndAlike (WithHosts R) (c.tick patience host s) (c.tick patience host' t) := by
  simp only [Cpu.tick_eq]
  cases c.next with
  | error cause => exact .error _
  | ok next =>
    refine (h.exchange patience _ _ _ hr).map ?_
    rintro a b ⟨hab, hst⟩
    simp only [WithHosts, Cpu.finishTick, hab, true_and]
    exact h.noteAny _ hst

theorem ticking (h : host.Alike R host') (patience n : Nat) (c : Cpu) {s : σ} {t : τ}
    (hr : R s t) :
    EndAlike (WithHosts R) (c.ticking patience host n s) (c.ticking patience host' n t) := by
  refine Cpu.ticking_alike ?_ n (R := WithHosts R) ⟨rfl, hr⟩
  rintro c s d t ⟨hcd, hst⟩
  obtain rfl : c = d := hcd
  exact h.tick patience c hst

theorem ticking_ok (h : host.Alike R host') {patience n : Nat} {c d : Cpu} {s s' : σ} {t : τ}
    (hr : R s t) (hd : c.ticking patience host n s = .ok (d, s')) :
    ∃ t', c.ticking patience host' n t = .ok (d, t') ∧ R s' t' := by
  have hticks := h.ticking patience n c hr
  rw [hd] at hticks
  obtain ⟨⟨e, t'⟩, ht, hcpu, hr'⟩ := hticks.of_ok
  obtain rfl : d = e := hcpu
  exact ⟨t', ht, hr'⟩

theorem of_ticking (h : host.Alike R host') {patience n : Nat} {c d : Cpu} {s : σ} {t t' : τ}
    (hr : R s t) (hd : c.ticking patience host' n t = .ok (d, t')) :
    ∃ s', c.ticking patience host n s = .ok (d, s') ∧ R s' t' := by
  have hticks := (h.ticking patience n c hr).symm
  rw [hd] at hticks
  obtain ⟨⟨e, s'⟩, hs, hcpu, hr'⟩ := hticks.of_ok
  obtain rfl : e = d := hcpu
  exact ⟨s', hs, hr'⟩

end Host.Alike

/-- What the host keeps with every answer and every notice, it keeps over any number of ticks. -/
theorem Host.ticking_keeps {host : Host σ} {P : σ → Prop}
    (answers : ∀ p s, P s → P (host.tick p s).2) (hears : ∀ n s, P s → P (host.note n s))
    {patience n : Nat} {c d : Cpu} {s t : σ} (hs : P s)
    (h : c.ticking patience host n s = .ok (d, t)) : P t := by
  have hself : host.Alike (fun s t => s = t ∧ P s) host := by
    refine ⟨?_, ?_⟩
    · rintro p s t ⟨rfl, hs⟩
      exact ⟨rfl, rfl, answers p s hs⟩
    · rintro n s t ⟨rfl, hs⟩
      exact ⟨rfl, hears n s hs⟩
  obtain ⟨t', -, -, ht⟩ := hself.ticking_ok (s := s) (t := s) ⟨rfl, hs⟩ h
  exact ht

/-! ### The conversation with the host -/

structure BusCycle where
  driven : Pins
  answer : Pins
deriving Repr, DecidableEq

/-- The host with a log of the cycles so far. -/
def Host.logged (host : Host σ) : Host (List BusCycle × σ) where
  tick p := fun (log, s) =>
    let (answer, s) := host.tick p s
    (answer, log ++ [⟨p, answer⟩], s)
  note n := fun (log, s) => (log, host.note n s)

theorem Host.noteAny_logged (host : Host σ) (n : Option Notice) (log : List BusCycle) (s : σ) :
    host.logged.noteAny n (log, s) = (log, host.noteAny n s) := by
  cases n <;> rfl

theorem Host.logged_alike (host : Host σ) : host.logged.Alike (fun a s => a.2 = s) host where
  answers p a s h := by
    subst h
    exact ⟨rfl, rfl⟩
  hears n a s h := by
    subst h
    rfl

/-! ### From one instruction boundary to the next -/

namespace Cpu

/-- `n` ticks lead to an instruction boundary and fewer do not. -/
structure Completes (host : Host σ) (n : Nat) (c : Cpu) (s : σ) (c' : Cpu) (s' : σ) : Prop where
  pos : 0 < n
  ticking : c.ticking 0 host n s = .ok (c', s')
  boundary : c'.atBoundary = true
  inside (k : Nat) (d : Cpu) (t : σ) : 0 < k → k < n → c.ticking 0 host k s = .ok (d, t) →
    d.atBoundary = false

namespace Completes

variable {host : Host σ} {c c' d : Cpu} {s s' t : σ}

theorem last (ht : c.tick 0 host s = .ok (c', s')) (hb : c'.atBoundary = true) :
    Completes host 1 c s c' s' where
  pos := by omega
  ticking := by simp [Cpu.ticking, ht]
  boundary := hb
  inside := by
    intro k d t h0 h1
    omega

theorem step {n : Nat} (ht : c.tick 0 host s = .ok (d, t)) (hb : d.atBoundary = false)
    (h : Completes host n d t c' s') : Completes host (n + 1) c s c' s' where
  pos := by omega
  ticking := by simpa [Cpu.ticking, ht] using h.ticking
  boundary := h.boundary
  inside := by
    intro k e u hk hn he
    cases k with
    | zero => omega
    | succ k =>
      simp only [Cpu.ticking, ht] at he
      cases k with
      | zero =>
        obtain ⟨rfl, -⟩ : d = e ∧ t = u := by simpa [Cpu.ticking] using he
        exact hb
      | succ k => exact h.inside (k + 1) e u (by omega) (by omega) he

theorem unique {n k : Nat} (h : Completes host n c s c' s') (h' : Completes host k c s d t) :
    n = k ∧ c' = d ∧ s' = t := by
  have hnk : ¬n < k := by
    intro hlt
    have hin := h'.inside n c' s' h.pos hlt h.ticking
    rw [h.boundary] at hin
    cases hin
  have hkn : ¬k < n := by
    intro hlt
    have hin := h.inside k d t h'.pos hlt h'.ticking
    rw [h'.boundary] at hin
    cases hin
  obtain rfl : n = k := by omega
  have hr := h.ticking.symm.trans h'.ticking
  obtain ⟨rfl, rfl⟩ := Prod.mk.inj (Except.ok.inj hr)
  exact ⟨rfl, rfl, rfl⟩

theorem unlogged {n : Nat} {log log' : List BusCycle}
    (h : Completes host.logged n c (log, s) c' (log', s')) : Completes host n c s c' s' where
  pos := h.pos
  ticking := by
    obtain ⟨u, hu, rfl⟩ := host.logged_alike.ticking_ok (s := (log, s)) rfl h.ticking
    exact hu
  boundary := h.boundary
  inside := by
    intro k e u hk hn he
    obtain ⟨r, hr, -⟩ := host.logged_alike.of_ticking (s := (log, s)) rfl he
    exact h.inside k e r hk hn hr

end Completes

end Cpu

end Nmos6502
