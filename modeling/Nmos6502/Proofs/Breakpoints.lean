import Mathlib.Data.List.Induction
import Nmos6502.Breakpoints
import Nmos6502.Proofs.Ram
import Nmos6502.Proofs.Slicing

/-! # Where breakpoints stop a run

What a slot watches is told by the changes that have been made: the address it was last set to, if
it has not been cleared since. A run with the breakpoints as its trap goes on past every boundary at
which no slot watches PC and stops at the first one at which one does. The boundary it starts from
is not among them, so a run that begins at a breakpoint gets past it. -/

namespace Nmos6502

namespace Breakpoints

/-! ### Changes -/

inductive Change where
  | set (slot : Nat) (addr : UInt16)
  | clear (slot : Nat)
  | clearAll

def change (b : Breakpoints) : Change → Except Fault Breakpoints
  | .set slot addr => b.set slot addr
  | .clear slot => b.clear slot
  | .clearAll => .ok empty

/-- What is refused leaves the breakpoints as they were. -/
def kept (b : Breakpoints) : Except Fault Breakpoints → Breakpoints
  | .ok b => b
  | .error _ => b

def changed (b : Breakpoints) (c : Change) : Breakpoints := b.kept (b.change c)

/-- The breakpoints after changes that begin with none set. -/
def after (changes : List Change) : Breakpoints := changes.foldl changed empty

def Change.Touches (slot : Nat) : Change → Prop
  | .set s _ => s = slot
  | .clear s => s = slot
  | .clearAll => True

/-- The slot exists, and since it was set to the address it has not been touched. -/
def Watches (changes : List Change) (slot : Nat) (addr : UInt16) : Prop :=
  slot < capacity ∧ ∃ earlier later, changes = earlier ++ .set slot addr :: later ∧
    ∀ c ∈ later, ¬c.Touches slot

theorem watches_concat {changes : List Change} {c : Change} {slot : Nat} {addr : UInt16} :
    Watches (changes ++ [c]) slot addr ↔
      slot < capacity ∧ c = .set slot addr ∨ ¬c.Touches slot ∧ Watches changes slot addr := by
  constructor
  · rintro ⟨hslot, earlier, later, heq, hlater⟩
    rcases List.eq_nil_or_concat later with rfl | ⟨later, d, rfl⟩
    · obtain ⟨-, hc⟩ := List.append_inj' heq rfl
      exact Or.inl ⟨hslot, List.singleton_inj.1 hc⟩
    · rw [List.concat_eq_append] at heq hlater
      rw [← List.cons_append, ← List.append_assoc] at heq
      obtain ⟨rfl, hc⟩ := List.append_inj' heq rfl
      obtain rfl : c = d := List.singleton_inj.1 hc
      rw [List.forall_mem_append, List.forall_mem_singleton] at hlater
      exact Or.inr ⟨hlater.2, hslot, earlier, later, rfl, hlater.1⟩
  · rintro (⟨hslot, rfl⟩ | ⟨hc, hslot, earlier, later, rfl, hlater⟩)
    · exact ⟨hslot, changes, [], rfl, List.forall_mem_nil _⟩
    · refine ⟨hslot, earlier, later ++ [c], by simp, ?_⟩
      rw [List.forall_mem_append, List.forall_mem_singleton]
      exact ⟨hlater, hc⟩

/-! ### Slots -/

theorem get?_of_le {slot : Nat} (h : capacity ≤ slot) (b : Breakpoints) : b.get? slot = none := by
  have hnone : b.slots[slot]? = none := Vector.getElem?_eq_none h
  simp only [get?, hnone, Option.join_none]

theorem get?_empty (slot : Nat) : empty.get? slot = none := by
  simp only [get?, empty, Vector.getElem?_replicate]
  split <;> rfl

/-- Storing changes the one slot, if there is such a slot. -/
theorem get?_store (b : Breakpoints) (s : Nat) (content : Option UInt16) (slot : Nat) :
    (kept b (b.store s content)).get? slot =
      if s = slot ∧ slot < capacity then content else b.get? slot := by
  by_cases hs : s < 8
  · have hstore : b.store s content = .ok ⟨b.slots.set s content hs⟩ := dif_pos hs
    simp only [hstore, kept, get?, Vector.getElem?_set, capacity]
    by_cases heq : s = slot
    · simp [heq, heq ▸ hs]
    · simp [heq]
  · have hstore : b.store s content = .error (.slotOutOfRange s) := dif_neg hs
    have hnot : ¬(s = slot ∧ slot < capacity) := fun h => hs (h.1 ▸ h.2)
    rw [hstore, if_neg hnot]
    rfl

theorem get?_changed_iff (b : Breakpoints) (c : Change) (slot : Nat) (addr : UInt16) :
    (b.changed c).get? slot = some addr ↔
      slot < capacity ∧ c = .set slot addr ∨ ¬c.Touches slot ∧ b.get? slot = some addr := by
  by_cases hslot : slot < capacity
  · cases c with
    | set s a =>
      rw [changed, change, set, get?_store]
      by_cases heq : s = slot <;> simp [Change.Touches, heq, hslot]
    | clear s =>
      rw [changed, change, clear, get?_store]
      by_cases heq : s = slot <;> simp [Change.Touches, heq, hslot]
    | clearAll =>
      change empty.get? slot = some addr ↔ _
      simp [get?_empty, Change.Touches]
  · simp [get?_of_le (Nat.not_lt.1 hslot), hslot]

/-- A slot holds what the changes say that it watches. -/
theorem get?_after_iff (changes : List Change) (slot : Nat) (addr : UInt16) :
    (after changes).get? slot = some addr ↔ Watches changes slot addr := by
  induction changes using List.reverseRecOn with
  | nil => simp [after, get?_empty, Watches]
  | append_singleton changes c ih =>
    have hlast : after (changes ++ [c]) = (after changes).changed c := by
      simp only [after, List.foldl_append, List.foldl_cons, List.foldl_nil]
    rw [hlast, get?_changed_iff, watches_concat, ih]

/-! ### What is looked up -/

theorem get?_eq_some_iff {b : Breakpoints} {slot : Nat} {addr : UInt16} :
    b.get? slot = some addr ↔ b.slots.toList[slot]? = some (some addr) := by
  rw [get?, Vector.getElem?_toList, Option.join_eq_some_iff]

theorem isEmpty_iff (b : Breakpoints) :
    b.isEmpty = true ↔ ∀ slot addr, b.get? slot ≠ some addr := by
  simp only [isEmpty, List.all_eq_true, beq_iff_eq, ne_eq, get?_eq_some_iff]
  constructor
  · intro h slot addr hget
    cases h _ (List.mem_of_getElem? hget)
  · intro h content hmem
    obtain ⟨slot, hget⟩ := List.mem_iff_getElem?.1 hmem
    cases content with
    | none => rfl
    | some addr => exact absurd hget (h slot addr)

/-- The least slot that watches the address. -/
def First (changes : List Change) (addr : UInt16) (slot : Nat) : Prop :=
  Watches changes slot addr ∧ ∀ k < slot, ¬Watches changes k addr

theorem toInt_identifier {slot : Nat} (h : slot < capacity) :
    (Int32.ofNat (slot + 1)).toInt = slot + 1 := by
  have hall : ∀ n < 8, (Int32.ofNat (n + 1)).toInt = n + 1 := by decide
  exact hall slot h

/-- The identifier for an address tells the least slot that watches it. -/
theorem check_after (changes : List Change) (pc : UInt16) :
    (∃ slot, First changes pc slot ∧ ((after changes).check pc).toInt = slot + 1) ∨
      (∀ slot, ¬Watches changes slot pc) ∧ (after changes).check pc = 0 := by
  have hwatches : ∀ slot, Watches changes slot pc ↔
      (after changes).slots.toList[slot]? = some (some pc) := by
    intro slot
    rw [← get?_after_iff, get?_eq_some_iff]
  cases hfind : (after changes).slots.toList.findIdx? (· == some pc) with
  | none =>
    refine Or.inr ⟨?_, by simp only [check, hfind]⟩
    intro slot hslot
    have hmem := List.mem_of_getElem? ((hwatches slot).1 hslot)
    simpa using List.findIdx?_eq_none_iff.1 hfind _ hmem
  | some slot =>
    obtain ⟨hlt, hfirst, hbefore⟩ := List.findIdx?_eq_some_iff_getElem.1 hfind
    have hslot : Watches changes slot pc := by
      rw [hwatches, List.getElem?_eq_getElem hlt]
      exact congrArg some (eq_of_beq hfirst)
    refine Or.inl ⟨slot, ⟨hslot, ?_⟩, ?_⟩
    · intro k hk hwatched
      have hnot := hbefore k hk
      rw [hwatches, List.getElem?_eq_getElem (Nat.lt_trans hk hlt)] at hwatched
      rw [Option.some.inj hwatched] at hnot
      exact hnot (beq_self_eq_true _)
    · simp only [check, hfind]
      exact toInt_identifier hslot.1

theorem check_ne_zero_iff (changes : List Change) (pc : UInt16) :
    (after changes).check pc ≠ 0 ↔ ∃ slot, Watches changes slot pc := by
  rcases check_after changes pc with ⟨slot, hfirst, hid⟩ | ⟨hnone, hid⟩
  · refine ⟨fun _ => ⟨slot, hfirst.1⟩, fun _ hzero => ?_⟩
    rw [hzero] at hid
    have hnat : (0 : Int) = slot + 1 := hid
    omega
  · exact ⟨fun h => absurd hid h, fun ⟨slot, hslot⟩ => absurd hslot (hnone slot)⟩

end Breakpoints

/-! ### Runs -/

section

variable {σ τ : Type} {patience : Nat} {host : Host σ} {trap : Trap τ} {budget : UInt32} {c : Cpu}
  {s : σ} {t : τ} {k : Nat} {run : Nat → Moment σ}

/-- Before its end a run has not been stopped by its trap. -/
theorem Slices.untrapped (h : Slices patience host trap budget c s t k run) {j : Nat} (hj : j < k) :
    trappedBy run trap t j = none := by
  induction j with
  | zero => rfl
  | succ j ih =>
    cases hb : (run (j + 1)).1.atBoundary with
    | false => exact (trappedBy_inside trap t hb).trans (ih (by omega))
    | true =>
      by_contra htrap
      exact h.goesOn (j + 1) (Nat.succ_pos j) hj (Or.inl ⟨hb, Or.inl htrap⟩)

theorem Breakpoints.trappedBy_trap (b : Breakpoints) {j : Nat} (hj : 0 < j)
    (hb : (run j).1.atBoundary = true) :
    trappedBy run b.trap () j = (some (b.check (run j).1.regs.pc)).filter (· != 0) := by
  obtain ⟨i, rfl⟩ : ∃ i, j = i + 1 := ⟨j - 1, by omega⟩
  exact trappedBy_boundary b.trap () hb

end

namespace Breakpoints

/-- A run that ends in `c'`, with the breakpoints that the changes have led to as its trap. `run`
holds the moments of its `k` ticks. -/
structure Halts {σ : Type} (changes : List Change) (fuel : Nat) (host : Host σ) (budget : UInt32)
    (c : Cpu) (s : σ) (c' : Cpu) (k : Nat) (run : Nat → Moment σ) : Prop where
  /-- Wherever the run begins, it makes a tick. -/
  pos : 0 < k
  ticking (j : Nat) : j ≤ k → c.ticking fuel host.logged j ([], s) = .ok (run j)
  ended : c' = { (run k).1 with ticks := (run k).cycles, trapId := c'.trapId }
  /-- The breakpoints are asked at the boundaries that the ticks lead to, and so not at the one that
  the run begins at. -/
  asked : ∃ log s', c.execute fuel host.logged (after changes).trap.logged budget ([], s) ([], ()) =
    .ok (c', (log, s'), (questions run k, ()))
  inside (j : Nat) : 0 < j → j < k → (run j).1.atBoundary = true →
    ∀ slot, ¬Watches changes slot (run j).1.regs.pc
  found : c'.atBoundary = true → (∃ slot, Watches changes slot c'.regs.pc) →
    ∃ (slot : Nat) (id : Int32), First changes c'.regs.pc slot ∧ c'.trapId = some id ∧
      id.toInt = slot + 1
  missed : (c'.atBoundary = true → ∀ slot, ¬Watches changes slot c'.regs.pc) → c'.trapId = none

/-- The call that a run has ended with leaves what its last question was answered with. -/
theorem halts {σ : Type} {changes : List Change} {fuel : Nat} {host : Host σ} {budget : UInt32}
    {c c' : Cpu} {s s' : σ}
    (h : c.execute fuel host (after changes).trap budget s () = .ok (c', s', ())) :
    ∃ k run, Halts changes fuel host budget c s c' k run := by
  obtain ⟨k, hslices, -, hlogged, rfl, -, -⟩ := Cpu.execute_slices h
  generalize c.moment fuel host s = run at hslices hlogged ⊢
  have hanswer : ∀ j, 0 < j → (run j).1.atBoundary = true →
      trappedBy run (after changes).trap () j =
        (some ((after changes).check (run j).1.regs.pc)).filter (· != 0) :=
    fun j hj hb => trappedBy_trap _ hj hb
  refine ⟨k, run, hslices.pos, hslices.ticking, rfl, ⟨_, _, hlogged⟩, ?_, ?_, ?_⟩
  · intro j hj hjk hb slot hslot
    have hid := (check_ne_zero_iff changes _).2 ⟨slot, hslot⟩
    have hnone := hslices.untrapped hjk
    rw [hanswer j hj hb] at hnone
    simp [hid] at hnone
  · intro hb hwatched
    have hid : (after changes).check (run k).1.regs.pc ≠ 0 :=
      (check_ne_zero_iff changes _).2 hwatched
    obtain ⟨slot, hfirst, hint⟩ := (check_after changes (run k).1.regs.pc).resolve_right
      fun hnone => hid hnone.2
    refine ⟨slot, _, hfirst, ?_, hint⟩
    change trappedBy run (after changes).trap () k = _
    rw [hanswer k hslices.pos hb]
    simp [hid]
  · intro hnone
    change trappedBy run (after changes).trap () k = none
    cases hb : (run k).1.atBoundary with
    | false =>
      obtain ⟨i, rfl⟩ : ∃ i, k = i + 1 := ⟨k - 1, by have := hslices.pos; omega⟩
      rw [trappedBy_inside _ () hb]
      exact hslices.untrapped (Nat.lt_succ_self i)
    | true =>
      have hid : ¬(after changes).check (run k).1.regs.pc ≠ 0 := by
        rw [check_ne_zero_iff]
        rintro ⟨slot, hslot⟩
        exact hnone hb slot hslot
      rw [hanswer k hslices.pos hb, not_not.1 hid]
      rfl

/-- Breakpoints stop a run exactly where they are set. After any changes, those that are refused
because there is no such slot included, a slot holds the address that it was last set to if it has
not been cleared since; the look-ups agree with that. A run with the breakpoints as its trap passes
no boundary at a watched address; it is said to be trapped if and only if it ends at such a
boundary, and then by the least slot that watches the address, whatever its budget. -/
theorem breakpoints_stop_where_set (changes : List Change) :
    (∀ (b : Breakpoints) (slot : Nat) (addr : UInt16), capacity ≤ slot →
      b.set slot addr = .error (.slotOutOfRange slot) ∧
      b.clear slot = .error (.slotOutOfRange slot)) ∧
    (∀ slot addr, (after changes).get? slot = some addr ↔ Watches changes slot addr) ∧
    ((after changes).isEmpty = true ↔ ∀ slot addr, ¬Watches changes slot addr) ∧
    (∀ pc, (∃ slot, First changes pc slot ∧ ((after changes).check pc).toInt = slot + 1) ∨
      (∀ slot, ¬Watches changes slot pc) ∧ (after changes).check pc = 0) ∧
    ∀ {σ : Type} (fuel : Nat) (host : Host σ) (budget : UInt32) (c c' : Cpu) (s s' : σ),
      c.execute fuel host (after changes).trap budget s () = .ok (c', s', ()) →
        ∃ k run, Halts changes fuel host budget c s c' k run := by
  refine ⟨?_, get?_after_iff changes, ?_, check_after changes, fun _ _ _ _ _ _ _ => halts⟩
  · intro b slot addr hslot
    exact ⟨dif_neg (Nat.not_lt.2 hslot), dif_neg (Nat.not_lt.2 hslot)⟩
  · rw [isEmpty_iff]
    exact forall₂_congr fun slot addr => not_congr (get?_after_iff changes slot addr)

/-- Slot 4 and then slot 2 are set to the second of a row of NOPs, slot 2 is cleared again, and slot
8 does not exist. The run begins at the first NOP and stops before the second, with a budget of the
two cycles that it has taken. -/
theorem breakpoints_stop_at_nop :
    let changes : List Change := [.set 4 1, .set 2 1, .set 8 1, .clear 2]
    let host := Schedule.quiet.host
    let start : Cpu × Ram := (.powerOn .plain, .ofMemory fun _ => 0xEA)
    (after changes).set 8 1 = .error (.slotOutOfRange 8) ∧
    ∃ c s k run, start.1.execute 3 host (after changes).trap 2 start.2 () = .ok (c, s, ()) ∧
      Halts changes 3 host 2 start.1 start.2 c k run ∧ c.atBoundary = true ∧ c.regs.pc = 1 ∧
      (after changes).get? 4 = some 1 ∧ c.trapId = some 5 := by
  intro changes host start
  obtain ⟨hrefused, hget, -, -, hruns⟩ := breakpoints_stop_where_set changes
  obtain ⟨⟨c, s, _⟩, hrun, hend⟩ := ok_of_any
    (x := start.1.execute 3 host (after changes).trap 2 start.2 ())
    (p := fun r => r.1.atBoundary && r.1.regs.pc == 1 && r.1.trapId == some 5) (by decide +kernel)
  simp only [Bool.and_eq_true, beq_iff_eq] at hend
  obtain ⟨⟨hb, hpc⟩, hid⟩ := hend
  obtain ⟨k, run, hhalts⟩ := hruns 3 host 2 start.1 c start.2 s hrun
  have hslot : Watches changes 4 1 := ⟨by decide, [], _, rfl, by simp [Change.Touches]⟩
  exact ⟨(hrefused _ 8 1 (Nat.le_refl 8)).1, c, s, k, run, hrun, hhalts, hb, hpc,
    (hget 4 1).2 hslot, hid⟩

end Breakpoints

end Nmos6502
