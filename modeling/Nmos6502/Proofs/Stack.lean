import Nmos6502.Proofs.StraightLine

/-! # Bytes on the stack

The stack is a window of 256 bytes that wraps inside page one. Counted from a value of S downwards
its addresses are all different, so bytes that are pushed one after the other, up to 256 of them,
stay where they are. -/

namespace Nmos6502

/-! ### Slots -/

/-- The address of the next free byte once `n` bytes have been pushed from `s` on. -/
def slot (s : UInt8) (n : Nat) : UInt16 := stackAddress (s - UInt8.ofNat n)

theorem slot_zero (s : UInt8) : slot s 0 = stackAddress s := by simp [slot]

theorem sub_ofNat_add (s : UInt8) (m n : Nat) :
    s - UInt8.ofNat (m + n) = s - UInt8.ofNat m - UInt8.ofNat n := by
  rw [UInt8.ofNat_add]
  grind

theorem slot_add (s : UInt8) (m n : Nat) : slot s (m + n) = slot (s - UInt8.ofNat m) n := by
  rw [slot, sub_ofNat_add, slot]

theorem slot_succ (s : UInt8) (n : Nat) : slot s (n + 1) = slot (s - 1) n := by
  rw [Nat.add_comm, slot_add]
  rfl

theorem highByte_slot (s : UInt8) (n : Nat) : highByte (slot s n) = 1 := highByte_addressOf _ _

theorem stackAddress_inj {s t : UInt8} (h : stackAddress s = stackAddress t) : s = t := by
  have hlow := congrArg lowByte h
  rwa [stackAddress, stackAddress, lowByte_addressOf, lowByte_addressOf] at hlow

theorem slot_inj {s : UInt8} {m n : Nat} (hm : m < 256) (hn : n < 256) (h : slot s m = slot s n) :
    m = n := by
  have hnat := congrArg UInt8.toNat ((UInt8.sub_right_inj s).1 (stackAddress_inj h))
  rwa [UInt8.toNat_ofNat', UInt8.toNat_ofNat', Nat.mod_eq_of_lt hm, Nat.mod_eq_of_lt hn] at hnat

/-! ### Pushes -/

/-- The memory after pushes of bytes, the first of them at `s`. -/
def pushes (s : UInt8) : List UInt8 → Memory → Memory
  | [], m => m
  | b :: bs, m => pushes (s - 1) bs (Function.update m (stackAddress s) b)

/-- Pushes change no byte but those of their slots. -/
theorem pushes_frame {s : UInt8} {bs : List UInt8} {m : Memory} {addr : UInt16}
    (h : ∀ n < bs.length, addr ≠ slot s n) : pushes s bs m addr = m addr := by
  induction bs generalizing s m with
  | nil => rfl
  | cons b bs ih =>
    rw [pushes, ih]
    · exact Function.update_of_ne (slot_zero s ▸ h 0 (Nat.succ_pos _)) _ _
    · intro n hn
      rw [← slot_succ]
      exact h (n + 1) (Nat.succ_lt_succ hn)

theorem pushes_slot {s : UInt8} {bs : List UInt8} {m : Memory} (hlen : bs.length ≤ 256) {n : Nat}
    (hn : n < bs.length) : pushes s bs m (slot s n) = bs[n] := by
  induction bs generalizing s m n with
  | nil => exact absurd hn (Nat.not_lt_zero n)
  | cons b bs ih =>
    rw [List.length_cons] at hlen hn
    rw [pushes]
    cases n with
    | zero =>
      rw [slot_zero, pushes_frame]
      · exact Function.update_self _ _ _
      · intro k hk heq
        rw [← slot_zero, ← slot_succ] at heq
        cases slot_inj (by decide) (by omega) heq
    | succ n =>
      rw [slot_succ, ih (by omega) (by omega)]
      rfl

/-! ### Stack contents -/

/-- The bytes lie on the stack, the first of them at `s`. -/
def Holds (s : UInt8) (bs : List UInt8) (m : Memory) : Prop :=
  ∀ n (h : n < bs.length), m (slot s n) = bs[n]

theorem holds_nil (s : UInt8) (m : Memory) : Holds s [] m := fun n h => absurd h (Nat.not_lt_zero n)

theorem Holds.congr {s : UInt8} {bs : List UInt8} {m m' : Memory} (h : Holds s bs m)
    (hm : ∀ addr, highByte addr = 1 → m' addr = m addr) : Holds s bs m' :=
  fun n hn => (hm _ (highByte_slot s n)).trans (h n hn)

/-- Bytes that are pushed on top of others lie there with them, while there is room. -/
theorem Holds.pushes {s : UInt8} {bs cs : List UInt8} {m : Memory} (h : Holds s bs m)
    (hroom : bs.length + cs.length ≤ 256) :
    Holds s (bs ++ cs) (pushes (s - UInt8.ofNat bs.length) cs m) := by
  intro n hn
  rw [List.length_append] at hn
  by_cases hold : n < bs.length
  · rw [List.getElem_append_left hold, pushes_frame]
    · exact h n hold
    · intro k hk heq
      rw [← slot_add] at heq
      have := slot_inj (by omega) (by omega) heq
      omega
  · obtain ⟨k, rfl⟩ : ∃ k, n = bs.length + k := ⟨n - bs.length, by omega⟩
    rw [slot_add, pushes_slot (by omega) (by omega), List.getElem_append_right (by omega)]
    congr 1
    omega

/-- What was there before the last pushes. -/
theorem Holds.below {s : UInt8} {bs cs : List UInt8} {m : Memory} (h : Holds s (bs ++ cs) m) :
    Holds s bs m := by
  intro n hn
  rw [h n (by rw [List.length_append]; omega), List.getElem_append_left hn]

/-- The last pushes lie on top. -/
theorem Holds.top {s : UInt8} {bs cs : List UInt8} {m : Memory} (h : Holds s (bs ++ cs) m) :
    Holds (s - UInt8.ofNat bs.length) cs m := by
  intro n hn
  rw [← slot_add, h (bs.length + n) (by rw [List.length_append]; omega),
    List.getElem_append_right (by omega)]
  congr 1
  omega

end Nmos6502
