import Nmos6502.Fault

/-! # Ticks

Time is counted in bus cycles, held cycles included. Sums are refused once they need more than
sixty-four bits; differences stop at zero. -/

namespace Nmos6502

structure Ticks where
  count : Nat
deriving Repr, DecidableEq

namespace Ticks

def zero : Ticks := ⟨0⟩

/-- The first count that does not fit the counter. -/
def limit : Nat := 0x10000000000000000

def ofUInt32 (n : UInt32) : Ticks := ⟨n.toNat⟩

/-- The sum, unless it reaches the limit. -/
def add (t d : Ticks) : Except Fault Ticks :=
  if t.count + d.count < limit then .ok ⟨t.count + d.count⟩ else .error .clockOverflow

/-- The difference, or zero if `d` is the longer time. -/
def sub (t d : Ticks) : Ticks := ⟨t.count - d.count⟩

def next (t : Ticks) : Ticks := ⟨t.count + 1⟩

protected def compare (t d : Ticks) : Ordering := Ord.compare t.count d.count

theorem add_eq_ok_iff {t d s : Ticks} :
    t.add d = .ok s ↔ t.count + d.count < limit ∧ s.count = t.count + d.count := by
  cases s
  simp only [add]
  split
  · simp_all [eq_comm]
  · simp_all [Nat.not_lt.2]

theorem sub_add_cancel {t d s : Ticks} (h : t.add d = .ok s) : s.sub d = t := by
  obtain ⟨-, h⟩ := add_eq_ok_iff.1 h
  cases t
  simp [sub, h]

end Ticks

end Nmos6502
