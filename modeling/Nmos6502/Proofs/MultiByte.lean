import Mathlib.Tactic.LinearCombination
import Mathlib.Tactic.Zify
import Nmos6502.Proofs.Checked.Arithmetic

/-! # Numbers of many bytes

A program adds or subtracts numbers longer than a byte from the least significant byte up: it loads
each byte of the first number, adds or subtracts the byte of the second, keeps the result and leaves
the carry to the next place. What one step does to a digit, the whole chain does to the numbers. -/

namespace Nmos6502

/-! ### Numerals -/

structure Numeral where
  base : Nat
  IsDigit : UInt8 → Prop
  digit : UInt8 → Nat

namespace Numeral

/-- The number that a list of bytes stands for, least significant byte first. -/
def value (n : Numeral) : List UInt8 → Nat
  | [] => 0
  | b :: rest => n.digit b + n.base * n.value rest

end Numeral

/-! ### Chains of one operation -/

/-- The operation on each byte of the first list in turn, put into the accumulator, with the byte of
the second list as its operand: what the accumulator holds after each step, and the registers at the
end. -/
def ReadOp.chain (adder : Bool) (op : ReadOp) :
    List UInt8 → List UInt8 → Registers → List UInt8 × Registers
  | a :: as, v :: vs, r =>
    let step := op.apply adder v { r with a := a }
    let rest := chain adder op as vs step
    (step.a :: rest.1, rest.2)
  | _, _, r => ([], r)

/-- The operation adds digits (`sense` is one) or takes them away (`sense` is minus one), and what
it leaves in `carried` counts as one digit of the next place. -/
def Numeral.Exact (n : Numeral) (adder : Bool) (op : ReadOp) (sense : Int)
    (mode : Status → Prop) (carried : Status → Nat) : Prop :=
  ∀ (v : UInt8) (r : Registers), n.IsDigit r.a → n.IsDigit v → mode r.p →
    n.IsDigit (op.apply adder v r).a ∧ mode (op.apply adder v r).p ∧
      (n.digit (op.apply adder v r).a : Int) = n.digit r.a +
        sense * (n.digit v + carried r.p - n.base * carried (op.apply adder v r).p)

/-- The second state differs from the first in what a sum determines only. -/
def Registers.DiffersInSum (r s : Registers) : Prop :=
  s = { r with
    a := s.a
    p := { r.p with
      negative := s.p.negative, overflow := s.p.overflow, zero := s.p.zero, carry := s.p.carry } }

namespace ReadOp

variable {n : Numeral} {adder : Bool} {op : ReadOp} {sense : Int} {mode : Status → Prop}
  {carried : Status → Nat}

theorem chain_length (as vs : List UInt8) (r : Registers) (h : as.length = vs.length) :
    (op.chain adder as vs r).1.length = as.length := by
  induction as generalizing vs r with
  | nil => rfl
  | cons a as ih =>
    cases vs with
    | nil => simp at h
    | cons v vs =>
      have hrest := ih vs (op.apply adder v { r with a := a }) (by simpa using h)
      simp only [chain, List.length_cons, hrest]

theorem chain_exact (hop : n.Exact adder op sense mode carried) (as vs : List UInt8)
    (r : Registers) (hlen : as.length = vs.length) (has : ∀ b ∈ as, n.IsDigit b)
    (hvs : ∀ b ∈ vs, n.IsDigit b) (hmode : mode r.p) :
    (∀ b ∈ (op.chain adder as vs r).1, n.IsDigit b) ∧
      (n.value (op.chain adder as vs r).1 : Int) = n.value as +
        sense * (n.value vs + carried r.p -
          n.base ^ as.length * carried (op.chain adder as vs r).2.p) := by
  -- From the least significant byte up, for any registers: what the first step carries is what the
  -- rest of the chain starts with.
  induction as generalizing vs r with
  | nil =>
    cases vs with
    | nil => simp [chain, Numeral.value]
    | cons v vs => simp at hlen
  | cons a as ih =>
    cases vs with
    | nil => simp at hlen
    | cons v vs =>
      obtain ⟨ha, has⟩ := List.forall_mem_cons.1 has
      obtain ⟨hv, hvs⟩ := List.forall_mem_cons.1 hvs
      obtain ⟨hdigit, hmode', hstep⟩ := hop v { r with a := a } ha hv hmode
      obtain ⟨hdigits, hrest⟩ :=
        ih vs (op.apply adder v { r with a := a }) (by simpa using hlen) has hvs hmode'
      refine ⟨List.forall_mem_cons.2 ⟨hdigit, hdigits⟩, ?_⟩
      simp only [chain, Numeral.value, List.length_cons, pow_succ, Nat.cast_add, Nat.cast_mul]
      linear_combination hstep + (n.base : Int) * hrest

/-! ### What a chain leaves alone -/

theorem differsInSum_apply (hop : op = adc ∨ op = sbc) {r : Registers}
    (hu : r.p.unused = true) (v : UInt8) : r.DiffersInSum (op.apply adder v r) := by
  rcases hop with rfl | rfl
  · simp only [apply, Arithmetic.add]
    split <;> simp [Registers.DiffersInSum, Registers.setResult, Arithmetic.addDecimal,
      Arithmetic.addBinary, Status.setNZ, hu]
  · simp only [apply, Arithmetic.sub]
    split <;> simp [Registers.DiffersInSum, Registers.setResult, Arithmetic.subDecimal,
      Arithmetic.subBinary, Status.setNZ, hu]

theorem differsInSum_chain (hop : op = adc ∨ op = sbc) (as vs : List UInt8) {r : Registers}
    (hu : r.p.unused = true) : r.DiffersInSum (op.chain adder as vs r).2 := by
  induction as generalizing vs r with
  | nil => simp [chain, Registers.DiffersInSum]
  | cons a as ih =>
    cases vs with
    | nil => simp [chain, Registers.DiffersInSum]
    | cons v vs =>
      have hstep : Registers.DiffersInSum { r with a := a } (op.apply adder v { r with a := a }) :=
        differsInSum_apply hop (r := { r with a := a }) hu v
      have hrest := ih vs (r := op.apply adder v { r with a := a }) (by rw [hstep]; exact hu)
      rw [Registers.DiffersInSum] at hstep hrest ⊢
      simp only [chain]
      rw [hrest, hstep]

end ReadOp

/-! ### Packed decimal numbers -/

namespace Arithmetic

def IsBcd (b : UInt8) : Prop := lowDigit b ≤ 9 ∧ highDigit b ≤ 9

instance (b : UInt8) : Decidable (IsBcd b) := inferInstanceAs (Decidable (_ ∧ _))

def packed : Numeral := ⟨100, IsBcd, fun b => highDigit b * 10 + lowDigit b⟩

theorem toNat_eq_digits (b : UInt8) : b.toNat = highDigit b * 16 + lowDigit b := by
  unfold highDigit lowDigit
  omega

theorem isBcd_ofNat {high low : Nat} (hh : high ≤ 9) (hl : low ≤ 9) :
    IsBcd (UInt8.ofNat (high * 16 + low)) := by
  simp only [IsBcd, lowDigit, highDigit, UInt8.toNat_ofNat']
  omega

theorem digit_ofNat {high low : Nat} (hh : high ≤ 9) (hl : low ≤ 9) :
    packed.digit (UInt8.ofNat (high * 16 + low)) = high * 10 + low := by
  simp only [packed, lowDigit, highDigit, UInt8.toNat_ofNat']
  omega

/-- A sum of two decimal digits and a carry, corrected, is the sum to the base ten, and it carries
into the next digit when it leaves the sixteen. -/
theorem carried_decimal (digit : Nat) (h : digit ≤ 19) :
    carried digit % 16 ≤ 9 ∧
      carried digit % 16 + 10 * (if 15 < carried digit then 1 else 0) = digit := by
  unfold carried
  split <;> split <;> omega

theorem addDecimal_exact {a v : UInt8} (ha : IsBcd a) (hv : IsBcd v) (p : Status) :
    IsBcd (addDecimal a v p).1 ∧
      packed.digit (addDecimal a v p).1 + 100 * (addDecimal a v p).2.carry.toNat =
        packed.digit a + packed.digit v + p.carry.toNat := by
  obtain ⟨hla, hha⟩ := ha
  obtain ⟨hlv, hhv⟩ := hv
  have hc := p.carry.toNat_le
  have hlow : lowSum a v p.carry = lowDigit a + lowDigit v + p.carry.toNat := rfl
  obtain ⟨hlow9, hlow10⟩ := carried_decimal (lowSum a v p.carry) (by omega)
  have hhigh : highSum a v p.carry = highDigit a + highDigit v +
      (if 15 < carried (lowSum a v p.carry) then 1 else 0) := rfl
  obtain ⟨hhigh9, hhigh10⟩ := carried_decimal (highSum a v p.carry) (by omega)
  refine ⟨isBcd_ofNat hhigh9 hlow9, ?_⟩
  have hcarry : (addDecimal a v p).2.carry.toNat =
      if 15 < carried (highSum a v p.carry) then 1 else 0 := by
    by_cases h : 15 < carried (highSum a v p.carry) <;> simp [addDecimal, h]
  have hresult : packed.digit (addDecimal a v p).1 =
      carried (highSum a v p.carry) % 16 * 10 + carried (lowSum a v p.carry) % 16 :=
    digit_ofNat hhigh9 hlow9
  rw [hcarry, hresult]
  simp only [packed]
  omega

/-- A difference of two decimal digits and a borrow, corrected, is the difference to the base ten,
and it borrows from the next digit when it is negative. -/
theorem borrowed_decimal (digit : Int) (hl : -10 ≤ digit) (hh : digit ≤ 9) :
    nibble (borrowed digit) ≤ 9 ∧
      nibble (borrowed digit) = digit + 10 * (if digit < 0 then 1 else 0) := by
  unfold nibble borrowed
  split <;> omega

theorem borrow_le (p : Status) : borrow p ≤ 1 := by
  unfold borrow
  split <;> decide

theorem borrow_eq (p : Status) : (borrow p : Int) = 1 - p.carry.toNat := by
  unfold borrow
  cases p.carry <;> rfl

theorem borrow_subDecimal {a v : UInt8} (ha : IsBcd a) (hv : IsBcd v) (p : Status) :
    (borrow (subDecimal a v p).2 : Int) = if highDifference a v p < 0 then 1 else 0 := by
  obtain ⟨hla, hha⟩ := ha
  obtain ⟨hlv, hhv⟩ := hv
  have hb := borrow_le p
  have hlow : lowDifference a v p = lowDigit a - lowDigit v - borrow p := rfl
  have hhigh : highDifference a v p = highDigit a - highDigit v -
      (if lowDifference a v p < 0 then 1 else 0) := rfl
  -- The carry comes from the binary difference, the digits from the corrected one.
  have hiff : v.toNat + borrow p ≤ a.toNat ↔ 0 ≤ highDifference a v p := by
    rw [toNat_eq_digits a, toNat_eq_digits v]
    omega
  have hcarry : (subDecimal a v p).2.carry = decide (v.toNat + borrow p ≤ a.toNat) := rfl
  rw [borrow_eq, hcarry]
  by_cases h : 0 ≤ highDifference a v p
  · simp [hiff.2 h, Int.not_lt.2 h]
  · simp [mt hiff.1 h, Int.not_le.1 h]

theorem subDecimal_exact {a v : UInt8} (ha : IsBcd a) (hv : IsBcd v) (p : Status) :
    IsBcd (subDecimal a v p).1 ∧
      (packed.digit (subDecimal a v p).1 : Int) = packed.digit a -
        (packed.digit v + borrow p - 100 * borrow (subDecimal a v p).2) := by
  have hborrow := borrow_subDecimal ha hv p
  obtain ⟨hla, hha⟩ := ha
  obtain ⟨hlv, hhv⟩ := hv
  have hb := borrow_le p
  have hlow : lowDifference a v p = lowDigit a - lowDigit v - borrow p := rfl
  obtain ⟨hlow9, hlow10⟩ := borrowed_decimal (lowDifference a v p) (by omega) (by omega)
  have hhigh : highDifference a v p = highDigit a - highDigit v -
      (if lowDifference a v p < 0 then 1 else 0) := rfl
  obtain ⟨hhigh9, hhigh10⟩ :=
    borrowed_decimal (highDifference a v p) (by omega) (by omega)
  refine ⟨isBcd_ofNat hhigh9 hlow9, ?_⟩
  have hresult : packed.digit (subDecimal a v p).1 =
      nibble (borrowed (highDifference a v p)) * 10 + nibble (borrowed (lowDifference a v p)) :=
    digit_ofNat hhigh9 hlow9
  rw [hborrow, hresult]
  simp only [packed]
  omega

theorem adc_exact :
    packed.Exact true .adc 1 (fun p => p.decimal = true) (fun p => p.carry.toNat) := by
  intro v r ha hv hd
  obtain ⟨hbcd, hsum⟩ := addDecimal_exact ha hv r.p
  have happly : ReadOp.adc.apply true v r = r.setResult (addDecimal r.a v r.p) := by
    simp only [ReadOp.apply, add, isDecimal, Bool.true_and, hd, if_true]
  rw [happly]
  refine ⟨hbcd, hd, ?_⟩
  simp only [Registers.setResult]
  change _ = _ + 1 * (_ + _ - 100 * _)
  omega

theorem sbc_exact : packed.Exact true .sbc (-1) (fun p => p.decimal = true) borrow := by
  intro v r ha hv hd
  obtain ⟨hbcd, hdifference⟩ := subDecimal_exact ha hv r.p
  have happly : ReadOp.sbc.apply true v r = r.setResult (subDecimal r.a v r.p) := by
    simp only [ReadOp.apply, sub, isDecimal, Bool.true_and, hd, if_true]
  rw [happly]
  refine ⟨hbcd, hd, ?_⟩
  simp only [Registers.setResult]
  change _ = _ + -1 * (_ + _ - 100 * _)
  omega

theorem packed_base : (packed.base : Int) = 100 := rfl

/-- Additions and subtractions of packed decimal numbers of any length are exact: the bytes left in
the accumulator are packed decimal again, and with the last carry as one more place they make up the
sum, or the difference. Nothing but A, N, V, Z and C changes. -/
theorem packed_chain_exact (as vs : List UInt8) (r : Registers) (hlen : as.length = vs.length)
    (has : ∀ b ∈ as, IsBcd b) (hvs : ∀ b ∈ vs, IsBcd b) (hd : r.p.decimal = true)
    (hu : r.p.unused = true) :
    (∃ sum s, ReadOp.adc.chain true as vs r = (sum, s) ∧ sum.length = as.length ∧
      (∀ b ∈ sum, IsBcd b) ∧
      packed.value sum + 100 ^ as.length * s.p.carry.toNat =
        packed.value as + packed.value vs + r.p.carry.toNat ∧ r.DiffersInSum s) ∧
    ∃ difference s, ReadOp.sbc.chain true as vs r = (difference, s) ∧
      difference.length = as.length ∧ (∀ b ∈ difference, IsBcd b) ∧
      (packed.value difference : Int) = packed.value as - packed.value vs -
        (1 - r.p.carry.toNat) + 100 ^ as.length * (1 - s.p.carry.toNat) ∧ r.DiffersInSum s := by
  constructor
  · obtain ⟨hdigits, hvalue⟩ := ReadOp.chain_exact adc_exact as vs r hlen has hvs hd
    refine ⟨_, _, rfl, ReadOp.chain_length as vs r hlen, hdigits, ?_,
      ReadOp.differsInSum_chain (.inl rfl) as vs hu⟩
    rw [packed_base] at hvalue
    zify
    linear_combination hvalue
  · obtain ⟨hdigits, hvalue⟩ := ReadOp.chain_exact sbc_exact as vs r hlen has hvs hd
    refine ⟨_, _, rfl, ReadOp.chain_length as vs r hlen, hdigits, ?_,
      ReadOp.differsInSum_chain (.inr rfl) as vs hu⟩
    rw [packed_base, borrow_eq, borrow_eq] at hvalue
    linear_combination hvalue

theorem packed_chain_exact_9999 :
    let r : Registers := ⟨0, 1, 2, 3, 4, { Status.clear with decimal := true }⟩
    (∃ sum s, ReadOp.adc.chain true [0x99, 0x99] [0x01, 0x00] r = (sum, s) ∧ sum.length = 2 ∧
      (∀ b ∈ sum, IsBcd b) ∧ packed.value sum + 100 ^ 2 * s.p.carry.toNat = 9999 + 1 + 0 ∧
      r.DiffersInSum s) ∧
    ∃ difference s, ReadOp.sbc.chain true [0x99, 0x99] [0x01, 0x00] r = (difference, s) ∧
      difference.length = 2 ∧ (∀ b ∈ difference, IsBcd b) ∧
      (packed.value difference : Int) = 9999 - 1 - (1 - 0) + 100 ^ 2 * (1 - s.p.carry.toNat) ∧
      r.DiffersInSum s :=
  packed_chain_exact [0x99, 0x99] [0x01, 0x00] _ rfl (by decide +kernel) (by decide +kernel) rfl rfl

end Arithmetic

end Nmos6502
