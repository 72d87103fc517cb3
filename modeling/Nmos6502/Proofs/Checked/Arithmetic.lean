import Nmos6502.Fault
import Nmos6502.Instruction.Effect

/-! # Arithmetic in words

Here the sums of the accumulator are made one by one in words of eight or sixteen bits, and a sum
that does not fit its word is refused. Every sum fits, for all operands and also in decimal mode
with bytes that are not two digits, so nothing is ever refused. Differences are taken modulo the
word and need no check. -/

namespace Nmos6502

/-- The sum, unless it needs more than `bits` bits. -/
def checkedSum (bits a b : Nat) : Except Fault Nat :=
  if a + b < 1 <<< bits then .ok (a + b) else .error (.sumOverflow bits)

theorem checkedSum_ok {bits a b : Nat} (h : a + b < 1 <<< bits) :
    checkedSum bits a b = .ok (a + b) :=
  if_pos h

namespace Arithmetic

/-! ### The adder -/

theorem lowDigit_lt (b : UInt8) : lowDigit b < 16 := Nat.mod_lt _ (by decide)

theorem highDigit_lt (b : UInt8) : highDigit b < 16 := by
  have := b.toNat_lt
  unfold highDigit
  omega

/-- A digit's sum, corrected in eight bits. -/
def checkedCarried (digit : Nat) : Except Fault Nat :=
  if 9 < digit then checkedSum 8 digit 6 else .ok digit

theorem checkedCarried_eq {digit : Nat} (h : digit < 250) :
    checkedCarried digit = .ok (carried digit) := by
  unfold checkedCarried carried
  split
  · exact checkedSum_ok (by omega)
  · rfl

/-- The binary sum, in sixteen bits. -/
def checkedAddBinary (a v : UInt8) (p : Status) : Except Fault (UInt8 × Status) := do
  let sum ← checkedSum 16 a.toNat v.toNat
  let sum ← checkedSum 16 sum p.carry.toNat
  let result := UInt8.ofNat sum
  return (result, { p.setNZ result with
    carry := 255 < sum
    overflow := sign a == sign v && sign a != sign result })

theorem checkedAddBinary_eq (a v : UInt8) (p : Status) :
    checkedAddBinary a v p = .ok (addBinary a v p) := by
  have ha := a.toNat_lt
  have hv := v.toNat_lt
  have hc := p.carry.toNat_le
  simp only [checkedAddBinary, checkedSum_ok (show a.toNat + v.toNat < 1 <<< 16 by omega),
    checkedSum_ok (show a.toNat + v.toNat + p.carry.toNat < 1 <<< 16 by omega), bind, Except.bind]
  rfl

/-- The decimal sum: each digit is summed and corrected in eight bits. -/
def checkedAddDecimal (a v : UInt8) (p : Status) : Except Fault (UInt8 × Status) := do
  let low ← checkedSum 8 (lowDigit a) (lowDigit v)
  let low ← checkedSum 8 low p.carry.toNat
  let low ← checkedCarried low
  let high ← checkedSum 8 (highDigit a) (highDigit v)
  let high ← checkedSum 8 high (if 15 < low then 1 else 0)
  let corrected ← checkedCarried high
  let zero := (a.toNat + v.toNat + p.carry.toNat) % 256 == 0
  return (UInt8.ofNat (corrected % 16 * 16 + low % 16), { p with
    zero := zero
    negative := !zero && high.testBit 3
    overflow := sign a == sign v && sign a != high.testBit 3
    carry := 15 < corrected
    unused := true })

theorem checkedAddDecimal_eq (a v : UInt8) (p : Status) :
    checkedAddDecimal a v p = .ok (addDecimal a v p) := by
  have hla := lowDigit_lt a
  have hlv := lowDigit_lt v
  have hha := highDigit_lt a
  have hhv := highDigit_lt v
  have hc := p.carry.toNat_le
  have hcarry : (if 15 < carried (lowSum a v p.carry) then 1 else 0) ≤ 1 := by split <;> decide
  have hlow : lowSum a v p.carry = lowDigit a + lowDigit v + p.carry.toNat := rfl
  have hhigh : highSum a v p.carry =
      highDigit a + highDigit v + (if 15 < carried (lowSum a v p.carry) then 1 else 0) := rfl
  simp only [checkedAddDecimal, bind, Except.bind,
    checkedSum_ok (show lowDigit a + lowDigit v < 1 <<< 8 by omega),
    checkedSum_ok (show lowDigit a + lowDigit v + p.carry.toNat < 1 <<< 8 by omega), ← hlow,
    checkedCarried_eq (show lowSum a v p.carry < 250 by omega),
    checkedSum_ok (show highDigit a + highDigit v < 1 <<< 8 by omega),
    checkedSum_ok (show highDigit a + highDigit v +
      (if 15 < carried (lowSum a v p.carry) then 1 else 0) < 1 <<< 8 by omega), ← hhigh,
    checkedCarried_eq (show highSum a v p.carry < 250 by omega)]
  rfl

def checkedAdd (adder : Bool) (a v : UInt8) (p : Status) : Except Fault (UInt8 × Status) :=
  if isDecimal adder p then checkedAddDecimal a v p else checkedAddBinary a v p

theorem checkedAdd_eq (adder : Bool) (a v : UInt8) (p : Status) :
    checkedAdd adder a v p = .ok (add adder a v p) := by
  unfold checkedAdd add
  split
  · exact checkedAddDecimal_eq a v p
  · exact checkedAddBinary_eq a v p

end Arithmetic

/-! ### Operations that add -/

def ReadOp.checkedApply (adder : Bool) (op : ReadOp) (v : UInt8) (r : Registers) :
    Except Fault Registers :=
  match op with
  | adc => (Arithmetic.checkedAdd adder r.a v r.p).map fun sum => r.setResult sum
  | _ => .ok (op.apply adder v r)

theorem ReadOp.checkedApply_eq (adder : Bool) (op : ReadOp) (v : UInt8) (r : Registers) :
    op.checkedApply adder v r = .ok (op.apply adder v r) := by
  cases op with
  | adc =>
    rw [checkedApply, Arithmetic.checkedAdd_eq]
    rfl
  | _ => rfl

def ModifyOp.checkedApply (adder : Bool) (op : ModifyOp) (v : UInt8) (r : Registers) :
    Except Fault (UInt8 × Registers) :=
  match op with
  | rra =>
    let (w, p) := Shift.ror.apply v r.p
    (Arithmetic.checkedAdd adder r.a w p).map fun sum => (w, r.setResult sum)
  | _ => .ok (op.apply adder v r)

theorem ModifyOp.checkedApply_eq (adder : Bool) (op : ModifyOp) (v : UInt8) (r : Registers) :
    op.checkedApply adder v r = .ok (op.apply adder v r) := by
  cases op with
  | rra =>
    simp only [checkedApply, Arithmetic.checkedAdd_eq]
    rfl
  | _ => rfl

end Nmos6502
