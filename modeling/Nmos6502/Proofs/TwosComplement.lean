import Mathlib.Tactic.Ring
import Nmos6502.Proofs.MultiByte

/-! # Binary numbers of many bytes

In binary a byte is one digit to the base 256. A list of bytes stands for two numbers: read without
a sign, and read in two's complement, where numbers from the half of the range on are negative. The
last carry of a chain makes its result exact without a sign, and the last V tells whether the result
is exact with one. A subtraction is an addition of the complement, byte by byte and as a whole. -/

namespace Nmos6502

namespace Arithmetic

/-! ### Numbers without a sign -/

def binary : Numeral := ⟨256, fun _ => True, UInt8.toNat⟩

theorem binary_cons (b : UInt8) (bs : List UInt8) :
    binary.value (b :: bs) = b.toNat + 256 * binary.value bs := rfl

/-- Addition works in binary here. -/
def InBinary (adder : Bool) (p : Status) : Prop := adder = false ∨ p.decimal = false

theorem isDecimal_of_inBinary {adder : Bool} {p : Status} (h : InBinary adder p) :
    isDecimal adder p = false := by
  rcases h with h | h <;> simp [isDecimal, h]

theorem adc_inBinary {adder : Bool} {r : Registers} (h : InBinary adder r.p) (v : UInt8) :
    ReadOp.adc.apply adder v r = r.setResult (addBinary r.a v r.p) := by
  simp only [ReadOp.apply, add, isDecimal_of_inBinary h, Bool.false_eq_true, if_false]

theorem sbc_inBinary {adder : Bool} {r : Registers} (h : InBinary adder r.p) (v : UInt8) :
    ReadOp.sbc.apply adder v r = r.setResult (subBinary r.a v r.p) := by
  simp only [ReadOp.apply, sub, isDecimal_of_inBinary h, Bool.false_eq_true, if_false]

theorem addBinary_exact (a v : UInt8) (p : Status) :
    (addBinary a v p).1.toNat + 256 * (addBinary a v p).2.carry.toNat =
      a.toNat + v.toNat + p.carry.toNat := by
  have ha := a.toNat_lt
  have hv := v.toNat_lt
  have hc := p.carry.toNat_le
  simp only [addBinary, UInt8.toNat_ofNat']
  by_cases h : 255 < a.toNat + v.toNat + p.carry.toNat
  · simp only [h, decide_true, Bool.toNat_true]
    omega
  · simp only [h, decide_false, Bool.toNat_false]
    omega

theorem adc_exact_binary (adder : Bool) :
    binary.Exact adder .adc 1 (InBinary adder) (fun p => p.carry.toNat) := by
  intro v r _ _ hmode
  have hsum := addBinary_exact r.a v r.p
  rw [adc_inBinary hmode]
  refine ⟨trivial, hmode, ?_⟩
  simp only [Registers.setResult, binary]
  omega

/-! ### Numbers with a sign -/

/-- The first number of so many bytes that is negative with a sign. -/
def half (n : Nat) : Nat := 2 ^ (8 * n - 1)

/-- The number in two's complement. -/
def signed (bs : List UInt8) : Int :=
  if binary.value bs < half bs.length then binary.value bs
  else binary.value bs - 256 ^ bs.length

/-- So many bytes hold the number in two's complement. -/
def Fits (n : Nat) (x : Int) : Prop := -half n ≤ x ∧ x ≤ half n - 1

theorem half_one : half 1 = 128 := rfl

theorem half_succ (n : Nat) : half (n + 2) = 256 * half (n + 1) := by
  have hexp : 8 * (n + 2) - 1 = 8 * (n + 1) - 1 + 8 := by omega
  rw [half, half, hexp, pow_add]
  omega

theorem two_mul_half (n : Nat) : 2 * half (n + 1) = 256 ^ (n + 1) := by
  induction n with
  | zero => rfl
  | succ n ih =>
    rw [half_succ, pow_succ, ← ih]
    omega

theorem half_le_cons (b : UInt8) (bs : List UInt8) (n : Nat) :
    half (n + 2) ≤ binary.value (b :: bs) ↔ half (n + 1) ≤ binary.value bs := by
  have hb := b.toNat_lt
  rw [half_succ, binary_cons]
  omega

theorem fits_add (n : Nat) (b : UInt8) (x : Int) :
    Fits (n + 2) (b.toNat + 256 * x) ↔ Fits (n + 1) x := by
  have hb := b.toNat_lt
  have hhalf := half_succ n
  unfold Fits
  omega

theorem signed_singleton (b : UInt8) :
    signed [b] = if b.toNat < 128 then (b.toNat : Int) else b.toNat - 256 := rfl

/-- Only the last byte has a sign. -/
theorem signed_cons (b c : UInt8) (bs : List UInt8) :
    signed (b :: c :: bs) = b.toNat + 256 * signed (c :: bs) := by
  have hiff := half_le_cons b (c :: bs) bs.length
  have hpow : (256 : Int) ^ (bs.length + 2) = 256 * 256 ^ (bs.length + 1) := by ring
  simp only [signed, List.length_cons, hpow]
  by_cases h : half (bs.length + 1) ≤ binary.value (c :: bs)
  · rw [if_neg (not_lt.2 (hiff.2 h)), if_neg (not_lt.2 h), binary_cons b]
    push_cast
    ring
  · rw [if_pos (not_le.1 (mt hiff.1 h)), if_pos (not_le.1 h), binary_cons b]
    push_cast
    ring

/-! ### The flags of the last step -/

theorem sign_addBinary (a v : UInt8) (p : Status) :
    (addBinary a v p).2.negative = sign (addBinary a v p).1 := rfl

theorem overflow_addBinary (a v : UInt8) (p : Status) :
    (addBinary a v p).2.overflow = true ↔ ¬Fits 1 (signed [a] + signed [v] + p.carry.toNat) := by
  have ha := a.toNat_lt
  have hv := v.toNat_lt
  have hc := p.carry.toNat_le
  have hoverflow : (addBinary a v p).2.overflow =
      (decide (128 ≤ a.toNat) == decide (128 ≤ v.toNat) &&
        decide (128 ≤ a.toNat) != decide (128 ≤ (a.toNat + v.toNat + p.carry.toNat) % 256)) := by
    simp only [addBinary, sign, UInt8.toNat_ofNat']
  rw [hoverflow, signed_singleton, signed_singleton, Fits, half_one]
  generalize a.toNat = a at *
  generalize v.toNat = v at *
  generalize p.carry.toNat = c at *
  by_cases h1 : a < 128 <;> by_cases h2 : v < 128 <;> simp <;> omega

theorem flags_adc_chain {adder : Bool} (as vs : List UInt8) (r : Registers)
    (hlen : as.length = vs.length) (hne : as ≠ []) (hmode : InBinary adder r.p) :
    ((ReadOp.adc.chain adder as vs r).2.p.negative = true ↔
        half as.length ≤ binary.value (ReadOp.adc.chain adder as vs r).1) ∧
      ((ReadOp.adc.chain adder as vs r).2.p.overflow = true ↔
        ¬Fits as.length (signed as + signed vs + r.p.carry.toNat)) := by
  -- The last step sets the flags. Every byte before it moves the sum and the range alike.
  induction as generalizing vs r with
  | nil => exact absurd rfl hne
  | cons a as ih =>
    obtain _ | ⟨v, vs⟩ := vs
    · simp at hlen
    have hstep := adc_inBinary (r := { r with a := a }) hmode v
    obtain _ | ⟨b, as⟩ := as
    · obtain rfl : vs = [] := by simpa using hlen
      simp only [ReadOp.chain, hstep, Registers.setResult]
      refine ⟨?_, overflow_addBinary a v r.p⟩
      simp [sign_addBinary, sign, binary, Numeral.value, half_one]
    · obtain _ | ⟨w, vs⟩ := vs
      · simp at hlen
      obtain ⟨hnegative, hoverflow⟩ := ih (w :: vs) (ReadOp.adc.apply adder v { r with a := a })
        (by simpa using hlen) (by simp) (by rw [hstep]; exact hmode)
      have hp : (ReadOp.adc.apply adder v { r with a := a }).p = (addBinary a v r.p).2 := by
        rw [hstep]
        rfl
      have hlast : ReadOp.adc.chain adder (a :: b :: as) (v :: w :: vs) r =
          ((ReadOp.adc.apply adder v { r with a := a }).a ::
              (ReadOp.adc.chain adder (b :: as) (w :: vs)
                (ReadOp.adc.apply adder v { r with a := a })).1,
            (ReadOp.adc.chain adder (b :: as) (w :: vs)
              (ReadOp.adc.apply adder v { r with a := a })).2) := rfl
      rw [hlast, List.length_cons, List.length_cons, half_le_cons, hnegative, hoverflow, hp]
      refine ⟨Iff.rfl, not_congr ?_⟩
      have hsum := addBinary_exact a v r.p
      have hcast : signed (a :: b :: as) + signed (v :: w :: vs) + r.p.carry.toNat =
          (addBinary a v r.p).1.toNat +
            256 * (signed (b :: as) + signed (w :: vs) + (addBinary a v r.p).2.carry.toNat) := by
        rw [signed_cons, signed_cons]
        zify at hsum
        linear_combination -hsum
      rw [hcast, fits_add]
      rfl

/-! ### Subtraction as addition -/

theorem toNat_complement (v : UInt8) : (~~~v).toNat = 255 - v.toNat := by
  rw [UInt8.toNat_not]
  rfl

theorem sign_complement (v : UInt8) : sign (~~~v) = !sign v := by
  have hv := v.toNat_lt
  rw [sign, sign, toNat_complement]
  by_cases h : 128 ≤ v.toNat
  · simp only [h, decide_true, Bool.not_true, decide_eq_false_iff_not]
    omega
  · simp only [h, decide_false, Bool.not_false, decide_eq_true_eq]
    omega

theorem difference_eq (a v : UInt8) (p : Status) :
    difference a v p = UInt8.ofNat (a.toNat + (~~~v).toNat + p.carry.toNat) := by
  have ha := a.toNat_lt
  have hv := v.toNat_lt
  apply UInt8.toNat_inj.1
  simp only [difference, UInt8.toNat_sub, UInt8.toNat_ofNat', toNat_complement, borrow]
  cases p.carry
  · simp only [Bool.false_eq_true, if_false, Bool.toNat_false]
    omega
  · simp only [if_true, Bool.toNat_true]
    omega

theorem subBinary_eq (a v : UInt8) (p : Status) : subBinary a v p = addBinary a (~~~v) p := by
  have ha := a.toNat_lt
  have hv := v.toNat_lt
  have hcarry : decide (v.toNat + borrow p ≤ a.toNat) =
      decide (255 < a.toNat + (~~~v).toNat + p.carry.toNat) := by
    rw [toNat_complement, borrow]
    apply decide_eq_decide.2
    cases p.carry
    · simp only [Bool.false_eq_true, if_false, Bool.toNat_false]
      omega
    · simp only [if_true, Bool.toNat_true]
      omega
  have hsign : (sign a != sign v) = (sign a == sign (~~~v)) := by
    rw [sign_complement]
    cases sign a <;> cases sign v <;> rfl
  simp only [subBinary, addBinary, difference_eq, hcarry, hsign]

theorem sbc_eq_adc_complement {adder : Bool} {r : Registers} (h : InBinary adder r.p) (v : UInt8) :
    ReadOp.sbc.apply adder v r = ReadOp.adc.apply adder (~~~v) r := by
  rw [sbc_inBinary h, adc_inBinary h, subBinary_eq]

theorem sbc_chain_eq {adder : Bool} (as vs : List UInt8) (r : Registers) (h : InBinary adder r.p) :
    ReadOp.sbc.chain adder as vs r = ReadOp.adc.chain adder as (vs.map (~~~·)) r := by
  induction as generalizing vs r with
  | nil => rfl
  | cons a as ih =>
    cases vs with
    | nil => rfl
    | cons v vs =>
      have hstep := sbc_eq_adc_complement (r := { r with a := a }) h v
      have hmode : InBinary adder (ReadOp.adc.apply adder (~~~v) { r with a := a }).p := by
        rw [adc_inBinary (r := { r with a := a }) h]
        exact h
      simp only [ReadOp.chain, List.map_cons, hstep, ih vs _ hmode]

theorem value_complement (bs : List UInt8) :
    binary.value (bs.map (~~~·)) + binary.value bs + 1 = 256 ^ bs.length := by
  induction bs with
  | nil => rfl
  | cons b bs ih =>
    have hb := b.toNat_lt
    rw [List.map_cons, binary_cons, binary_cons, List.length_cons, pow_succ, ← ih, toNat_complement]
    omega

theorem signed_complement {bs : List UInt8} (hne : bs ≠ []) :
    signed (bs.map (~~~·)) = -1 - signed bs := by
  obtain ⟨b, bs, rfl⟩ := List.exists_cons_of_ne_nil hne
  have hsum := value_complement (b :: bs)
  have hhalf := two_mul_half bs.length
  simp only [List.length_cons] at hsum
  simp only [signed, List.length_map, List.length_cons]
  by_cases h : binary.value (b :: bs) < half (bs.length + 1)
  · rw [if_pos h, if_neg (by omega)]
    zify at hsum
    linear_combination hsum
  · rw [if_neg h, if_pos (by omega)]
    zify at hsum
    linear_combination hsum

/-! ### Chains -/

/-- In binary, additions and subtractions of numbers of any length are exact. Without a sign the
bytes left in the accumulator make up the sum, or the difference, with the last carry as one more
place. With a sign they do if and only if V is clear in the end, and N is the sign bit of the
result. A subtraction does to the registers what the addition of the complement does. -/
theorem binary_chain_exact (adder : Bool) (as vs : List UInt8) (r : Registers)
    (hlen : as.length = vs.length) (hne : as ≠ []) (hmode : InBinary adder r.p) :
    (∃ sum s, ReadOp.adc.chain adder as vs r = (sum, s) ∧ sum.length = as.length ∧
      binary.value sum + 256 ^ as.length * s.p.carry.toNat =
        binary.value as + binary.value vs + r.p.carry.toNat ∧
      (s.p.negative = true ↔ half as.length ≤ binary.value sum) ∧
      (s.p.overflow = true ↔ ¬Fits as.length (signed as + signed vs + r.p.carry.toNat))) ∧
    (∃ difference s, ReadOp.sbc.chain adder as vs r = (difference, s) ∧
      difference.length = as.length ∧
      (binary.value difference : Int) = binary.value as - binary.value vs -
        (1 - r.p.carry.toNat) + 256 ^ as.length * (1 - s.p.carry.toNat) ∧
      (s.p.negative = true ↔ half as.length ≤ binary.value difference) ∧
      (s.p.overflow = true ↔
        ¬Fits as.length (signed as - signed vs - (1 - r.p.carry.toNat)))) ∧
    ∀ v, ReadOp.sbc.apply adder v r = ReadOp.adc.apply adder (~~~v) r := by
  have hadd : ∀ ws : List UInt8, as.length = ws.length →
      (binary.value (ReadOp.adc.chain adder as ws r).1 : Int) = binary.value as + binary.value ws +
        r.p.carry.toNat - 256 ^ as.length * (ReadOp.adc.chain adder as ws r).2.p.carry.toNat := by
    intro ws hws
    obtain ⟨-, hvalue⟩ := ReadOp.chain_exact (adc_exact_binary adder) as ws r hws
      (fun _ _ => trivial) (fun _ _ => trivial) hmode
    rw [show (binary.base : Int) = 256 from rfl] at hvalue
    linear_combination hvalue
  refine ⟨⟨_, _, rfl, ReadOp.chain_length as vs r hlen, ?_, flags_adc_chain as vs r hlen hne hmode⟩,
    ?_, sbc_eq_adc_complement hmode⟩
  · zify
    linear_combination hadd vs hlen
  · have hlen' : as.length = (vs.map (~~~·)).length := by rw [List.length_map, hlen]
    have hvs : vs ≠ [] := by
      rintro rfl
      exact hne (List.length_eq_zero_iff.1 hlen)
    obtain ⟨hnegative, hoverflow⟩ := flags_adc_chain as (vs.map (~~~·)) r hlen' hne hmode
    have hcomplement := value_complement vs
    rw [sbc_chain_eq as vs r hmode]
    refine ⟨_, _, rfl, ReadOp.chain_length as _ r hlen', ?_, hnegative, ?_⟩
    · rw [← hlen] at hcomplement
      zify at hcomplement
      linear_combination hadd _ hlen' + hcomplement
    · rw [hoverflow, signed_complement hvs]
      have hsum : signed as + (-1 - signed vs) + (r.p.carry.toNat : Int) =
          signed as - signed vs - (1 - r.p.carry.toNat) := by ring
      rw [hsum]

/-- `$7FFF + $0001` and `$7FFF - $0001`, with the carry set: the sum is out of range with a sign. -/
theorem binary_chain_exact_7fff :
    let r : Registers := ⟨0, 1, 2, 3, 4, { Status.clear with decimal := true, carry := true }⟩
    InBinary false r.p ∧
    (∃ sum s, ReadOp.adc.chain false [0xFF, 0x7F] [0x01, 0x00] r = (sum, s) ∧ sum.length = 2 ∧
      binary.value sum + 256 ^ 2 * s.p.carry.toNat = 0x7FFF + 1 + 1 ∧
      (s.p.negative = true ↔ half 2 ≤ binary.value sum) ∧
      (s.p.overflow = true ↔ ¬Fits 2 (0x7FFF + 1 + 1))) ∧
    (∃ difference s, ReadOp.sbc.chain false [0xFF, 0x7F] [0x01, 0x00] r = (difference, s) ∧
      difference.length = 2 ∧
      (binary.value difference : Int) = 0x7FFF - 1 - (1 - 1) + 256 ^ 2 * (1 - s.p.carry.toNat) ∧
      (s.p.negative = true ↔ half 2 ≤ binary.value difference) ∧
      (s.p.overflow = true ↔ ¬Fits 2 (0x7FFF - 1 - (1 - 1)))) ∧
    ∀ v, ReadOp.sbc.apply false v r = ReadOp.adc.apply false (~~~v) r :=
  ⟨.inl rfl, binary_chain_exact false [0xFF, 0x7F] [0x01, 0x00] _ rfl (by decide) (.inl rfl)⟩

end Arithmetic

end Nmos6502
