/-! # Digits of fixed width

Bytes and addresses are written with a fixed number of upper-case hexadecimal digits and port lines
with binary digits, leading zeros included. A number that needs more digits than its width keeps
its low ones. -/

namespace Nmos6502.Text

def digit (n : Nat) : Char :=
  if n < 10 then Char.ofNat (48 + n) else Char.ofNat (55 + n)

/-- The last `width` digits of `n` in the given base, most significant first. -/
def digits (base : Nat) : (width : Nat) → (n : Nat) → List Char
  | 0, _ => []
  | width + 1, n => digits base width (n / base) ++ [digit (n % base)]

theorem length_digits (base width n : Nat) : (digits base width n).length = width := by
  induction width generalizing n with
  | zero => rfl
  | succ width ih => simp [digits, ih]

def hex (width n : Nat) : String := String.ofList (digits 16 width n)

def binary (width n : Nat) : String := String.ofList (digits 2 width n)

/-- A byte as a dollar sign and two hexadecimal digits. -/
def hexByte (b : UInt8) : String := "$" ++ hex 2 b.toNat

/-- An address as a dollar sign and four hexadecimal digits. -/
def hexAddress (a : UInt16) : String := "$" ++ hex 4 a.toNat

end Nmos6502.Text
