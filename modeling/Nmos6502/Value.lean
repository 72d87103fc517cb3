import Nmos6502.Text.Digits

/-! # Inspected values

The value of a named property of the machine: a line or flag, a byte, an address, a 64-bit word,
or a list of named values. The text shows bytes and addresses in hexadecimal of fixed width and
words in decimal. -/

namespace Nmos6502

inductive Value where
  | flag (b : Bool)
  | byte (b : UInt8)
  | address (a : UInt16)
  | word (w : UInt64)
  | list (items : List (String × Value))
deriving Repr

namespace Value

mutual

def text : Value → String
  | .flag b => if b then "true" else "false"
  | .byte b => Text.hexByte b
  | .address a => Text.hexAddress a
  | .word w => toString w.toNat
  | .list items => "\x7b" ++ itemsText items ++ "\x7d"

/-- Named values in order, separated by a comma and a blank. -/
def itemsText : List (String × Value) → String
  | [] => ""
  | [(name, v)] => name ++ ": " ++ text v
  | (name, v) :: rest => name ++ ": " ++ text v ++ ", " ++ itemsText rest

end

mutual

/-- Equality, kind of value included. -/
def same : Value → Value → Bool
  | .flag a, .flag b => a == b
  | .byte a, .byte b => a == b
  | .address a, .address b => a == b
  | .word a, .word b => a == b
  | .list a, .list b => sameItems a b
  | _, _ => false

def sameItems : List (String × Value) → List (String × Value) → Bool
  | [], [] => true
  | (n, v) :: a, (m, w) :: b => n == m && same v w && sameItems a b
  | _, _ => false

end

mutual

theorem same_iff : ∀ {v w : Value}, v.same w = true ↔ v = w
  | .flag _, .flag _ | .byte _, .byte _ | .address _, .address _ | .word _, .word _ => by
    simp [same]
  | .list _, .list _ => by simp [same, sameItems_iff]
  | .flag _, .byte _ | .flag _, .address _ | .flag _, .word _ | .flag _, .list _
  | .byte _, .flag _ | .byte _, .address _ | .byte _, .word _ | .byte _, .list _
  | .address _, .flag _ | .address _, .byte _ | .address _, .word _ | .address _, .list _
  | .word _, .flag _ | .word _, .byte _ | .word _, .address _ | .word _, .list _
  | .list _, .flag _ | .list _, .byte _ | .list _, .address _ | .list _, .word _ => by
    simp [same]

theorem sameItems_iff : ∀ {a b : List (String × Value)}, sameItems a b = true ↔ a = b
  | [], [] | [], _ :: _ | _ :: _, [] => by simp [sameItems]
  | (_, _) :: _, (_, _) :: _ => by simp [sameItems, same_iff, sameItems_iff, and_assoc]

end

end Value

end Nmos6502
