import Mathlib.Algebra.Group.Nat.Defs
import Nmos6502.Cpu.Inspect

/-! # The text of a value tells the value

A flag begins with a letter, a byte and an address with a dollar sign, a word with a digit and a
list with a brace, so the first character tells how to read on. Up to the next brace, comma or colon
there is one name, or one value that is no list. The names must do without these characters; then
the text of a list can be taken apart again, to any depth. -/

namespace Nmos6502

namespace Text

/-! ### Punctuation -/

/-- The characters that hold the text of a list together. -/
def punctuation : List Char := ['{', '}', ',', ':']

def IsPlain (s : List Char) : Prop := ∀ c ∈ s, c ∉ punctuation

-- By name, since the characters are finitely many and a search may settle on trying all of them.
instance (s : List Char) : Decidable (IsPlain s) := List.decidableBAll _ s

/-- A plain text before this one ends here: nothing follows, or punctuation does. -/
def Delimits (s : List Char) : Prop := ∀ c ∈ s.head?, c ∈ punctuation

theorem delimits_nil : Delimits [] := fun _ h => nomatch h

theorem delimits_cons {c : Char} (hc : c ∈ punctuation) (s : List Char) : Delimits (c :: s) := by
  intro d hd
  rwa [← Option.some.inj hd]

theorem takeWhile_append_of_plain {s r : List Char} (hs : IsPlain s) (hr : Delimits r) :
    (s ++ r).takeWhile (· ∉ punctuation) = s := by
  rw [List.takeWhile_append_of_pos (by simpa [IsPlain] using hs)]
  cases r with
  | nil => simp
  | cons c r =>
    have hc : c ∈ punctuation := hr c rfl
    simp [hc]

theorem plain_append_inj {s t r r' : List Char} (hs : IsPlain s) (ht : IsPlain t)
    (hr : Delimits r) (hr' : Delimits r') (h : s ++ r = t ++ r') : s = t ∧ r = r' := by
  obtain rfl : s = t := by
    rw [← takeWhile_append_of_plain hs hr, h, takeWhile_append_of_plain ht hr']
  exact ⟨rfl, List.append_cancel_left h⟩

/-! ### Numbers -/

theorem digit_inj : ∀ n < 16, ∀ m < 16, digit n = digit m → n = m := by decide

theorem exists_digit_of_mem {base width n : Nat} (hbase : 0 < base) {c : Char}
    (hc : c ∈ digits base width n) : ∃ k < base, digit k = c := by
  induction width generalizing n with
  | zero => cases hc
  | succ width ih =>
    rw [digits, List.mem_append, List.mem_singleton] at hc
    rcases hc with hc | rfl
    · exact ih hc
    · exact ⟨n % base, Nat.mod_lt n hbase, rfl⟩

/-- The digits tell a number that needs no more of them than there are. -/
theorem digits_inj {base width n m : Nat} (hbase : base ≤ 16) (hn : n < base ^ width)
    (hm : m < base ^ width) (h : digits base width n = digits base width m) : n = m := by
  induction width generalizing n m with
  | zero => rw [Nat.lt_one_iff.1 hn, Nat.lt_one_iff.1 hm]
  | succ width ih =>
    rw [Nat.pow_succ'] at hn hm
    have hpos : 0 < base := Nat.pos_of_ne_zero fun hzero => by simp [hzero] at hn
    obtain ⟨hhigh, hlow⟩ := List.append_inj' h rfl
    have hquotient : n / base = m / base :=
      ih (Nat.div_lt_of_lt_mul hn) (Nat.div_lt_of_lt_mul hm) hhigh
    have hremainder : n % base = m % base :=
      digit_inj _ (Nat.lt_of_lt_of_le (Nat.mod_lt n hpos) hbase) _
        (Nat.lt_of_lt_of_le (Nat.mod_lt m hpos) hbase) (List.singleton_inj.1 hlow)
    rw [← Nat.div_add_mod n base, hquotient, hremainder, Nat.div_add_mod]

theorem plain_hex (width n : Nat) : IsPlain ('$' :: digits 16 width n) := by
  have hall : ∀ k < 16, digit k ∉ punctuation := by decide
  intro c hc
  rcases List.mem_cons.1 hc with rfl | hc
  · decide
  · obtain ⟨k, hk, rfl⟩ := exists_digit_of_mem (by decide) hc
    exact hall k hk

theorem hex_inj {width width' n m : Nat} (hn : n < 16 ^ width) (hm : m < 16 ^ width')
    (h : '$' :: digits 16 width n = '$' :: digits 16 width' m) : width = width' ∧ n = m := by
  have hdigits : digits 16 width n = digits 16 width' m := (List.cons.inj h).2
  obtain rfl : width = width' := by rw [← length_digits 16 width n, hdigits, length_digits]
  exact ⟨rfl, digits_inj (Nat.le_refl 16) hn hm hdigits⟩

theorem isDigit_of_mem_decimal {c : Char} {n : Nat} (hc : c ∈ Nat.toDigits 10 n) :
    c.isDigit = true :=
  Nat.isDigit_of_mem_toDigits (by decide) (by decide) hc

theorem plain_decimal (n : Nat) : IsPlain (Nat.toDigits 10 n) := by
  have hnone : punctuation.any Char.isDigit = false := by decide
  intro c hc hmem
  exact List.any_eq_false.1 hnone c hmem (isDigit_of_mem_decimal hc)

theorem decimal_inj {n m : Nat} (h : Nat.toDigits 10 n = Nat.toDigits 10 m) : n = m := by
  rw [← Nat.ofDigitChars_ten_toDigits (n := n), h, Nat.ofDigitChars_ten_toDigits]

end Text

namespace Value
open Text

/-! ### Texts as characters -/

/-- What stands in a list for one item. -/
def itemText (item : String × Value) : List Char :=
  item.1.toList ++ ':' :: ' ' :: item.2.text.toList

/-- What follows an item: the items after it and the end of the list. -/
def restText (rest : List (String × Value)) : List Char :=
  rest.flatMap (fun item => ',' :: ' ' :: itemText item) ++ ['}']

/-- What follows the opening brace. -/
def bodyText : List (String × Value) → List Char
  | [] => ['}']
  | item :: rest => itemText item ++ restText rest

theorem restText_cons (item : String × Value) (rest : List (String × Value)) :
    restText (item :: rest) = ',' :: ' ' :: bodyText (item :: rest) := by
  simp [restText, bodyText]

theorem toList_itemsText (items : List (String × Value)) :
    (itemsText items).toList ++ ['}'] = bodyText items := by
  induction items with
  | nil => rfl
  | cons item rest ih =>
    cases rest with
    | nil => simp [itemsText, bodyText, itemText, restText]
    | cons next rest => simp [itemsText, bodyText, itemText, restText_cons, ih]

theorem toList_flag (b : Bool) : (flag b).text.toList =
    if b then ['t', 'r', 'u', 'e'] else ['f', 'a', 'l', 's', 'e'] := by
  cases b <;> rfl

theorem toList_byte (b : UInt8) : (byte b).text.toList = '$' :: digits 16 2 b.toNat := by
  simp [text, hexByte, hex]

theorem toList_address (a : UInt16) : (address a).text.toList = '$' :: digits 16 4 a.toNat := by
  simp [text, hexAddress, hex]

theorem toList_word (w : UInt64) : (word w).text.toList = Nat.toDigits 10 w.toNat := by
  rw [text, Nat.toString_eq_ofList_toDigits, String.toList_ofList]

theorem toList_list (items : List (String × Value)) :
    (list items).text.toList = '{' :: bodyText items := by
  simp [text, ← toList_itemsText]

/-! ### Scripts -/

/-- How a value is written. -/
inductive Script where
  | letters
  | hexadecimal
  | decimal
  | braces

def script : Value → Script
  | .flag _ => .letters
  | .byte _ | .address _ => .hexadecimal
  | .word _ => .decimal
  | .list _ => .braces

/-- The script of a text that begins with the character. -/
def Script.of (c : Char) : Script :=
  if c.isDigit then .decimal
  else if c = '$' then .hexadecimal
  else if c = '{' then .braces
  else .letters

theorem exists_head : ∀ v : Value, ∃ c s, v.text.toList = c :: s ∧ Script.of c = v.script
  | .flag true => ⟨'t', _, toList_flag true, rfl⟩
  | .flag false => ⟨'f', _, toList_flag false, rfl⟩
  | .byte b => ⟨'$', _, toList_byte b, rfl⟩
  | .address a => ⟨'$', _, toList_address a, rfl⟩
  | .list items => ⟨'{', _, toList_list items, rfl⟩
  | .word w => by
    have hne : Nat.toDigits 10 w.toNat ≠ [] := Nat.toDigits_ne_nil
    obtain ⟨c, s, hcons⟩ := List.exists_cons_of_ne_nil hne
    have hc : c ∈ Nat.toDigits 10 w.toNat := hcons ▸ List.mem_cons_self
    exact ⟨c, s, (toList_word w).trans hcons, if_pos (isDigit_of_mem_decimal hc)⟩

theorem script_eq {v w : Value} {r s : List Char}
    (h : v.text.toList ++ r = w.text.toList ++ s) : v.script = w.script := by
  obtain ⟨c, t, hv, hc⟩ := v.exists_head
  obtain ⟨d, u, hw, hd⟩ := w.exists_head
  rw [hv, hw] at h
  rw [← hc, ← hd, (List.cons.inj h).1]

theorem plain_scalar : ∀ {v : Value}, v.script ≠ .braces → IsPlain v.text.toList
  | .flag b, _ => by cases b <;> decide
  | .byte b, _ => toList_byte b ▸ plain_hex 2 b.toNat
  | .address a, _ => toList_address a ▸ plain_hex 4 a.toNat
  | .word w, _ => toList_word w ▸ plain_decimal w.toNat
  | .list _, h => absurd rfl h

theorem scalar_inj {v w : Value} (hv : v.script ≠ .braces) (hscript : v.script = w.script)
    (h : v.text.toList = w.text.toList) : v = w := by
  -- A script is that of one kind of value only, but for bytes and addresses; these differ in width.
  cases v with
  | flag a =>
    cases w with
    | flag b =>
      have hall : ∀ a b, (flag a).text.toList = (flag b).text.toList → a = b := by decide
      exact congrArg flag (hall a b h)
    | byte _ | address _ | word _ | list _ => cases hscript
  | byte a =>
    cases w with
    | byte b =>
      rw [toList_byte, toList_byte] at h
      exact congrArg byte (UInt8.toNat.inj (hex_inj a.toNat_lt b.toNat_lt h).2)
    | address b =>
      rw [toList_byte, toList_address] at h
      exact absurd (hex_inj a.toNat_lt b.toNat_lt h).1 (by decide)
    | flag _ | word _ | list _ => cases hscript
  | address a =>
    cases w with
    | address b =>
      rw [toList_address, toList_address] at h
      exact congrArg address (UInt16.toNat.inj (hex_inj a.toNat_lt b.toNat_lt h).2)
    | byte b =>
      rw [toList_address, toList_byte] at h
      exact absurd (hex_inj a.toNat_lt b.toNat_lt h).1 (by decide)
    | flag _ | word _ | list _ => cases hscript
  | word a =>
    cases w with
    | word b =>
      rw [toList_word, toList_word] at h
      exact congrArg word (UInt64.toNat.inj (decimal_inj h))
    | flag _ | byte _ | address _ | list _ => cases hscript
  | list items => exact absurd rfl hv

/-! ### Names -/

mutual

/-- The names of the items of a list, and of the lists in it. -/
def names : Value → List String
  | .list items => itemNames items
  | _ => []

def itemNames : List (String × Value) → List String
  | [] => []
  | (name, v) :: rest => name :: names v ++ itemNames rest

end

def PlainNames (v : Value) : Prop := ∀ name ∈ v.names, IsPlain name.toList

instance (v : Value) : Decidable v.PlainNames := List.decidableBAll _ v.names

def PlainItems (items : List (String × Value)) : Prop :=
  ∀ name ∈ itemNames items, IsPlain name.toList

theorem plainItems_cons {name : String} {v : Value} {rest : List (String × Value)} :
    PlainItems ((name, v) :: rest) ↔ IsPlain name.toList ∧ v.PlainNames ∧ PlainItems rest := by
  simp only [PlainItems, PlainNames, itemNames, List.cons_append, List.forall_mem_cons,
    List.forall_mem_append]

/-! ### Values within a text -/

/-- Where punctuation follows the value, or nothing, the text tells the value and where it ends. -/
def SelfDelimiting (v : Value) : Prop :=
  ∀ ⦃w : Value⦄ ⦃r s : List Char⦄, w.PlainNames → Delimits r → Delimits s →
    v.text.toList ++ r = w.text.toList ++ s → v = w ∧ r = s

theorem selfDelimiting_scalar {v : Value} (hv : v.script ≠ .braces) : v.SelfDelimiting := by
  intro w r s _ hr hs h
  have hscript : v.script = w.script := script_eq h
  obtain ⟨htext, hrest⟩ :=
    plain_append_inj (plain_scalar hv) (plain_scalar (hscript ▸ hv)) hr hs h
  exact ⟨scalar_inj hv hscript htext, hrest⟩

section

variable {a b : List (String × Value)} {r s : List Char}

theorem delimits_restText (rest : List (String × Value)) (r : List Char) :
    Delimits (restText rest ++ r) := by
  cases rest with
  | nil => exact delimits_cons (by decide) r
  | cons item rest =>
    rw [restText_cons]
    exact delimits_cons (by decide) _

theorem itemText_append_inj {n m : String} {v w : Value} (hv : v.SelfDelimiting)
    (hn : IsPlain n.toList) (hm : IsPlain m.toList) (hw : w.PlainNames) (hr : Delimits r)
    (hs : Delimits s) (h : itemText (n, v) ++ r = itemText (m, w) ++ s) :
    (n, v) = (m, w) ∧ r = s := by
  simp only [itemText, List.append_assoc, List.cons_append] at h
  obtain ⟨hname, hcolon⟩ :=
    plain_append_inj hn hm (delimits_cons (by decide) _) (delimits_cons (by decide) _) h
  simp only [List.cons.injEq, true_and] at hcolon
  obtain ⟨hvalue, hend⟩ := hv hw hr hs hcolon
  exact ⟨by rw [String.toList_inj.1 hname, hvalue], hend⟩

theorem restText_append_inj (hvalues : ∀ item ∈ a, item.2.SelfDelimiting) (ha : PlainItems a)
    (hb : PlainItems b) (h : restText a ++ r = restText b ++ s) : a = b ∧ r = s := by
  induction a generalizing b with
  | nil =>
    cases b with
    | nil => exact ⟨rfl, List.append_cancel_left h⟩
    | cons item' b => simp [restText] at h
  | cons item a ih =>
    cases b with
    | nil => simp [restText] at h
    | cons item' b =>
      obtain ⟨hvalue, hvalues⟩ := List.forall_mem_cons.1 hvalues
      obtain ⟨hname, -, hrestA⟩ := plainItems_cons.1 ha
      obtain ⟨hname', hvalue', hrestB⟩ := plainItems_cons.1 hb
      simp only [restText_cons, bodyText, List.cons_append, List.append_assoc, List.cons.injEq,
        true_and] at h
      obtain ⟨hitem, hafter⟩ := itemText_append_inj hvalue hname hname' hvalue'
        (delimits_restText a r) (delimits_restText b s) h
      obtain ⟨hitems, hend⟩ := ih hvalues hrestA hrestB hafter
      exact ⟨List.cons_eq_cons.2 ⟨hitem, hitems⟩, hend⟩

/-- A list that has items does not begin as the empty list does. -/
theorem close_ne_itemText {item : String × Value} (hname : IsPlain item.1.toList) :
    '}' :: r ≠ itemText item ++ s := by
  intro h
  rw [itemText, List.append_assoc] at h
  obtain ⟨-, hcolon⟩ := plain_append_inj (s := []) (List.forall_mem_nil _) hname
    (delimits_cons (by decide) r) (delimits_cons (by decide) _) h
  simp at hcolon

theorem bodyText_append_inj (hvalues : ∀ item ∈ a, item.2.SelfDelimiting) (ha : PlainItems a)
    (hb : PlainItems b) (h : bodyText a ++ r = bodyText b ++ s) : a = b ∧ r = s := by
  cases a with
  | nil =>
    cases b with
    | nil => exact ⟨rfl, (List.cons.inj h).2⟩
    | cons item b =>
      rw [bodyText, bodyText, List.append_assoc] at h
      exact absurd h (close_ne_itemText (plainItems_cons.1 hb).1)
  | cons item a =>
    cases b with
    | nil =>
      rw [bodyText, bodyText, List.append_assoc] at h
      exact absurd h.symm (close_ne_itemText (plainItems_cons.1 ha).1)
    | cons item' b =>
      -- With a comma before it the body of such a list is what could follow an item.
      have hrest : restText (item :: a) ++ r = restText (item' :: b) ++ s := by
        simp only [restText_cons, List.cons_append, h]
      exact restText_append_inj hvalues ha hb hrest

theorem selfDelimiting_list (hvalues : ∀ item ∈ a, item.2.SelfDelimiting) (ha : PlainItems a) :
    (list a).SelfDelimiting := by
  intro w r s hw _ _ h
  have hscript : (list a).script = w.script := script_eq h
  cases w with
  | list b =>
    rw [toList_list, toList_list] at h
    obtain ⟨hitems, hend⟩ := bodyText_append_inj hvalues ha hw (List.cons.inj h).2
    exact ⟨congrArg list hitems, hend⟩
  | flag _ | byte _ | address _ | word _ => cases hscript

end

mutual

theorem selfDelimiting : ∀ {v : Value}, v.PlainNames → v.SelfDelimiting
  | .list _, h => selfDelimiting_list (selfDelimiting_items h) h
  | .flag _, _ | .byte _, _ | .address _, _ | .word _, _ => selfDelimiting_scalar nofun

theorem selfDelimiting_items : ∀ {items : List (String × Value)}, PlainItems items →
    ∀ item ∈ items, item.2.SelfDelimiting
  | [], _ => List.forall_mem_nil _
  | (_, _) :: _, h =>
    have ⟨_, hv, hrest⟩ := plainItems_cons.1 h
    List.forall_mem_cons.2 ⟨selfDelimiting hv, selfDelimiting_items hrest⟩

end

/-- Values with the same text are the same, kind, order and nesting included, if no name in them has
a character of the punctuation. -/
theorem text_unambiguous {v w : Value} (hv : v.PlainNames) (hw : w.PlainNames)
    (h : v.text = w.text) : v = w :=
  (selfDelimiting hv hw delimits_nil delimits_nil (by rw [h])).1

/-- Among the items are a byte, an address and a word whose digits end in 10, an empty list under an
empty name and the lines of a pin word. -/
theorem text_unambiguous_lines :
    let v : Value := .list [("s", .byte 0x10), ("pc", .address 0x10), ("cycle", .word 10),
      ("", .list []), ("pins.lines", (Pins.ofWord 0x2103000000).lines)]
    let w : Value := .list [("s", .byte 0x10), ("pc", .address 0x10), ("cycle", .word 10),
      ("", .list []), ("pins.lines", .list [("rw", .flag true), ("sync", .flag true),
        ("irq", .flag false), ("nmi", .flag false), ("rdy", .flag false), ("aec", .flag false),
        ("port", .byte 0x21)])]
    v.PlainNames ∧ w.PlainNames ∧ v.text = w.text ∧ v = w := by
  intro v w
  have hv : v.PlainNames := by decide
  have hw : w.PlainNames := by decide
  have htext : v.text = w.text := by decide
  exact ⟨hv, hw, htext, text_unambiguous hv hw htext⟩

/-- The names do matter: one with a comma and a colon passes for two items. -/
example : (list [("x: 1, y", .word 2)]).text = (list [("x", .word 1), ("y", .word 2)]).text := by
  decide

end Value

end Nmos6502
