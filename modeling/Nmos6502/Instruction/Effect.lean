import Nmos6502.Arithmetic
import Nmos6502.Registers

/-! # What operations do

The effect of each operation on the registers, apart from the bus cycles it takes. The operations
without official names combine two others or mask one register with another. -/

namespace Nmos6502

def Index.value (r : Registers) : Index → UInt8
  | x => r.x
  | y => r.y

/-! ### Loads into a register -/

namespace Registers

def loadA (v : UInt8) (r : Registers) : Registers := { r with a := v, p := r.p.setNZ v }

def loadX (v : UInt8) (r : Registers) : Registers := { r with x := v, p := r.p.setNZ v }

def loadY (v : UInt8) (r : Registers) : Registers := { r with y := v, p := r.p.setNZ v }

/-- Replace the accumulator and the flags by the outcome of an operation. -/
def setResult (outcome : UInt8 × Status) (r : Registers) : Registers :=
  { r with a := outcome.1, p := outcome.2 }

end Registers

/-! ### Operations -/

def RegisterOp.apply (op : RegisterOp) (r : Registers) : Registers :=
  match op with
  | tax => r.loadX r.a
  | tay => r.loadY r.a
  | txa => r.loadA r.x
  | tya => r.loadA r.y
  | tsx => r.loadX r.s
  | txs => { r with s := r.x }
  | inx => r.loadX (r.x + 1)
  | iny => r.loadY (r.y + 1)
  | dex => r.loadX (r.x - 1)
  | dey => r.loadY (r.y - 1)
  | clc => { r with p := r.p.setCarry false }
  | sec => { r with p := r.p.setCarry true }
  | cli => { r with p := r.p.setIrqDisable false }
  | sei => { r with p := r.p.setIrqDisable true }
  | clv => { r with p := r.p.setOverflow false }
  | cld => { r with p := r.p.setDecimal false }
  | sed => { r with p := r.p.setDecimal true }
  | nop => r

def Shift.applyA (op : Shift) (r : Registers) : Registers := r.setResult (op.apply r.a r.p)

/-- The effect of a byte on the registers; `adder` tells whether the chip can work in decimal. -/
def ReadOp.apply (adder : Bool) (op : ReadOp) (v : UInt8) (r : Registers) : Registers :=
  match op with
  | lda => r.loadA v
  | ldx => r.loadX v
  | ldy => r.loadY v
  | lax => { r with a := v, x := v, p := r.p.setNZ v }
  | adc => r.setResult (Arithmetic.add adder r.a v r.p)
  | sbc => r.setResult (Arithmetic.sub adder r.a v r.p)
  | and => r.loadA (r.a &&& v)
  | ora => r.loadA (r.a ||| v)
  | eor => r.loadA (r.a ^^^ v)
  | cmp => { r with p := Arithmetic.compare r.a v r.p }
  | cpx => { r with p := Arithmetic.compare r.x v r.p }
  | cpy => { r with p := Arithmetic.compare r.y v r.p }
  | bit => { r with p := Arithmetic.bitTest r.a v r.p }
  | anc => r.setResult (r.a &&& v, (r.p.setNZ (r.a &&& v)).setCarry (sign (r.a &&& v)))
  | alr => r.setResult (Shift.lsr.apply (r.a &&& v) r.p)
  | arr => r.setResult (Arithmetic.maskRotate adder r.a v r.p)
  | ane => r.loadA ((r.a ||| 0xEE) &&& r.x &&& v)
  | lxa =>
    let result := (r.a ||| 0xEE) &&& v
    { r with a := result, x := result, p := r.p.setNZ result }
  | sbx =>
    let result := (r.a &&& r.x) - v
    { r with x := result, p := Arithmetic.compare (r.a &&& r.x) v r.p }
  | las =>
    let result := v &&& r.s
    { r with a := result, x := result, s := result, p := r.p.setNZ result }
  | nop => r

/-- The byte that replaces `v` in memory, and the registers afterwards. -/
def ModifyOp.apply (adder : Bool) (op : ModifyOp) (v : UInt8) (r : Registers) :
    UInt8 × Registers :=
  match op with
  | shift op =>
    let (w, p) := op.apply v r.p
    (w, { r with p := p })
  | inc => (v + 1, { r with p := r.p.setNZ (v + 1) })
  | dec => (v - 1, { r with p := r.p.setNZ (v - 1) })
  | slo =>
    let (w, p) := Shift.asl.apply v r.p
    (w, { r with p := p }.loadA (r.a ||| w))
  | rla =>
    let (w, p) := Shift.rol.apply v r.p
    (w, { r with p := p }.loadA (r.a &&& w))
  | sre =>
    let (w, p) := Shift.lsr.apply v r.p
    (w, { r with p := p }.loadA (r.a ^^^ w))
  | rra =>
    let (w, p) := Shift.ror.apply v r.p
    (w, r.setResult (Arithmetic.add adder r.a w p))
  | dcp => (v - 1, { r with p := Arithmetic.compare r.a (v - 1) r.p })
  | isc => (v + 1, r.setResult (Arithmetic.sub adder r.a (v + 1) r.p))

/-! ### Stores -/

/-- The register content that a store puts on the bus. -/
def StoreOp.source (op : StoreOp) (r : Registers) : UInt8 :=
  match op with
  | sta => r.a
  | stx | shx => r.x
  | sty | shy => r.y
  | sax | sha | tas => r.a &&& r.x

/-- The unstable stores mask what they store with the high byte of the address. -/
def StoreOp.isUnstable : StoreOp → Bool
  | sta | stx | sty | sax => false
  | sha | shx | shy | tas => true

/-- TAS also copies its source to the stack pointer. -/
def StoreOp.apply (op : StoreOp) (r : Registers) : Registers :=
  match op with
  | tas => { r with s := r.a &&& r.x }
  | _ => r

/-! ### Branches -/

def Condition.holds (p : Status) : Condition → Bool
  | pl => !p.negative
  | mi => p.negative
  | vc => !p.overflow
  | vs => p.overflow
  | cc => !p.carry
  | cs => p.carry
  | ne => !p.zero
  | eq => p.zero

end Nmos6502
