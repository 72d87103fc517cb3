import Nmos6502.Proofs.Isa.Addressing
import Nmos6502.Arithmetic

/-! # One-step semantics

What each documented instruction does, in one step. -/

namespace Nmos6502.Isa

inductive Mnemonic where
  | adc | and | asl | bcc | bcs | beq | bit | bmi | bne | bpl | brk | bvc | bvs | clc
  | cld | cli | clv | cmp | cpx | cpy | dec | dex | dey | eor | inc | inx | iny | jmp
  | jsr | lda | ldx | ldy | lsr | nop | ora | pha | php | pla | plp | rol | ror | rti
  | rts | sbc | sec | sed | sei | sta | stx | sty | tax | tay | tsx | txa | txs | tya
deriving Repr, DecidableEq

/-! ### Flags -/

/-- N and Z of a result. -/
def nz (v : UInt8) (p : Status) : Status := { p with negative := sign v, zero := v == 0 }

def compare (register v : UInt8) (p : Status) : Status :=
  { nz (register - v) p with carry := v ≤ register }

/-! ### Kinds of instructions -/

namespace State

def inherent (f : Registers → Registers) (mode : AddressingMode) (s : State) : State :=
  { s with regs := f (s.past mode) }

def consume (f : UInt8 → Registers → Registers) (mode : AddressingMode) (s : State) : State :=
  { s with regs := f (mode.operand s) (s.past mode) }

def produce (v : UInt8) (mode : AddressingMode) (s : State) : State :=
  ⟨s.past mode, Function.update s.memory (mode.address s) v⟩

/-- An instruction that replaces a byte or the accumulator. -/
def replace (f : UInt8 → Status → UInt8 × Status) (mode : AddressingMode) (s : State) : State :=
  let (v, p) := f (mode.operand s) s.regs.p
  match mode with
  | .accumulator => { s with regs := { s.past mode with a := v, p := p } }
  | _ => ⟨{ s.past mode with p := p }, Function.update s.memory (mode.address s) v⟩

def branch (taken : Bool) (mode : AddressingMode) (s : State) : State :=
  let r := s.past mode
  { s with regs := if taken then { r with pc := r.pc + displacement (mode.operand s) } else r }

def push (v : UInt8) (s : State) : State :=
  ⟨{ s.regs with s := s.regs.s - 1 }, Function.update s.memory (stackAddress s.regs.s) v⟩

def pull (s : State) : UInt8 × State :=
  (s.memory (stackAddress (s.regs.s + 1)), { s with regs.s := s.regs.s + 1 })

end State

/-! ### Instructions -/

open State

def step (adder : Bool) (mn : Mnemonic) (mode : AddressingMode) (s : State) : State :=
  match mn with
  | .lda => s.consume (fun v r => { r with a := v, p := nz v r.p }) mode
  | .ldx => s.consume (fun v r => { r with x := v, p := nz v r.p }) mode
  | .ldy => s.consume (fun v r => { r with y := v, p := nz v r.p }) mode
  | .and => s.consume (fun v r => { r with a := r.a &&& v, p := nz (r.a &&& v) r.p }) mode
  | .ora => s.consume (fun v r => { r with a := r.a ||| v, p := nz (r.a ||| v) r.p }) mode
  | .eor => s.consume (fun v r => { r with a := r.a ^^^ v, p := nz (r.a ^^^ v) r.p }) mode
  | .adc => s.consume (fun v r =>
      { r with a := (Arithmetic.add adder r.a v r.p).1, p := (Arithmetic.add adder r.a v r.p).2 })
      mode
  | .sbc => s.consume (fun v r =>
      { r with a := (Arithmetic.sub adder r.a v r.p).1, p := (Arithmetic.sub adder r.a v r.p).2 })
      mode
  | .cmp => s.consume (fun v r => { r with p := compare r.a v r.p }) mode
  | .cpx => s.consume (fun v r => { r with p := compare r.x v r.p }) mode
  | .cpy => s.consume (fun v r => { r with p := compare r.y v r.p }) mode
  | .bit => s.consume (fun v r =>
      { r with p := { r.p with
        zero := r.a &&& v == 0, negative := Nmos6502.bit 7 v, overflow := Nmos6502.bit 6 v } }) mode
  | .sta => s.produce s.regs.a mode
  | .stx => s.produce s.regs.x mode
  | .sty => s.produce s.regs.y mode
  | .asl => s.replace (fun v p => (v <<< 1, { nz (v <<< 1) p with carry := Nmos6502.bit 7 v })) mode
  | .lsr => s.replace (fun v p => (v >>> 1, { nz (v >>> 1) p with carry := Nmos6502.bit 0 v })) mode
  | .rol => s.replace (fun v p =>
      let w := v <<< 1 ||| (if p.carry then 0x01 else 0)
      (w, { nz w p with carry := Nmos6502.bit 7 v })) mode
  | .ror => s.replace (fun v p =>
      let w := v >>> 1 ||| (if p.carry then 0x80 else 0)
      (w, { nz w p with carry := Nmos6502.bit 0 v })) mode
  | .inc => s.replace (fun v p => (v + 1, nz (v + 1) p)) mode
  | .dec => s.replace (fun v p => (v - 1, nz (v - 1) p)) mode
  | .tax => s.inherent (fun r => { r with x := r.a, p := nz r.a r.p }) mode
  | .tay => s.inherent (fun r => { r with y := r.a, p := nz r.a r.p }) mode
  | .txa => s.inherent (fun r => { r with a := r.x, p := nz r.x r.p }) mode
  | .tya => s.inherent (fun r => { r with a := r.y, p := nz r.y r.p }) mode
  | .tsx => s.inherent (fun r => { r with x := r.s, p := nz r.s r.p }) mode
  | .txs => s.inherent (fun r => { r with s := r.x }) mode
  | .inx => s.inherent (fun r => { r with x := r.x + 1, p := nz (r.x + 1) r.p }) mode
  | .iny => s.inherent (fun r => { r with y := r.y + 1, p := nz (r.y + 1) r.p }) mode
  | .dex => s.inherent (fun r => { r with x := r.x - 1, p := nz (r.x - 1) r.p }) mode
  | .dey => s.inherent (fun r => { r with y := r.y - 1, p := nz (r.y - 1) r.p }) mode
  | .clc => s.inherent (fun r => { r with p.carry := false }) mode
  | .sec => s.inherent (fun r => { r with p.carry := true }) mode
  | .cli => s.inherent (fun r => { r with p.irqDisable := false }) mode
  | .sei => s.inherent (fun r => { r with p.irqDisable := true }) mode
  | .clv => s.inherent (fun r => { r with p.overflow := false }) mode
  | .cld => s.inherent (fun r => { r with p.decimal := false }) mode
  | .sed => s.inherent (fun r => { r with p.decimal := true }) mode
  | .nop => s.inherent id mode
  | .bpl => s.branch (!s.regs.p.negative) mode
  | .bmi => s.branch s.regs.p.negative mode
  | .bvc => s.branch (!s.regs.p.overflow) mode
  | .bvs => s.branch s.regs.p.overflow mode
  | .bcc => s.branch (!s.regs.p.carry) mode
  | .bcs => s.branch s.regs.p.carry mode
  | .bne => s.branch (!s.regs.p.zero) mode
  | .beq => s.branch s.regs.p.zero mode
  | .pha => { s with regs := s.past mode }.push s.regs.a
  | .php =>
    { s with regs := s.past mode }.push ({ s.regs.p with brk := true, unused := true }.toByte)
  | .pla =>
    let (v, t) := { s with regs := s.past mode }.pull
    { t with regs := { t.regs with a := v, p := nz v t.regs.p } }
  | .plp =>
    let (v, t) := { s with regs := s.past mode }.pull
    { t with regs.p := { Status.ofByte v with brk := false, unused := true } }
  | .jmp => { s with regs.pc := mode.address s }
  -- The high byte of the target is fetched last: it may have been overwritten by the pushes.
  | .jsr =>
    let t := (s.push (highByte (s.regs.pc + 2))).push (lowByte (s.regs.pc + 2))
    { t with regs.pc := addressOf s.zz (t.memory (s.regs.pc + 2)) }
  | .rts =>
    let (low, t) := s.pull
    let (high, u) := t.pull
    { u with regs.pc := addressOf low high + 1 }
  | .rti =>
    let (v, t) := s.pull
    let (low, u) := t.pull
    let (high, w) := u.pull
    { w with regs.p := { Status.ofByte v with brk := false, unused := true }
             regs.pc := addressOf low high }
  | .brk =>
    let t := (s.push (highByte (s.regs.pc + 2))).push (lowByte (s.regs.pc + 2))
    let u := t.push ({ s.regs.p with brk := true, unused := true }.toByte)
    { u with regs.p := { s.regs.p with irqDisable := true }, regs.pc := s.word 0xFFFE 0xFFFF }

/-! ### Documented flags -/

inductive Flag where
  | negative | overflow | decimal | irqDisable | zero | carry
deriving Repr, DecidableEq

def Flag.get (p : Status) : Flag → Bool
  | negative => p.negative
  | overflow => p.overflow
  | decimal => p.decimal
  | irqDisable => p.irqDisable
  | zero => p.zero
  | carry => p.carry

/-- The flags that an instruction may change. -/
def Mnemonic.flags : Mnemonic → List Flag
  | adc | sbc => [.negative, .overflow, .zero, .carry]
  | asl | lsr | rol | ror | cmp | cpx | cpy => [.negative, .zero, .carry]
  | bit => [.negative, .overflow, .zero]
  | and | ora | eor | lda | ldx | ldy | inc | dec | inx | iny | dex | dey | tax | tay | txa | tya
  | tsx | pla => [.negative, .zero]
  | clc | sec => [.carry]
  | cld | sed => [.decimal]
  | cli | sei | brk => [.irqDisable]
  | clv => [.overflow]
  | plp | rti => [.negative, .overflow, .decimal, .irqDisable, .zero, .carry]
  | _ => []

theorem get_add {flag : Flag} (h : flag ∉ Mnemonic.adc.flags) (adder : Bool) (a v : UInt8)
    (p : Status) : flag.get (Arithmetic.add adder a v p).2 = flag.get p := by
  unfold Arithmetic.add
  cases flag <;> first | exact absurd (by decide) h | (split <;> rfl)

theorem get_sub {flag : Flag} (h : flag ∉ Mnemonic.sbc.flags) (adder : Bool) (a v : UInt8)
    (p : Status) : flag.get (Arithmetic.sub adder a v p).2 = flag.get p := by
  unfold Arithmetic.sub
  cases flag <;> first | exact absurd (by decide) h | (split <;> rfl)

theorem get_replace (flag : Flag) (f : UInt8 → Status → UInt8 × Status) (mode : AddressingMode)
    (s : State) :
    flag.get (s.replace f mode).regs.p = flag.get (f (mode.operand s) s.regs.p).2 := by
  cases mode <;> rfl

theorem get_branch (flag : Flag) (taken : Bool) (mode : AddressingMode) (s : State) :
    flag.get (s.branch taken mode).regs.p = flag.get s.regs.p := by
  cases taken <;> rfl

/-- Other flags stay as they are. -/
theorem get_step {mn : Mnemonic} {flag : Flag} (h : flag ∉ mn.flags) (adder : Bool)
    (mode : AddressingMode) (s : State) :
    flag.get (step adder mn mode s).regs.p = flag.get s.regs.p := by
  cases mn with
  | adc => exact get_add h adder _ _ _
  | sbc => exact get_sub h adder _ _ _
  | asl | lsr | rol | ror | inc | dec =>
    refine (get_replace flag _ mode s).trans ?_
    cases flag <;> first | rfl | exact absurd (by decide) h
  | bpl | bmi | bvc | bvs | bcc | bcs | bne | beq => exact get_branch flag _ mode s
  | _ => cases flag <;> first | rfl | exact absurd (by decide) h

end Nmos6502.Isa
