/-! # Instructions

An instruction is an operation together with the way it finds its operand. Operations fall into
kinds by what they do with memory: some use registers only, some consume a byte that is read, some
store a byte and some replace one. -/

namespace Nmos6502

inductive Index where
  | x
  | y
deriving Repr, DecidableEq

/-- Operations on registers and flags. -/
inductive RegisterOp where
  | tax | tay | txa | tya | tsx | txs | inx | iny | dex | dey
  | clc | sec | cli | sei | clv | cld | sed | nop
deriving Repr, DecidableEq

inductive ReadOp where
  | lda | ldx | ldy | lax | adc | sbc | and | ora | eor | cmp | cpx | cpy | bit
  | anc | alr | arr | ane | lxa | sbx | las | nop
deriving Repr, DecidableEq

inductive StoreOp where
  | sta | stx | sty | sax | sha | shx | shy | tas
deriving Repr, DecidableEq

inductive Shift where
  | asl | lsr | rol | ror
deriving Repr, DecidableEq

/-- Operations that replace a byte in memory. -/
inductive ModifyOp where
  | shift (op : Shift)
  | inc | dec | slo | rla | sre | rra | dcp | isc
deriving Repr, DecidableEq

inductive Condition where
  | pl | mi | vc | vs | cc | cs | ne | eq
deriving Repr, DecidableEq

/-- Ways to find an operand in memory. -/
inductive Mode where
  | zp | zpx | zpy | abs | abx | aby
  /-- The pointer lies in page zero at the operand plus X. -/
  | izx
  /-- The pointer lies in page zero at the operand; Y is added to it. -/
  | izy
deriving Repr, DecidableEq

inductive Instruction where
  | implied (op : RegisterOp)
  | accumulator (op : Shift)
  | immediate (op : ReadOp)
  | read (op : ReadOp) (mode : Mode)
  | store (op : StoreOp) (mode : Mode)
  | modify (op : ModifyOp) (mode : Mode)
  | branch (condition : Condition)
  | pha | php | pla | plp
  | brk | jsr | rts | rti
  | jmp
  | jmpIndirect
  | jam
deriving Repr, DecidableEq

/-! ### Names -/

def RegisterOp.name : RegisterOp → String
  | tax => "Tax" | tay => "Tay" | txa => "Txa" | tya => "Tya" | tsx => "Tsx" | txs => "Txs"
  | inx => "Inx" | iny => "Iny" | dex => "Dex" | dey => "Dey" | clc => "Clc" | sec => "Sec"
  | cli => "Cli" | sei => "Sei" | clv => "Clv" | cld => "Cld" | sed => "Sed" | nop => "Nop"

def ReadOp.name : ReadOp → String
  | lda => "Lda" | ldx => "Ldx" | ldy => "Ldy" | lax => "Lax" | adc => "Adc" | sbc => "Sbc"
  | and => "And" | ora => "Ora" | eor => "Eor" | cmp => "Cmp" | cpx => "Cpx" | cpy => "Cpy"
  | bit => "Bit" | anc => "Anc" | alr => "Alr" | arr => "Arr" | ane => "Ane" | lxa => "Lxa"
  | sbx => "Sbx" | las => "Las" | nop => "Nop"

def StoreOp.name : StoreOp → String
  | sta => "Sta" | stx => "Stx" | sty => "Sty" | sax => "Sax"
  | sha => "Sha" | shx => "Shx" | shy => "Shy" | tas => "Tas"

def Shift.name : Shift → String
  | asl => "Asl" | lsr => "Lsr" | rol => "Rol" | ror => "Ror"

def ModifyOp.name : ModifyOp → String
  | shift op => op.name
  | inc => "Inc" | dec => "Dec" | slo => "Slo" | rla => "Rla" | sre => "Sre" | rra => "Rra"
  | dcp => "Dcp" | isc => "Isc"

def Condition.name : Condition → String
  | pl => "Bpl" | mi => "Bmi" | vc => "Bvc" | vs => "Bvs"
  | cc => "Bcc" | cs => "Bcs" | ne => "Bne" | eq => "Beq"

def Mode.name : Mode → String
  | zp => "Zp" | zpx => "Zpx" | zpy => "Zpy" | abs => "Abs" | abx => "Abx" | aby => "Aby"
  | izx => "Izx" | izy => "Izy"

namespace Instruction

def opName : Instruction → String
  | implied op => op.name
  | accumulator op => op.name
  | immediate op => op.name
  | read op _ => op.name
  | store op _ => op.name
  | modify op _ => op.name
  | branch condition => condition.name
  | pha => "Pha" | php => "Php" | pla => "Pla" | plp => "Plp"
  | brk => "Brk" | jsr => "Jsr" | rts => "Rts" | rti => "Rti"
  | jmp => "JmpAbs"
  | jmpIndirect => "JmpInd"
  | jam => "Jam"

def modeName : Instruction → String
  | accumulator _ => "Acc"
  | immediate _ => "Imm"
  | read _ mode => mode.name
  | store _ mode => mode.name
  | modify _ mode => mode.name
  | branch _ => "Rel"
  | jsr | jmp => "Abs"
  | jmpIndirect => "Ind"
  | implied _ | pha | php | pla | plp | brk | rts | rti | jam => "Imp"

end Instruction

end Nmos6502
