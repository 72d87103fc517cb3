import Nmos6502.Proofs.Addressing
import Nmos6502.Proofs.Isa.Encoding

/-! # The machine refines the instruction set

From one instruction boundary to the next the registers and the memory change as the one-step
semantics says. -/

namespace Nmos6502

open Isa Nmos6502.Core

/-! ### Flags -/

namespace Status

variable {p : Status} (h : p.unused = true)

include h

theorem setNZ_eq (v : UInt8) : p.setNZ v = nz v p := by
  simp only [setNZ, nz, h]

theorem setCarry_eq (on : Bool) : p.setCarry on = { p with carry := on } := by
  simp only [setCarry, h]

theorem setOverflow_eq (on : Bool) : p.setOverflow on = { p with overflow := on } := by
  simp only [setOverflow, h]

theorem setDecimal_eq (on : Bool) : p.setDecimal on = { p with decimal := on } := by
  simp only [setDecimal, h]

theorem setIrqDisable_eq (on : Bool) : p.setIrqDisable on = { p with irqDisable := on } := by
  simp only [setIrqDisable, h]

theorem compare_eq (register v : UInt8) :
    Arithmetic.compare register v p = Isa.compare register v p := by
  simp only [Arithmetic.compare, Isa.compare, setNZ_eq h]

theorem bitTest_eq (a v : UInt8) :
    Arithmetic.bitTest a v p =
      { p with zero := a &&& v == 0, negative := bit 7 v, overflow := bit 6 v } := by
  simp only [Arithmetic.bitTest, h]

theorem shift_eq (op : Shift) (v : UInt8) :
    op.apply v p =
      (op.result v p.carry, { nz (op.result v p.carry) p with carry := op.bitOut v }) := by
  simp only [Shift.apply, setNZ_eq h]

end Status

/-! ### Programs that implement an instruction -/

def Core.state (k : Core) : State := ⟨k.regs, k.memory⟩

/-- The program of the instruction does what `f` says, whatever the latches hold. -/
def Performs (adder : Bool) (i : Instruction) (f : State → State) : Prop :=
  ∀ (s : State) (address : UInt16) (operand : UInt8),
    (run i.program (entry s adder address operand)).1.state = f s

/-- It does so as long as the unused bit of P is set. -/
def Implements (adder : Bool) (i : Instruction) (f : State → State) : Prop :=
  ∀ (s : State) (address : UInt16) (operand : UInt8), s.regs.p.unused = true →
    (run i.program (entry s adder address operand)).1.state = f s

section

variable {adder : Bool}

theorem performs_implied (op : RegisterOp) :
    Performs adder (.implied op) fun s => ⟨op.apply (s.past .implied), s.memory⟩ := by
  intro s address operand
  rw [run_eq_execs rfl]
  rfl

theorem performs_accumulator (op : Shift) :
    Performs adder (.accumulator op) fun s => ⟨op.applyA (s.past .accumulator), s.memory⟩ := by
  intro s address operand
  rw [run_eq_execs rfl]
  rfl

theorem performs_immediate (op : ReadOp) :
    Performs adder (.immediate op) fun s =>
      ⟨op.apply adder s.zz (s.past .immediate), s.memory⟩ := by
  intro s address operand
  dsimp only
  rw [← past_two rfl, run_eq_execs rfl]
  rfl

/-- The byte at the operand's address is put to use. -/
def Isa.State.reading (adder : Bool) (op : ReadOp) (mode : AddressingMode) (s : State) : State :=
  ⟨op.apply adder (s.memory (mode.address s)) (s.past mode), s.memory⟩

theorem performs_read (op : ReadOp) {mode : AddressingMode} {m : Mode}
    (hm : mode.memory? = some m) : Performs adder (.read op m) (State.reading adder op mode) := by
  intro s address operand
  obtain ⟨k, hk, hrun⟩ := run_inMemory hm s adder address operand false [.read op] rfl
    (.read op m) rfl
  have hx : (execs [.read op] k).1.state =
      ⟨op.apply k.decimalAdder (k.memory k.address) k.regs, k.memory⟩ := rfl
  rw [hrun, hx, hk.decimalAdder, hk.memory, hk.address, hk.regs]
  rfl

/-- The byte at the operand's address is replaced. -/
def Isa.State.modifying (adder : Bool) (op : ModifyOp) (mode : AddressingMode) (s : State) :
    State :=
  ⟨(op.apply adder (s.memory (mode.address s)) (s.past mode)).2,
    Function.update s.memory (mode.address s)
      (op.apply adder (s.memory (mode.address s)) (s.past mode)).1⟩

theorem performs_modify (op : ModifyOp) {mode : AddressingMode} {m : Mode}
    (hm : mode.memory? = some m) :
    Performs adder (.modify op m) (State.modifying adder op mode) := by
  intro s address operand
  obtain ⟨k, hk, hrun⟩ := run_inMemory hm s adder address operand true
    [.modifyRead, .modifyHold op, .modifyWrite] rfl (.modify op m) rfl
  have hx : (execs [.modifyRead, .modifyHold op, .modifyWrite] k).1.state =
      ⟨(op.apply k.decimalAdder (k.memory k.address) k.regs).2,
        Function.update (Function.update k.memory k.address (k.memory k.address)) k.address
          (op.apply k.decimalAdder (k.memory k.address) k.regs).1⟩ := rfl
  rw [hrun, hx, Function.update_idem, hk.decimalAdder, hk.regs, hk.memory, hk.address]
  rfl

def inMemory (f : Mode → Instruction) (mode : AddressingMode) : Instruction :=
  match mode.memory? with
  | some m => f m
  | none => .jam

theorem memory_of_inMemory {f : Mode → Instruction} {mode : AddressingMode}
    (h : inMemory f mode ≠ .jam) : ∃ m, mode.memory? = some m ∧ inMemory f mode = f m := by
  unfold inMemory at h ⊢
  cases hm : mode.memory? with
  | some m => exact ⟨m, rfl, rfl⟩
  | none =>
    rw [hm] at h
    exact absurd rfl h

theorem operand_of_memory {mode : AddressingMode} {m : Mode} (hm : mode.memory? = some m)
    (s : State) : mode.operand s = s.memory (mode.address s) := by
  cases mode <;> first | rfl | cases hm

def only (required : AddressingMode) (i : Instruction) (mode : AddressingMode) : Instruction :=
  if mode = required then i else .jam

theorem implements_only {required : AddressingMode} {i : Instruction}
    {f : AddressingMode → State → State} (hf : Implements adder i (f required))
    {mode : AddressingMode} (h : only required i mode ≠ .jam) :
    Implements adder (only required i mode) (f mode) := by
  unfold only at h ⊢
  by_cases hm : mode = required
  · rw [if_pos hm, hm]
    exact hf
  · rw [if_neg hm] at h
    exact absurd rfl h

theorem implements_implied {op : RegisterOp} {f : State → State}
    (hf : ∀ s : State, (s.past .implied).p.unused = true →
      f s = ⟨op.apply (s.past .implied), s.memory⟩) :
    Implements adder (.implied op) f := by
  intro s address operand hu
  rw [performs_implied, hf s hu]

def reading (op : ReadOp) (mode : AddressingMode) : Instruction :=
  if mode = .immediate then .immediate op else inMemory (.read op) mode

theorem implements_reading {op : ReadOp} {mode : AddressingMode} {f : State → State}
    (hf : ∀ s : State, (s.past mode).p.unused = true →
      f s = ⟨op.apply adder (mode.operand s) (s.past mode), s.memory⟩)
    (h : reading op mode ≠ .jam) : Implements adder (reading op mode) f := by
  intro s address operand hu
  unfold reading at h ⊢
  by_cases hi : mode = .immediate
  · subst hi
    rw [if_pos rfl, performs_immediate, hf s hu]
    rfl
  · rw [if_neg hi] at h ⊢
    obtain ⟨m, hm, hread⟩ := memory_of_inMemory h
    rw [hread, performs_read op hm, State.reading, hf s hu, operand_of_memory hm]

theorem implements_store {op : StoreOp} {mode : AddressingMode} {f : State → State}
    (hf : ∀ s : State, f s = s.produce (op.source s.regs) mode) (hstable : op.isUnstable = false)
    (h : inMemory (.store op) mode ≠ .jam) : Implements adder (inMemory (.store op) mode) f := by
  intro s address operand hu
  obtain ⟨m, hm, hstore⟩ := memory_of_inMemory h
  obtain ⟨k, hk, hrun⟩ := run_inMemory hm s adder address operand true [.write op] rfl
    (.store op m) rfl
  have hsource : op.source k.regs = op.source s.regs := by
    rw [hk.regs]
    cases op <;> rfl
  have hx : (execs [.write op] k).1.state =
      ⟨k.regs, Function.update k.memory k.address (op.source k.regs)⟩ := by
    cases op <;> first | rfl | cases hstable
  rw [hstore, hrun, hx, hsource, hf s, hk.regs, hk.memory, hk.address]
  rfl

theorem replace_memory {mode : AddressingMode} (h : mode ≠ .accumulator)
    (f : UInt8 → Status → UInt8 × Status) (s : State) :
    s.replace f mode =
      ⟨{ s.past mode with p := (f (mode.operand s) s.regs.p).2 },
        Function.update s.memory (mode.address s) (f (mode.operand s) s.regs.p).1⟩ := by
  cases mode <;> first | rfl | exact absurd rfl h

theorem implements_modify {op : ModifyOp} {mode : AddressingMode} {f : State → State}
    {g : UInt8 → Status → UInt8 × Status} (hf : ∀ s : State, f s = s.replace g mode)
    (hg : ∀ (v : UInt8) (r : Registers), r.p.unused = true →
      op.apply adder v r = ((g v r.p).1, { r with p := (g v r.p).2 }))
    (h : inMemory (.modify op) mode ≠ .jam) :
    Implements adder (inMemory (.modify op) mode) f := by
  intro s address operand hu
  obtain ⟨m, hm, hmodify⟩ := memory_of_inMemory h
  have hacc : mode ≠ .accumulator := by
    rintro rfl
    cases hm
  rw [hmodify, performs_modify op hm, State.modifying, hg _ (s.past mode) hu, hf,
    replace_memory hacc, operand_of_memory hm]
  rfl

def shifting (op : Shift) (mode : AddressingMode) : Instruction :=
  if mode = .accumulator then .accumulator op else inMemory (.modify (.shift op)) mode

theorem implements_shifting {op : Shift} {mode : AddressingMode}
    (h : shifting op mode ≠ .jam) :
    Implements adder (shifting op mode)
      (State.replace (fun v p =>
        (op.result v p.carry, { nz (op.result v p.carry) p with carry := op.bitOut v })) mode) := by
  unfold shifting at h ⊢
  by_cases hm : mode = .accumulator
  · subst hm
    intro s address operand hu
    rw [if_pos rfl, performs_accumulator]
    show (⟨op.applyA (s.past .accumulator), s.memory⟩ : State) = _
    rw [Shift.applyA, Status.shift_eq (p := (s.past .accumulator).p) hu]
    rfl
  · rw [if_neg hm] at h ⊢
    refine implements_modify (fun s => rfl) ?_ h
    intro v r hu
    rw [ModifyOp.apply, Status.shift_eq hu]

theorem implements_branch {condition : Condition} {f : State → State}
    (hf : ∀ s : State, f s = s.branch (condition.holds s.regs.p) .relative) :
    Implements adder (.branch condition) f := by
  intro s address operand hu
  have hread := offsetRead_entry s adder address operand
  have htarget := target_entry s adder address operand
  have hjump : (run [.branchTaken, .branchFixPage]
      (entry s adder address operand).offsetRead).1.state =
      ⟨{ s.past .relative with pc := (s.past .relative).pc + displacement s.zz }, s.memory⟩ := by
    rw [← htarget]
    cases hp : samePage (entry s adder address operand).offsetRead.target
        (entry s adder address operand).offsetRead.regs.pc with
    | true =>
      rw [run_branchTaken_inPage hp, hread]
      rfl
    | false =>
      rw [run_branchTaken_crossing hp, hread]
      rfl
  rw [hf]
  cases hc : condition.holds s.regs.p with
  | false =>
    rw [run_branch_untaken hc, hread]
    rfl
  | true =>
    rw [run_branch_taken hc]
    exact hjump

/-! ### Stack and jumps -/

theorem implements_pha : Implements adder .pha (step adder .pha .implied) := by
  intro s address operand hu
  rw [run_eq_execs rfl]
  rfl

theorem implements_php : Implements adder .php (step adder .php .implied) := by
  intro s address operand hu
  rw [run_eq_execs rfl]
  rfl

theorem implements_pla : Implements adder .pla (step adder .pla .implied) := by
  intro s address operand hu
  rw [run_eq_execs rfl]
  have hx : (execs Instruction.pla.program (entry s adder address operand)).1.state =
      ⟨(s.past .implied).pull.loadA (s.memory (stackAddress (s.regs.s + 1))), s.memory⟩ := rfl
  rw [hx, Registers.loadA, Status.setNZ_eq (p := (s.past .implied).pull.p) hu]
  rfl

theorem implements_plp : Implements adder .plp (step adder .plp .implied) := by
  intro s address operand hu
  rw [run_eq_execs rfl]
  rfl

theorem implements_jmp : Implements adder .jmp (step adder .jmp .absolute) := by
  intro s address operand hu
  rw [run_eq_execs rfl]
  have hx : (execs Instruction.jmp.program (entry s adder address operand)).1.state =
      ⟨{ s.regs with pc := addressOf (lowByte (zeroPage s.zz)) (s.memory (s.regs.pc + 1 + 1)) },
        s.memory⟩ := rfl
  rw [hx, lowByte_zeroPage, add_one_add_one]
  rfl

theorem implements_jmpIndirect : Implements adder .jmpIndirect (step adder .jmp .indirect) := by
  intro s address operand hu
  have hx : (run Instruction.jmpIndirect.program (entry s adder address operand)).1.state =
      ⟨{ s.past .absolute with
        pc := addressOf (s.memory s.absolute) (s.memory (nextInPage s.absolute)) }, s.memory⟩ := by
    rw [show Instruction.jmpIndirect.program =
        [.addressLow, .addressHigh] ++ [.pointerLow, .jumpIndirect] from rfl,
      run_straight rfl, execs_absolute, run_eq_execs rfl]
    rfl
  rw [hx]
  rfl

theorem implements_jsr : Implements adder .jsr (step adder .jsr .absolute) := by
  intro s address operand hu
  rw [run_eq_execs rfl]
  have hx : (execs Instruction.jsr.program (entry s adder address operand)).1.state =
      let t := (s.push (highByte (s.regs.pc + 1 + 1))).push (lowByte (s.regs.pc + 1 + 1))
      { t with regs.pc :=
        addressOf (lowByte (zeroPage s.zz)) (t.memory (s.regs.pc + 1 + 1)) } := rfl
  rw [hx, lowByte_zeroPage, add_one_add_one]
  rfl

theorem implements_rts : Implements adder .rts (step adder .rts .implied) := by
  intro s address operand hu
  rw [run_eq_execs rfl]
  rfl

theorem implements_rti : Implements adder .rti (step adder .rti .implied) := by
  intro s address operand hu
  rw [run_eq_execs rfl]
  rfl

theorem highByte_stackAddress (b : UInt8) : highByte (stackAddress b) = 1 := highByte_addressOf b 1

/-- The stack does not reach the vectors. -/
theorem push_above (v : UInt8) (s : State) {a : UInt16} (h : highByte a ≠ 1) :
    (s.push v).memory a = s.memory a := by
  apply Function.update_of_ne
  rintro rfl
  exact h (highByte_stackAddress _)

theorem implements_brk : Implements adder .brk (step adder .brk .implied) := by
  intro s address operand hu
  rw [run_eq_execs rfl]
  have hx : (execs Instruction.brk.program (entry s adder address operand)).1.state =
      let t := (s.push (highByte (s.regs.pc + 1 + 1))).push (lowByte (s.regs.pc + 1 + 1))
      let u := t.push s.regs.p.pushedByBreak
      { u with regs.p := s.regs.p.setIrqDisable true, regs.pc := u.word 0xFFFE 0xFFFF } := rfl
  rw [hx, add_one_add_one, Status.setIrqDisable_eq hu]
  have hvector : (((s.push (highByte (s.regs.pc + 2))).push (lowByte (s.regs.pc + 2))).push
      s.regs.p.pushedByBreak).word 0xFFFE 0xFFFF = s.word 0xFFFE 0xFFFF := by
    unfold State.word
    rw [push_above _ _ (by decide), push_above _ _ (by decide), push_above _ _ (by decide),
      push_above _ _ (by decide), push_above _ _ (by decide), push_above _ _ (by decide)]
  simp only [hvector]
  rfl

/-! ### All instructions -/

/-- The machine's instruction with the given mnemonic and addressing mode. -/
def instructionOf (mn : Mnemonic) (mode : AddressingMode) : Instruction :=
  match mn with
  | .lda => reading .lda mode
  | .ldx => reading .ldx mode
  | .ldy => reading .ldy mode
  | .and => reading .and mode
  | .ora => reading .ora mode
  | .eor => reading .eor mode
  | .adc => reading .adc mode
  | .sbc => reading .sbc mode
  | .cmp => reading .cmp mode
  | .cpx => reading .cpx mode
  | .cpy => reading .cpy mode
  | .bit => reading .bit mode
  | .sta => inMemory (.store .sta) mode
  | .stx => inMemory (.store .stx) mode
  | .sty => inMemory (.store .sty) mode
  | .asl => shifting .asl mode
  | .lsr => shifting .lsr mode
  | .rol => shifting .rol mode
  | .ror => shifting .ror mode
  | .inc => inMemory (.modify .inc) mode
  | .dec => inMemory (.modify .dec) mode
  | .tax => only .implied (.implied .tax) mode
  | .tay => only .implied (.implied .tay) mode
  | .txa => only .implied (.implied .txa) mode
  | .tya => only .implied (.implied .tya) mode
  | .tsx => only .implied (.implied .tsx) mode
  | .txs => only .implied (.implied .txs) mode
  | .inx => only .implied (.implied .inx) mode
  | .iny => only .implied (.implied .iny) mode
  | .dex => only .implied (.implied .dex) mode
  | .dey => only .implied (.implied .dey) mode
  | .clc => only .implied (.implied .clc) mode
  | .sec => only .implied (.implied .sec) mode
  | .cli => only .implied (.implied .cli) mode
  | .sei => only .implied (.implied .sei) mode
  | .clv => only .implied (.implied .clv) mode
  | .cld => only .implied (.implied .cld) mode
  | .sed => only .implied (.implied .sed) mode
  | .nop => only .implied (.implied .nop) mode
  | .bpl => only .relative (.branch .pl) mode
  | .bmi => only .relative (.branch .mi) mode
  | .bvc => only .relative (.branch .vc) mode
  | .bvs => only .relative (.branch .vs) mode
  | .bcc => only .relative (.branch .cc) mode
  | .bcs => only .relative (.branch .cs) mode
  | .bne => only .relative (.branch .ne) mode
  | .beq => only .relative (.branch .eq) mode
  | .pha => only .implied .pha mode
  | .php => only .implied .php mode
  | .pla => only .implied .pla mode
  | .plp => only .implied .plp mode
  | .rts => only .implied .rts mode
  | .rti => only .implied .rti mode
  | .brk => only .implied .brk mode
  | .jsr => only .absolute .jsr mode
  | .jmp => if mode = .indirect then .jmpIndirect else only .absolute .jmp mode

theorem instructionOf_encodings :
    ∀ mn ∈ Mnemonic.all, ∀ e ∈ mn.encodings,
      Instruction.ofOpcode e.2 = instructionOf mn e.1 ∧ instructionOf mn e.1 ≠ .jam := by
  decide +kernel

theorem implements_step {mn : Mnemonic} {mode : AddressingMode} (h : instructionOf mn mode ≠ .jam) :
    Implements adder (instructionOf mn mode) (step adder mn mode) := by
  cases mn with
  | lda | and | ora | eor =>
    refine implements_reading (fun s hu => ?_) h
    simp only [ReadOp.apply, Registers.loadA, Status.setNZ_eq hu]
    rfl
  | ldx =>
    refine implements_reading (fun s hu => ?_) h
    simp only [ReadOp.apply, Registers.loadX, Status.setNZ_eq hu]
    rfl
  | ldy =>
    refine implements_reading (fun s hu => ?_) h
    simp only [ReadOp.apply, Registers.loadY, Status.setNZ_eq hu]
    rfl
  | adc | sbc => exact implements_reading (fun s hu => rfl) h
  | cmp | cpx | cpy =>
    refine implements_reading (fun s hu => ?_) h
    simp only [ReadOp.apply, Status.compare_eq hu]
    rfl
  | bit =>
    refine implements_reading (fun s hu => ?_) h
    simp only [ReadOp.apply, Status.bitTest_eq hu]
    rfl
  | sta | stx | sty => exact implements_store (fun s => rfl) rfl h
  | asl | lsr | rol | ror => exact implements_shifting h
  | inc =>
    refine implements_modify (g := fun v p => (v + 1, nz (v + 1) p)) (fun s => rfl) ?_ h
    intro v r hu
    simp only [ModifyOp.apply, Status.setNZ_eq hu]
  | dec =>
    refine implements_modify (g := fun v p => (v - 1, nz (v - 1) p)) (fun s => rfl) ?_ h
    intro v r hu
    simp only [ModifyOp.apply, Status.setNZ_eq hu]
  | tax | tsx | inx | dex =>
    refine implements_only (implements_implied fun s hu => ?_) h
    simp only [RegisterOp.apply, Registers.loadX, Status.setNZ_eq hu]
    rfl
  | tay | iny | dey =>
    refine implements_only (implements_implied fun s hu => ?_) h
    simp only [RegisterOp.apply, Registers.loadY, Status.setNZ_eq hu]
    rfl
  | txa | tya =>
    refine implements_only (implements_implied fun s hu => ?_) h
    simp only [RegisterOp.apply, Registers.loadA, Status.setNZ_eq hu]
    rfl
  | txs | nop => exact implements_only (implements_implied fun s hu => rfl) h
  | clc | sec =>
    refine implements_only (implements_implied fun s hu => ?_) h
    simp only [RegisterOp.apply, Status.setCarry_eq hu]
    rfl
  | cli | sei =>
    refine implements_only (implements_implied fun s hu => ?_) h
    simp only [RegisterOp.apply, Status.setIrqDisable_eq hu]
    rfl
  | clv =>
    refine implements_only (implements_implied fun s hu => ?_) h
    simp only [RegisterOp.apply, Status.setOverflow_eq hu]
    rfl
  | cld | sed =>
    refine implements_only (implements_implied fun s hu => ?_) h
    simp only [RegisterOp.apply, Status.setDecimal_eq hu]
    rfl
  | bpl | bmi | bvc | bvs | bcc | bcs | bne | beq =>
    exact implements_only (implements_branch fun s => rfl) h
  | pha => exact implements_only implements_pha h
  | php => exact implements_only implements_php h
  | pla => exact implements_only implements_pla h
  | plp => exact implements_only implements_plp h
  | rts => exact implements_only implements_rts h
  | rti => exact implements_only implements_rti h
  | brk => exact implements_only implements_brk h
  | jsr => exact implements_only implements_jsr h
  | jmp =>
    unfold instructionOf at h ⊢
    by_cases hm : mode = .indirect
    · rw [if_pos hm, hm]
      exact implements_jmpIndirect
    · rw [if_neg hm] at h ⊢
      exact implements_only implements_jmp h

end

namespace Cpu

/-- A documented instruction takes the machine from one boundary to the next, and the registers and
the memory from one state of the instruction set to the next. Only documented flags change. -/
theorem completes_documented (c : Cpu) (m : Memory) (mn : Mnemonic) (mode : AddressingMode)
    (hb : c.atBoundary = true) (hn : c.nmiPending = false) (hu : c.regs.p.unused = true)
    (he : (mode, m c.regs.pc) ∈ mn.encodings) :
    ∃ n c' ram, Completes Schedule.quiet.host n c (.ofMemory m) c' ram ∧
      (⟨c'.regs, ram.memory⟩ : State) = Isa.step c.decimalAdder mn mode ⟨c.regs, m⟩ ∧
      (∀ flag, flag ∉ mn.flags → flag.get c'.regs.p = flag.get c.regs.p) ∧
      c'.nmiPending = false := by
  obtain ⟨hi, hjam⟩ := instructionOf_encodings mn mn.mem_all _ he
  obtain ⟨n, c', first, cycles, ram, hrun, hnmi, hcore, -⟩ :=
    completes_instruction hb hn m (by rw [hi]; exact hjam)
  rw [hi] at hcore
  have hstep : (⟨c'.regs, ram.memory⟩ : State) = Isa.step c.decimalAdder mn mode ⟨c.regs, m⟩ := by
    have himp : Implements c.decimalAdder (instructionOf mn mode)
        (Isa.step c.decimalAdder mn mode) := implements_step hjam
    rw [← himp ⟨c.regs, m⟩ c.address c.operand hu]
    exact congrArg Core.state hcore
  refine ⟨n, c', ram, hrun.unlogged, hstep, ?_, hnmi⟩
  intro flag hflag
  have hregs : c'.regs = (Isa.step c.decimalAdder mn mode ⟨c.regs, m⟩).regs :=
    congrArg State.regs hstep
  rw [hregs]
  exact get_step hflag _ _ _

theorem completes_documented_adc :
    ∃ n c' ram, Completes Schedule.quiet.host n (Cpu.powerOn .plain) (.ofMemory fun _ => 0x71) c'
        ram ∧
      (⟨c'.regs, ram.memory⟩ : State) =
        Isa.step true .adc .indirectIndexed ⟨(Cpu.powerOn .plain).regs, fun _ => 0x71⟩ ∧
      (∀ flag, flag ∉ Mnemonic.adc.flags →
        flag.get c'.regs.p = flag.get (Cpu.powerOn .plain).regs.p) ∧
      c'.nmiPending = false :=
  completes_documented (Cpu.powerOn .plain) (fun _ => 0x71) .adc .indirectIndexed rfl rfl rfl
    (by decide)

end Cpu

end Nmos6502
