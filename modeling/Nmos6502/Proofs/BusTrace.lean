import Nmos6502.Proofs.Addressing

/-! # Bus traces

What the machine puts on the bus from one instruction boundary to the next, cycle by cycle. -/

namespace Nmos6502

open Isa Nmos6502.Core

/-! ### The opcode matrix -/

def StoreOp.columnOf : StoreOp → Nat
  | sty | shy => 0
  | sta => 1
  | stx | shx => 2
  | sax | sha | tas => 3

def ModifyOp.rowOf : ModifyOp → Nat
  | shift .asl | slo => 0
  | shift .rol | rla => 1
  | shift .lsr | sre => 2
  | shift .ror | rra => 3
  | dec | dcp => 6
  | inc | isc => 7

def Condition.rowOf : Condition → Nat
  | pl => 0 | mi => 1 | vc => 2 | vs => 3 | cc => 4 | cs => 5 | ne => 6 | eq => 7

def inColumn (op : UInt8) (m : Mode) : Bool :=
  match pattern op with
  | .memory mode => mode.memory? == some m
  | _ => false

theorem mode_of_inColumn {op : UInt8} {m : Mode} (h : inColumn op m = true) :
    ∃ mode : AddressingMode, pattern op = .memory mode ∧ mode.memory? = some m := by
  unfold inColumn at h
  split at h
  · rename_i mode hp
    exact ⟨mode, hp, by simpa using h⟩
  · cases h

/-- The bits of the opcode describe the instruction. -/
def describes (op : UInt8) : Instruction → Bool
  | .implied _ | .accumulator _ | .immediate _ => pattern op == .single
  | .read _ m => inColumn op m && traffic op == .read
  | .store o m => inColumn op m && traffic op == .write && op.toNat % 4 == o.columnOf &&
      unstable op == o.isUnstable
  | .modify o m => inColumn op m && traffic op == .modify && op.toNat / 32 == o.rowOf
  | .branch condition => pattern op == .branch && op.toNat / 32 == condition.rowOf
  | .pha => pattern op == .push && op != 0x08
  | .php => pattern op == .push && op == 0x08
  | .pla | .plp => pattern op == .pull
  | .brk => pattern op == .brk
  | .jsr => pattern op == .jsr
  | .rts => pattern op == .rts
  | .rti => pattern op == .rti
  | .jmp => pattern op == .jmp
  | .jmpIndirect => pattern op == .jmpIndirect
  | .jam => false

private theorem describes_fin : ∀ n : Fin 256, UInt8.ofNat n ∉ jams →
    describes (UInt8.ofNat n) (Instruction.ofOpcode (UInt8.ofNat n)) = true := by
  decide +kernel

theorem describes_ofOpcode {op : UInt8} (h : op ∉ jams) :
    describes op (Instruction.ofOpcode op) = true := by
  have hf := describes_fin ⟨op.toNat, op.toNat_lt⟩
  simp only [UInt8.ofNat_toNat] at hf
  exact hf h

/-! ### The stack pointer -/

theorem down_two (b : UInt8) : b - 1 - 1 = b - 2 := by
  apply UInt8.toNat_inj.1
  have hb := b.toNat_lt
  simp only [UInt8.toNat_sub, UInt8.reduceToNat]
  omega

/-! ### Accesses of a program -/

section

variable {op : UInt8} (s : State) (adder : Bool) (address : UInt16) (operand : UInt8)

theorem accesses_read {o : ReadOp} {m : Mode} (h : describes op (.read o m) = true) :
    (run (Instruction.read o m).program (entry s adder address operand)).2 = accesses op s := by
  simp only [describes, Bool.and_eq_true, beq_iff_eq] at h
  obtain ⟨hcolumn, htraffic⟩ := h
  obtain ⟨mode, hp, hm⟩ := mode_of_inColumn hcolumn
  obtain ⟨k, hk, hrun⟩ := run_inMemory hm s adder address operand false [.read o] rfl
    (.read o m) rfl
  have hx : (execs [.read o] k).2 = [.read k.address] := rfl
  simp only [accesses, hp, operandAccesses, htraffic]
  rw [hrun, hx, hk.address]
  rfl

theorem accesses_store {o : StoreOp} {m : Mode} (h : describes op (.store o m) = true) :
    (run (Instruction.store o m).program (entry s adder address operand)).2 = accesses op s := by
  simp only [describes, Bool.and_eq_true, beq_iff_eq] at h
  obtain ⟨⟨⟨hcolumn, htraffic⟩, hrow⟩, hunstable⟩ := h
  obtain ⟨mode, hp, hm⟩ := mode_of_inColumn hcolumn
  obtain ⟨k, hk, hrun⟩ := run_inMemory hm s adder address operand true [.write o] rfl
    (.store o m) rfl
  have hstored : stored op s.regs = o.source k.regs := by
    rw [hk.regs, stored, hrow]
    cases o <;> rfl
  have hpage : highByte k.cpu.uncorrected = highByte (mode.base s) := by
    rw [hk.uncorrected, AddressingMode.unfixed, highByte_addressOf]
  have hx : (execs [.write o] k).2 =
      if o.isUnstable then
        [.write (if k.crossed then addressOf (lowByte k.address)
          (o.source k.regs &&& (highByte k.cpu.uncorrected + 1)) else k.address)
          (o.source k.regs &&& (highByte k.cpu.uncorrected + 1))]
      else [.write k.address (o.source k.regs)] := by
    cases o <;> rfl
  simp only [accesses, hp, operandAccesses, htraffic, hunstable, hstored]
  rw [hrun, hx, hpage, hk.address, hk.crossed]
  rfl

theorem accesses_modify {o : ModifyOp} {m : Mode} (h : describes op (.modify o m) = true) :
    (run (Instruction.modify o m).program (entry s adder address operand)).2 = accesses op s := by
  simp only [describes, Bool.and_eq_true, beq_iff_eq] at h
  obtain ⟨⟨hcolumn, htraffic⟩, hrow⟩ := h
  obtain ⟨mode, hp, hm⟩ := mode_of_inColumn hcolumn
  obtain ⟨k, hk, hrun⟩ := run_inMemory hm s adder address operand true
    [.modifyRead, .modifyHold o, .modifyWrite] rfl (.modify o m) rfl
  have hx : (execs [.modifyRead, .modifyHold o, .modifyWrite] k).2 =
      [.read k.address, .write k.address (k.memory k.address),
        .write k.address (o.apply k.decimalAdder (k.memory k.address) k.regs).1] := rfl
  have hresult : ∀ v, (o.apply k.decimalAdder v k.regs).1 = modified op v s.regs.p.carry := by
    intro v
    rw [hk.regs, modified, hrow]
    cases o with
    | shift o => cases o <;> rfl
    | _ => rfl
  simp only [accesses, hp, operandAccesses, htraffic]
  rw [hrun, hx, hresult, hk.address, hk.memory]
  rfl

theorem taken_of_rowOf {condition : Condition} (h : op.toNat / 32 = condition.rowOf) (p : Status) :
    taken op p = condition.holds p := by
  have hflag : op.toNat / 64 = condition.rowOf / 2 := by omega
  simp only [taken, hflag, h]
  cases condition <;> simp [Condition.rowOf, Condition.holds]

theorem accesses_branch {condition : Condition} (h : describes op (.branch condition) = true) :
    (run (Instruction.branch condition).program (entry s adder address operand)).2 =
      accesses op s := by
  simp only [describes, Bool.and_eq_true, beq_iff_eq] at h
  obtain ⟨hp, hrow⟩ := h
  have hread := offsetRead_entry s adder address operand
  have htarget := target_entry s adder address operand
  simp only [accesses, hp, taken_of_rowOf hrow]
  cases hc : condition.holds s.regs.p with
  | false =>
    rw [run_branch_untaken hc]
    rfl
  | true =>
    rw [run_branch_taken hc]
    by_cases hpage : highByte (s.regs.pc + 2 + displacement s.zz) = highByte (s.regs.pc + 2)
    · have hsame : samePage (entry s adder address operand).offsetRead.target
          (entry s adder address operand).offsetRead.regs.pc = true := by
        rw [htarget, hread]
        exact beq_iff_eq.2 hpage
      rw [if_pos rfl, if_pos hpage, run_branchTaken_inPage hsame, hread]
      rfl
    · have hcross : samePage (entry s adder address operand).offsetRead.target
          (entry s adder address operand).offsetRead.regs.pc = false := by
        rw [htarget, hread]
        exact beq_eq_false_iff_ne.2 hpage
      rw [if_pos rfl, if_neg hpage, run_branchTaken_crossing hcross, htarget, hread]
      rfl

theorem accesses_program {i : Instruction} (h : describes op i = true) :
    (run i.program (entry s adder address operand)).2 = accesses op s := by
  cases i with
  | read o m => exact accesses_read s adder address operand h
  | store o m => exact accesses_store s adder address operand h
  | modify o m => exact accesses_modify s adder address operand h
  | branch condition => exact accesses_branch s adder address operand h
  | implied o | accumulator o | immediate o =>
    have hp : pattern op = .single := by simpa [describes] using h
    rw [run_eq_execs rfl, accesses, hp]
    rfl
  | pha =>
    have hp : pattern op = .push ∧ op ≠ 0x08 := by simpa [describes] using h
    rw [run_eq_execs rfl, accesses, hp.1]
    simp only [if_neg hp.2]
    rfl
  | php =>
    have hp : pattern op = .push ∧ op = 0x08 := by simpa [describes] using h
    rw [run_eq_execs rfl, accesses, hp.1]
    simp only [if_pos hp.2]
    rfl
  | pla | plp =>
    have hp : pattern op = .pull := by simpa [describes] using h
    rw [run_eq_execs rfl, accesses, hp]
    rfl
  | brk =>
    have hp : pattern op = .brk := by simpa [describes] using h
    rw [run_eq_execs rfl, accesses, hp]
    simp only [← add_one_add_one, ← down_two]
    rfl
  | jsr =>
    have hp : pattern op = .jsr := by simpa [describes] using h
    rw [run_eq_execs rfl, accesses, hp]
    simp only [← add_one_add_one]
    rfl
  | rts =>
    have hp : pattern op = .rts := by simpa [describes] using h
    rw [run_eq_execs rfl, accesses, hp]
    simp only [← add_add_of_eq (show (1 : UInt8) + 1 = 2 from rfl)]
    rfl
  | rti =>
    have hp : pattern op = .rti := by simpa [describes] using h
    rw [run_eq_execs rfl, accesses, hp]
    simp only [← add_add_of_eq (show (2 : UInt8) + 1 = 3 from rfl),
      ← add_add_of_eq (show (1 : UInt8) + 1 = 2 from rfl)]
    rfl
  | jmp =>
    have hp : pattern op = .jmp := by simpa [describes] using h
    rw [run_eq_execs rfl, accesses, hp]
    simp only [← add_one_add_one]
    rfl
  | jmpIndirect =>
    have hp : pattern op = .jmpIndirect := by simpa [describes] using h
    rw [accesses, hp, show Instruction.jmpIndirect.program =
        [.addressLow, .addressHigh] ++ [.pointerLow, .jumpIndirect] from rfl,
      run_straight rfl, execs_absolute, run_eq_execs rfl]
    rfl
  | jam => cases h

end

namespace Cpu

theorem ofOpcode_ne_jam {op : UInt8} (h : op ∉ jams) : Instruction.ofOpcode op ≠ .jam := by
  intro hi
  have hd := describes_ofOpcode h
  rw [hi] at hd
  cases hd

/-- The bus cycle by cycle: from one boundary to the next every opcode that does not lock the
machine up makes exactly the accesses of its trace, and SYNC is high on the first only. -/
theorem completes_busTrace (c : Cpu) (m : Memory) (hb : c.atBoundary = true)
    (hn : c.nmiPending = false) (hj : m c.regs.pc ∉ jams) :
    ∃ n c' first rest ram, Completes Schedule.quiet.host.logged n c ([], .ofMemory m) c'
        (first :: rest, ram) ∧
      (first :: rest).map (fun b => b.driven.access) = busTrace ⟨c.regs, m⟩ ∧
      first.driven.sync = true ∧ ∀ b ∈ rest, b.driven.sync = false := by
  obtain ⟨n, c', first, rest, ram, hrun, -, -, haccess, hsync, hrest, hsyncs⟩ :=
    completes_instruction hb hn m (ofOpcode_ne_jam hj)
  have htrace := accesses_program ⟨c.regs, m⟩ c.decimalAdder c.address c.operand
    (describes_ofOpcode hj)
  refine ⟨n, c', first, rest, ram, hrun, ?_, hsync, hsyncs⟩
  rw [List.map_cons, haccess, hrest]
  exact congrArg _ htrace

/-- INC $12F8,X at address zero. -/
def incMemory : Memory := fun a =>
  if a = 0 then 0xFE else if a = 1 then 0xF8 else if a = 2 then 0x12 else
    if a = 0x1308 then 0x41 else 0

/-- The index carries: the byte is read in the wrong page first, and is written back as it was
before the result is. -/
theorem completes_busTrace_inc :
    ∃ n c' first rest ram, Completes Schedule.quiet.host.logged n ((Cpu.powerOn .plain).setX 0x10)
        ([], .ofMemory incMemory) c' (first :: rest, ram) ∧
      (first :: rest).map (fun b => b.driven.access) =
        [.read 0, .read 1, .read 2, .read 0x1208, .read 0x1308, .write 0x1308 0x41,
          .write 0x1308 0x42] ∧
      first.driven.sync = true ∧ ∀ b ∈ rest, b.driven.sync = false := by
  obtain ⟨n, c', first, rest, ram, hrun, haccesses, hsyncs⟩ :=
    completes_busTrace ((Cpu.powerOn .plain).setX 0x10) incMemory rfl rfl (by decide)
  have htrace : busTrace ⟨((Cpu.powerOn .plain).setX 0x10).regs, incMemory⟩ =
      [.read 0, .read 1, .read 2, .read 0x1208, .read 0x1308, .write 0x1308 0x41,
        .write 0x1308 0x42] := by decide +kernel
  exact ⟨n, c', first, rest, ram, hrun, haccesses.trans htrace, hsyncs⟩

/-! ### Unstable stores -/

/-- SHX $12F0,Y at address zero. -/
def shxMemory : Memory := fun a =>
  if a = 0 then 0x9E else if a = 1 then 0xF0 else if a = 2 then 0x12 else 0

/-- The index carries, and the store misses the indexed address. -/
theorem shx_misses_indexed_address :
    ¬∃ n c' log ram v, Completes Schedule.quiet.host.logged n ((Cpu.powerOn .plain).setY 0x20)
        ([], .ofMemory shxMemory) c' (log, ram) ∧
      log.map (fun b => b.driven.access) =
        [.read 0, .read 1, .read 2, .read 0x1210, .write 0x1310 v] := by
  rintro ⟨n, c', log, ram, v, hrun, hlog⟩
  obtain ⟨k, d, first, rest, ram', hrun', -, -, haccess, -, hrest, -⟩ :=
    completes_instruction (c := (Cpu.powerOn .plain).setY 0x20) rfl rfl shxMemory (by decide)
  obtain ⟨-, -, hstate⟩ := hrun.unique hrun'
  obtain ⟨rfl, -⟩ := Prod.mk.inj hstate
  rw [List.map_cons, hrest] at hlog
  have hx : (Core.run (Instruction.ofOpcode (shxMemory 0)).program
      (entry ⟨((Cpu.powerOn .plain).setY 0x20).regs, shxMemory⟩ true 0 0)).2 =
      [.read 1, .read 2, .read 0x1210, .write 0x0010 0x00] := by
    decide +kernel
  have htail : [Access.read 1, .read 2, .read 0x1210, .write 0x0010 0x00] =
      [.read 1, .read 2, .read 0x1210, .write 0x1310 v] := hx.symm.trans (List.cons.inj hlog).2
  simp at htail

end Cpu

end Nmos6502
