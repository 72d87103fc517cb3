import Nmos6502.Proofs.Isa.Bus
import Nmos6502.Proofs.StraightLine

/-! # Addressing programs

The first part of a program leaves the operand's address in the address latch. -/

namespace Nmos6502

open Isa

/-- Two steps make one, in words of any size. -/
theorem add_add_of_eq {α : Type} [Add α] [Std.Associative ((· + ·) : α → α → α)] {b c d : α}
    (h : b + c = d) (a : α) : a + b + c = a + d := by
  rw [← h]
  exact Std.Associative.assoc a b c

theorem add_one_add_one (a : UInt16) : a + 1 + 1 = a + 2 := add_add_of_eq rfl a

theorem lowByte_zeroPage (b : UInt8) : lowByte (zeroPage b) = b := lowByte_addressOf b 0

theorem nextInPage_zeroPage (b : UInt8) : nextInPage (zeroPage b) = zeroPage (b + 1) := by
  rw [nextInPage, lowByte_zeroPage, zeroPage, highByte_addressOf]
  rfl

theorem signExtend_eq (offset : UInt8) : signExtend offset = displacement offset := by
  have ho := offset.toNat_lt
  apply UInt16.toNat_inj.1
  unfold signExtend displacement
  split
  · rw [toNat_addressOf, UInt8.toNat_toUInt16]
    simp
  · rw [toNat_addressOf, UInt16.toNat_sub, UInt8.toNat_toUInt16]
    simp only [UInt8.reduceToNat, UInt16.reduceToNat]
    omega

/-- Undoing a carry leaves the indexed low byte in the page of the base. -/
theorem uncorrected_index (base : UInt16) (offset : UInt8) :
    (if highByte base != highByte (base + offset.toUInt16) then base + offset.toUInt16 - 256
      else base + offset.toUInt16) =
      addressOf (lowByte (base + offset.toUInt16)) (highByte base) := by
  have hb := base.toNat_lt
  have ho := offset.toNat_lt
  have hsum : (base + offset.toUInt16).toNat = (base.toNat + offset.toNat) % 65536 := by
    rw [UInt16.toNat_add, UInt8.toNat_toUInt16]
  apply UInt16.toNat_inj.1
  rw [toNat_addressOf, toNat_lowByte, toNat_highByte, hsum]
  split
  · rename_i h
    have hne : base.toNat / 256 ≠ (base.toNat + offset.toNat) % 65536 / 256 := by
      intro he
      have : highByte base = highByte (base + offset.toUInt16) := by
        apply UInt8.toNat_inj.1
        rw [toNat_highByte, toNat_highByte, hsum, he]
      simp [this] at h
    rw [UInt16.toNat_sub, hsum]
    simp only [UInt16.reduceToNat]
    omega
  · rename_i h
    have he : base.toNat / 256 = (base.toNat + offset.toNat) % 65536 / 256 := by
      have : highByte base = highByte (base + offset.toUInt16) := by simpa using h
      have hn := congrArg UInt8.toNat this
      rw [toNat_highByte, toNat_highByte, hsum] at hn
      exact hn
    rw [hsum]
    omega

/-- The way the machine finds an operand in memory. -/
def Isa.AddressingMode.memory? : AddressingMode → Option Mode
  | .zeroPage => some .zp
  | .zeroPageX => some .zpx
  | .zeroPageY => some .zpy
  | .absolute => some .abs
  | .absoluteX => some .abx
  | .absoluteY => some .aby
  | .indexedIndirect => some .izx
  | .indirectIndexed => some .izy
  | _ => none

namespace Core

def entry (s : State) (adder : Bool) (address : UInt16) (operand : UInt8) : Core :=
  ⟨s.regs.advance, adder, address, operand, false, s.memory⟩

/-- The operand has been found: the address latch and the program counter are set. -/
structure Located (mode : AddressingMode) (s : State) (adder : Bool) (k : Core) : Prop where
  regs : k.regs = s.past mode
  decimalAdder : k.decimalAdder = adder
  address : k.address = mode.address s
  crossed : k.crossed = mode.crosses s
  uncorrected : k.cpu.uncorrected = mode.unfixed s
  memory : k.memory = s.memory

theorem past_two {s : State} {mode : AddressingMode} (h : mode.length = 2) :
    { s.regs with pc := s.regs.pc + 1 + 1 } = s.past mode := by
  rw [State.past, h, add_one_add_one]

theorem past_three {s : State} {mode : AddressingMode} (h : mode.length = 3) :
    { s.regs with pc := s.regs.pc + 1 + 1 + 1 } = s.past mode := by
  rw [State.past, h, add_one_add_one, add_add_of_eq (show (1 : UInt16) + 2 = 3 from rfl)]

theorem located_of_fixed {mode : AddressingMode} (hbase : mode.base = mode.address) {s : State}
    {adder : Bool} {k : Core} (hr : k.regs = s.past mode) (ha : k.address = mode.address s)
    (hd : k.decimalAdder = adder) (hc : k.crossed = false) (hm : k.memory = s.memory) :
    Located mode s adder k := by
  refine ⟨hr, hd, ha, ?_, ?_, hm⟩
  · rw [hc, AddressingMode.crosses, hbase, bne_self_eq_false]
  · have hu : k.cpu.uncorrected = if k.crossed then k.address - 256 else k.address := rfl
    rw [hu, hc, AddressingMode.unfixed, hbase, addressOf_bytes]
    exact ha

theorem located_of_indexed {mode : AddressingMode} {s : State} {offset : UInt8}
    (haddr : mode.address s = mode.base s + offset.toUInt16) {adder : Bool} {k : Core}
    (hr : k.regs = s.past mode) (ha : k.address = mode.base s + offset.toUInt16)
    (hd : k.decimalAdder = adder)
    (hc : k.crossed = !samePage (mode.base s) (mode.base s + offset.toUInt16))
    (hm : k.memory = s.memory) : Located mode s adder k := by
  refine ⟨hr, hd, ha.trans haddr.symm, ?_, ?_, hm⟩
  · rw [hc, AddressingMode.crosses, haddr]
    rfl
  · have hu : k.cpu.uncorrected = if k.crossed then k.address - 256 else k.address := rfl
    rw [hu, hc, ha, AddressingMode.unfixed, haddr]
    exact uncorrected_index _ _

/-- The micro-operation that deals with the page: always, or only when the index has carried. -/
def pageFix (always : Bool) : MicroOp := if always then .fixPage else .fixPageIfCrossed

theorem run_pageFix {mode : AddressingMode} (hm : mode.mayCross = true) {s : State} {adder : Bool}
    {k : Core} (hk : Located mode s adder k) (always : Bool) (rest : List MicroOp) :
    run (pageFix always :: rest) k =
      ((run rest k).1, mode.correction always s ++ (run rest k).2) := by
  have haccess : k.access (pageFix always) = .read (mode.unfixed s) := by
    rw [← hk.uncorrected]
    cases always <;> rfl
  have hexec : k.exec (pageFix always) = k := by
    cases always <;> rfl
  by_cases hskip : always = false ∧ k.crossed = false
  · obtain ⟨rfl, hc⟩ := hskip
    have hnone : mode.correction false s = [] := by
      rw [AddressingMode.correction, ← hk.crossed, hc, Bool.or_self, Bool.and_false]
      rfl
    rw [hnone]
    exact run_skip hc rest
  · have hsome : mode.correction always s = [.read (mode.unfixed s)] := by
      rw [AddressingMode.correction, ← hk.crossed, hm]
      cases always with
      | true => rfl
      | false =>
        have hc : k.crossed = true := by simpa using hskip
        rw [hc]
        rfl
    have hop : ¬(pageFix always = .fixPageIfCrossed ∧ k.crossed = false) := by
      cases always with
      | true => simp [pageFix]
      | false => simpa [pageFix] using hskip
    have hends : k.ends (pageFix always) = false := by
      cases always <;> rfl
    rw [run_cons hop hends, haccess, hexec, hsome]
    rfl

section

variable (s : State) (adder : Bool) (address : UInt16) (operand : UInt8)

theorem execs_zeroPage :
    execs [.addressLow] (entry s adder address operand) =
      (⟨s.past .zeroPage, adder, zeroPage s.zz, operand, false, s.memory⟩,
        AddressingMode.zeroPage.fetches s) := by
  rw [← past_two rfl]
  rfl

theorem execs_zeroPageIndexed (i : Index) :
    execs [.addressLow, .indexZeroPage i] (entry s adder address operand) =
      (⟨s.past .zeroPageX, adder, zeroPage (s.zz + i.value s.regs), operand, false, s.memory⟩,
        AddressingMode.zeroPageX.fetches s) := by
  rw [← past_two rfl, ← lowByte_zeroPage s.zz]
  cases i <;> rfl

theorem execs_absolute :
    execs [.addressLow, .addressHigh] (entry s adder address operand) =
      (⟨s.past .absolute, adder, s.absolute, operand, false, s.memory⟩,
        AddressingMode.absolute.fetches s) := by
  rw [← past_three rfl]
  simp only [AddressingMode.fetches, State.absolute, State.word, ← add_one_add_one]
  rw [← lowByte_zeroPage (s.memory (s.regs.pc + 1))]
  rfl

theorem execs_absoluteIndexed (i : Index) :
    execs [.addressLow, .addressHighIndexed i] (entry s adder address operand) =
      (⟨s.past .absolute, adder, s.absolute + (i.value s.regs).toUInt16, operand,
        !samePage s.absolute (s.absolute + (i.value s.regs).toUInt16), s.memory⟩,
        AddressingMode.absolute.fetches s) := by
  rw [← past_three rfl]
  simp only [AddressingMode.fetches, State.absolute, State.word, ← add_one_add_one]
  rw [← lowByte_zeroPage (s.memory (s.regs.pc + 1))]
  cases i <;> rfl

theorem execs_indexedIndirect :
    execs [.addressLow, .indexZeroPage .x, .pointerLow, .pointerHigh]
        (entry s adder address operand) =
      (⟨s.past .indexedIndirect, adder, s.pointer (s.zz + s.regs.x),
        s.memory (zeroPage (s.zz + s.regs.x)), false, s.memory⟩,
        AddressingMode.indexedIndirect.fetches s) := by
  rw [← past_two rfl]
  simp only [AddressingMode.fetches, State.pointer, State.word, ← nextInPage_zeroPage]
  have hindex : s.zz + s.regs.x = lowByte (zeroPage s.zz) + s.regs.x := by rw [lowByte_zeroPage]
  rw [hindex]
  rfl

theorem execs_indirectIndexed :
    execs [.addressLow, .pointerLow, .pointerHighIndexed .y] (entry s adder address operand) =
      (⟨s.past .indirectIndexed, adder, s.pointer s.zz + s.regs.y.toUInt16,
        s.memory (zeroPage s.zz), !samePage (s.pointer s.zz) (s.pointer s.zz + s.regs.y.toUInt16),
        s.memory⟩, AddressingMode.indirectIndexed.fetches s) := by
  rw [← past_two rfl]
  simp only [AddressingMode.fetches, State.pointer, State.word, ← nextInPage_zeroPage]
  rfl

end

/-- The micro-operations end with the operand found, on the bus they make the reads of the mode. -/
def Finds (mode : AddressingMode) (s : State) (adder : Bool) (k₀ : Core) (always : Bool)
    (ops : List MicroOp) : Prop :=
  ∀ rest, ∃ k, Located mode s adder k ∧
    run (ops ++ rest) k₀ =
      ((run rest k).1, mode.fetches s ++ mode.correction always s ++ (run rest k).2)

theorem finds_of_fixed (mode : AddressingMode) {ops : List MicroOp} (hops : ops.all straight = true)
    (hm : mode.mayCross = false) {s : State} {adder : Bool} {k₀ k : Core}
    (hx : execs ops k₀ = (k, mode.fetches s)) (hk : Located mode s adder k) (always : Bool) :
    Finds mode s adder k₀ always ops := by
  intro rest
  have hnone : mode.correction always s = [] := by
    rw [AddressingMode.correction, hm]
    rfl
  refine ⟨k, hk, ?_⟩
  rw [run_straight hops, hx, hnone, List.append_nil]

theorem finds_of_indexed (mode : AddressingMode) {ops : List MicroOp}
    (hops : ops.all straight = true) (hm : mode.mayCross = true) {s : State} {adder : Bool}
    {k₀ k : Core} (hx : execs ops k₀ = (k, mode.fetches s)) (hk : Located mode s adder k)
    (always : Bool) : Finds mode s adder k₀ always (ops ++ [pageFix always]) := by
  intro rest
  refine ⟨k, hk, ?_⟩
  rw [List.append_assoc, run_straight hops, hx, List.singleton_append, run_pageFix hm hk,
    List.append_assoc]

theorem finds_mode {mode : AddressingMode} {m : Mode} (h : mode.memory? = some m) (s : State)
    (adder : Bool) (address : UInt16) (operand : UInt8) (always : Bool) :
    Finds mode s adder (entry s adder address operand) always (m.program (pageFix always)) := by
  cases mode with
  | zeroPage =>
    obtain rfl : Mode.zp = m := Option.some.inj h
    exact finds_of_fixed .zeroPage rfl rfl (execs_zeroPage s adder address operand)
      (located_of_fixed rfl rfl rfl rfl rfl rfl) always
  | zeroPageX =>
    obtain rfl : Mode.zpx = m := Option.some.inj h
    exact finds_of_fixed .zeroPageX rfl rfl (execs_zeroPageIndexed s adder address operand .x)
      (located_of_fixed rfl rfl rfl rfl rfl rfl) always
  | zeroPageY =>
    obtain rfl : Mode.zpy = m := Option.some.inj h
    exact finds_of_fixed .zeroPageY rfl rfl (execs_zeroPageIndexed s adder address operand .y)
      (located_of_fixed rfl rfl rfl rfl rfl rfl) always
  | absolute =>
    obtain rfl : Mode.abs = m := Option.some.inj h
    exact finds_of_fixed .absolute rfl rfl (execs_absolute s adder address operand)
      (located_of_fixed rfl rfl rfl rfl rfl rfl) always
  | absoluteX =>
    obtain rfl : Mode.abx = m := Option.some.inj h
    exact finds_of_indexed .absoluteX rfl rfl (execs_absoluteIndexed s adder address operand .x)
      (located_of_indexed rfl rfl rfl rfl rfl rfl) always
  | absoluteY =>
    obtain rfl : Mode.aby = m := Option.some.inj h
    exact finds_of_indexed .absoluteY rfl rfl (execs_absoluteIndexed s adder address operand .y)
      (located_of_indexed rfl rfl rfl rfl rfl rfl) always
  | indexedIndirect =>
    obtain rfl : Mode.izx = m := Option.some.inj h
    exact finds_of_fixed .indexedIndirect rfl rfl (execs_indexedIndirect s adder address operand)
      (located_of_fixed rfl rfl rfl rfl rfl rfl) always
  | indirectIndexed =>
    obtain rfl : Mode.izy = m := Option.some.inj h
    exact finds_of_indexed .indirectIndexed rfl rfl (execs_indirectIndexed s adder address operand)
      (located_of_indexed rfl rfl rfl rfl rfl rfl) always
  | _ => cases h

theorem run_inMemory {mode : AddressingMode} {m : Mode} (h : mode.memory? = some m) (s : State)
    (adder : Bool) (address : UInt16) (operand : UInt8) (always : Bool) (rest : List MicroOp)
    (hrest : rest.all straight = true) (i : Instruction)
    (hi : i.program = m.program (pageFix always) ++ rest) :
    ∃ k, Located mode s adder k ∧
      run i.program (entry s adder address operand) =
        ((execs rest k).1,
          mode.fetches s ++ mode.correction always s ++ (execs rest k).2) := by
  obtain ⟨k, hk, hrun⟩ := finds_mode h s adder address operand always rest
  refine ⟨k, hk, ?_⟩
  rw [hi, hrun, run_eq_execs hrest]

/-! ### Branches -/

def offsetRead (k : Core) : Core :=
  { k with regs := k.regs.advance, operand := k.memory k.regs.pc }

/-- The target of a branch whose offset has been read. -/
def target (k : Core) : UInt16 := k.regs.pc + signExtend k.operand

theorem offsetRead_entry (s : State) (adder : Bool) (address : UInt16) (operand : UInt8) :
    (entry s adder address operand).offsetRead =
      ⟨s.past .relative, adder, address, s.zz, false, s.memory⟩ := by
  rw [← past_two rfl]
  rfl

theorem target_entry (s : State) (adder : Bool) (address : UInt16) (operand : UInt8) :
    (entry s adder address operand).offsetRead.target =
      (s.past .relative).pc + displacement s.zz := by
  rw [← signExtend_eq, offsetRead_entry]
  rfl

theorem exec_branchOffset (condition : Condition) (k : Core) :
    k.exec (.branchOffset condition) = k.offsetRead := by
  rw [exec, Cpu.ofCpu_branchOffset]
  rfl

theorem exec_branchTaken (k : Core) :
    k.exec .branchTaken =
      if samePage k.target k.regs.pc then { k with regs.pc := k.target }
      else { k with address := k.target } := by
  rw [exec, Cpu.ofCpu_branchTaken]
  rfl

theorem run_branch_untaken {condition : Condition} {k : Core}
    (h : condition.holds k.regs.p = false) :
    run (Instruction.branch condition).program k = (k.offsetRead, [.read k.regs.pc]) := by
  have hends : k.ends (.branchOffset condition) = true := by simp [ends, h]
  rw [Instruction.program, run_last hends, exec_branchOffset]
  rfl

theorem run_branch_taken {condition : Condition} {k : Core}
    (h : condition.holds k.regs.p = true) :
    run (Instruction.branch condition).program k =
      ((run [.branchTaken, .branchFixPage] k.offsetRead).1,
        .read k.regs.pc :: (run [.branchTaken, .branchFixPage] k.offsetRead).2) := by
  have hends : k.ends (.branchOffset condition) = false := by simp [ends, h]
  rw [Instruction.program, run_cons (by simp) hends, exec_branchOffset]
  rfl

theorem run_branchTaken_inPage {k : Core} (h : samePage k.target k.regs.pc = true) :
    run [.branchTaken, .branchFixPage] k =
      ({ k with regs.pc := k.target }, [.read k.regs.pc]) := by
  have hends : k.ends .branchTaken = true := h
  rw [run_last hends, exec_branchTaken, if_pos h]
  rfl

theorem run_branchTaken_crossing {k : Core} (h : samePage k.target k.regs.pc = false) :
    run [.branchTaken, .branchFixPage] k =
      ({ k with address := k.target, regs.pc := k.target },
        [.read k.regs.pc, .read (addressOf (lowByte k.target) (highByte k.regs.pc))]) := by
  have hends : k.ends .branchTaken = false := h
  rw [run_cons (by simp) hends, exec_branchTaken, if_neg (by simp [h]), run_eq_execs rfl]
  rfl

end Core

end Nmos6502
