import Nmos6502.Proofs.BusTrace

/-! # Unstable stores

SHA, SHX, SHY and TAS put their source on the bus together with the high byte of the address, plus
one: what is stored is the source masked with it. When the index carries, the masked byte is on the
high address lines as well, and the store goes to another page. -/

namespace Nmos6502

open Isa Nmos6502.Core

/-! ### Indexing -/

theorem lowByte_index (base : UInt16) (offset : UInt8) :
    lowByte (base + offset.toUInt16) = lowByte base + offset := by
  apply UInt8.toNat_inj.1
  have hb := base.toNat_lt
  have ho := offset.toNat_lt
  rw [UInt8.toNat_add, toNat_lowByte, toNat_lowByte, UInt16.toNat_add, UInt8.toNat_toUInt16]
  omega

/-- The page stays the same as long as the low bytes do not add up to a page. -/
theorem highByte_index (base : UInt16) (offset : UInt8) :
    highByte (base + offset.toUInt16) = highByte base ↔
      (lowByte base).toNat + offset.toNat < 256 := by
  have hb := base.toNat_lt
  have ho := offset.toNat_lt
  rw [← UInt8.toNat_inj, toNat_highByte, toNat_highByte, toNat_lowByte, UInt16.toNat_add,
    UInt8.toNat_toUInt16]
  omega

/-! ### What is written -/

def Access.written? : Access → Option (UInt16 × UInt8)
  | read _ => none
  | write addr value => some (addr, value)

def BusCycle.writes (log : List BusCycle) : List (UInt16 × UInt8) :=
  log.filterMap fun b => b.driven.access.written?

theorem BusCycle.writes_eq (log : List BusCycle) :
    writes log = (log.map fun b => b.driven.access).filterMap Access.written? := by
  rw [List.filterMap_map]
  rfl

/-- A store that masks its source with the high byte of the address. -/
structure UnstableStore where
  opcode : UInt8
  op : StoreOp
  mode : AddressingMode
  source : Registers → UInt8
  index : Registers → UInt8
  cycles : Nat

namespace UnstableStore

def all : List UnstableStore :=
  [⟨0x9F, .sha, .absoluteY, fun r => r.a &&& r.x, Registers.y, 5⟩,
    ⟨0x93, .sha, .indirectIndexed, fun r => r.a &&& r.x, Registers.y, 6⟩,
    ⟨0x9E, .shx, .absoluteY, Registers.x, Registers.y, 5⟩,
    ⟨0x9C, .shy, .absoluteX, Registers.y, Registers.x, 5⟩,
    ⟨0x9B, .tas, .absoluteY, fun r => r.a &&& r.x, Registers.y, 5⟩]

variable (i : UnstableStore)

def base (s : State) : UInt16 := i.mode.base s

def value (s : State) : UInt8 := i.source s.regs &&& (highByte (i.base s) + 1)

/-- The low byte is indexed. The high byte is that of the base while the index does not carry, and
the value itself when it does. -/
def target (s : State) : UInt16 :=
  addressOf (lowByte (i.base s) + i.index s.regs)
    (if (lowByte (i.base s)).toNat + (i.index s.regs).toNat < 256 then highByte (i.base s)
      else i.value s)

/-- Only TAS changes a register besides the program counter. -/
def result (s : State) : Registers :=
  { s.past i.mode with s := if i.op = .tas then s.regs.a &&& s.regs.x else s.regs.s }

structure Decoded (m : Mode) : Prop where
  instruction : Instruction.ofOpcode i.opcode = .store i.op m
  memory : i.mode.memory? = some m
  crossing : i.mode.mayCross = true
  address (s : State) : i.mode.address s = i.base s + (i.index s.regs).toUInt16
  unstable : i.op.isUnstable = true
  source : i.op.source = i.source
  apply (r : Registers) : i.op.apply r = { r with s := if i.op = .tas then r.a &&& r.x else r.s }
  cycles (s : State) : i.cycles = (i.mode.fetches s).length + 3

variable {i}

theorem decoded_of_mem (hi : i ∈ all) : ∃ m, i.Decoded m := by
  simp only [all, List.mem_cons, List.not_mem_nil, or_false] at hi
  rcases hi with rfl | rfl | rfl | rfl | rfl
  · exact ⟨.aby, rfl, rfl, rfl, fun _ => rfl, rfl, rfl, fun _ => rfl, fun _ => rfl⟩
  · exact ⟨.izy, rfl, rfl, rfl, fun _ => rfl, rfl, rfl, fun _ => rfl, fun _ => rfl⟩
  · exact ⟨.aby, rfl, rfl, rfl, fun _ => rfl, rfl, rfl, fun _ => rfl, fun _ => rfl⟩
  · exact ⟨.abx, rfl, rfl, rfl, fun _ => rfl, rfl, rfl, fun _ => rfl, fun _ => rfl⟩
  · exact ⟨.aby, rfl, rfl, rfl, fun _ => rfl, rfl, rfl, fun _ => rfl, fun _ => rfl⟩

/-- What the machine makes of the indexed address is the target. -/
theorem target_eq {m : Mode} (hd : i.Decoded m) (s : State) :
    (if i.mode.crosses s then addressOf (lowByte (i.mode.address s)) (i.value s)
      else i.mode.address s) = i.target s := by
  -- The machine compares pages, also when the sum wraps at the top of memory.
  have hcross : i.mode.crosses s = true ↔
      ¬(lowByte (i.base s)).toNat + (i.index s.regs).toNat < 256 := by
    rw [← highByte_index, ← hd.address, AddressingMode.crosses, bne_iff_ne, ne_comm]
    rfl
  by_cases h : (lowByte (i.base s)).toNat + (i.index s.regs).toNat < 256
  · rw [if_neg (mt hcross.1 (not_not_intro h)), target, if_pos h, ← lowByte_index,
      ← (highByte_index (i.base s) (i.index s.regs)).2 h, addressOf_bytes, hd.address]
  · rw [if_pos (hcross.2 h), target, if_neg h, ← lowByte_index, hd.address]

theorem value_eq {m : Mode} (hd : i.Decoded m) {s : State} {adder : Bool} {k : Core}
    (hk : Located i.mode s adder k) : k.cpu.unstableValue i.op = i.value s := by
  have hregs : k.cpu.regs = s.past i.mode := hk.regs
  have hsource : i.op.source (s.past i.mode) = i.op.source s.regs := by
    cases i.op <;> rfl
  rw [Cpu.unstableValue, hk.uncorrected, AddressingMode.unfixed, highByte_addressOf, hregs, hsource,
    hd.source]
  rfl

theorem execs_write {m : Mode} (hd : i.Decoded m) {s : State} {adder : Bool} {k : Core}
    (hk : Located i.mode s adder k) :
    (execs [.write i.op] k).2 = [.write (i.target s) (i.value s)] ∧
      (execs [.write i.op] k).1.regs = i.result s ∧
      (execs [.write i.op] k).1.memory = Function.update s.memory (i.target s) (i.value s) := by
  have haddress : (if k.cpu.crossed then addressOf (lowByte k.cpu.address) (i.value s)
      else k.cpu.address) = i.target s := by
    have hcrossed : k.cpu.crossed = i.mode.crosses s := hk.crossed
    have hlatch : k.cpu.address = i.mode.address s := hk.address
    rw [hcrossed, hlatch, target_eq hd]
  -- The write rewrites the address latch and the stack pointer before its access.
  have hprepare : k.cpu.prepare (.write i.op) =
      ({ k.cpu with regs := i.op.apply k.regs, address := i.target s },
        .write (i.target s) (i.value s)) := by
    simp only [Cpu.prepare, Cpu.prepareStore, hd.unstable, if_true, value_eq hd hk, haddress]
    rfl
  have hresult : i.op.apply k.regs = i.result s := by
    rw [hd.apply, hk.regs]
    rfl
  have haccess : k.access (.write i.op) = .write (i.target s) (i.value s) := by
    rw [access, hprepare]
  have hexec : k.exec (.write i.op) =
      ofCpu { k.cpu with regs := i.result s, address := i.target s }
        (Function.update s.memory (i.target s) (i.value s)) := by
    rw [exec, haccess, hprepare, hresult, ← hk.memory]
    rfl
  have hexecs : execs [.write i.op] k =
      (ofCpu { k.cpu with regs := i.result s, address := i.target s }
        (Function.update s.memory (i.target s) (i.value s)),
      [.write (i.target s) (i.value s)]) := by
    rw [execs, haccess, hexec, execs]
  rw [hexecs]
  exact ⟨rfl, rfl, rfl⟩

theorem written_fetches (mode : AddressingMode) (s : State) :
    (mode.fetches s).filterMap Access.written? = [] := by
  cases mode <;> rfl

theorem run_program {m : Mode} (hd : i.Decoded m) (s : State) (adder : Bool) (address : UInt16)
    (operand : UInt8) :
    ∃ k accesses, run (Instruction.store i.op m).program (entry s adder address operand) =
        (k, accesses) ∧ accesses.length + 1 = i.cycles ∧
      accesses.filterMap Access.written? = [(i.target s, i.value s)] ∧ k.regs = i.result s ∧
      k.memory = Function.update s.memory (i.target s) (i.value s) := by
  obtain ⟨k, hk, hrun⟩ := run_inMemory hd.memory s adder address operand true [.write i.op] rfl
    (.store i.op m) rfl
  obtain ⟨haccesses, hregs, hmemory⟩ := execs_write hd hk
  -- A store always reads from the address that is not corrected yet, so its length is fixed.
  have hcorrection : i.mode.correction true s = [.read (i.mode.unfixed s)] := by
    rw [AddressingMode.correction, hd.crossing]
    rfl
  refine ⟨_, _, hrun, ?_, ?_, hregs, hmemory⟩
  · rw [haccesses, hcorrection, hd.cycles s]
    simp only [List.length_append, List.length_singleton]
  · rw [haccesses, hcorrection, List.filterMap_append, List.filterMap_append, written_fetches]
    rfl

end UnstableStore

namespace Cpu

/-- Every unstable store takes its five or six cycles and writes one byte of memory: its source
masked with the high byte of the base address plus one, at the indexed address, or, if the low bytes
carry, at the indexed low byte in the page that the value names. TAS copies its source to the stack
pointer, and no other register but the program counter changes. -/
theorem stores_masked {i : UnstableStore} (hi : i ∈ UnstableStore.all) (c : Cpu) (m : Memory)
    (hb : c.atBoundary = true) (hn : c.nmiPending = false) (hop : m c.regs.pc = i.opcode) :
    ∃ c' log ram, Completes Schedule.quiet.host.logged i.cycles c ([], .ofMemory m) c' (log, ram) ∧
      log.length = i.cycles ∧
      BusCycle.writes log = [(i.target ⟨c.regs, m⟩, i.value ⟨c.regs, m⟩)] ∧
      ram.memory = Function.update m (i.target ⟨c.regs, m⟩) (i.value ⟨c.regs, m⟩) ∧
      c'.regs = i.result ⟨c.regs, m⟩ := by
  obtain ⟨mode, hd⟩ := UnstableStore.decoded_of_mem hi
  have hinstruction : Instruction.ofOpcode (m c.regs.pc) = .store i.op mode := by
    rw [hop, hd.instruction]
  obtain ⟨c', first, cycles, ram, hrun, -, -, hcore, hfirst, -, haccess, -⟩ :=
    completes_fetched hb hn [] (.ofMemory m) rfl
      (by show Instruction.ofOpcode (m c.regs.pc) ≠ .jam; rw [hinstruction]; simp)
  have hmemory : (Ram.ofMemory m).memory = m := rfl
  rw [hmemory, hinstruction] at hcore haccess
  obtain ⟨k, accesses, hprogram, hlen, hwritten, hregs, hstored⟩ :=
    UnstableStore.run_program hd ⟨c.regs, m⟩ c.decimalAdder c.address c.operand
  have hentry : run (Instruction.store i.op mode).program
      ⟨c.regs.advance, c.decimalAdder, c.address, c.operand, false, m⟩ = (k, accesses) := hprogram
  rw [hentry] at hcore haccess
  have hcycles : cycles.length + 1 = i.cycles := by
    rw [← hlen, ← List.length_map (fun b : BusCycle => b.driven.access), haccess]
  refine ⟨c', first :: cycles, ram, hcycles ▸ hrun, hcycles, ?_, ?_, ?_⟩
  · rw [BusCycle.writes_eq, List.map_cons, haccess, hfirst, List.filterMap_cons, hwritten]
    rfl
  · exact (congrArg Core.memory hcore).trans hstored
  · exact (congrArg Core.regs hcore).trans hregs

-- TAS $12F0,Y at address zero.
def tasMemory : Memory := fun a =>
  if a = 0 then 0x9B else if a = 1 then 0xF0 else if a = 2 then 0x12 else 0

/-- The index carries, and the value is its own page. -/
theorem stores_masked_tas :
    ∃ c' log ram, Completes Schedule.quiet.host.logged 5
        { Cpu.powerOn .plain with regs := ⟨0xFF, 0x36, 0x20, 0xFD, 0, Status.powerOn⟩ }
        ([], .ofMemory tasMemory) c' (log, ram) ∧
      log.length = 5 ∧ BusCycle.writes log = [(0x1210, 0x12)] ∧
      ram.memory = Function.update tasMemory 0x1210 0x12 ∧
      c'.regs = ⟨0xFF, 0x36, 0x20, 0x36, 3, Status.powerOn⟩ :=
  stores_masked (i := ⟨0x9B, .tas, .absoluteY, fun r => r.a &&& r.x, Registers.y, 5⟩)
    (by simp [UnstableStore.all])
    { Cpu.powerOn .plain with regs := ⟨0xFF, 0x36, 0x20, 0xFD, 0, Status.powerOn⟩ } tasMemory
    rfl rfl rfl

end Cpu

end Nmos6502
