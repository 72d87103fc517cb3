import Nmos6502.Proofs.Leads

/-! # Nested calls and interrupts unwind

JSR, BRK and the interrupts push where to go on, and RTS and RTI go there. However entries of all
kinds are nested, as long as the bytes that are pushed and not yet pulled fit into the 256 bytes of
the stack, each return finds S, the address and the status of its own entry, also where the stack
wraps inside page one. Between entries and returns any instructions may run that neither use S nor
write to page one. -/

namespace Nmos6502

variable {sch : Schedule} {c d c₀ : Cpu} {ram ram' ram₀ : Ram} {log : List BusCycle}

/-! ### Instructions that leave the stack alone -/

/-- The operation reads or changes S. -/
def Instruction.usesStack : Instruction → Bool
  | implied op => op == .tsx || op == .txs
  | immediate op | read op _ => op == .las
  | store op _ => op == .tas
  | pha | php | pla | plp | brk | jsr | rts | rti => true
  | accumulator _ | modify _ _ | branch _ | jmp | jmpIndirect | jam => false

/-- The micro-operation leaves S as it is. -/
def MicroOp.keepsStack : MicroOp → Bool
  | implied op => op != .txs
  | immediate op | read op => op != .las
  | write op => op != .tas
  | push _ | pullAccumulator | pullStatus | pullPcLow | pullPcHigh => false
  | _ => true

theorem Mode.keepsStack_program {correction : MicroOp} (h : correction.keepsStack = true)
    (mode : Mode) : (mode.program correction).all MicroOp.keepsStack = true := by
  cases mode <;> simp only [program, List.all_cons, List.all_nil, Bool.and_true, h] <;> rfl

theorem Instruction.keepsStack_program {i : Instruction} (h : i.usesStack = false) :
    i.program.all MicroOp.keepsStack = true := by
  cases i with
  | implied op => cases op <;> first | rfl | cases h
  | immediate op => simpa [usesStack, program, MicroOp.keepsStack] using h
  | read op mode =>
    rw [program, List.all_append, mode.keepsStack_program rfl, Bool.true_and]
    simpa [usesStack, MicroOp.keepsStack] using h
  | store op mode =>
    rw [program, List.all_append, mode.keepsStack_program rfl, Bool.true_and]
    simpa [usesStack, MicroOp.keepsStack] using h
  | modify op mode =>
    rw [program, List.all_append, mode.keepsStack_program rfl, Bool.true_and]
    rfl
  | accumulator _ | branch _ | jmp | jmpIndirect | jam => rfl
  | _ => cases h

namespace Core

theorem s_exec {op : MicroOp} (h : op.keepsStack = true) (k : Core) :
    (k.exec op).regs.s = k.regs.s := by
  cases op with
  | implied op => cases op <;> first | rfl | cases h
  | immediate op => cases op <;> first | rfl | cases h
  | read op => cases op <;> first | rfl | cases h
  | write op => cases op <;> first | rfl | cases h
  | modifyHold op => cases op <;> rfl
  | branchOffset condition =>
    rw [exec, Cpu.ofCpu_branchOffset]
    rfl
  | branchTaken =>
    rw [exec, Cpu.ofCpu_branchTaken]
    split <;> rfl
  | push _ | pullAccumulator | pullStatus | pullPcLow | pullPcHigh => cases h
  | _ => rfl

theorem s_run {ops : List MicroOp} (h : ops.all MicroOp.keepsStack = true) (k : Core) :
    (run ops k).1.regs.s = k.regs.s := by
  induction ops generalizing k with
  | nil => rfl
  | cons op ops ih =>
    obtain ⟨hop, hops⟩ := Bool.and_eq_true_iff.1 (List.all_cons.symm.trans h)
    simp only [run]
    split
    · exact ih hops k
    · split
      · exact s_exec hop k
      · exact (ih hops _).trans (s_exec hop k)

theorem run_rts (k : Core) :
    (run Instruction.rts.program k).1.regs = { k.regs with
      s := k.regs.s + 1 + 1
      pc := addressOf (k.memory (stackAddress (k.regs.s + 1)))
        (k.memory (stackAddress (k.regs.s + 1 + 1))) + 1 } := by
  rw [run_eq_execs (by decide)]
  rfl

theorem run_rti (k : Core) :
    (run Instruction.rti.program k).1.regs = { k.regs with
      s := k.regs.s + 1 + 1 + 1
      p := Status.pulled (k.memory (stackAddress (k.regs.s + 1)))
      pc := addressOf (k.memory (stackAddress (k.regs.s + 1 + 1)))
        (k.memory (stackAddress (k.regs.s + 1 + 1 + 1))) } := by
  rw [run_eq_execs (by decide)]
  rfl

end Core

/-! ### Entries and returns -/

/-- What leads away and can come back: a call, or a BRK or interrupt sequence. -/
inductive Detour where
  | jsr
  | brk
  | interrupt (handler : Handler)
deriving Repr, DecidableEq

/-- What the matching return is. -/
def Detour.back : Detour → Instruction
  | jsr => .rts
  | brk | interrupt _ => .rti

/-- An entry, and the machine as it stood before. -/
structure Frame where
  detour : Detour
  cpu : Cpu

namespace Frame

/-- The entry comes next. -/
def Begins (f : Frame) (m : Memory) : Prop :=
  match f.detour with
  | .jsr => f.cpu.atBoundary = true ∧ Instruction.ofOpcode (m f.cpu.regs.pc) = .jsr
  | .brk => f.cpu.atBoundary = true ∧ Instruction.ofOpcode (m f.cpu.regs.pc) = .brk
  | .interrupt handler => f.cpu.Takes handler

/-- What the entry pushes, the high byte of an address first. -/
def bytes (f : Frame) : List UInt8 :=
  match f.detour with
  | .jsr => [highByte (f.cpu.regs.pc + 2), lowByte (f.cpu.regs.pc + 2)]
  | .brk =>
    [highByte (f.cpu.regs.pc + 2), lowByte (f.cpu.regs.pc + 2), f.cpu.regs.p.pushedByBreak]
  | .interrupt _ => [highByte f.cpu.regs.pc, lowByte f.cpu.regs.pc, f.cpu.regs.p.pushedByInterrupt]

/-- Where the entry pushes. -/
def slots (f : Frame) : List UInt16 := (List.range f.bytes.length).map (slot f.cpu.regs.s)

/-- Where the return goes. -/
def target (f : Frame) : UInt16 :=
  match f.detour with
  | .jsr => f.cpu.regs.pc + 3
  | .brk => f.cpu.regs.pc + 2
  | .interrupt _ => f.cpu.regs.pc

/-- What a return restores. -/
structure Restored (f : Frame) (r : Registers) : Prop where
  s : r.s = f.cpu.regs.s
  pc : r.pc = f.target
  p : f.detour ≠ .jsr → r.p = { f.cpu.regs.p with brk := false, unused := true }

theorem enters (sch : Schedule) (f : Frame) (hf : f.Begins ram.memory) (hram : ram.held = 0) :
    ∃ log d ram', Leads sch f.cpu ram log d ram' ∧
      d.regs.s = f.cpu.regs.s - UInt8.ofNat f.bytes.length ∧
      ram'.memory = pushes f.cpu.regs.s f.bytes ram.memory ∧ ram'.held = 0 := by
  obtain ⟨detour, c⟩ := f
  have htwo : ∀ s : UInt8, s - 1 - 1 = s - UInt8.ofNat 2 := fun s => (sub_ofNat_add s 1 1).symm
  have hthree : ∀ s : UInt8, s - 1 - 1 - 1 = s - UInt8.ofNat 3 := by
    intro s
    rw [htwo]
    exact (sub_ofNat_add s 1 2).symm
  have hpc : c.regs.pc + 1 + 1 = c.regs.pc + 2 := UInt16.add_assoc _ _ _
  cases detour with
  | jsr =>
    obtain ⟨hb, hi⟩ := hf
    obtain ⟨log, d, ram', hd, hregs, hmemory, hheld⟩ :=
      Cpu.leads_instruction sch hb hram hi (by decide) (by decide)
    refine ⟨log, d, ram', hd, ?_, ?_, hheld⟩
    · rw [hregs]
      exact htwo c.regs.s
    · rw [hmemory, bytes, ← hpc]
      rfl
  | brk =>
    obtain ⟨hb, hi⟩ := hf
    obtain ⟨log, d, ram', hd, hs, hmemory, hheld⟩ := Cpu.leads_brk sch hb hram hi
    rw [hpc] at hmemory
    exact ⟨log, d, ram', hd, hs.trans (hthree _), hmemory, hheld⟩
  | interrupt handler =>
    obtain ⟨log, d, ram', hd, hs, hmemory, hheld⟩ := Cpu.leads_interrupt sch hf hram
    exact ⟨log, d, ram', hd, hs.trans (hthree _), hmemory, hheld⟩

end Frame

/-- RTS or RTI comes next, as it matches the entry. -/
def Detour.Returns (detour : Detour) (c : Cpu) (m : Memory) : Prop :=
  c.atBoundary = true ∧ Instruction.ofOpcode (m c.regs.pc) = detour.back

theorem pulled_slot (s : UInt8) (n : Nat) :
    s - UInt8.ofNat (n + 1) + 1 = s - UInt8.ofNat n := by
  rw [sub_ofNat_add]
  exact UInt8.sub_add_cancel _ _

namespace Core

variable {k : Core} {s : UInt8}

theorem rts_restores {r : UInt16} (hs : k.regs.s = s - UInt8.ofNat 2)
    (hf : Holds s [highByte r, lowByte r] k.memory) :
    (run Instruction.rts.program k).1.regs = { k.regs with s := s, pc := r + 1 } := by
  have hhigh : k.memory (slot s 0) = highByte r := hf 0 (Nat.succ_pos _)
  have hlow : k.memory (slot s 1) = lowByte r := hf 1 (Nat.lt_succ_self _)
  have hone : k.regs.s + 1 = s - UInt8.ofNat 1 := by rw [hs, pulled_slot]
  have hzero : k.regs.s + 1 + 1 = s - UInt8.ofNat 0 := by rw [hone, pulled_slot]
  rw [run_rts, hone, ← slot, hlow, ← hone, hzero, ← slot, hhigh, addressOf_bytes]
  exact congrArg (fun s => ({ k.regs with s := s, pc := r + 1 } : Registers)) (UInt8.sub_zero s)

theorem rti_restores {r : UInt16} {b : UInt8} (hs : k.regs.s = s - UInt8.ofNat 3)
    (hf : Holds s [highByte r, lowByte r, b] k.memory) :
    (run Instruction.rti.program k).1.regs =
      { k.regs with s := s, pc := r, p := Status.pulled b } := by
  have hhigh : k.memory (slot s 0) = highByte r := hf 0 (Nat.succ_pos _)
  have hlow : k.memory (slot s 1) = lowByte r := hf 1 (Nat.succ_lt_succ (Nat.succ_pos _))
  have hstatus : k.memory (slot s 2) = b := hf 2 (Nat.lt_succ_self _)
  have htwo : k.regs.s + 1 = s - UInt8.ofNat 2 := by rw [hs, pulled_slot]
  have hone : k.regs.s + 1 + 1 = s - UInt8.ofNat 1 := by rw [htwo, pulled_slot]
  have hzero : k.regs.s + 1 + 1 + 1 = s - UInt8.ofNat 0 := by rw [hone, pulled_slot]
  rw [run_rti, hzero, ← slot, hhigh, hone, ← slot, hlow, htwo, ← slot, hstatus, addressOf_bytes]
  exact congrArg (fun s => ({ k.regs with s := s, pc := r, p := Status.pulled b } : Registers))
    (UInt8.sub_zero s)

end Core

/-- A return to a frame that lies on the stack. -/
theorem Frame.returns (sch : Schedule) {f : Frame} (hc : f.detour.Returns c ram.memory)
    (hram : ram.held = 0) (hs : c.regs.s = f.cpu.regs.s - UInt8.ofNat f.bytes.length)
    (hf : Holds f.cpu.regs.s f.bytes ram.memory) :
    ∃ log d ram', Leads sch c ram log d ram' ∧ f.Restored d.regs ∧ ram'.memory = ram.memory ∧
      ram'.held = 0 := by
  obtain ⟨hb, hi⟩ := hc
  have hjam : f.detour.back ≠ .jam := by cases f.detour <;> exact Instruction.noConfusion
  have hbrk : f.detour.back ≠ .brk := by cases f.detour <;> exact Instruction.noConfusion
  obtain ⟨log, d, ram', hd, hregs, hmemory, hheld⟩ :=
    Cpu.leads_instruction sch hb hram hi hjam hbrk
  refine ⟨log, d, ram', hd, ?_, ?_, hheld⟩
  · rw [hregs]
    obtain ⟨detour, e⟩ := f
    cases detour with
    | jsr =>
      rw [Detour.back, Core.rts_restores (k := c.fetched ram.memory) hs hf]
      exact ⟨rfl, UInt16.add_assoc _ _ _, fun hjsr => absurd rfl hjsr⟩
    | brk =>
      rw [Detour.back, Core.rti_restores (k := c.fetched ram.memory) hs hf]
      exact ⟨rfl, rfl, fun _ => Status.pulled_pushedByBreak _⟩
    | interrupt handler =>
      rw [Detour.back, Core.rti_restores (k := c.fetched ram.memory) hs hf]
      exact ⟨rfl, rfl, fun _ => Status.pulled_pushedByInterrupt _⟩
  · rw [hmemory]
    cases f.detour <;> rfl

/-! ### Journeys -/

/-- What lies on the stack, from where it was empty. -/
def openBytes : List Frame → List UInt8
  | [] => []
  | f :: frames => openBytes frames ++ f.bytes

/-- An instruction comes next that neither uses S nor locks the machine up. -/
def Cpu.MindsItsOwn (c : Cpu) (m : Memory) : Prop :=
  c.atBoundary = true ∧ Instruction.ofOpcode (m c.regs.pc) ≠ .jam ∧
    (Instruction.ofOpcode (m c.regs.pc)).usesStack = false

/-- The cycles write nothing to page one. -/
def SparesStack (log : List BusCycle) : Prop :=
  ∀ b ∈ log, b.driven.read = false → highByte b.driven.addr ≠ 1

/-- The machine runs from a start through entries, returns and other instructions. `frames` are the
entries that have not returned, the last of them first, and `pushed` the addresses of all that has
been pushed. -/
inductive Journey (sch : Schedule) (c₀ : Cpu) (ram₀ : Ram) :
    List Frame → List UInt16 → Cpu → Ram → Prop
  | start : Journey sch c₀ ram₀ [] [] c₀ ram₀
  | other {frames : List Frame} {pushed : List UInt16} {c d : Cpu} {ram ram' : Ram}
      {log : List BusCycle} :
    Journey sch c₀ ram₀ frames pushed c ram → c.MindsItsOwn ram.memory →
      Leads sch c ram log d ram' → SparesStack log → Journey sch c₀ ram₀ frames pushed d ram'
  | enter {frames : List Frame} {pushed : List UInt16} {f : Frame} {d : Cpu} {ram ram' : Ram}
      {log : List BusCycle} :
    Journey sch c₀ ram₀ frames pushed f.cpu ram → f.Begins ram.memory →
      (openBytes (f :: frames)).length ≤ 256 → Leads sch f.cpu ram log d ram' →
      Journey sch c₀ ram₀ (f :: frames) (f.slots ++ pushed) d ram'
  | leave {frames : List Frame} {pushed : List UInt16} {f : Frame} {c d : Cpu} {ram ram' : Ram}
      {log : List BusCycle} :
    Journey sch c₀ ram₀ (f :: frames) pushed c ram → f.detour.Returns c ram.memory →
      Leads sch c ram log d ram' → Journey sch c₀ ram₀ frames pushed d ram'

/-- Every frame begins where the frames below it end. -/
def Stacked (s : UInt8) : List Frame → Prop
  | [] => True
  | f :: frames => f.cpu.regs.s = s - UInt8.ofNat (openBytes frames).length ∧ Stacked s frames

/-- What holds all along a journey. -/
structure Journey.Sound (c₀ : Cpu) (ram₀ : Ram) (frames : List Frame) (pushed : List UInt16)
    (c : Cpu) (ram : Ram) : Prop where
  released : ram.held = 0
  between : c.Between
  s : c.regs.s = c₀.regs.s - UInt8.ofNat (openBytes frames).length
  stacked : Stacked c₀.regs.s frames
  holds : Holds c₀.regs.s (openBytes frames) ram.memory
  spared (addr : UInt16) : highByte addr = 1 → addr ∉ pushed → ram.memory addr = ram₀.memory addr

theorem leads_other (sch : Schedule) (hc : c.MindsItsOwn ram.memory) (hram : ram.held = 0) :
    ∃ log d ram', Leads sch c ram log d ram' ∧ d.regs.s = c.regs.s ∧ ram'.held = 0 := by
  obtain ⟨hb, hjam, hstack⟩ := hc
  have hbrk : Instruction.ofOpcode (ram.memory c.regs.pc) ≠ .brk := by
    intro hbrk
    rw [hbrk] at hstack
    cases hstack
  obtain ⟨log, d, ram', hd, hregs, -, hheld⟩ := Cpu.leads_instruction sch hb hram rfl hjam hbrk
  refine ⟨log, d, ram', hd, ?_, hheld⟩
  rw [hregs]
  exact Core.s_run (Instruction.keepsStack_program hstack) _

/-- The machine always comes to the next instruction or interrupt sequence, but for JAM. -/
theorem leads_of_between (sch : Schedule) (hc : c.Between) (hram : ram.held = 0)
    (hjam : c.atBoundary = true → Instruction.ofOpcode (ram.memory c.regs.pc) ≠ .jam) :
    ∃ log d ram', Leads sch c ram log d ram' := by
  rcases hc with hb | ⟨handler, hc⟩
  · by_cases hbrk : Instruction.ofOpcode (ram.memory c.regs.pc) = .brk
    · obtain ⟨log, d, ram', hd, -⟩ := Cpu.leads_brk sch hb hram hbrk
      exact ⟨log, d, ram', hd⟩
    · obtain ⟨log, d, ram', hd, -⟩ := Cpu.leads_instruction sch hb hram rfl (hjam hb) hbrk
      exact ⟨log, d, ram', hd⟩
  · obtain ⟨log, d, ram', hd, -⟩ := Cpu.leads_interrupt sch hc hram
    exact ⟨log, d, ram', hd⟩

namespace Journey

variable {frames : List Frame} {pushed : List UInt16} {f : Frame}

theorem Sound.other (h : Sound c₀ ram₀ frames pushed c ram) (hc : c.MindsItsOwn ram.memory)
    (hd : Leads sch c ram log d ram') (hlog : SparesStack log) :
    Sound c₀ ram₀ frames pushed d ram' := by
  obtain ⟨log₁, d₁, ram₁, hd₁, hs, hheld⟩ := leads_other sch hc h.released
  obtain ⟨rfl, rfl, rfl⟩ := hd.unique hd₁
  have hmemory : ∀ addr, highByte addr = 1 → ram'.memory addr = ram.memory addr := by
    intro addr haddr
    refine hd.memory h.released fun b hb hwrite hsame => hlog b hb hwrite ?_
    rw [hsame, haddr]
  exact {
    released := hheld
    between := hd.between
    s := hs.trans h.s
    stacked := h.stacked
    holds := h.holds.congr hmemory
    spared := fun addr haddr hout => (hmemory addr haddr).trans (h.spared addr haddr hout) }

theorem Sound.enter (h : Sound c₀ ram₀ frames pushed f.cpu ram) (hf : f.Begins ram.memory)
    (hroom : (openBytes (f :: frames)).length ≤ 256) (hd : Leads sch f.cpu ram log d ram') :
    Sound c₀ ram₀ (f :: frames) (f.slots ++ pushed) d ram' := by
  obtain ⟨log₁, d₁, ram₁, hd₁, hs, hmemory, hheld⟩ := f.enters sch hf h.released
  obtain ⟨rfl, rfl, rfl⟩ := hd.unique hd₁
  rw [openBytes, List.length_append] at hroom
  refine {
    released := hheld
    between := hd.between
    s := ?_
    stacked := ⟨h.s, h.stacked⟩
    holds := ?_
    spared := ?_ }
  · rw [hs, h.s, openBytes, List.length_append, sub_ofNat_add]
  -- With no more than 256 open bytes no push comes round to one of them.
  · rw [hmemory, h.s]
    exact h.holds.pushes hroom
  · intro addr haddr hout
    obtain ⟨hslots, hrest⟩ := not_or.1 (List.mem_append.not.1 hout)
    rw [hmemory, pushes_frame]
    · exact h.spared addr haddr hrest
    · rintro n hn rfl
      exact hslots (List.mem_map_of_mem (List.mem_range.2 hn))

/-- The top frame lies on the stack, so a return finds it. -/
theorem Sound.returns (sch : Schedule) (h : Sound c₀ ram₀ (f :: frames) pushed c ram)
    (hc : f.detour.Returns c ram.memory) :
    ∃ log d ram', Leads sch c ram log d ram' ∧ f.Restored d.regs ∧ ram'.memory = ram.memory ∧
      ram'.held = 0 := by
  have hbottom := h.stacked.1
  refine Frame.returns sch hc h.released ?_ ?_
  · rw [h.s, hbottom, openBytes, List.length_append, sub_ofNat_add]
  · rw [hbottom]
    exact h.holds.top

theorem Sound.leave (h : Sound c₀ ram₀ (f :: frames) pushed c ram)
    (hc : f.detour.Returns c ram.memory) (hd : Leads sch c ram log d ram') :
    Sound c₀ ram₀ frames pushed d ram' := by
  obtain ⟨log₁, d₁, ram₁, hd₁, hrestored, hmemory, hheld⟩ := h.returns sch hc
  obtain ⟨rfl, rfl, rfl⟩ := hd.unique hd₁
  exact {
    released := hheld
    between := hd.between
    s := hrestored.s.trans h.stacked.1
    stacked := h.stacked.2
    holds := by
      rw [hmemory]
      exact h.holds.below
    spared := by
      rw [hmemory]
      exact h.spared }

theorem sound (h : Journey sch c₀ ram₀ frames pushed c ram) (hstart : c₀.Between)
    (hram : ram₀.held = 0) : Sound c₀ ram₀ frames pushed c ram := by
  induction h with
  | start =>
    exact {
      released := hram
      between := hstart
      s := (UInt8.sub_zero _).symm
      stacked := trivial
      holds := holds_nil _ _
      spared := fun _ _ _ => rfl }
  | other _ hc hd hlog ih => exact ih.other hc hd hlog
  | enter _ hf hroom hd ih => exact ih.enter hf hroom hd
  | leave _ hc hd ih => exact ih.leave hc hd

/-- From a machine between two instructions, on flat memory with anything on the interrupt lines,
all nested entries unwind. Wherever the machine is on its way it goes on to the next instruction or
interrupt sequence unless it meets JAM, page one is as it was but for what has been pushed, and the
return that matches the last entry restores what that entry has put aside. -/
theorem unwinds (h : Journey sch c₀ ram₀ frames pushed c ram) (hstart : c₀.Between)
    (hram : ram₀.held = 0) :
    ((c.atBoundary = true → Instruction.ofOpcode (ram.memory c.regs.pc) ≠ .jam) →
      ∃ log d ram', Leads sch c ram log d ram') ∧
    (∀ addr, highByte addr = 1 → addr ∉ pushed → ram.memory addr = ram₀.memory addr) ∧
    ∀ f rest, frames = f :: rest → f.detour.Returns c ram.memory →
      ∀ log d ram', Leads sch c ram log d ram' → f.Restored d.regs := by
  have hsound := h.sound hstart hram
  refine ⟨leads_of_between sch hsound.between hsound.released, hsound.spared, ?_⟩
  rintro f rest rfl hc log d ram' hd
  obtain ⟨log₁, d₁, ram₁, hd₁, hrestored, -⟩ := hsound.returns sch hc
  obtain ⟨-, rfl, -⟩ := hd.unique hd₁
  exact hrestored

/-- JSR, NOP and RTS, and RTI as the handler of NMI. -/
def nestedCode : Memory := fun addr =>
  if addr = 0x0200 then 0x20 else if addr = 0x0202 then 0x03 else if addr = 0x0300 then 0xEA
  else if addr = 0x0301 then 0x60 else if addr = 0x0400 then 0x40 else if addr = 0xFFFB then 0x04
  else 0

def nestedLines : Schedule := { nmi := fun n => 6 ≤ n }

def nestedStart : Cpu :=
  { Cpu.powerOn .plain with regs := { Registers.powerOn with s := 0, pc := 0x0200 } }

/-- A call whose return address lies across the end of the stack, and an NMI inside it. -/
theorem unwinds_across :
    let ram := Ram.ofMemory nestedCode
    ∃ call nmi c ram',
      Journey nestedLines nestedStart ram [nmi, call] (nmi.slots ++ (call.slots ++ [])) c ram' ∧
      call.detour = .jsr ∧ nmi.detour = .interrupt .nmi ∧ call.slots = [0x0100, 0x01FF] ∧
      nestedStart.Between ∧ ram.held = 0 ∧ nmi.detour.Returns c ram'.memory ∧
      (∃ log d ram'', Leads nestedLines c ram' log d ram'' ∧ nmi.Restored d.regs) := by
  intro ram
  let after := following nestedLines 10 nestedStart ram
  have hleads : ∀ n < 3, Leads nestedLines (after n).2.1 (after n).2.2 (after (n + 1)).1
      (after (n + 1)).2.1 (after (n + 1)).2.2 := by
    have hsteps : ∀ n < 3,
        (nextWithin nestedLines 10 (after n).2.1 (after n).2.2).isSome = true := by decide +kernel
    exact fun n hn => leads_following (hsteps n hn)
  have hzero : after 0 = ([], nestedStart, ram) := following_zero _ _ _ _
  let call : Frame := ⟨.jsr, nestedStart⟩
  let nmi : Frame := ⟨.interrupt .nmi, (after 2).2.1⟩
  have hjsr := hleads 0 (by decide)
  rw [hzero] at hjsr
  have hcall : Journey nestedLines nestedStart ram [call] (call.slots ++ []) (after 1).2.1
      (after 1).2.2 := by
    exact .enter .start ⟨by decide, by decide +kernel⟩ (by decide +kernel) hjsr
  have hnop :
      Journey nestedLines nestedStart ram [call] (call.slots ++ []) nmi.cpu (after 2).2.2 := by
    refine .other hcall ⟨?_, ?_, ?_⟩ (hleads 1 (by decide)) ?_
    · decide +kernel
    · decide +kernel
    · decide +kernel
    · unfold SparesStack
      decide +kernel
  have htakes : nmi.cpu.Takes .nmi := by decide +kernel
  have hnmi : Journey nestedLines nestedStart ram [nmi, call] (nmi.slots ++ (call.slots ++ []))
      (after 3).2.1 (after 3).2.2 := .enter hnop htakes (by decide +kernel) (hleads 2 (by decide))
  have hreturns : nmi.detour.Returns (after 3).2.1 (after 3).2.2.memory :=
    ⟨by decide +kernel, by decide +kernel⟩
  have hstart : nestedStart.Between := Or.inl rfl
  obtain ⟨hgo, -, hrestored⟩ := unwinds hnmi hstart rfl
  obtain ⟨log, d, ram', hd⟩ := hgo fun _ hjam => by cases hreturns.2.symm.trans hjam
  exact ⟨call, nmi, _, _, hnmi, rfl, rfl, by decide +kernel, hstart, rfl, hreturns, log, d, ram',
    hd, hrestored nmi [call] rfl hreturns log d ram' hd⟩

end Journey

end Nmos6502
