import Nmos6502.Proofs.Reachable
import Nmos6502.Proofs.Refinement

/-! # Opcodes that combine two others

Where the bits of an opcode select two operations at once, the machine does one after the other: a
byte is shifted, decremented or incremented in memory and then taken into the accumulator or
compared with it, A and X are loaded together, or the accumulator is masked and then shifted. The
same two operations as instructions of their own, with the same operand, leave the same registers
and the same memory. -/

namespace Nmos6502

open Isa Nmos6502.Core

/-! ### Code in memory -/

def span : UInt16 → Nat → List UInt16
  | _, 0 => []
  | a, n + 1 => a :: span (a + 1) n

theorem length_span (a : UInt16) (n : Nat) : (span a n).length = n := by
  induction n generalizing a with
  | zero => rfl
  | succ n ih => rw [span, List.length_cons, ih]

theorem span_add (a : UInt16) (n k : Nat) :
    span a (n + k) = span a n ++ span (a + UInt16.ofNat n) k := by
  induction n generalizing a with
  | zero =>
    rw [Nat.zero_add]
    exact congrArg (span · k) (UInt16.add_zero a).symm
  | succ n ih =>
    have hnext : a + 1 + UInt16.ofNat n = a + UInt16.ofNat (n + 1) := by
      rw [UInt16.add_assoc, UInt16.ofNat_add, UInt16.add_comm (UInt16.ofNat n)]
      rfl
    rw [Nat.succ_add, span, ih, hnext]
    rfl

/-- The bytes lie in memory one after the other from `a` on. -/
def Spelled (m : Memory) (a : UInt16) (bytes : List UInt8) : Prop :=
  (span a bytes.length).map m = bytes

instance (m : Memory) (a : UInt16) (bytes : List UInt8) : Decidable (Spelled m a bytes) :=
  inferInstanceAs (Decidable (_ = _))

theorem spelled_cons {m : Memory} {a : UInt16} {b : UInt8} {bytes : List UInt8} :
    Spelled m a (b :: bytes) ↔ m a = b ∧ Spelled m (a + 1) bytes := by
  simp only [Spelled, List.length_cons, span, List.map_cons, List.cons.injEq]

theorem spelled_append {m : Memory} {a : UInt16} {xs ys : List UInt8} :
    Spelled m a (xs ++ ys) ↔ Spelled m a xs ∧ Spelled m (a + UInt16.ofNat xs.length) ys := by
  rw [Spelled, List.length_append, span_add, List.map_append]
  constructor
  · intro h
    exact List.append_inj h (by rw [List.length_map, length_span])
  · rintro ⟨hx, hy⟩
    rw [hx, hy]

theorem Spelled.congr {m m' : Memory} {a : UInt16} {bytes : List UInt8} (h : Spelled m a bytes)
    (hm : ∀ x ∈ span a bytes.length, m' x = m x) : Spelled m' a bytes :=
  (List.map_congr_left hm).trans h

/-! ### Equal operands -/

namespace Isa

/-- The bytes of the pointer that an instruction follows. -/
def AddressingMode.pointers (mode : AddressingMode) (s : State) : List UInt16 :=
  match mode with
  | indexedIndirect =>
    [Nmos6502.zeroPage (s.zz + s.regs.x), Nmos6502.zeroPage (s.zz + s.regs.x + 1)]
  | indirectIndexed => [Nmos6502.zeroPage s.zz, Nmos6502.zeroPage (s.zz + 1)]
  | _ => []

/-- Instructions at two places, or in two memories, with the same operand bytes. -/
structure SameOperand (mode : AddressingMode) (s t : State) : Prop where
  spelled : ∃ operands, operands.length + 1 = mode.length.toNat ∧
    Spelled s.memory (s.regs.pc + 1) operands ∧ Spelled t.memory (t.regs.pc + 1) operands
  x : t.regs.x = s.regs.x
  y : t.regs.y = s.regs.y
  pointers (a : UInt16) : a ∈ mode.pointers s → t.memory a = s.memory a

namespace SameOperand

variable {mode : AddressingMode} {s t : State}

theorem zz (h : SameOperand mode s t) (hm : 2 ≤ mode.length.toNat) : t.zz = s.zz := by
  obtain ⟨operands, hlen, hs, ht⟩ := h.spelled
  cases operands with
  | nil =>
    simp only [List.length_nil] at hlen
    omega
  | cons b rest => exact (spelled_cons.1 ht).1.trans (spelled_cons.1 hs).1.symm

theorem absolute (h : SameOperand mode s t) (hm : mode.length = 3) : t.absolute = s.absolute := by
  have hlow : t.memory (t.regs.pc + 1) = s.memory (s.regs.pc + 1) := h.zz (by rw [hm]; decide)
  obtain ⟨operands, hlen, hs, ht⟩ := h.spelled
  rw [hm] at hlen
  match operands, hlen with
  | [low, high], _ =>
    have hs' := (spelled_cons.1 (spelled_cons.1 hs).2).1
    have ht' := (spelled_cons.1 (spelled_cons.1 ht).2).1
    rw [add_one_add_one] at hs' ht'
    rw [State.absolute, State.absolute, State.word, State.word, hlow, hs', ht']

/-- The operand bytes, the index registers and the pointer determine the address. -/
theorem address (h : SameOperand mode s t) {m : Mode} (hm : mode.memory? = some m) :
    mode.address t = mode.address s := by
  cases mode with
  | zeroPage => exact congrArg zeroPage (h.zz (by decide))
  | zeroPageX => simp only [AddressingMode.address, h.zz (by decide), h.x]
  | zeroPageY => simp only [AddressingMode.address, h.zz (by decide), h.y]
  | absolute => exact h.absolute rfl
  | absoluteX => simp only [AddressingMode.address, h.absolute rfl, h.x]
  | absoluteY => simp only [AddressingMode.address, h.absolute rfl, h.y]
  | indexedIndirect =>
    have hlow := h.pointers (zeroPage (s.zz + s.regs.x)) (by simp [AddressingMode.pointers])
    have hhigh := h.pointers (zeroPage (s.zz + s.regs.x + 1)) (by simp [AddressingMode.pointers])
    simp only [AddressingMode.address, State.pointer, State.word, h.zz (by decide), h.x, hlow,
      hhigh]
  | indirectIndexed =>
    have hlow := h.pointers (zeroPage s.zz) (by simp [AddressingMode.pointers])
    have hhigh := h.pointers (zeroPage (s.zz + 1)) (by simp [AddressingMode.pointers])
    simp only [AddressingMode.address, State.pointer, State.word, h.zz (by decide), h.y, hlow,
      hhigh]
  | _ => cases hm

end SameOperand

end Isa

/-! ### Two operations in one -/

def Registers.setPc (pc : UInt16) (r : Registers) : Registers := { r with pc := pc }

theorem ReadOp.apply_setPc (adder : Bool) (op : ReadOp) (v : UInt8) (r : Registers) (pc : UInt16) :
    op.apply adder v (r.setPc pc) = (op.apply adder v r).setPc pc := by
  cases op <;> rfl

namespace ModifyOp

variable {op first : ModifyOp} {second : ReadOp}

/-- An operation on a byte in memory, and one with the byte that replaces it. -/
def halves? : ModifyOp → Option (ModifyOp × ReadOp)
  | slo => some (shift .asl, .ora)
  | rla => some (shift .rol, .and)
  | sre => some (shift .lsr, .eor)
  | rra => some (shift .ror, .adc)
  | dcp => some (dec, .cmp)
  | isc => some (inc, .sbc)
  | shift _ | inc | dec => none

/-- The second half works on the byte, the registers and the carry that the first has left. -/
theorem apply_halves (h : op.halves? = some (first, second)) (adder : Bool) (v : UInt8)
    (r : Registers) :
    op.apply adder v r = ((first.apply adder v r).1,
      second.apply adder (first.apply adder v r).1 (first.apply adder v r).2) := by
  cases op with
  | slo | rla | sre | rra | dcp | isc =>
    cases h
    rfl
  | _ => cases h

theorem x_apply (adder : Bool) (v : UInt8) (r : Registers) : (op.apply adder v r).2.x = r.x := by
  cases op <;> rfl

theorem y_apply (adder : Bool) (v : UInt8) (r : Registers) : (op.apply adder v r).2.y = r.y := by
  cases op <;> rfl

theorem pc_apply (adder : Bool) (v : UInt8) (r : Registers) :
    (op.apply adder v r).2.pc = r.pc := by
  cases op <;> rfl

end ModifyOp

/-! ### The opcodes -/

/-- An opcode, and two others that do the same in the same addressing mode. -/
structure CombinedOpcode where
  opcode : UInt8
  first : UInt8
  second : UInt8
  mode : AddressingMode
  /-- The second half has the same operand as the first; otherwise it has none. -/
  shared : Bool

namespace CombinedOpcode

def all : List CombinedOpcode :=
  -- SLO: ASL, ORA
  [⟨0x07, 0x06, 0x05, .zeroPage, true⟩, ⟨0x17, 0x16, 0x15, .zeroPageX, true⟩,
    ⟨0x0F, 0x0E, 0x0D, .absolute, true⟩, ⟨0x1F, 0x1E, 0x1D, .absoluteX, true⟩,
    -- RLA: ROL, AND
    ⟨0x27, 0x26, 0x25, .zeroPage, true⟩, ⟨0x37, 0x36, 0x35, .zeroPageX, true⟩,
    ⟨0x2F, 0x2E, 0x2D, .absolute, true⟩, ⟨0x3F, 0x3E, 0x3D, .absoluteX, true⟩,
    -- SRE: LSR, EOR
    ⟨0x47, 0x46, 0x45, .zeroPage, true⟩, ⟨0x57, 0x56, 0x55, .zeroPageX, true⟩,
    ⟨0x4F, 0x4E, 0x4D, .absolute, true⟩, ⟨0x5F, 0x5E, 0x5D, .absoluteX, true⟩,
    -- RRA: ROR, ADC
    ⟨0x67, 0x66, 0x65, .zeroPage, true⟩, ⟨0x77, 0x76, 0x75, .zeroPageX, true⟩,
    ⟨0x6F, 0x6E, 0x6D, .absolute, true⟩, ⟨0x7F, 0x7E, 0x7D, .absoluteX, true⟩,
    -- DCP: DEC, CMP
    ⟨0xC7, 0xC6, 0xC5, .zeroPage, true⟩, ⟨0xD7, 0xD6, 0xD5, .zeroPageX, true⟩,
    ⟨0xCF, 0xCE, 0xCD, .absolute, true⟩, ⟨0xDF, 0xDE, 0xDD, .absoluteX, true⟩,
    -- ISC: INC, SBC
    ⟨0xE7, 0xE6, 0xE5, .zeroPage, true⟩, ⟨0xF7, 0xF6, 0xF5, .zeroPageX, true⟩,
    ⟨0xEF, 0xEE, 0xED, .absolute, true⟩, ⟨0xFF, 0xFE, 0xFD, .absoluteX, true⟩,
    -- LAX: LDA, TAX
    ⟨0xA7, 0xA5, 0xAA, .zeroPage, false⟩, ⟨0xAF, 0xAD, 0xAA, .absolute, false⟩,
    ⟨0xBF, 0xB9, 0xAA, .absoluteY, false⟩, ⟨0xA3, 0xA1, 0xAA, .indexedIndirect, false⟩,
    ⟨0xB3, 0xB1, 0xAA, .indirectIndexed, false⟩,
    -- ALR: AND, LSR A
    ⟨0x4B, 0x29, 0x4A, .immediate, false⟩]

inductive Decoded (i : CombinedOpcode) : Prop
  | modify {op before : ModifyOp} {after : ReadOp} {m : Mode}
      (whole : Instruction.ofOpcode i.opcode = .modify op m)
      (first : Instruction.ofOpcode i.first = .modify before m)
      (second : Instruction.ofOpcode i.second = .read after m)
      (halves : op.halves? = some (before, after)) (memory : i.mode.memory? = some m)
      (direct : ∀ s, i.mode.pointers s = []) (shared : i.shared = true)
  | load {m : Mode} (whole : Instruction.ofOpcode i.opcode = .read .lax m)
      (first : Instruction.ofOpcode i.first = .read .lda m)
      (second : Instruction.ofOpcode i.second = .implied .tax) (memory : i.mode.memory? = some m)
  | mask (whole : Instruction.ofOpcode i.opcode = .immediate .alr)
      (first : Instruction.ofOpcode i.first = .immediate .and)
      (second : Instruction.ofOpcode i.second = .accumulator .lsr) (mode : i.mode = .immediate)

theorem decoded : ∀ i ∈ all, i.Decoded := by
  simp only [all, List.forall_mem_cons]
  and_intros
  all_goals first
    | exact .modify rfl rfl rfl rfl rfl (fun _ => rfl) rfl
    | exact .load rfl rfl rfl rfl
    | exact .mask rfl rfl rfl rfl
    | simp

/-! ### Code side by side -/

variable (i : CombinedOpcode) (operands : List UInt8)

def alone : List UInt8 := i.opcode :: operands

def pair : List UInt8 :=
  (i.first :: operands) ++ i.second :: if i.shared then operands else []

def code (pc : UInt16) : List UInt16 := span pc (i.pair operands).length

/-- One memory holds the combined instruction, the other the pair with the same operand in its
place. Elsewhere they are the same, and what the instructions work on is elsewhere. -/
structure Laid (r : Registers) (m m' : Memory) : Prop where
  length : operands.length + 1 = i.mode.length.toNat
  alone : Spelled m r.pc (i.alone operands)
  pair : Spelled m' r.pc (i.pair operands)
  same (a : UInt16) : a ∉ i.code operands r.pc → m' a = m a
  address : i.mode ≠ .immediate → i.mode.address ⟨r, m⟩ ∉ i.code operands r.pc
  pointers (a : UInt16) : a ∈ i.mode.pointers ⟨r, m⟩ → a ∉ i.code operands r.pc

namespace Laid

variable {i operands} {r : Registers} {m m' : Memory} (h : i.Laid operands r m m')

include h

theorem opcode : m r.pc = i.opcode := (spelled_cons.1 h.alone).1

theorem first : m' r.pc = i.first := (spelled_cons.1 (spelled_append.1 h.pair).1).1

theorem sameOperand : SameOperand i.mode ⟨r, m⟩ ⟨r, m'⟩ where
  spelled :=
    ⟨operands, h.length, (spelled_cons.1 h.alone).2,
      (spelled_cons.1 (spelled_append.1 h.pair).1).2⟩
  x := rfl
  y := rfl
  pointers a ha := h.same a (h.pointers a ha)

/-- After the first half the second comes, unless the code has been written to. -/
theorem second {t : State} (hpc : t.regs.pc = r.pc + i.mode.length)
    (hcode : ∀ a ∈ i.code operands r.pc, t.memory a = m' a) :
    t.memory t.regs.pc = i.second ∧
      (i.shared = true → Spelled t.memory (t.regs.pc + 1) operands) := by
  have hlen : r.pc + UInt16.ofNat (i.first :: operands).length = t.regs.pc := by
    rw [hpc, List.length_cons, h.length, UInt16.ofNat_toNat]
  have hspelled := (spelled_append.1 (h.pair.congr hcode)).2
  rw [hlen] at hspelled
  obtain ⟨hsecond, hrest⟩ := spelled_cons.1 hspelled
  refine ⟨hsecond, fun hshared => ?_⟩
  rwa [if_pos hshared] at hrest

end Laid

/-! ### One state change as two -/

/-- The changes `f₁` and `f₂` one after the other do to the second memory what `f` does to the
first, and `f₁` leaves the code of `f₂` alone. -/
structure Splits (r : Registers) (m m' : Memory) (f f₁ f₂ : State → State) : Prop where
  pc : (f₁ ⟨r, m'⟩).regs.pc = r.pc + i.mode.length
  code (a : UInt16) : a ∈ i.code operands r.pc → (f₁ ⟨r, m'⟩).memory a = m' a
  regs : (f₂ (f₁ ⟨r, m'⟩)).regs = (f ⟨r, m⟩).regs.setPc (f₂ (f₁ ⟨r, m'⟩)).regs.pc
  memory (a : UInt16) : a ∉ i.code operands r.pc →
    (f₂ (f₁ ⟨r, m'⟩)).memory a = (f ⟨r, m⟩).memory a

namespace Laid

variable {i operands} {r : Registers} {m m' : Memory} (h : i.Laid operands r m m') (adder : Bool)

include h

theorem modifying_keeps {before : ModifyOp} {mode : Mode} (hm : i.mode.memory? = some mode)
    (hdirect : ∀ s, i.mode.pointers s = []) (hshared : i.shared = true) {t : State}
    (ht : t = State.modifying adder before i.mode ⟨r, m'⟩) :
    t.regs.pc = r.pc + i.mode.length ∧ (∀ x ∈ i.code operands r.pc, t.memory x = m' x) ∧
      i.mode.address t = i.mode.address ⟨r, m⟩ := by
  subst ht
  have hclear := h.address (by rintro hi; rw [hi] at hm; cases hm)
  have haddress := h.sameOperand.address hm
  have hpc : (State.modifying adder before i.mode ⟨r, m'⟩).regs.pc = r.pc + i.mode.length :=
    ModifyOp.pc_apply adder _ _
  have hcode : ∀ x ∈ i.code operands r.pc,
      (State.modifying adder before i.mode ⟨r, m'⟩).memory x = m' x := by
    intro x hx
    refine Function.update_of_ne ?_ _ _
    rintro rfl
    rw [haddress] at hx
    exact hclear hx
  -- The first half has changed flags and one byte outside the code, so the second half has the same
  -- operand and the same index registers still.
  have hoperand : SameOperand i.mode ⟨r, m⟩ (State.modifying adder before i.mode ⟨r, m'⟩) := by
    refine ⟨⟨operands, h.length, (spelled_cons.1 h.alone).2, (h.second hpc hcode).2 hshared⟩,
      ModifyOp.x_apply adder _ _, ModifyOp.y_apply adder _ _, ?_⟩
    intro x hx
    rw [hdirect] at hx
    cases hx
  exact ⟨hpc, hcode, hoperand.address hm⟩

theorem splits_modify {op before : ModifyOp} {after : ReadOp} {mode : Mode}
    (hhalves : op.halves? = some (before, after)) (hm : i.mode.memory? = some mode)
    (hdirect : ∀ s, i.mode.pointers s = []) (hshared : i.shared = true) :
    i.Splits operands r m m' (State.modifying adder op i.mode)
      (State.modifying adder before i.mode) (State.reading adder after i.mode) := by
  obtain ⟨t, ht⟩ : ∃ t, t = State.modifying adder before i.mode ⟨r, m'⟩ := ⟨_, rfl⟩
  obtain ⟨hpc, hcode, hagain⟩ := h.modifying_keeps adder hm hdirect hshared ht
  have hbyte := h.same _ (h.address (by rintro hi; rw [hi] at hm; cases hm))
  have haddress := h.sameOperand.address hm
  obtain ⟨a, ha⟩ : ∃ a, a = i.mode.address ⟨r, m⟩ := ⟨_, rfl⟩
  rw [← ha] at hagain hbyte haddress
  obtain ⟨next, hnext⟩ : ∃ next, next = r.setPc (r.pc + i.mode.length) := ⟨_, rfl⟩
  obtain ⟨w, hw⟩ : ∃ w, w = before.apply adder (m a) next := ⟨_, rfl⟩
  -- Both memories get the byte of the first half, and the second half finds it there.
  have hfirst : t = ⟨w.2, Function.update m' a w.1⟩ := by
    rw [ht, hw, ← hbyte, ← haddress, hnext]
    rfl
  have hwhole : State.modifying adder op i.mode ⟨r, m⟩ =
      ⟨after.apply adder w.1 w.2, Function.update m a w.1⟩ := by
    have happly : op.apply adder (m a) next = (w.1, after.apply adder w.1 w.2) := by
      rw [ModifyOp.apply_halves hhalves, ← hw]
    rw [State.modifying, ← ha]
    change (⟨(op.apply adder (m a) (r.setPc _)).2, Function.update m a
      (op.apply adder (m a) (r.setPc _)).1⟩ : State) = _
    rw [← hnext, happly]
  have hsecond : State.reading adder after i.mode t =
      ⟨(after.apply adder w.1 w.2).setPc (w.2.pc + i.mode.length), Function.update m' a w.1⟩ := by
    have hfound : t.memory a = w.1 := by
      rw [hfirst]
      exact Function.update_self _ _ _
    rw [State.reading, hagain, hfound, hfirst, ← ReadOp.apply_setPc]
    rfl
  refine ⟨ht ▸ hpc, ht ▸ hcode, ?_, ?_⟩
  · rw [← ht, hsecond, hwhole]
    rfl
  · intro x hx
    rw [← ht, hsecond, hwhole]
    show Function.update m' a w.1 x = Function.update m a w.1 x
    rw [Function.update_apply, Function.update_apply, h.same x hx]

theorem splits_load {mode : Mode} (hm : i.mode.memory? = some mode) :
    i.Splits operands r m m' (State.reading adder .lax i.mode) (State.reading adder .lda i.mode)
      fun s => ⟨RegisterOp.tax.apply (s.past .implied), s.memory⟩ := by
  have hclear := h.address (by rintro hi; rw [hi] at hm; cases hm)
  have hbyte : m' (i.mode.address ⟨r, m'⟩) = m (i.mode.address ⟨r, m⟩) := by
    rw [h.sameOperand.address hm]
    exact h.same _ hclear
  refine ⟨rfl, fun _ _ => rfl, ?_, h.same⟩
  simp only [State.reading, hbyte]
  rfl

theorem splits_mask (hm : i.mode = .immediate) :
    i.Splits operands r m m'
      (fun s => ⟨ReadOp.alr.apply adder s.zz (s.past .immediate), s.memory⟩)
      (fun s => ⟨ReadOp.and.apply adder s.zz (s.past .immediate), s.memory⟩)
      fun s => ⟨Shift.lsr.applyA (s.past .accumulator), s.memory⟩ := by
  have hzz := h.sameOperand.zz (by rw [hm]; decide)
  refine ⟨by rw [hm]; rfl, fun _ _ => rfl, ?_, h.same⟩
  simp only [hzz]
  rfl

end Laid

end CombinedOpcode

/-! ### The machine -/

namespace Cpu

theorem decimalAdder_ticking {σ : Type} {patience n : Nat} {host : Host σ} {c d : Cpu} {s t : σ}
    (h : c.ticking patience host n s = .ok (d, t)) : d.decimalAdder = c.decimalAdder :=
  ticking_keeps (P := fun e => e.decimalAdder = c.decimalAdder)
    (fun _ _ _ _ he ht => (decimalAdder_tick ht).trans he) rfl h

theorem completes_performs {c : Cpu} (ram : Ram) (hb : c.atBoundary = true)
    (hn : c.nmiPending = false) (hram : ram.held = 0) {i : Instruction} {f : State → State}
    (hi : Instruction.ofOpcode (ram.memory c.regs.pc) = i) (hjam : i ≠ .jam)
    (hf : Performs c.decimalAdder i f) :
    ∃ n c' ram', Completes Schedule.quiet.host n c ram c' ram' ∧ ram'.held = 0 ∧
      c'.nmiPending = false ∧ c'.decimalAdder = c.decimalAdder ∧
      (⟨c'.regs, ram'.memory⟩ : State) = f ⟨c.regs, ram.memory⟩ := by
  obtain ⟨c', first, cycles, ram', hrun, hheld, hnmi, hcore, -⟩ :=
    completes_fetched hb hn [] ram hram (by rw [hi]; exact hjam)
  rw [hi] at hcore
  refine ⟨_, c', ram', hrun.unlogged, hheld, hnmi, decimalAdder_ticking hrun.ticking, ?_⟩
  rw [← hf ⟨c.regs, ram.memory⟩ c.address c.operand]
  exact congrArg Core.state hcore

/-- One instruction of the first machine and two of the second leave the same registers, the program
counter apart, and the same memory outside the code. -/
def OneAsTwo (code : List UInt16) (c d : Cpu) (m m' : Memory) : Prop :=
  ∃ n c' ram k e mid l d' ram', Completes Schedule.quiet.host n c (.ofMemory m) c' ram ∧
    Completes Schedule.quiet.host k d (.ofMemory m') e mid ∧
    Completes Schedule.quiet.host l e mid d' ram' ∧
    d'.regs = { c'.regs with pc := d'.regs.pc } ∧
    ∀ a, a ∉ code → ram'.memory a = ram.memory a

/-- Two machines of one kind are about to execute an instruction, with the same registers and no
interrupt to come. -/
structure Abreast (c d : Cpu) : Prop where
  boundary : c.atBoundary = true ∧ d.atBoundary = true
  quiet : c.nmiPending = false ∧ d.nmiPending = false
  regs : d.regs = c.regs
  adder : d.decimalAdder = c.decimalAdder

variable {i : CombinedOpcode} {operands : List UInt8} {c d : Cpu} {m m' : Memory}

theorem oneAsTwo_of_splits (hl : i.Laid operands c.regs m m') (hcd : Abreast c d)
    {whole first second : Instruction} (hwhole : Instruction.ofOpcode i.opcode = whole)
    (hfirst : Instruction.ofOpcode i.first = first)
    (hsecond : Instruction.ofOpcode i.second = second) (hjam : whole ≠ .jam) (hjam₁ : first ≠ .jam)
    (hjam₂ : second ≠ .jam) {f f₁ f₂ : State → State} (hf : Performs c.decimalAdder whole f)
    (hf₁ : Performs c.decimalAdder first f₁) (hf₂ : Performs c.decimalAdder second f₂)
    (h : i.Splits operands c.regs m m' f f₁ f₂) :
    OneAsTwo (i.code operands c.regs.pc) c d m m' := by
  obtain ⟨⟨hc, hd⟩, ⟨hcn, hdn⟩, hregs, hadder⟩ := hcd
  have hopcode : Instruction.ofOpcode (m c.regs.pc) = whole := by rw [hl.opcode, hwhole]
  have hopcode₁ : Instruction.ofOpcode (m' d.regs.pc) = first := by rw [hregs, hl.first, hfirst]
  obtain ⟨n, c', ram, hrun, -, -, -, hstate⟩ :=
    completes_performs (.ofMemory m) hc hcn rfl hopcode hjam hf
  obtain ⟨k, e, mid, hrun₁, hheld, hnmi, hadder₁, hstate₁⟩ :=
    completes_performs (.ofMemory m') hd hdn rfl hopcode₁ hjam₁ (hadder ▸ hf₁)
  rw [hregs] at hstate₁
  have hmid : (⟨e.regs, mid.memory⟩ : State) = f₁ ⟨c.regs, m'⟩ := hstate₁
  -- The second half is fetched from where the first has left its code untouched.
  have hpc : e.regs.pc = c.regs.pc + i.mode.length :=
    (congrArg (fun s : State => s.regs.pc) hmid).trans h.pc
  have hcode : ∀ a ∈ i.code operands c.regs.pc, mid.memory a = m' a := fun a ha =>
    (congrFun (congrArg State.memory hmid) a).trans (h.code a ha)
  have hbyte : mid.memory e.regs.pc = i.second :=
    (hl.second (t := ⟨e.regs, mid.memory⟩) hpc hcode).1
  obtain ⟨l, d', ram', hrun₂, -, -, -, hstate₂⟩ :=
    completes_performs mid hrun₁.boundary hnmi hheld (by rw [hbyte, hsecond]) hjam₂
      (show Performs e.decimalAdder second f₂ by rw [hadder₁, hadder]; exact hf₂)
  rw [hmid] at hstate₂
  have hlast : d'.regs = (f₂ (f₁ ⟨c.regs, m'⟩)).regs := congrArg State.regs hstate₂
  have halone : c'.regs = (f ⟨c.regs, m⟩).regs := congrArg State.regs hstate
  refine ⟨n, c', ram, k, e, mid, l, d', ram', hrun, hrun₁, hrun₂, ?_, fun a ha => ?_⟩
  · rw [hlast, halone]
    exact h.regs
  · exact (congrFun (congrArg State.memory hstate₂) a).trans
      ((h.memory a ha).trans (congrFun (congrArg State.memory hstate) a).symm)

/-- SLO, RLA, SRE, RRA, DCP and ISC do what their two halves do one after the other, in each mode
that both halves have; so do LAX with LDA and TAX, and ALR with AND and LSR A. -/
theorem combined_as_pair (hi : i ∈ CombinedOpcode.all) (hl : i.Laid operands c.regs m m')
    (hcd : Abreast c d) : OneAsTwo (i.code operands c.regs.pc) c d m m' := by
  cases CombinedOpcode.decoded i hi with
  | modify whole first second halves memory direct shared =>
    exact oneAsTwo_of_splits hl hcd whole first second (by simp) (by simp) (by simp)
      (performs_modify _ memory) (performs_modify _ memory) (performs_read _ memory)
      (hl.splits_modify c.decimalAdder halves memory direct shared)
  | load whole first second memory =>
    exact oneAsTwo_of_splits hl hcd whole first second (by simp) (by simp) (by simp)
      (performs_read _ memory) (performs_read _ memory) (performs_implied _)
      (hl.splits_load c.decimalAdder memory)
  | mask whole first second mode =>
    exact oneAsTwo_of_splits hl hcd whole first second (by simp) (by simp) (by simp)
      (performs_immediate _) (performs_immediate _) (performs_accumulator _)
      (hl.splits_mask c.decimalAdder mode)

-- RRA $0310,X at address zero.
def rraMemory : Memory := fun a => if a = 0 then 0x7F else if a = 1 then 0x10 else
  if a = 2 then 0x03 else 0x99

-- ROR $0310,X and ADC $0310,X.
def rorAdcMemory : Memory := fun a => if a = 0 then 0x7E else if a = 1 then 0x10 else
  if a = 2 then 0x03 else if a = 3 then 0x7D else if a = 4 then 0x10 else
  if a = 5 then 0x03 else 0x99

theorem rra_laid : CombinedOpcode.Laid ⟨0x7F, 0x7E, 0x7D, .absoluteX, true⟩ [0x10, 0x03]
    (Cpu.powerOn .plain).regs rraMemory rorAdcMemory where
  length := rfl
  alone := by decide
  pair := by decide
  same a ha := by
    have hcode : a ∉ [0, 1, 2, 3, 4, 5] := ha
    simp only [List.mem_cons, List.not_mem_nil, or_false, not_or] at hcode
    simp only [rraMemory, rorAdcMemory, hcode, if_false]
  address _ := by decide
  pointers a ha := by cases ha

theorem combined_as_pair_rra :
    OneAsTwo (span 0 6) (Cpu.powerOn .plain) (Cpu.powerOn .plain) rraMemory rorAdcMemory :=
  combined_as_pair (i := ⟨0x7F, 0x7E, 0x7D, .absoluteX, true⟩) (by simp [CombinedOpcode.all])
    rra_laid ⟨⟨rfl, rfl⟩, ⟨rfl, rfl⟩, rfl, rfl⟩

end Cpu

end Nmos6502
