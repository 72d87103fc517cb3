import Nmos6502.Cpu.Access

/-! # The flags without storage

The break flag and the unused bit of P have no storage in the chip. No operation tells registers
apart that differ in these two only, and neither does a byte that is pushed. -/

namespace Nmos6502

/-- The registers with other bits in place of the break flag and the unused bit. -/
def Registers.setHidden (brk unused : Bool) (r : Registers) : Registers :=
  { r with p := { r.p with brk := brk, unused := unused } }

/-- The registers as programs and hosts can see them. -/
def Registers.visible (r : Registers) : Registers := r.setHidden false true

namespace Registers

variable (b u : Bool) (r : Registers)

theorem eq_setHidden {r q : Registers} (h : r.visible = q.visible) :
    q = r.setHidden q.p.brk q.p.unused := by
  obtain ⟨a, x, y, s, pc, n, v, u, b, d, i, z, c⟩ := r
  obtain ⟨a', x', y', s', pc', n', v', u', b', d', i', z', c'⟩ := q
  simp only [visible, setHidden, mk.injEq, Status.mk.injEq, true_and] at h ⊢
  simp only [h, and_self]

/-! ### Operations -/

theorem visible_registerOp (op : RegisterOp) :
    (op.apply (r.setHidden b u)).visible = (op.apply r).visible := by
  cases op <;> rfl

theorem visible_shift (op : Shift) :
    (op.applyA (r.setHidden b u)).visible = (op.applyA r).visible := rfl

theorem visible_add (adder : Bool) (a v : UInt8) :
    (r.setResult (Arithmetic.add adder a v (r.setHidden b u).p)).visible =
      (r.setResult (Arithmetic.add adder a v r.p)).visible := by
  have hd : Arithmetic.isDecimal adder (r.setHidden b u).p = Arithmetic.isDecimal adder r.p := rfl
  simp only [Arithmetic.add, hd]
  split <;> rfl

theorem visible_sub (adder : Bool) (a v : UInt8) :
    (r.setResult (Arithmetic.sub adder a v (r.setHidden b u).p)).visible =
      (r.setResult (Arithmetic.sub adder a v r.p)).visible := by
  have hd : Arithmetic.isDecimal adder (r.setHidden b u).p = Arithmetic.isDecimal adder r.p := rfl
  simp only [Arithmetic.sub, hd]
  split <;> rfl

theorem visible_maskRotate (adder : Bool) (a v : UInt8) :
    (r.setResult (Arithmetic.maskRotate adder a v (r.setHidden b u).p)).visible =
      (r.setResult (Arithmetic.maskRotate adder a v r.p)).visible := by
  have hd : Arithmetic.isDecimal adder (r.setHidden b u).p = Arithmetic.isDecimal adder r.p := rfl
  simp only [Arithmetic.maskRotate, hd]
  split <;> rfl

theorem visible_readOp (adder : Bool) (op : ReadOp) (v : UInt8) :
    (op.apply adder v (r.setHidden b u)).visible = (op.apply adder v r).visible := by
  cases op with
  | adc => exact r.visible_add b u adder r.a v
  | sbc => exact r.visible_sub b u adder r.a v
  | arr => exact r.visible_maskRotate b u adder r.a v
  | _ => rfl

theorem modifyOp_setHidden (adder : Bool) (op : ModifyOp) (v : UInt8) :
    (op.apply adder v (r.setHidden b u)).1 = (op.apply adder v r).1 ∧
      (op.apply adder v (r.setHidden b u)).2.visible = (op.apply adder v r).2.visible := by
  cases op with
  | rra =>
    refine ⟨rfl, ?_⟩
    exact ({ r with p := (Shift.ror.apply v r.p).2 } : Registers).visible_add b true adder r.a
      (Shift.ror.apply v r.p).1
  | isc => exact ⟨rfl, r.visible_sub b u adder r.a (v + 1)⟩
  | _ => exact ⟨rfl, rfl⟩

theorem storeOp_setHidden (op : StoreOp) :
    op.source (r.setHidden b u) = op.source r ∧
      op.apply (r.setHidden b u) = (op.apply r).setHidden b u := by
  cases op <;> exact ⟨rfl, rfl⟩

theorem condition_setHidden (condition : Condition) :
    condition.holds (r.setHidden b u).p = condition.holds r.p := by
  cases condition <;> rfl

end Registers

end Nmos6502
