import Nmos6502.Instruction

/-! # The opcode matrix

Every byte is an opcode. The rows of the matrix hold sixteen opcodes each; the ones without an
official name are those that the chip's incomplete decoding produces. -/

namespace Nmos6502

set_option maxRecDepth 4096 in
/-- The instructions in the order of their opcodes. -/
def opcodeMatrix : Vector Instruction 256 :=
  #v[
    -- 00 to 0F
    .brk, .read .ora .izx, .jam, .modify .slo .izx,
    .read .nop .zp, .read .ora .zp, .modify (.shift .asl) .zp, .modify .slo .zp,
    .php, .immediate .ora, .accumulator .asl, .immediate .anc,
    .read .nop .abs, .read .ora .abs, .modify (.shift .asl) .abs, .modify .slo .abs,
    -- 10 to 1F
    .branch .pl, .read .ora .izy, .jam, .modify .slo .izy,
    .read .nop .zpx, .read .ora .zpx, .modify (.shift .asl) .zpx, .modify .slo .zpx,
    .implied .clc, .read .ora .aby, .implied .nop, .modify .slo .aby,
    .read .nop .abx, .read .ora .abx, .modify (.shift .asl) .abx, .modify .slo .abx,
    -- 20 to 2F
    .jsr, .read .and .izx, .jam, .modify .rla .izx,
    .read .bit .zp, .read .and .zp, .modify (.shift .rol) .zp, .modify .rla .zp,
    .plp, .immediate .and, .accumulator .rol, .immediate .anc,
    .read .bit .abs, .read .and .abs, .modify (.shift .rol) .abs, .modify .rla .abs,
    -- 30 to 3F
    .branch .mi, .read .and .izy, .jam, .modify .rla .izy,
    .read .nop .zpx, .read .and .zpx, .modify (.shift .rol) .zpx, .modify .rla .zpx,
    .implied .sec, .read .and .aby, .implied .nop, .modify .rla .aby,
    .read .nop .abx, .read .and .abx, .modify (.shift .rol) .abx, .modify .rla .abx,
    -- 40 to 4F
    .rti, .read .eor .izx, .jam, .modify .sre .izx,
    .read .nop .zp, .read .eor .zp, .modify (.shift .lsr) .zp, .modify .sre .zp,
    .pha, .immediate .eor, .accumulator .lsr, .immediate .alr,
    .jmp, .read .eor .abs, .modify (.shift .lsr) .abs, .modify .sre .abs,
    -- 50 to 5F
    .branch .vc, .read .eor .izy, .jam, .modify .sre .izy,
    .read .nop .zpx, .read .eor .zpx, .modify (.shift .lsr) .zpx, .modify .sre .zpx,
    .implied .cli, .read .eor .aby, .implied .nop, .modify .sre .aby,
    .read .nop .abx, .read .eor .abx, .modify (.shift .lsr) .abx, .modify .sre .abx,
    -- 60 to 6F
    .rts, .read .adc .izx, .jam, .modify .rra .izx,
    .read .nop .zp, .read .adc .zp, .modify (.shift .ror) .zp, .modify .rra .zp,
    .pla, .immediate .adc, .accumulator .ror, .immediate .arr,
    .jmpIndirect, .read .adc .abs, .modify (.shift .ror) .abs, .modify .rra .abs,
    -- 70 to 7F
    .branch .vs, .read .adc .izy, .jam, .modify .rra .izy,
    .read .nop .zpx, .read .adc .zpx, .modify (.shift .ror) .zpx, .modify .rra .zpx,
    .implied .sei, .read .adc .aby, .implied .nop, .modify .rra .aby,
    .read .nop .abx, .read .adc .abx, .modify (.shift .ror) .abx, .modify .rra .abx,
    -- 80 to 8F
    .immediate .nop, .store .sta .izx, .immediate .nop, .store .sax .izx,
    .store .sty .zp, .store .sta .zp, .store .stx .zp, .store .sax .zp,
    .implied .dey, .immediate .nop, .implied .txa, .immediate .ane,
    .store .sty .abs, .store .sta .abs, .store .stx .abs, .store .sax .abs,
    -- 90 to 9F
    .branch .cc, .store .sta .izy, .jam, .store .sha .izy,
    .store .sty .zpx, .store .sta .zpx, .store .stx .zpy, .store .sax .zpy,
    .implied .tya, .store .sta .aby, .implied .txs, .store .tas .aby,
    .store .shy .abx, .store .sta .abx, .store .shx .aby, .store .sha .aby,
    -- A0 to AF
    .immediate .ldy, .read .lda .izx, .immediate .ldx, .read .lax .izx,
    .read .ldy .zp, .read .lda .zp, .read .ldx .zp, .read .lax .zp,
    .implied .tay, .immediate .lda, .implied .tax, .immediate .lxa,
    .read .ldy .abs, .read .lda .abs, .read .ldx .abs, .read .lax .abs,
    -- B0 to BF
    .branch .cs, .read .lda .izy, .jam, .read .lax .izy,
    .read .ldy .zpx, .read .lda .zpx, .read .ldx .zpy, .read .lax .zpy,
    .implied .clv, .read .lda .aby, .implied .tsx, .read .las .aby,
    .read .ldy .abx, .read .lda .abx, .read .ldx .aby, .read .lax .aby,
    -- C0 to CF
    .immediate .cpy, .read .cmp .izx, .immediate .nop, .modify .dcp .izx,
    .read .cpy .zp, .read .cmp .zp, .modify .dec .zp, .modify .dcp .zp,
    .implied .iny, .immediate .cmp, .implied .dex, .immediate .sbx,
    .read .cpy .abs, .read .cmp .abs, .modify .dec .abs, .modify .dcp .abs,
    -- D0 to DF
    .branch .ne, .read .cmp .izy, .jam, .modify .dcp .izy,
    .read .nop .zpx, .read .cmp .zpx, .modify .dec .zpx, .modify .dcp .zpx,
    .implied .cld, .read .cmp .aby, .implied .nop, .modify .dcp .aby,
    .read .nop .abx, .read .cmp .abx, .modify .dec .abx, .modify .dcp .abx,
    -- E0 to EF
    .immediate .cpx, .read .sbc .izx, .immediate .nop, .modify .isc .izx,
    .read .cpx .zp, .read .sbc .zp, .modify .inc .zp, .modify .isc .zp,
    .implied .inx, .immediate .sbc, .implied .nop, .immediate .sbc,
    .read .cpx .abs, .read .sbc .abs, .modify .inc .abs, .modify .isc .abs,
    -- F0 to FF
    .branch .eq, .read .sbc .izy, .jam, .modify .isc .izy,
    .read .nop .zpx, .read .sbc .zpx, .modify .inc .zpx, .modify .isc .zpx,
    .implied .sed, .read .sbc .aby, .implied .nop, .modify .isc .aby,
    .read .nop .abx, .read .sbc .abx, .modify .inc .abx, .modify .isc .abx
  ]

def Instruction.ofOpcode (opcode : UInt8) : Instruction :=
  opcodeMatrix.get ⟨opcode.toNat, opcode.toNat_lt⟩

end Nmos6502
