/-
Elfconv/Semantics/Loads.lean

Loads of general registers, and what the architecture makes of them.

The return type of the semantics function says how far a word is extended; the class of the
destination, in the decoder, says only how the register is noted as written.  The two are chosen in
different places and do not always agree.
-/
import Elfconv.Semantics.IndexedArm
import Elfconv.Semantics.ShiftRegs

namespace Elfconv.AArch64

open ByteMemory

/-! ### Semantics functions -/

/-- An argument as an address. -/
def Arg.addr : Arg → BitVec 64
  | .value v => v.bits.setWidth 64
  | .word bits => bits

/-- The functions that read an element of memory at a base and an offset. -/
def callLoadFromOffset (n : ℕ) (erc : ERC) (f : BitVec (n * 8) → BitVec (ERCSize erc)) : Sema :=
  fun args mem =>
    match args with
    | [base, offset] =>
        some ((loadWords n mem (base.addr + offset.addr) 1).map fun x => ⟨erc, f x⟩, mem)
    | _ => none

/-- The loads whose result has 32 bits. -/
def LoadMem_32 (n : ℕ) : Sema := callLoad n 1 .RegW fun x => x.setWidth _

/-- The loads whose result has 64 bits. -/
def LoadMem_64 (n : ℕ) : Sema := callLoad n 1 .RegX fun x => x.setWidth _

/-- The loads at an offset whose result has 32 bits. -/
def LoadMemFromOffset_32 (n : ℕ) : Sema := callLoadFromOffset n .RegW fun x => x.setWidth _

/-- The loads at an offset whose result has 64 bits. -/
def LoadMemFromOffset_64 (n : ℕ) : Sema := callLoadFromOffset n .RegX fun x => x.setWidth _

/-- `InterType` has `w` bits; the result is an `uint64_t` in any case. -/
def LoadSExt (n w : ℕ) : Sema := callLoad n 1 .RegX fun x => (x.signExtend w).signExtend _

/-- The signed loads at an offset, to a word. -/
def LoadSExtFromOffset32 (n : ℕ) : Sema := callLoadFromOffset n .RegW fun x => x.signExtend _

/-- The signed loads at an offset, to a whole register. -/
def LoadSExtFromOffset64 (n : ℕ) : Sema := callLoadFromOffset n .RegX fun x => x.signExtend _

/-- Two words, each zero-extended. -/
def LoadPair32 : Sema := callLoad 4 2 .RegX fun x => x.setWidth _

/-- Two double words. -/
def LoadPair64 : Sema := callLoad 8 2 .RegX fun x => x.setWidth _

/-- Two words, each sign-extended. -/
def LoadSignedPair64 : Sema := callLoad 4 2 .RegX fun x => x.signExtend _

/-! ### Instructions -/

/-- The fields of a load with an unsigned offset. -/
structure Imm12Fields where
  imm12 : BitVec 12
  Rn : BitVec 5
  Rt : BitVec 5

/-- The fields of a load with a register offset. -/
structure RegLoadFields where
  option : BitVec 3
  S : BitVec 1
  Rm : BitVec 5
  Rn : BitVec 5
  Rt : BitVec 5

/-- The loads of one general register. -/
inductive LoadX
  | LDR_32 | LDR_64 | LDRB_32 | LDRH_32 | LDRSB_32 | LDRSB_64 | LDRSH_32 | LDRSH_64 | LDRSW_64
  deriving DecidableEq

/-- The same with a register offset; the offset of `BL` is not extended. -/
inductive LoadRegOff
  | LDR_32 | LDR_64 | LDRB_32B | LDRB_32BL | LDRH_32 | LDRSB_32B | LDRSB_32BL | LDRSB_64B
  | LDRSB_64BL | LDRSH_32 | LDRSH_64 | LDRSW_64

/-- The loads of two general registers. -/
inductive LoadPairX
  | LDP_32 | LDP_64 | LDPSW_64

/-- The loads of general registers.  `LDUR_32` and so on are those of `UNSCALED`. -/
inductive GeneralLoad
  | POS (i : LoadX) (d : Imm12Fields)
  | UNSCALED (i : LoadX) (d : Imm9Fields)
  | REGOFF (i : LoadRegOff) (d : RegLoadFields)
  | IMM (i : LoadX) (m : Index) (d : Imm9Fields)
  | LDP_OFF (i : LoadPairX) (d : PairFields)
  | LDP (i : LoadPairX) (m : Index) (d : PairFields)

/-- The instruction among the pre- and post-indexed ones. -/
def LoadX.one : LoadX → LoadOne
  | LDR_32 => .LDR_32
  | LDR_64 => .LDR_64
  | LDRB_32 => .LDRB_32
  | LDRH_32 => .LDRH_32
  | LDRSB_32 => .LDRSB_32
  | LDRSB_64 => .LDRSB_64
  | LDRSH_32 => .LDRSH_32
  | LDRSH_64 => .LDRSH_64
  | LDRSW_64 => .LDRSW_64

/-- The instruction among the pre- and post-indexed ones. -/
def LoadPairX.pair : LoadPairX → LoadPair
  | LDP_32 => .LDP_32
  | LDP_64 => .LDP_64
  | LDPSW_64 => .LDPSW_64

/-! ### Decoders -/

namespace LoadX

/-- The class under which the decoder adds the register. -/
def rclass : LoadX → ERC
  | LDR_32 | LDRB_32 | LDRH_32 | LDRSB_32 | LDRSH_32 => .RegW
  | LDR_64 | LDRSB_64 | LDRSH_64 | LDRSW_64 => .RegX

/-- The scale of an unsigned offset. -/
def scale : LoadX → ℕ
  | LDRB_32 | LDRSB_32 | LDRSB_64 => 0
  | LDRH_32 | LDRSH_32 | LDRSH_64 => 1
  | LDR_32 | LDRSW_64 => 2
  | LDR_64 => 3

/-- The functions without a write-back. -/
def isel : LoadX → Sema
  | LDR_32 => LoadMem_32 4
  | LDR_64 => LoadMem_64 8
  | LDRB_32 => LoadMem_32 1
  | LDRH_32 => LoadMem_32 2
  | LDRSB_32 => LoadSExt 1 32
  | LDRSB_64 => LoadSExt 1 64
  | LDRSH_32 => LoadSExt 2 32
  | LDRSH_64 => LoadSExt 2 64
  | LDRSW_64 => LoadSExt 4 64

end LoadX

namespace LoadPairX

/-- The class under which the decoder adds the registers. -/
def rclass : LoadPairX → ERC
  | LDP_32 => .RegW
  | LDP_64 | LDPSW_64 => .RegX

/-- The scale of the displacement. -/
def scale : LoadPairX → ℕ
  | LDP_32 | LDPSW_64 => 2
  | LDP_64 => 3

/-- The functions without a write-back. -/
def isel : LoadPairX → Sema
  | LDP_32 => LoadPair32
  | LDP_64 => LoadPair64
  | LDPSW_64 => LoadSignedPair64

end LoadPairX

/-- The shift under the name that the operands have for it. -/
def OperandShift.shift : OperandShift → Shift
  | kShiftLeftWithZeroes => .kShiftLeftWithZeroes
  | kShiftUnsignedRight => .kShiftUnsignedRight
  | kShiftSignedRight => .kShiftSignedRight
  | kShiftRightAround => .kShiftRightAround

/-- The operand of an instruction. -/
def RegOperand.operand : RegOperand → SemaOperand
  | .reg rclass reg_num => readReg rclass reg_num
  | .shiftReg op =>
      .shiftReg op.rclass op.reg_num
        ⟨op.shift_op.map OperandShift.shift, op.shift_size.toNat, op.extend_op, op.extract_size⟩

namespace LoadRegOff

/-- The field of the size. -/
def size : LoadRegOff → BitVec 2
  | LDRB_32B | LDRB_32BL | LDRSB_32B | LDRSB_32BL | LDRSB_64B | LDRSB_64BL => 0#2
  | LDRH_32 | LDRSH_32 | LDRSH_64 => 1#2
  | LDR_32 | LDRSW_64 => 2#2
  | LDR_64 => 3#2

/-- The field of the operation: with signs to a word or to a whole register, or without. -/
def opc : LoadRegOff → BitVec 2
  | LDR_32 | LDR_64 | LDRB_32B | LDRB_32BL | LDRH_32 => 1#2
  | LDRSB_64B | LDRSB_64BL | LDRSH_64 | LDRSW_64 => 2#2
  | LDRSB_32B | LDRSB_32BL | LDRSH_32 => 3#2

/-- All fields that the offset depends on. -/
def fields (i : LoadRegOff) (d : RegLoadFields) : RegOffFields :=
  ⟨i.size, i.opc, d.option, d.S, d.Rm⟩

/-- The decoder that adds the offset. -/
def decoder (i : LoadRegOff) (d : RegLoadFields) : ShiftRegDecoder :=
  match i with
  | LDR_32 | LDR_64 => .LDR_n_LDST_REGOFF (i.fields d)
  | LDRB_32BL | LDRSB_32BL | LDRSB_64BL => .LDRB_32BL_LDST_REGOFF (i.fields d)
  | LDRB_32B => .LDRn_m_LDST_REGOFF .LDRB_32B (i.fields d)
  | LDRSB_32B => .LDRn_m_LDST_REGOFF .LDRSB_32B (i.fields d)
  | LDRSB_64B => .LDRn_m_LDST_REGOFF .LDRSB_64B (i.fields d)
  | LDRH_32 => .LDRn_m_LDST_REGOFF .LDRH_32 (i.fields d)
  | LDRSH_32 => .LDRn_m_LDST_REGOFF .LDRSH_32 (i.fields d)
  | LDRSH_64 => .LDRn_m_LDST_REGOFF .LDRSH_64 (i.fields d)
  | LDRSW_64 => .LDRn_m_LDST_REGOFF .LDRSW_64 (i.fields d)

/-- `LDRSB_64BL` is handed to the decoder of `LDRB_32BL`. -/
def rclass : LoadRegOff → ERC
  | LDR_32 | LDRB_32B | LDRB_32BL | LDRH_32 | LDRSB_32B | LDRSB_32BL | LDRSB_64BL | LDRSH_32 =>
      .RegW
  | LDR_64 | LDRSB_64B | LDRSH_64 | LDRSW_64 => .RegX

/-- The operand of the base: an address, or a register for one. -/
def base (Rn : BitVec 5) : LoadRegOff → SemaOperand
  | LDR_32 | LDR_64 => .address Rn 0#64
  | _ => .reg .kActionRead .RegX .kUseAsAddress Rn

/-- The functions that take a base and an offset. -/
def isel : LoadRegOff → Sema
  | LDR_32 => LoadMemFromOffset_32 4
  | LDR_64 => LoadMemFromOffset_64 8
  | LDRB_32B | LDRB_32BL => LoadMemFromOffset_32 1
  | LDRH_32 => LoadMemFromOffset_32 2
  | LDRSB_32B | LDRSB_32BL => LoadSExtFromOffset32 1
  | LDRSB_64B | LDRSB_64BL => LoadSExtFromOffset64 1
  | LDRSH_32 => LoadSExtFromOffset32 2
  | LDRSH_64 => LoadSExtFromOffset64 2
  | LDRSW_64 => LoadSExtFromOffset64 4

end LoadRegOff

namespace GeneralLoad

/-- The instruction; nothing for what is rejected.  There is no decoder for `LDURSB_64`. -/
def TryDecode (x86_64 : Bool) : GeneralLoad → Option SemaInst
  | POS i d =>
      some ⟨[writeReg i.rclass d.Rt, .address d.Rn (d.imm12.setWidth 64 <<< i.scale)], none⟩
  | UNSCALED i d =>
      if i = .LDRSB_64 then none
      else some ⟨[writeReg i.rclass d.Rt, .address d.Rn (d.imm9.signExtend 64)], none⟩
  | REGOFF i d =>
      (i.decoder d).TryDecode.map fun offset =>
        ⟨[writeReg i.rclass d.Rt, i.base d.Rn, offset.operand], none⟩
  | IMM i m d => (Indexed.LDR i.one m d).TryDecode x86_64
  | LDP_OFF i d =>
      if d.Rt = d.Rt2 then none
      else some ⟨[writeReg i.rclass d.Rt, writeReg i.rclass d.Rt2,
        .address d.Rn (d.imm7.signExtend 64 <<< i.scale)], none⟩
  | LDP i m d => (Indexed.LDP i.pair m d).TryDecode x86_64

/-- The `DEF_ISEL` of the name. -/
def isel : GeneralLoad → Sema
  | POS i _ | UNSCALED i _ => i.isel
  | REGOFF i _ => i.isel
  | IMM i _ _ => i.one.isel
  | LDP_OFF i _ => i.isel
  | LDP i _ _ => i.pair.isel

/-- The registers that are loaded. -/
def Rts : GeneralLoad → List (BitVec 5)
  | POS _ d => [d.Rt]
  | UNSCALED _ d | IMM _ _ d => [d.Rt]
  | REGOFF _ d => [d.Rt]
  | LDP_OFF _ d | LDP _ _ d => [d.Rt, d.Rt2]

end GeneralLoad

/-! ### The architecture -/

namespace Arm

/-- What is loaded with a register offset. -/
def loadRegOff : LoadRegOff → LoadX
  | .LDR_32 => .LDR_32
  | .LDR_64 => .LDR_64
  | .LDRB_32B | .LDRB_32BL => .LDRB_32
  | .LDRH_32 => .LDRH_32
  | .LDRSB_32B | .LDRSB_32BL => .LDRSB_32
  | .LDRSB_64B | .LDRSB_64BL => .LDRSB_64
  | .LDRSH_32 => .LDRSH_32
  | .LDRSH_64 => .LDRSH_64
  | .LDRSW_64 => .LDRSW_64

/-- A load of one register moves the same with every offset. -/
def transferX (Rt : BitVec 5) (i : LoadX) : Transfer := transferLDR ⟨0#9, 0#5, Rt⟩ i.one

/-- What the architecture loads. -/
def transferGeneral : GeneralLoad → Transfer
  | .POS i d => transferX d.Rt i
  | .UNSCALED i d | .IMM i _ d => transferX d.Rt i
  | .REGOFF i d => transferX d.Rt (loadRegOff i)
  | .LDP_OFF i d | .LDP i _ d => transferLDP d i.pair

/-- The program after a load; one with a write-back is a pre- or post-indexed instruction. -/
def execLoad (g : Guest) : GeneralLoad → Guest
  | .POS i d =>
      (transferX d.Rt i).exec
        (base g.regs d.Rn + d.imm12.setWidth 64 * BitVec.ofNat 64 (transferX d.Rt i).bytes) g
  | .UNSCALED i d => (transferX d.Rt i).exec (base g.regs d.Rn + d.imm9.signExtend 64) g
  | .REGOFF i d =>
      (transferX d.Rt (loadRegOff i)).exec
        (base g.regs d.Rn + (operand g.regs (i.decoder d)).2.setWidth 64) g
  | .IMM i m d => execIndexed (.LDR i.one m d) g
  | .LDP_OFF i d =>
      (transferLDP d i.pair).exec
        (base g.regs d.Rn + d.imm7.signExtend 64 * BitVec.ofNat 64 (transferLDP d i.pair).bytes) g
  | .LDP i m d => execIndexed (.LDP i.pair m d) g

/-- The encodings that are allocated, and whose result is not left open. -/
def Allocated : GeneralLoad → Prop
  | .POS _ _ | .UNSCALED _ _ => True
  | .REGOFF _ d => d.option.getLsbD 1 = true
  | .IMM _ _ d => d.Rn = 31#5 ∨ d.Rn ∉ [d.Rt]
  | .LDP_OFF _ d => d.Rt ≠ d.Rt2
  | .LDP _ _ d => d.Rt ≠ d.Rt2 ∧ (d.Rn = 31#5 ∨ d.Rn ∉ [d.Rt, d.Rt2])

end Arm

end Elfconv.AArch64
