/-
Elfconv/Decoder/Decode.lean

The second step of the decoder, for the data processing with an immediate and the branches: from the
fields of an encoding to the operands and the program counters, and the semantics functions.

The outer option of a decoder is nothing where C++ does not define what `DecodeBitMasks` computes;
the inner one is nothing where the decoder rejects the instruction.
-/
import Elfconv.Decoder.DecodedInst

namespace Elfconv.AArch64

open CInt

/-! ### Adding operands -/

namespace DecodedInst

variable (inst : DecodedInst)

/-- The instruction with one more operand. -/
def add (op : InstOperand) : DecodedInst := { inst with operands := inst.operands ++ [op] }

/-- A register under its class and usage, read, written or both. -/
def AddRegOperand (action : Action) (rclass : ERC) (rtype : RegUsage) (reg_num : RegNum) :
    DecodedInst :=
  inst.add (.sema (.reg action rclass rtype reg_num))

/-- An immediate. -/
def AddImmOperand (val : BitVec 64) : DecodedInst := inst.add (.sema (.imm val))

/-- An address `disp` bytes from the instruction. -/
def AddPCDisp (disp : BitVec 64) : DecodedInst := inst.add (.pcDisp disp)

/-- The flags, as one register. -/
def AddEcvNZCVOperand (action : Action) : DecodedInst := inst.add (.named action .ECV_NZCV)

/-- A call goes on after the instruction: the return address is an operand. -/
def DecodeFallThroughPC : DecodedInst :=
  { inst.AddPCDisp 4#64 with branch_not_taken_pc := inst.next_pc }

/-- The other instruction set that an odd target stands for is not followed. -/
def DecodeCondBranchNotUsingPCArg (disp : BitVec 64) : DecodedInst :=
  let branch_taken_pc := inst.pc + disp
  { inst.add (.named .kActionWrite .BRANCH_TAKEN) with
    branch_taken_pc := if branch_taken_pc % 2#64 ≠ 0#64 then branch_taken_pc - 1#64
      else branch_taken_pc
    branch_not_taken_pc := inst.next_pc }

end DecodedInst

/-- `kCondName` and `kNegCondName`; `none` is `AL`. -/
def CondName (cond : BitVec 8) : Option Cond :=
  let names : List (Option Cond) :=
    if cond &&& 1#8 ≠ 0#8 then
      [some .NE, some .CC, some .PL, some .VC, some .LS, some .LT, some .LE, none]
    else [some .EQ, some .CS, some .MI, some .VS, some .HI, some .GE, some .GT, none]
  names.getD (cond >>> 1 &&& 0x7#8).toNat none

/-- `ShiftImmediate`: the shift of the immediate of an addition. -/
def ShiftImmediate (value : BitVec 64) (shift : BitVec 8) : Option (BitVec 64) :=
  match shift.toNat with
  | 0 => some value
  | 1 => some (value <<< 12)
  | _ => none

/-- The operands of the bit-field moves and the logical instructions. -/
def MaskOperand.operand (f : Form) (Rd Rn : RegNum) : MaskOperand → InstOperand
  | .reg r => .sema (.reg .kActionRead f.rclass .kUseAsValue (r.num Rd Rn))
  | .shiftReg r shift_op shift_size =>
      .shiftReg (.shiftReg ⟨f.rclass, r.num Rd Rn, some shift_op, shift_size, none, 0,
        ERCSize f.rclass⟩)
  | .imm val => .sema (.imm val)

/-! ### Decoders -/

namespace InstData

/-- There is nothing to decode. -/
def TryDecodeNOP_HI_SYSTEM (_ : InstData) (inst : DecodedInst) : Option (Option DecodedInst) :=
  some (some inst)

section

variable (data : InstData) (inst : DecodedInst)

/-- `RET {<Xn>}` -/
def TryDecodeRET_64R_BRANCH_REG : Option (Option DecodedInst) :=
  some (some ((inst.add (.named .kActionWrite .PC)).AddRegOperand .kActionRead .RegX .kUseAsValue
    data.Rn))

/-- `BLR <Xn>` -/
def TryDecodeBLR_64_BRANCH_REG : Option (Option DecodedInst) :=
  some (some ((inst.AddRegOperand .kActionWrite .RegX .kUseAsValue 30#5).AddRegOperand
    .kActionRead .RegX .kUseAsValue data.Rn).DecodeFallThroughPC)

/-- `BR <Xn>` -/
def TryDecodeBR_64_BRANCH_REG : Option (Option DecodedInst) :=
  some (some (inst.AddRegOperand .kActionRead .RegX .kUseAsAddress data.Rn))

/-- `B <label>` -/
def TryDecodeB_ONLY_BRANCH_IMM : Option (Option DecodedInst) :=
  some (some { inst with branch_taken_pc := inst.pc + data.imm26.simm 26 <<< 2 })

/-- `BL <label>` -/
def TryDecodeBL_ONLY_BRANCH_IMM : Option (Option DecodedInst) :=
  let inst := { inst with
    branch_taken_pc := inst.pc + data.imm26.simm 26 <<< 2
    branch_not_taken_pc := inst.next_pc }
  some (some ((inst.AddRegOperand .kActionWrite .RegX .kUseAsValue 30#5).AddPCDisp
    (data.imm26.simm 26 <<< 2)).DecodeFallThroughPC)

/-- `B.<cond> <label>` -/
def TryDecodeB_ONLY_CONDBRANCH : Option (Option DecodedInst) :=
  let inst := { inst with suffix := .cond (CondName data.cond) }
  some (some ((inst.DecodeCondBranchNotUsingPCArg (data.imm19.simm 19 <<< 2)).AddEcvNZCVOperand
    .kActionRead))

/-- The comparison of a register with zero that branches. -/
def DecodeBranchRegLabelNotUsingPCArg (reg_class : ERC) : Option (Option DecodedInst) :=
  some (some ((inst.DecodeCondBranchNotUsingPCArg (data.imm19.simm 19 <<< 2)).AddRegOperand
    .kActionRead reg_class .kUseAsValue data.Rt))

/-- `CBZ <Wt>, <label>` -/
def TryDecodeCBZ_32_COMPBRANCH : Option (Option DecodedInst) :=
  data.DecodeBranchRegLabelNotUsingPCArg inst .RegW

/-- `CBZ <Xt>, <label>` -/
def TryDecodeCBZ_64_COMPBRANCH : Option (Option DecodedInst) :=
  data.DecodeBranchRegLabelNotUsingPCArg inst .RegX

/-- `CBNZ <Wt>, <label>` -/
def TryDecodeCBNZ_32_COMPBRANCH : Option (Option DecodedInst) :=
  data.DecodeBranchRegLabelNotUsingPCArg inst .RegW

/-- `CBNZ <Xt>, <label>` -/
def TryDecodeCBNZ_64_COMPBRANCH : Option (Option DecodedInst) :=
  data.DecodeBranchRegLabelNotUsingPCArg inst .RegX

/-- The test of one bit, `b5:b40`, that branches; `b5` also chooses the width. -/
def DecodeTestBitBranch : Option (Option DecodedInst) :=
  let bit_pos := data.b5 <<< 5 ||| data.b40
  let f := if data.b5 = 1#8 then Form.X else .W
  let inst := (inst.AddImmOperand (bit_pos.setWidth 64)).DecodeCondBranchNotUsingPCArg
    (data.imm14.simm 14 <<< 2)
  some (some ({ inst with suffix := .width f }.AddRegOperand .kActionRead f.rclass .kUseAsValue
    data.Rt))

/-- `TBZ <R><t>, #<imm>, <label>` -/
def TryDecodeTBZ_ONLY_TESTBRANCH : Option (Option DecodedInst) := data.DecodeTestBitBranch inst

/-- `TBNZ <R><t>, #<imm>, <label>` -/
def TryDecodeTBNZ_ONLY_TESTBRANCH : Option (Option DecodedInst) := data.DecodeTestBitBranch inst

/-- `ADR <Xd>, <label>` -/
def TryDecodeADR_ONLY_PCRELADDR : Option (Option DecodedInst) :=
  some (some ((inst.AddRegOperand .kActionWrite .RegX .kUseAsValue data.Rd).AddPCDisp
    (data.immhi_immlo.simm 21)))

/-- `ADRP <Xd>, <label>` -/
def TryDecodeADRP_ONLY_PCRELADDR : Option (Option DecodedInst) :=
  some (some ((inst.AddRegOperand .kActionWrite .RegX .kUseAsValue data.Rd).AddPCDisp
    (data.immhi_immlo.simm 21 <<< 12)))

/-- The additions and subtractions of an immediate, which may have the stack pointer as their
destination. -/
def decodeAddImm (f : Form) : Option (Option DecodedInst) :=
  match ShiftImmediate data.imm12 data.shift with
  | none => some none
  | some imm =>
      some (some (((inst.AddRegOperand .kActionWrite f.rclass .kUseAsAddress data.Rd).AddRegOperand
        .kActionRead f.rclass .kUseAsAddress data.Rn).AddImmOperand imm))

/-- `ADD <Wd|WSP>, <Wn|WSP>, #<imm>{, <shift>}` -/
def TryDecodeADD_32_ADDSUB_IMM : Option (Option DecodedInst) := data.decodeAddImm inst .W

/-- `ADD <Xd|SP>, <Xn|SP>, #<imm>{, <shift>}` -/
def TryDecodeADD_64_ADDSUB_IMM : Option (Option DecodedInst) := data.decodeAddImm inst .X

/-- `SUB <Wd|WSP>, <Wn|WSP>, #<imm>{, <shift>}` -/
def TryDecodeSUB_32_ADDSUB_IMM : Option (Option DecodedInst) :=
  data.TryDecodeADD_32_ADDSUB_IMM inst

/-- `SUB <Xd|SP>, <Xn|SP>, #<imm>{, <shift>}` -/
def TryDecodeSUB_64_ADDSUB_IMM : Option (Option DecodedInst) :=
  data.TryDecodeADD_64_ADDSUB_IMM inst

/-- Those that set the flags. -/
def decodeSubsImm (f : Form) : Option (Option DecodedInst) :=
  match ShiftImmediate data.imm12 data.shift with
  | none => some none
  | some imm =>
      some (some ((((inst.AddRegOperand .kActionWrite f.rclass .kUseAsValue data.Rd).AddRegOperand
        .kActionRead f.rclass .kUseAsAddress data.Rn).AddImmOperand imm).AddEcvNZCVOperand
          .kActionWrite))

/-- `SUBS <Wd>, <Wn|WSP>, #<imm>{, <shift>}` -/
def TryDecodeSUBS_32S_ADDSUB_IMM : Option (Option DecodedInst) := data.decodeSubsImm inst .W

/-- `SUBS <Xd>, <Xn|SP>, #<imm>{, <shift>}` -/
def TryDecodeSUBS_64S_ADDSUB_IMM : Option (Option DecodedInst) := data.decodeSubsImm inst .X

/-- `ADDS <Wd>, <Wn|WSP>, #<imm>{, <shift>}` -/
def TryDecodeADDS_32S_ADDSUB_IMM : Option (Option DecodedInst) :=
  data.TryDecodeSUBS_32S_ADDSUB_IMM inst

/-- `ADDS <Xd>, <Xn|SP>, #<imm>{, <shift>}` -/
def TryDecodeADDS_64S_ADDSUB_IMM : Option (Option DecodedInst) :=
  data.TryDecodeSUBS_64S_ADDSUB_IMM inst

/-- `(hw >> 1) & 1`, for 32 bits. -/
def hwReserved : Bool := data.hw >>> 1 &&& 1#8 != 0#8

/-- `hw:'0000'` -/
def hwShift : BitVec 64 := data.hw.setWidth 64 <<< 4

/-- `MOVZ <Wd>, #<imm>{, LSL #<shift>}` -/
def TryDecodeMOVZ_32_MOVEWIDE : Option (Option DecodedInst) :=
  if data.hw &&& 2#8 ≠ 0#8 then some none
  else
    let imm := (data.imm16 <<< data.hwShift).setWidth 32
    some (some ((inst.AddRegOperand .kActionWrite .RegW .kUseAsValue data.Rd).AddImmOperand
      (imm.setWidth 64)))

/-- `MOVZ <Xd>, #<imm>{, LSL #<shift>}` -/
def TryDecodeMOVZ_64_MOVEWIDE : Option (Option DecodedInst) :=
  some (some ((inst.AddRegOperand .kActionWrite .RegX .kUseAsValue data.Rd).AddImmOperand
    (data.imm16 <<< data.hwShift)))

/-- `MOVN <Wd>, #<imm>{, LSL #<shift>}` -/
def TryDecodeMOVN_32_MOVEWIDE : Option (Option DecodedInst) :=
  if data.hwReserved then some none
  else
    let imm := data.imm16 <<< data.hwShift
    some (some ((inst.AddRegOperand .kActionWrite .RegW .kUseAsValue data.Rd).AddImmOperand
      (((~~~imm).setWidth 32).setWidth 64)))

/-- `MOVN <Xd>, #<imm>{, LSL #<shift>}` -/
def TryDecodeMOVN_64_MOVEWIDE : Option (Option DecodedInst) :=
  let imm := data.imm16 <<< data.hwShift
  some (some ((inst.AddRegOperand .kActionWrite .RegX .kUseAsValue data.Rd).AddImmOperand (~~~imm)))

/-- `MOVK <Wd>, #<imm>{, LSL #<shift>}` -/
def TryDecodeMOVK_32_MOVEWIDE : Option (Option DecodedInst) :=
  if data.hwReserved then some none
  else
    some (some (((inst.AddRegOperand .kActionReadWrite .RegW .kUseAsValue data.Rd).AddImmOperand
      data.imm16).AddImmOperand data.hwShift))

/-- `MOVK <Xd>, #<imm>{, LSL #<shift>}` -/
def TryDecodeMOVK_64_MOVEWIDE : Option (Option DecodedInst) :=
  some (some (((inst.AddRegOperand .kActionReadWrite .RegX .kUseAsValue data.Rd).AddImmOperand
    data.imm16).AddImmOperand data.hwShift))

/-- The fields that the masks are made from. -/
def maskFields : MaskFields := ⟨data.N.setWidth 1, data.immr.setWidth 6, data.imms.setWidth 6⟩

/-- The operands that are read follow the destination. -/
def withOperands (f : Form) (rtype : RegUsage) (operands : List MaskOperand) : DecodedInst :=
  let inst := inst.AddRegOperand .kActionWrite f.rclass rtype data.Rd
  { inst with operands := inst.operands ++ operands.map (MaskOperand.operand f data.Rd data.Rn) }

/-- `EXTR <Wd>, <Wn>, <Wm>, #<lsb>` -/
def TryDecodeEXTR_32_EXTRACT : Option (Option DecodedInst) :=
  if data.N ≠ data.sf then some none
  else if data.imms &&& 0x20#64 ≠ 0#64 then some none
  else
    some (some ((((inst.AddRegOperand .kActionWrite .RegW .kUseAsValue data.Rd).AddRegOperand
      .kActionRead .RegW .kUseAsValue data.Rn).AddRegOperand .kActionRead .RegW .kUseAsValue
        data.Rm).AddImmOperand data.imms))

/-- `EXTR <Xd>, <Xn>, <Xm>, #<lsb>` -/
def TryDecodeEXTR_64_EXTRACT : Option (Option DecodedInst) :=
  if data.N ≠ data.sf then some none
  else
    some (some ((((inst.AddRegOperand .kActionWrite .RegX .kUseAsValue data.Rd).AddRegOperand
      .kActionRead .RegX .kUseAsValue data.Rn).AddRegOperand .kActionRead .RegX .kUseAsValue
        data.Rm).AddImmOperand data.imms))

variable {data inst} in
/-- The decoder lets through the amounts below the width. -/
theorem TryDecodeEXTR_32_reserved {imms : BitVec 6} (h : data.imms = imms.setWidth 64) :
    TryDecodeEXTR_32_EXTRACT data inst = some none ↔ data.N ≠ data.sf ∨ 32 ≤ imms.toNat := by
  have hbit : ∀ imms : BitVec 6, imms.setWidth 64 &&& 0x20#64 ≠ 0#64 ↔ 32 ≤ imms.toNat := by
    decide
  rw [TryDecodeEXTR_32_EXTRACT, h, ← hbit imms]
  split_ifs with hN himms
  · exact iff_of_true rfl (.inl hN)
  · exact iff_of_true rfl (.inr himms)
  · simp [hN, himms]

variable {data inst} in
/-- Nothing but `N` is checked for 64 bits. -/
theorem TryDecodeEXTR_64_reserved :
    TryDecodeEXTR_64_EXTRACT data inst = some none ↔ data.N ≠ data.sf := by
  rw [TryDecodeEXTR_64_EXTRACT]
  split_ifs with hN
  · exact iff_of_true rfl hN
  · simp [hN]

end

section

variable (big : Overshift) (data : InstData) (inst : DecodedInst)

/-- A bit-field move or a logical instruction by its fields. -/
def decodeMask (i : MaskInst) (f : Form) (rtype : RegUsage) : Option (Option DecodedInst) :=
  (i.TryDecode big f data.maskFields).map fun operands =>
    operands.map (data.withOperands inst f rtype)

/-- `UBFM <Wd>, <Wn>, #<immr>, #<imms>` -/
def TryDecodeUBFM_32M_BITFIELD : Option (Option DecodedInst) :=
  data.decodeMask big inst .UBFM .W .kUseAsValue

/-- `UBFM <Xd>, <Xn>, #<immr>, #<imms>` -/
def TryDecodeUBFM_64M_BITFIELD : Option (Option DecodedInst) :=
  data.decodeMask big inst .UBFM .X .kUseAsValue

/-- `SBFM <Wd>, <Wn>, #<immr>, #<imms>` -/
def TryDecodeSBFM_32M_BITFIELD : Option (Option DecodedInst) :=
  data.decodeMask big inst .SBFM .W .kUseAsValue

/-- `SBFM <Xd>, <Xn>, #<immr>, #<imms>` -/
def TryDecodeSBFM_64M_BITFIELD : Option (Option DecodedInst) :=
  data.decodeMask big inst .SBFM .X .kUseAsValue

/-- `BFM <Wd>, <Wn>, #<immr>, #<imms>` -/
def TryDecodeBFM_32M_BITFIELD : Option (Option DecodedInst) :=
  data.decodeMask big inst .BFM .W .kUseAsValue

/-- `BFM <Xd>, <Xn>, #<immr>, #<imms>` -/
def TryDecodeBFM_64M_BITFIELD : Option (Option DecodedInst) :=
  data.decodeMask big inst .BFM .X .kUseAsValue

/-- `EOR <Wd|WSP>, <Wn>, #<imm>` -/
def TryDecodeEOR_32_LOG_IMM : Option (Option DecodedInst) :=
  data.decodeMask big inst .EOR .W .kUseAsAddress

/-- `EOR <Xd|SP>, <Xn>, #<imm>` -/
def TryDecodeEOR_64_LOG_IMM : Option (Option DecodedInst) :=
  data.decodeMask big inst .EOR .X .kUseAsAddress

/-- `AND <Wd|WSP>, <Wn>, #<imm>` -/
def TryDecodeAND_32_LOG_IMM : Option (Option DecodedInst) := data.TryDecodeEOR_32_LOG_IMM big inst

/-- `AND <Xd|SP>, <Xn>, #<imm>` -/
def TryDecodeAND_64_LOG_IMM : Option (Option DecodedInst) := data.TryDecodeEOR_64_LOG_IMM big inst

/-- `ORR <Wd|WSP>, <Wn>, #<imm>` -/
def TryDecodeORR_32_LOG_IMM : Option (Option DecodedInst) := data.TryDecodeEOR_32_LOG_IMM big inst

/-- `ORR <Xd|SP>, <Xn>, #<imm>` -/
def TryDecodeORR_64_LOG_IMM : Option (Option DecodedInst) := data.TryDecodeEOR_64_LOG_IMM big inst

/-- The flags are written behind the operands. -/
def TryDecodeANDS_32S_LOG_IMM : Option (Option DecodedInst) :=
  (data.decodeMask big inst .ANDS .W .kUseAsValue).map fun i =>
    i.map fun i => i.AddEcvNZCVOperand .kActionWrite

/-- `ANDS <Xd>, <Xn>, #<imm>` -/
def TryDecodeANDS_64S_LOG_IMM : Option (Option DecodedInst) :=
  (data.decodeMask big inst .ANDS .X .kUseAsValue).map fun i =>
    i.map fun i => i.AddEcvNZCVOperand .kActionWrite

end

end InstData

end Elfconv.AArch64
