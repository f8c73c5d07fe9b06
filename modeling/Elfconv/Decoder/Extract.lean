/-
Elfconv/Decoder/Extract.lean

The first step of the decoder: from the word of an instruction to its encoding and its fields.

`TryExtract` chooses by three bits one of eight groups of encodings, and tries these in the order of
the source.  Two groups are here: the data processing with an immediate, and the branches with the
exceptions and the system instructions.  The other groups are a parameter.

Each encoding is a pattern of bits and a layout of fields.  The aliases that the source keeps behind
a `false` are left out; the one alias it does try, `DC`, stands in the list before `SYS`.
-/
import Elfconv.Lib.Encoding

namespace Elfconv.AArch64

open Encoding

/-! ### Encodings and fields -/

/-- The encodings of the two groups; the others have a number. -/
inductive InstForm
  | EXTR_32_EXTRACT | EXTR_64_EXTRACT | EOR_32_LOG_IMM | BFM_32M_BITFIELD | SBFM_32M_BITFIELD
  | UBFM_64M_BITFIELD | BFM_64M_BITFIELD | AND_32_LOG_IMM | SBFM_64M_BITFIELD | ANDS_32S_LOG_IMM
  | UBFM_32M_BITFIELD | ORR_32_LOG_IMM | ORR_64_LOG_IMM | MOVN_64_MOVEWIDE | MOVZ_64_MOVEWIDE
  | MOVK_32_MOVEWIDE | AND_64_LOG_IMM | MOVZ_32_MOVEWIDE | MOVN_32_MOVEWIDE | MOVK_64_MOVEWIDE
  | ANDS_64S_LOG_IMM | EOR_64_LOG_IMM | ADD_32_ADDSUB_IMM | SUB_32_ADDSUB_IMM | ADDS_32S_ADDSUB_IMM
  | SUBS_64S_ADDSUB_IMM | SUBS_32S_ADDSUB_IMM | SUB_64_ADDSUB_IMM | ADDS_64S_ADDSUB_IMM
  | ADD_64_ADDSUB_IMM | ADR_ONLY_PCRELADDR | ADRP_ONLY_PCRELADDR | WFI_HI_SYSTEM
  | ERET_64E_BRANCH_REG | ESB_HI_SYSTEM | DRPS_64E_BRANCH_REG | WFE_HI_SYSTEM | NOP_HI_SYSTEM
  | SEV_HI_SYSTEM | PSB_HC_SYSTEM | YIELD_HI_SYSTEM | SEVL_HI_SYSTEM | HINT_1 | HINT_3
  | DSB_BO_SYSTEM | ISB_BI_SYSTEM | CLREX_BN_SYSTEM | DMB_BO_SYSTEM | BLR_64_BRANCH_REG
  | BR_64_BRANCH_REG | RET_64R_BRANCH_REG | HINT_2 | MSR_SI_SYSTEM | DCPS3_DC_EXCEPTION
  | DCPS2_DC_EXCEPTION | BRK_EX_EXCEPTION | HVC_EX_EXCEPTION | DCPS1_DC_EXCEPTION
  | HLT_EX_EXCEPTION | SMC_EX_EXCEPTION | SVC_EX_EXCEPTION | DC_SYS_CR_SYSTEM | SYS_CR_SYSTEM
  | SYSL_RC_SYSTEM | MRS_RS_SYSTEM | MSR_SR_SYSTEM | B_ONLY_CONDBRANCH | CBZ_64_COMPBRANCH
  | CBNZ_32_COMPBRANCH | CBZ_32_COMPBRANCH | CBNZ_64_COMPBRANCH | TBZ_ONLY_TESTBRANCH
  | TBNZ_ONLY_TESTBRANCH | BL_ONLY_BRANCH_IMM | B_ONLY_BRANCH_IMM
  | other (index : ℕ)
  deriving DecidableEq

/-- The names of the instructions of the two groups; the others have a number. -/
inductive InstName
  | EXTR | EOR | BFM | SBFM | UBFM | AND | ANDS | ORR | MOVN | MOVZ | MOVK | ADD | SUB | ADDS
  | SUBS | ADR | ADRP | WFI | ERET | ESB | DRPS | WFE | NOP | SEV | PSB | YIELD | SEVL | HINT | DSB
  | ISB | CLREX | DMB | BLR | BR | RET | MSR | DCPS3 | DCPS2 | BRK | HVC | DCPS1 | HLT | SMC | SVC
  | SYS | SYSL | MRS | B | CBZ | CBNZ | TBZ | TBNZ | BL
  | other (index : ℕ)
  deriving DecidableEq

/-- The number of a register; the source keeps the five bits in a byte. -/
abbrev RegNum := BitVec 5

/-- An immediate, `uimm`. -/
abbrev InstImm := BitVec 64

/-- `simm1` to `simm63`. -/
def InstImm.simm (N : ℕ) (imm : InstImm) : BitVec 64 := (imm.setWidth N).signExtend 64

/-- The fields that the encodings of the two groups set; all others stay zero. -/
structure InstData where
  iform : InstForm
  iclass : InstName
  imms : InstImm := 0#64
  immr : InstImm := 0#64
  imm16 : InstImm := 0#64
  imm12 : InstImm := 0#64
  immhi : InstImm := 0#64
  immlo : InstImm := 0#64
  imm19 : InstImm := 0#64
  imm14 : InstImm := 0#64
  imm26 : InstImm := 0#64
  immhi_immlo : InstImm := 0#64
  Rd : RegNum := 0#5
  Rn : RegNum := 0#5
  Rm : RegNum := 0#5
  Rt : RegNum := 0#5
  o0 : BitVec 8 := 0#8
  N : BitVec 8 := 0#8
  op21 : BitVec 8 := 0#8
  sf : BitVec 8 := 0#8
  opc : BitVec 8 := 0#8
  hw : BitVec 8 := 0#8
  shift : BitVec 8 := 0#8
  S : BitVec 8 := 0#8
  op : BitVec 8 := 0#8
  op2 : BitVec 8 := 0#8
  CRm : BitVec 8 := 0#8
  CRn : BitVec 8 := 0#8
  op1 : BitVec 8 := 0#8
  op0 : BitVec 8 := 0#8
  L : BitVec 8 := 0#8
  op4 : BitVec 8 := 0#8
  op3 : BitVec 8 := 0#8
  LL : BitVec 8 := 0#8
  cond : BitVec 8 := 0#8
  o1 : BitVec 8 := 0#8
  b40 : BitVec 8 := 0#8
  b5 : BitVec 8 := 0#8
  deriving DecidableEq

/-- A field of the word as an immediate. -/
def immField (enc : BitVec 32) (pos width : ℕ) : InstImm := (enc.extractLsb' pos width).setWidth 64

/-- The number of a register, five bits from `pos`. -/
def regField (enc : BitVec 32) (pos : ℕ) : RegNum := enc.extractLsb' pos 5

/-- A field of the word as a byte. -/
def byteField (enc : BitVec 32) (pos width : ℕ) : BitVec 8 := (enc.extractLsb' pos width).setWidth 8

/-! ### Layouts -/

section

variable (iform : InstForm) (iclass : InstName) (enc : BitVec 32)

/-- `sf op21 100111 N o0 Rm imms Rn Rd` -/
def extractFields : InstData :=
  { iform, iclass, Rd := regField enc 0, Rn := regField enc 5, imms := immField enc 10 6,
    Rm := regField enc 16, o0 := byteField enc 21 1, N := byteField enc 22 1,
    op21 := byteField enc 29 2, sf := byteField enc 31 1 }

/-- `sf opc 10011. N immr imms Rn Rd`, the bit-field moves and the logical immediates. -/
def maskFields : InstData :=
  { iform, iclass, Rd := regField enc 0, Rn := regField enc 5, imms := immField enc 10 6,
    immr := immField enc 16 6, N := byteField enc 22 1, opc := byteField enc 29 2,
    sf := byteField enc 31 1 }

/-- `sf opc 100101 hw imm16 Rd` -/
def moveWideFields : InstData :=
  { iform, iclass, Rd := regField enc 0, imm16 := immField enc 5 16, hw := byteField enc 21 2,
    opc := byteField enc 29 2, sf := byteField enc 31 1 }

/-- `sf op S 10001 shift imm12 Rn Rd` -/
def addSubImmFields : InstData :=
  { iform, iclass, Rd := regField enc 0, Rn := regField enc 5, imm12 := immField enc 10 12,
    shift := byteField enc 22 2, S := byteField enc 29 1, op := byteField enc 30 1,
    sf := byteField enc 31 1 }

/-- `op immlo 10000 immhi Rd`; the halves of the immediate are joined as well. -/
def pcRelFields : InstData :=
  { iform, iclass, Rd := regField enc 0, immhi := immField enc 5 19, immlo := immField enc 29 2,
    op := byteField enc 31 1, immhi_immlo := immField enc 5 19 <<< 2 ||| immField enc 29 2 }

/-- `1101010100 L op0 op1 CRn CRm op2 Rt` -/
def systemFields : InstData :=
  { iform, iclass, Rt := regField enc 0, op2 := byteField enc 5 3, CRm := byteField enc 8 4,
    CRn := byteField enc 12 4, op1 := byteField enc 16 3, op0 := byteField enc 19 2,
    L := byteField enc 21 1 }

/-- `1101011 opc op2 op3 Rt op4`, with a register field named `Rt`. -/
def exceptionReturnFields : InstData :=
  { iform, iclass, op4 := byteField enc 0 5, Rt := regField enc 5, op3 := byteField enc 10 6,
    op2 := byteField enc 16 5, opc := byteField enc 21 4 }

/-- `1101010100 L op0 op1 CRn CRm 1 opc Rt` -/
def barrierFields : InstData :=
  { iform, iclass, Rt := regField enc 0, opc := byteField enc 5 2, CRm := byteField enc 8 4,
    CRn := byteField enc 12 4, op1 := byteField enc 16 3, op0 := byteField enc 19 2,
    L := byteField enc 21 1 }

/-- `1101011 opc op op2 op3 Rn op4` -/
def branchRegFields : InstData :=
  { iform, iclass, op4 := byteField enc 0 5, Rn := regField enc 5, op3 := byteField enc 10 6,
    op2 := byteField enc 16 5, op := byteField enc 21 2, opc := byteField enc 23 2 }

/-- `11010100 opc imm16 op2 LL` -/
def exceptionFields : InstData :=
  { iform, iclass, LL := byteField enc 0 2, op2 := byteField enc 2 3, imm16 := immField enc 5 16,
    opc := byteField enc 21 3 }

/-- `1101010100 L 1 o0 op1 CRn CRm op2 Rt` -/
def systemRegFields : InstData :=
  { iform, iclass, Rt := regField enc 0, op2 := byteField enc 5 3, CRm := byteField enc 8 4,
    CRn := byteField enc 12 4, op1 := byteField enc 16 3, o0 := byteField enc 19 1,
    L := byteField enc 21 1 }

/-- `0101010 o1 imm19 o0 cond` -/
def condBranchFields : InstData :=
  { iform, iclass, cond := byteField enc 0 4, o0 := byteField enc 4 1, imm19 := immField enc 5 19,
    o1 := byteField enc 24 1 }

/-- `sf 011010 op imm19 Rt` -/
def compBranchFields : InstData :=
  { iform, iclass, Rt := regField enc 0, imm19 := immField enc 5 19, op := byteField enc 24 1,
    sf := byteField enc 31 1 }

/-- `b5 011011 op b40 imm14 Rt` -/
def testBranchFields : InstData :=
  { iform, iclass, Rt := regField enc 0, imm14 := immField enc 5 14, b40 := byteField enc 19 5,
    op := byteField enc 24 1, b5 := byteField enc 31 1 }

/-- `op 00101 imm26` -/
def branchImmFields : InstData :=
  { iform, iclass, imm26 := immField enc 0 26, op := byteField enc 31 1 }

end

/-! ### Encodings -/

/-- An encoding: the bits that are compared, and what is filled in. -/
def encoding (mask value : BitVec 32) (iform : InstForm) (iclass : InstName)
    (fields : InstForm → InstName → BitVec 32 → InstData) : Extractor 32 InstData where
  pattern := ⟨mask, value⟩
  fill := fields iform iclass

/-- `EXTR <Wd>, <Wn>, <Wm>, #<lsb>` -/
def TryExtractEXTR_32_EXTRACT : Extractor 32 InstData :=
  encoding 0xffe08000#32 0x13800000#32 .EXTR_32_EXTRACT .EXTR extractFields

/-- `EXTR <Xd>, <Xn>, <Xm>, #<lsb>` -/
def TryExtractEXTR_64_EXTRACT : Extractor 32 InstData :=
  encoding 0xffe00000#32 0x93c00000#32 .EXTR_64_EXTRACT .EXTR extractFields

/-- `EOR <Wd|WSP>, <Wn>, #<imm>` -/
def TryExtractEOR_32_LOG_IMM : Extractor 32 InstData :=
  encoding 0xffc00000#32 0x52000000#32 .EOR_32_LOG_IMM .EOR maskFields

/-- `BFM <Wd>, <Wn>, #<immr>, #<imms>` -/
def TryExtractBFM_32M_BITFIELD : Extractor 32 InstData :=
  encoding 0xffc00000#32 0x33000000#32 .BFM_32M_BITFIELD .BFM maskFields

/-- `SBFM <Wd>, <Wn>, #<immr>, #<imms>` -/
def TryExtractSBFM_32M_BITFIELD : Extractor 32 InstData :=
  encoding 0xffc00000#32 0x13000000#32 .SBFM_32M_BITFIELD .SBFM maskFields

/-- `UBFM <Xd>, <Xn>, #<immr>, #<imms>` -/
def TryExtractUBFM_64M_BITFIELD : Extractor 32 InstData :=
  encoding 0xffc00000#32 0xd3400000#32 .UBFM_64M_BITFIELD .UBFM maskFields

/-- `BFM <Xd>, <Xn>, #<immr>, #<imms>` -/
def TryExtractBFM_64M_BITFIELD : Extractor 32 InstData :=
  encoding 0xffc00000#32 0xb3400000#32 .BFM_64M_BITFIELD .BFM maskFields

/-- `AND <Wd|WSP>, <Wn>, #<imm>` -/
def TryExtractAND_32_LOG_IMM : Extractor 32 InstData :=
  encoding 0xffc00000#32 0x12000000#32 .AND_32_LOG_IMM .AND maskFields

/-- `SBFM <Xd>, <Xn>, #<immr>, #<imms>` -/
def TryExtractSBFM_64M_BITFIELD : Extractor 32 InstData :=
  encoding 0xffc00000#32 0x93400000#32 .SBFM_64M_BITFIELD .SBFM maskFields

/-- `ANDS <Wd>, <Wn>, #<imm>` -/
def TryExtractANDS_32S_LOG_IMM : Extractor 32 InstData :=
  encoding 0xffc00000#32 0x72000000#32 .ANDS_32S_LOG_IMM .ANDS maskFields

/-- `UBFM <Wd>, <Wn>, #<immr>, #<imms>` -/
def TryExtractUBFM_32M_BITFIELD : Extractor 32 InstData :=
  encoding 0xffc00000#32 0x53000000#32 .UBFM_32M_BITFIELD .UBFM maskFields

/-- `ORR <Wd|WSP>, <Wn>, #<imm>` -/
def TryExtractORR_32_LOG_IMM : Extractor 32 InstData :=
  encoding 0xffc00000#32 0x32000000#32 .ORR_32_LOG_IMM .ORR maskFields

/-- `ORR <Xd|SP>, <Xn>, #<imm>` -/
def TryExtractORR_64_LOG_IMM : Extractor 32 InstData :=
  encoding 0xff800000#32 0xb2000000#32 .ORR_64_LOG_IMM .ORR maskFields

/-- `MOVN <Xd>, #<imm>{, LSL #<shift>}` -/
def TryExtractMOVN_64_MOVEWIDE : Extractor 32 InstData :=
  encoding 0xff800000#32 0x92800000#32 .MOVN_64_MOVEWIDE .MOVN moveWideFields

/-- `MOVZ <Xd>, #<imm>{, LSL #<shift>}` -/
def TryExtractMOVZ_64_MOVEWIDE : Extractor 32 InstData :=
  encoding 0xff800000#32 0xd2800000#32 .MOVZ_64_MOVEWIDE .MOVZ moveWideFields

/-- `MOVK <Wd>, #<imm>{, LSL #<shift>}` -/
def TryExtractMOVK_32_MOVEWIDE : Extractor 32 InstData :=
  encoding 0xff800000#32 0x72800000#32 .MOVK_32_MOVEWIDE .MOVK moveWideFields

/-- `AND <Xd|SP>, <Xn>, #<imm>` -/
def TryExtractAND_64_LOG_IMM : Extractor 32 InstData :=
  encoding 0xff800000#32 0x92000000#32 .AND_64_LOG_IMM .AND maskFields

/-- `MOVZ <Wd>, #<imm>{, LSL #<shift>}` -/
def TryExtractMOVZ_32_MOVEWIDE : Extractor 32 InstData :=
  encoding 0xff800000#32 0x52800000#32 .MOVZ_32_MOVEWIDE .MOVZ moveWideFields

/-- `MOVN <Wd>, #<imm>{, LSL #<shift>}` -/
def TryExtractMOVN_32_MOVEWIDE : Extractor 32 InstData :=
  encoding 0xff800000#32 0x12800000#32 .MOVN_32_MOVEWIDE .MOVN moveWideFields

/-- `MOVK <Xd>, #<imm>{, LSL #<shift>}` -/
def TryExtractMOVK_64_MOVEWIDE : Extractor 32 InstData :=
  encoding 0xff800000#32 0xf2800000#32 .MOVK_64_MOVEWIDE .MOVK moveWideFields

/-- `ANDS <Xd>, <Xn>, #<imm>` -/
def TryExtractANDS_64S_LOG_IMM : Extractor 32 InstData :=
  encoding 0xff800000#32 0xf2000000#32 .ANDS_64S_LOG_IMM .ANDS maskFields

/-- `EOR <Xd|SP>, <Xn>, #<imm>` -/
def TryExtractEOR_64_LOG_IMM : Extractor 32 InstData :=
  encoding 0xff800000#32 0xd2000000#32 .EOR_64_LOG_IMM .EOR maskFields

/-- `ADD <Wd|WSP>, <Wn|WSP>, #<imm>{, <shift>}` -/
def TryExtractADD_32_ADDSUB_IMM : Extractor 32 InstData :=
  encoding 0xff000000#32 0x11000000#32 .ADD_32_ADDSUB_IMM .ADD addSubImmFields

/-- `SUB <Wd|WSP>, <Wn|WSP>, #<imm>{, <shift>}` -/
def TryExtractSUB_32_ADDSUB_IMM : Extractor 32 InstData :=
  encoding 0xff000000#32 0x51000000#32 .SUB_32_ADDSUB_IMM .SUB addSubImmFields

/-- `ADDS <Wd>, <Wn|WSP>, #<imm>{, <shift>}` -/
def TryExtractADDS_32S_ADDSUB_IMM : Extractor 32 InstData :=
  encoding 0xff000000#32 0x31000000#32 .ADDS_32S_ADDSUB_IMM .ADDS addSubImmFields

/-- `SUBS <Xd>, <Xn|SP>, #<imm>{, <shift>}` -/
def TryExtractSUBS_64S_ADDSUB_IMM : Extractor 32 InstData :=
  encoding 0xff000000#32 0xf1000000#32 .SUBS_64S_ADDSUB_IMM .SUBS addSubImmFields

/-- `SUBS <Wd>, <Wn|WSP>, #<imm>{, <shift>}` -/
def TryExtractSUBS_32S_ADDSUB_IMM : Extractor 32 InstData :=
  encoding 0xff000000#32 0x71000000#32 .SUBS_32S_ADDSUB_IMM .SUBS addSubImmFields

/-- `SUB <Xd|SP>, <Xn|SP>, #<imm>{, <shift>}` -/
def TryExtractSUB_64_ADDSUB_IMM : Extractor 32 InstData :=
  encoding 0xff000000#32 0xd1000000#32 .SUB_64_ADDSUB_IMM .SUB addSubImmFields

/-- `ADDS <Xd>, <Xn|SP>, #<imm>{, <shift>}` -/
def TryExtractADDS_64S_ADDSUB_IMM : Extractor 32 InstData :=
  encoding 0xff000000#32 0xb1000000#32 .ADDS_64S_ADDSUB_IMM .ADDS addSubImmFields

/-- `ADD <Xd|SP>, <Xn|SP>, #<imm>{, <shift>}` -/
def TryExtractADD_64_ADDSUB_IMM : Extractor 32 InstData :=
  encoding 0xff000000#32 0x91000000#32 .ADD_64_ADDSUB_IMM .ADD addSubImmFields

/-- `ADR <Xd>, <label>` -/
def TryExtractADR_ONLY_PCRELADDR : Extractor 32 InstData :=
  encoding 0x9f000000#32 0x10000000#32 .ADR_ONLY_PCRELADDR .ADR pcRelFields

/-- `ADRP <Xd>, <label>` -/
def TryExtractADRP_ONLY_PCRELADDR : Extractor 32 InstData :=
  encoding 0x9f000000#32 0x90000000#32 .ADRP_ONLY_PCRELADDR .ADRP pcRelFields

/-- `WFI` -/
def TryExtractWFI_HI_SYSTEM : Extractor 32 InstData :=
  encoding 0xffffffff#32 0xd503207f#32 .WFI_HI_SYSTEM .WFI systemFields

/-- `ERET` -/
def TryExtractERET_64E_BRANCH_REG : Extractor 32 InstData :=
  encoding 0xffffffff#32 0xd69f03e0#32 .ERET_64E_BRANCH_REG .ERET exceptionReturnFields

/-- `ESB` -/
def TryExtractESB_HI_SYSTEM : Extractor 32 InstData :=
  encoding 0xffffffff#32 0xd503221f#32 .ESB_HI_SYSTEM .ESB systemFields

/-- `DRPS` -/
def TryExtractDRPS_64E_BRANCH_REG : Extractor 32 InstData :=
  encoding 0xffffffff#32 0xd6bf03e0#32 .DRPS_64E_BRANCH_REG .DRPS exceptionReturnFields

/-- `WFE` -/
def TryExtractWFE_HI_SYSTEM : Extractor 32 InstData :=
  encoding 0xffffffff#32 0xd503205f#32 .WFE_HI_SYSTEM .WFE systemFields

/-- `NOP` -/
def TryExtractNOP_HI_SYSTEM : Extractor 32 InstData :=
  encoding 0xffffffff#32 0xd503201f#32 .NOP_HI_SYSTEM .NOP systemFields

/-- `SEV` -/
def TryExtractSEV_HI_SYSTEM : Extractor 32 InstData :=
  encoding 0xffffffff#32 0xd503209f#32 .SEV_HI_SYSTEM .SEV systemFields

/-- `PSB CSYNC` -/
def TryExtractPSB_HC_SYSTEM : Extractor 32 InstData :=
  encoding 0xffffffff#32 0xd503223f#32 .PSB_HC_SYSTEM .PSB systemFields

/-- `YIELD` -/
def TryExtractYIELD_HI_SYSTEM : Extractor 32 InstData :=
  encoding 0xffffffff#32 0xd503203f#32 .YIELD_HI_SYSTEM .YIELD systemFields

/-- `SEVL` -/
def TryExtractSEVL_HI_SYSTEM : Extractor 32 InstData :=
  encoding 0xffffffff#32 0xd50320bf#32 .SEVL_HI_SYSTEM .SEVL systemFields

/-- `HINT #<imm>` -/
def TryExtractHINT_1 : Extractor 32 InstData :=
  encoding 0xffffffdf#32 0xd50320df#32 .HINT_1 .HINT systemFields

/-- `HINT #<imm>` -/
def TryExtractHINT_3 : Extractor 32 InstData :=
  encoding 0xffffff1f#32 0xd503221f#32 .HINT_3 .HINT systemFields

/-- `DSB <option>|#<imm>` -/
def TryExtractDSB_BO_SYSTEM : Extractor 32 InstData :=
  encoding 0xfffff0ff#32 0xd503309f#32 .DSB_BO_SYSTEM .DSB barrierFields

/-- `ISB {<option>|#<imm>}` -/
def TryExtractISB_BI_SYSTEM : Extractor 32 InstData :=
  encoding 0xfffff0ff#32 0xd50330df#32 .ISB_BI_SYSTEM .ISB barrierFields

/-- `CLREX {#<imm>}` -/
def TryExtractCLREX_BN_SYSTEM : Extractor 32 InstData :=
  encoding 0xfffff0ff#32 0xd503305f#32 .CLREX_BN_SYSTEM .CLREX systemFields

/-- `DMB <option>|#<imm>` -/
def TryExtractDMB_BO_SYSTEM : Extractor 32 InstData :=
  encoding 0xfffff0ff#32 0xd50330bf#32 .DMB_BO_SYSTEM .DMB barrierFields

/-- `BLR <Xn>` -/
def TryExtractBLR_64_BRANCH_REG : Extractor 32 InstData :=
  encoding 0xfffffc1f#32 0xd63f0000#32 .BLR_64_BRANCH_REG .BLR branchRegFields

/-- `BR <Xn>` -/
def TryExtractBR_64_BRANCH_REG : Extractor 32 InstData :=
  encoding 0xfffffc1f#32 0xd61f0000#32 .BR_64_BRANCH_REG .BR branchRegFields

/-- `RET {<Xn>}` -/
def TryExtractRET_64R_BRANCH_REG : Extractor 32 InstData :=
  encoding 0xfffffc1f#32 0xd65f0000#32 .RET_64R_BRANCH_REG .RET branchRegFields

/-- `HINT #<imm>` -/
def TryExtractHINT_2 : Extractor 32 InstData :=
  encoding 0xfffff01f#32 0xd503201f#32 .HINT_2 .HINT systemFields

/-- `MSR <pstatefield>, #<imm>` -/
def TryExtractMSR_SI_SYSTEM : Extractor 32 InstData :=
  encoding 0xfff8f01f#32 0xd500401f#32 .MSR_SI_SYSTEM .MSR systemFields

/-- `DCPS3 {#<imm>}` -/
def TryExtractDCPS3_DC_EXCEPTION : Extractor 32 InstData :=
  encoding 0xffe0001f#32 0xd4a00003#32 .DCPS3_DC_EXCEPTION .DCPS3 exceptionFields

/-- `DCPS2 {#<imm>}` -/
def TryExtractDCPS2_DC_EXCEPTION : Extractor 32 InstData :=
  encoding 0xffe0001f#32 0xd4a00002#32 .DCPS2_DC_EXCEPTION .DCPS2 exceptionFields

/-- `BRK #<imm>` -/
def TryExtractBRK_EX_EXCEPTION : Extractor 32 InstData :=
  encoding 0xffe0001f#32 0xd4200000#32 .BRK_EX_EXCEPTION .BRK exceptionFields

/-- `HVC #<imm>` -/
def TryExtractHVC_EX_EXCEPTION : Extractor 32 InstData :=
  encoding 0xffe0001f#32 0xd4000002#32 .HVC_EX_EXCEPTION .HVC exceptionFields

/-- `DCPS1 {#<imm>}` -/
def TryExtractDCPS1_DC_EXCEPTION : Extractor 32 InstData :=
  encoding 0xffe0001f#32 0xd4a00001#32 .DCPS1_DC_EXCEPTION .DCPS1 exceptionFields

/-- `HLT #<imm>` -/
def TryExtractHLT_EX_EXCEPTION : Extractor 32 InstData :=
  encoding 0xffe0001f#32 0xd4400000#32 .HLT_EX_EXCEPTION .HLT exceptionFields

/-- `SMC #<imm>` -/
def TryExtractSMC_EX_EXCEPTION : Extractor 32 InstData :=
  encoding 0xffe0001f#32 0xd4000003#32 .SMC_EX_EXCEPTION .SMC exceptionFields

/-- `SVC #<imm>` -/
def TryExtractSVC_EX_EXCEPTION : Extractor 32 InstData :=
  encoding 0xffe0001f#32 0xd4000001#32 .SVC_EX_EXCEPTION .SVC exceptionFields

/-- `DC <dc_op>, <Xt>` -/
def TryExtractDC_SYS_CR_SYSTEM : Extractor 32 InstData :=
  encoding 0xfff8f000#32 0xd5087000#32 .DC_SYS_CR_SYSTEM .SYS systemFields

/-- `SYS #<op1>, <Cn>, <Cm>, #<op2>{, <Xt>}` -/
def TryExtractSYS_CR_SYSTEM : Extractor 32 InstData :=
  encoding 0xfff80000#32 0xd5080000#32 .SYS_CR_SYSTEM .SYS systemFields

/-- `SYSL <Xt>, #<op1>, <Cn>, <Cm>, #<op2>` -/
def TryExtractSYSL_RC_SYSTEM : Extractor 32 InstData :=
  encoding 0xfff80000#32 0xd5280000#32 .SYSL_RC_SYSTEM .SYSL systemFields

/-- `MRS <Xt>, (<systemreg>|S<op0>_<op1>_<Cn>_<Cm>_<op2>)` -/
def TryExtractMRS_RS_SYSTEM : Extractor 32 InstData :=
  encoding 0xfff00000#32 0xd5300000#32 .MRS_RS_SYSTEM .MRS systemRegFields

/-- `MSR (<systemreg>|S<op0>_<op1>_<Cn>_<Cm>_<op2>), <Xt>` -/
def TryExtractMSR_SR_SYSTEM : Extractor 32 InstData :=
  encoding 0xfff00000#32 0xd5100000#32 .MSR_SR_SYSTEM .MSR systemRegFields

/-- `B.<cond> <label>` -/
def TryExtractB_ONLY_CONDBRANCH : Extractor 32 InstData :=
  encoding 0xff000010#32 0x54000000#32 .B_ONLY_CONDBRANCH .B condBranchFields

/-- `CBZ <Xt>, <label>` -/
def TryExtractCBZ_64_COMPBRANCH : Extractor 32 InstData :=
  encoding 0xff000000#32 0xb4000000#32 .CBZ_64_COMPBRANCH .CBZ compBranchFields

/-- `CBNZ <Wt>, <label>` -/
def TryExtractCBNZ_32_COMPBRANCH : Extractor 32 InstData :=
  encoding 0xff000000#32 0x35000000#32 .CBNZ_32_COMPBRANCH .CBNZ compBranchFields

/-- `CBZ <Wt>, <label>` -/
def TryExtractCBZ_32_COMPBRANCH : Extractor 32 InstData :=
  encoding 0xff000000#32 0x34000000#32 .CBZ_32_COMPBRANCH .CBZ compBranchFields

/-- `CBNZ <Xt>, <label>` -/
def TryExtractCBNZ_64_COMPBRANCH : Extractor 32 InstData :=
  encoding 0xff000000#32 0xb5000000#32 .CBNZ_64_COMPBRANCH .CBNZ compBranchFields

/-- `TBZ <R><t>, #<imm>, <label>` -/
def TryExtractTBZ_ONLY_TESTBRANCH : Extractor 32 InstData :=
  encoding 0x7f000000#32 0x36000000#32 .TBZ_ONLY_TESTBRANCH .TBZ testBranchFields

/-- `TBNZ <R><t>, #<imm>, <label>` -/
def TryExtractTBNZ_ONLY_TESTBRANCH : Extractor 32 InstData :=
  encoding 0x7f000000#32 0x37000000#32 .TBNZ_ONLY_TESTBRANCH .TBNZ testBranchFields

/-- `BL <label>` -/
def TryExtractBL_ONLY_BRANCH_IMM : Extractor 32 InstData :=
  encoding 0xfc000000#32 0x94000000#32 .BL_ONLY_BRANCH_IMM .BL branchImmFields

/-- `B <label>` -/
def TryExtractB_ONLY_BRANCH_IMM : Extractor 32 InstData :=
  encoding 0xfc000000#32 0x14000000#32 .B_ONLY_BRANCH_IMM .B branchImmFields

/-- The data processing with an immediate, in the order in which it is tried. -/
def TryExtract4 : List (Extractor 32 InstData) :=
  [TryExtractEXTR_32_EXTRACT, TryExtractEXTR_64_EXTRACT, TryExtractEOR_32_LOG_IMM,
    TryExtractBFM_32M_BITFIELD, TryExtractSBFM_32M_BITFIELD, TryExtractUBFM_64M_BITFIELD,
    TryExtractBFM_64M_BITFIELD, TryExtractAND_32_LOG_IMM, TryExtractSBFM_64M_BITFIELD,
    TryExtractANDS_32S_LOG_IMM, TryExtractUBFM_32M_BITFIELD, TryExtractORR_32_LOG_IMM,
    TryExtractORR_64_LOG_IMM, TryExtractMOVN_64_MOVEWIDE, TryExtractMOVZ_64_MOVEWIDE,
    TryExtractMOVK_32_MOVEWIDE, TryExtractAND_64_LOG_IMM, TryExtractMOVZ_32_MOVEWIDE,
    TryExtractMOVN_32_MOVEWIDE, TryExtractMOVK_64_MOVEWIDE, TryExtractANDS_64S_LOG_IMM,
    TryExtractEOR_64_LOG_IMM, TryExtractADD_32_ADDSUB_IMM, TryExtractSUB_32_ADDSUB_IMM,
    TryExtractADDS_32S_ADDSUB_IMM, TryExtractSUBS_64S_ADDSUB_IMM, TryExtractSUBS_32S_ADDSUB_IMM,
    TryExtractSUB_64_ADDSUB_IMM, TryExtractADDS_64S_ADDSUB_IMM, TryExtractADD_64_ADDSUB_IMM,
    TryExtractADR_ONLY_PCRELADDR, TryExtractADRP_ONLY_PCRELADDR]

/-- The branches, exceptions and system instructions, in the order in which they are tried. -/
def TryExtract5 : List (Extractor 32 InstData) :=
  [TryExtractWFI_HI_SYSTEM, TryExtractERET_64E_BRANCH_REG, TryExtractESB_HI_SYSTEM,
    TryExtractDRPS_64E_BRANCH_REG, TryExtractWFE_HI_SYSTEM, TryExtractNOP_HI_SYSTEM,
    TryExtractSEV_HI_SYSTEM, TryExtractPSB_HC_SYSTEM, TryExtractYIELD_HI_SYSTEM,
    TryExtractSEVL_HI_SYSTEM, TryExtractHINT_1, TryExtractHINT_3, TryExtractDSB_BO_SYSTEM,
    TryExtractISB_BI_SYSTEM, TryExtractCLREX_BN_SYSTEM, TryExtractDMB_BO_SYSTEM,
    TryExtractBLR_64_BRANCH_REG, TryExtractBR_64_BRANCH_REG, TryExtractRET_64R_BRANCH_REG,
    TryExtractHINT_2, TryExtractMSR_SI_SYSTEM, TryExtractDCPS3_DC_EXCEPTION,
    TryExtractDCPS2_DC_EXCEPTION, TryExtractBRK_EX_EXCEPTION, TryExtractHVC_EX_EXCEPTION,
    TryExtractDCPS1_DC_EXCEPTION, TryExtractHLT_EX_EXCEPTION, TryExtractSMC_EX_EXCEPTION,
    TryExtractSVC_EX_EXCEPTION, TryExtractDC_SYS_CR_SYSTEM, TryExtractSYS_CR_SYSTEM,
    TryExtractSYSL_RC_SYSTEM, TryExtractMRS_RS_SYSTEM, TryExtractMSR_SR_SYSTEM,
    TryExtractB_ONLY_CONDBRANCH, TryExtractCBZ_64_COMPBRANCH, TryExtractCBNZ_32_COMPBRANCH,
    TryExtractCBZ_32_COMPBRANCH, TryExtractCBNZ_64_COMPBRANCH, TryExtractTBZ_ONLY_TESTBRANCH,
    TryExtractTBNZ_ONLY_TESTBRANCH, TryExtractBL_ONLY_BRANCH_IMM, TryExtractB_ONLY_BRANCH_IMM]

/-! ### The first step -/

/-- The instruction word of four bytes, the lowest first. -/
def instBits (bytes : List (BitVec 8)) : BitVec 32 :=
  bytes.foldr (fun byte bits => bits <<< 8 ||| byte.setWidth 32) 0#32

/-- `kFirstLevel`: the groups other than the two are `others`. -/
def kFirstLevel (others : BitVec 3 → BitVec 32 → Option InstData) (index : BitVec 3)
    (bits : BitVec 32) : Option InstData :=
  if index = 4#3 then firstOf TryExtract4 bits
  else if index = 5#3 then firstOf TryExtract5 bits
  else others index bits

/-- The group of a word is its bits 28 to 26. -/
def TryExtract (others : BitVec 3 → BitVec 32 → Option InstData) (bits : BitVec 32) :
    Option InstData :=
  let index := (bits >>> 28 &&& 1#32) <<< 2 ||| (bits >>> 27 &&& 1#32) <<< 1 |||
    (bits >>> 26 &&& 1#32) <<< 0
  kFirstLevel others (index.setWidth 3) bits

end Elfconv.AArch64
