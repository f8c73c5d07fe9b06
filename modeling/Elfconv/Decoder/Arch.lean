/-
Elfconv/Decoder/Arch.lean

The architecture of the lifter: from the bytes at an address to the lifted instruction, and to what
its code does to the program.

The encodings whose decoders are in `Elfconv/Decoder/Decode.lean` go all the way.  What the lifter
and the code make of the others is a parameter, `Others`.
-/
import Elfconv.Decoder.Isel
import Elfconv.Recovery.Following

namespace Elfconv.AArch64

open CInt

/-! ### The decoder -/

/-- The category by the name of the instruction. -/
def InstCategory (inst : InstData) : Category :=
  match inst.iclass with
  | .B => if inst.iform = .B_ONLY_CONDBRANCH then .conditionalBranch else .directJump
  | .BR => .indirectJump
  | .CBZ | .CBNZ | .TBZ | .TBNZ => .conditionalBranch
  | .BL => .directFunctionCall
  | .BLR => .indirectFunctionCall
  | .RET => .functionReturn
  | .HLT => .error
  | .HVC | .SMC | .SVC | .SYS | .SYSL => .asyncHyperCall
  | .HINT | .NOP => .noOp
  | _ => .normal

section

variable (big : Overshift)

/-- `kDecoder`, for the encodings whose decoders are here. -/
def kDecoder : InstForm → Option (InstData → DecodedInst → Option (Option DecodedInst))
  | .RET_64R_BRANCH_REG => some InstData.TryDecodeRET_64R_BRANCH_REG
  | .BLR_64_BRANCH_REG => some InstData.TryDecodeBLR_64_BRANCH_REG
  | .BR_64_BRANCH_REG => some InstData.TryDecodeBR_64_BRANCH_REG
  | .B_ONLY_BRANCH_IMM => some InstData.TryDecodeB_ONLY_BRANCH_IMM
  | .BL_ONLY_BRANCH_IMM => some InstData.TryDecodeBL_ONLY_BRANCH_IMM
  | .B_ONLY_CONDBRANCH => some InstData.TryDecodeB_ONLY_CONDBRANCH
  | .CBZ_32_COMPBRANCH => some InstData.TryDecodeCBZ_32_COMPBRANCH
  | .CBZ_64_COMPBRANCH => some InstData.TryDecodeCBZ_64_COMPBRANCH
  | .CBNZ_32_COMPBRANCH => some InstData.TryDecodeCBNZ_32_COMPBRANCH
  | .CBNZ_64_COMPBRANCH => some InstData.TryDecodeCBNZ_64_COMPBRANCH
  | .TBZ_ONLY_TESTBRANCH => some InstData.TryDecodeTBZ_ONLY_TESTBRANCH
  | .TBNZ_ONLY_TESTBRANCH => some InstData.TryDecodeTBNZ_ONLY_TESTBRANCH
  | .NOP_HI_SYSTEM => some InstData.TryDecodeNOP_HI_SYSTEM
  | .ADR_ONLY_PCRELADDR => some InstData.TryDecodeADR_ONLY_PCRELADDR
  | .ADRP_ONLY_PCRELADDR => some InstData.TryDecodeADRP_ONLY_PCRELADDR
  | .ADD_32_ADDSUB_IMM => some InstData.TryDecodeADD_32_ADDSUB_IMM
  | .ADD_64_ADDSUB_IMM => some InstData.TryDecodeADD_64_ADDSUB_IMM
  | .SUB_32_ADDSUB_IMM => some InstData.TryDecodeSUB_32_ADDSUB_IMM
  | .SUB_64_ADDSUB_IMM => some InstData.TryDecodeSUB_64_ADDSUB_IMM
  | .SUBS_32S_ADDSUB_IMM => some InstData.TryDecodeSUBS_32S_ADDSUB_IMM
  | .SUBS_64S_ADDSUB_IMM => some InstData.TryDecodeSUBS_64S_ADDSUB_IMM
  | .ADDS_32S_ADDSUB_IMM => some InstData.TryDecodeADDS_32S_ADDSUB_IMM
  | .ADDS_64S_ADDSUB_IMM => some InstData.TryDecodeADDS_64S_ADDSUB_IMM
  | .MOVZ_32_MOVEWIDE => some InstData.TryDecodeMOVZ_32_MOVEWIDE
  | .MOVZ_64_MOVEWIDE => some InstData.TryDecodeMOVZ_64_MOVEWIDE
  | .MOVN_32_MOVEWIDE => some InstData.TryDecodeMOVN_32_MOVEWIDE
  | .MOVN_64_MOVEWIDE => some InstData.TryDecodeMOVN_64_MOVEWIDE
  | .MOVK_32_MOVEWIDE => some InstData.TryDecodeMOVK_32_MOVEWIDE
  | .MOVK_64_MOVEWIDE => some InstData.TryDecodeMOVK_64_MOVEWIDE
  | .EXTR_32_EXTRACT => some InstData.TryDecodeEXTR_32_EXTRACT
  | .EXTR_64_EXTRACT => some InstData.TryDecodeEXTR_64_EXTRACT
  | .UBFM_32M_BITFIELD => some (InstData.TryDecodeUBFM_32M_BITFIELD big)
  | .UBFM_64M_BITFIELD => some (InstData.TryDecodeUBFM_64M_BITFIELD big)
  | .SBFM_32M_BITFIELD => some (InstData.TryDecodeSBFM_32M_BITFIELD big)
  | .SBFM_64M_BITFIELD => some (InstData.TryDecodeSBFM_64M_BITFIELD big)
  | .BFM_32M_BITFIELD => some (InstData.TryDecodeBFM_32M_BITFIELD big)
  | .BFM_64M_BITFIELD => some (InstData.TryDecodeBFM_64M_BITFIELD big)
  | .EOR_32_LOG_IMM => some (InstData.TryDecodeEOR_32_LOG_IMM big)
  | .EOR_64_LOG_IMM => some (InstData.TryDecodeEOR_64_LOG_IMM big)
  | .AND_32_LOG_IMM => some (InstData.TryDecodeAND_32_LOG_IMM big)
  | .AND_64_LOG_IMM => some (InstData.TryDecodeAND_64_LOG_IMM big)
  | .ORR_32_LOG_IMM => some (InstData.TryDecodeORR_32_LOG_IMM big)
  | .ORR_64_LOG_IMM => some (InstData.TryDecodeORR_64_LOG_IMM big)
  | .ANDS_32S_LOG_IMM => some (InstData.TryDecodeANDS_32S_LOG_IMM big)
  | .ANDS_64S_LOG_IMM => some (InstData.TryDecodeANDS_64S_LOG_IMM big)
  | _ => none

end

/-- The decoder of the encoding is here. -/
def InstForm.embedded (f : InstForm) : Bool := (kDecoder .undefined f).isSome

/-- The decoders that are here are those of the embedded encodings. -/
theorem kDecoder_isSome (big : Overshift) (f : InstForm) :
    (kDecoder big f).isSome = f.embedded := by
  cases f <;> rfl

/-- The encodings of the other groups, and what the lifter and the code make of the instructions
whose decoders are not here.  `exec indirectbr` is the code at an address, in a function with an
indirect branch or without, with the value that it leaves in `BRANCH_TAKEN`. -/
structure Others where
  extract : BitVec 3 → BitVec 32 → Option InstData
  lift : Addr → InstData → Option LiftedInst
  exec : Bool → Addr → InstData → Guest → Option (Guest × Bool)
  extract_other : ∀ index bits data, index ≠ 4#3 → index ≠ 5#3 → extract index bits = some data →
    data.iform.embedded = false

/-- The outcome of `ArchDecodeInstruction`. -/
inductive Decoded
  | invalid
  | inst (i : DecodedInst)
  | other (data : InstData)

/-- Every instruction is one word. -/
def kInstructionSize : ℕ := 4

/-- An instruction before its operands are decoded. -/
def InstData.start (data : InstData) (address : Addr) : DecodedInst where
  pc := address
  next_pc := address + 4#64
  category := InstCategory data
  branch_taken_pc := 0#64
  branch_not_taken_pc := 0#64
  iform := data.iform

section

variable (o : Others) (big : Overshift)

/-- Nothing where C++ does not define what the decoder computes. -/
def decodeData (address : Addr) (data : InstData) : Option Decoded :=
  match kDecoder big data.iform with
  | none => some (.other data)
  | some TryDecode =>
      (TryDecode data (data.start address)).map fun inst =>
        inst.elim .invalid .inst

/-- Nothing is decoded from an address that is not aligned or from fewer than four bytes. -/
def ArchDecodeInstruction (address : Addr) (inst_bytes : List (BitVec 8)) : Option Decoded :=
  if kInstructionSize ≠ inst_bytes.length then some .invalid
  else if address % 4#64 ≠ 0#64 then some .invalid
  else
    match TryExtract o.extract (instBits inst_bytes) with
    | none => some .invalid
    | some data => decodeData big address data

end

/-! ### The lifter -/

section

variable (o : Others) (big : Overshift) (ovf : Overflow) (flag : OverflowFlag)

/-- What the lifter makes of a decoded instruction. -/
def Decoded.lift (address : Addr) : Decoded → Option LiftedInst
  | .invalid => some ⟨⟨.invalid, address + 4#64, 0#64, 0#64⟩, false, [], []⟩
  | .inst i => LiftIntoBlock (ISEL ovf flag i.iform i.suffix) i
  | .other data => o.lift address data

/-- The architecture, as the lifter uses it. -/
def arch : Arch := fun address inst_bytes =>
  (ArchDecodeInstruction o big address inst_bytes).bind (Decoded.lift o ovf flag address)

/-! ### The code -/

/-- The value that a conditional branch looks at. -/
def Guest.branchTaken (g : Guest) : Bool :=
  (g.regs ⟨.Special, BRANCH_TAKEN_ORDER⟩).setWidth 64 == 1#64

/-- What the code of a decoded instruction does. -/
def Decoded.exec (indirectbr : Bool) (address : Addr) (g : Guest) :
    Decoded → Option (Guest × Bool)
  | .invalid => none
  | .inst i => do
      let sema ← ISEL ovf flag i.iform i.suffix
      let g' ← i.exec indirectbr sema g
      return (g', g'.branchTaken)
  | .other data => o.exec indirectbr address data g

/-- A register by the name of the variable that it was loaded to. -/
def Guest.readName (g : Guest) (name : String) : Addr :=
  match (List.finRange 31).find? fun n => (RegName.X n).text = name with
  | some n => (g.regs ⟨.General, n⟩).setWidth 64
  | none => 0#64

/-- The code of the instructions of a program. -/
def instCode {m : TraceManager} (im : LiftedImage m) (patch : Guest → Guest) : InstCode Guest where
  exec fn a g := (ArchDecodeInstruction o big a (m.readInstructionBytes a)).bind
    (Decoded.exec o ovf flag (im.functionOf fn).indirectbr_block a g)
  read := Guest.readName
  temp_patch_f_flags := patch

end

end Elfconv.AArch64
