/-
Elfconv/Decoder/Isel.lean

The semantics functions by the names of the encodings, for the data processing with an immediate and
the branches.

`ISEL` is the table that the lifter looks the function of an instruction up in.  A template is
called on the values of its arguments, at the width of the form that it is instantiated for.
-/
import Elfconv.Decoder.Decode

namespace Elfconv.AArch64

open CInt

variable {w : ℕ}

/-! ### Semantics functions -/

/-- `CBZ` branches on zero. -/
def CBZ (src : BitVec w) : BitVec 64 := UCmpEq src 0#w

/-- `CBNZ` branches on anything but zero. -/
def CBNZ (src : BitVec w) : BitVec 64 := UCmpNeq src 0#w

/-- The bit that `TBZ` and `TBNZ` test. -/
def testBit (bit_pos : BitVec 8) (src : BitVec w) : Option (BitVec w) := do
  let bit_n := ZExtTo w bit_pos
  let reg_val := ZExtTo w src
  UAnd reg_val (← UShl (ZExtTo w 1#w) bit_n)

/-- `TBZ` branches where the bit is clear. -/
def TBZ (bit_pos : BitVec 8) (src : BitVec w) : Option (BitVec 64) := do
  return UCmpEq (← testBit bit_pos src) 0#w

/-- `TBNZ` branches where the bit is set. -/
def TBNZ (bit_pos : BitVec 8) (src : BitVec w) : Option (BitVec 64) := do
  return UCmpNeq (← testBit bit_pos src) 0#w

/-- The shift of `0xFFFF` is done at the width of the shift. -/
def MoveWithKeep (src : BitVec w) (imm : BitVec 16) (shift_ : BitVec 8) : Option (BitVec w) := do
  let shift := ZExtTo w shift_
  let val ← UShl (ZExtTo w imm) shift
  let mask ← UNot (← UShl (ZExtTo w 0xFFFF#64) shift)
  UOr (← UAnd (ZExtTo w src) mask) val

/-- `ADRP` clears the offset in the page. -/
def ADRP (label : BitVec 64) : Option (BitVec 64) := do
  UAnd (← UNot 4095#64) label

/-! ### Calls -/

/-- An argument at the width of the parameter. -/
def Arg.read (w : ℕ) : Arg → BitVec w
  | .value v => v.bits.setWidth w
  | .word bits => bits.setWidth w

/-- A result at the width of a form. -/
def Form.value : (f : Form) → BitVec f.size → Value
  | .W, x => ⟨.RegW, x⟩
  | .X, x => ⟨.RegX, x⟩

@[simp] theorem Form.value_erc (f : Form) (x : BitVec f.size) : (f.value x).erc = f.rclass := by
  cases f <;> rfl

/-- A function of `arity` arguments that returns nothing. -/
def SemaFunc.void (arity : ℕ) : SemaFunc where
  returns := []
  call args mem := if args.length = arity then some ([], mem) else none
  typed args mem r h := by
    split_ifs at h
    obtain rfl := Option.some.inj h
    rfl

/-- A function that returns a value of a form. -/
def SemaFunc.single (f : Form) (op : List Arg → Option (BitVec f.size)) : SemaFunc where
  returns := [f.rclass]
  call args mem := (op args).map fun x => ([f.value x], mem)
  typed args mem r h := by
    obtain ⟨x, -, rfl⟩ := Option.map_eq_some_iff.mp h
    exact congrArg (fun erc => [erc]) (f.value_erc x)

/-- A function that returns the flags with its value. -/
def SemaFunc.withFlags (f : Form) (op : List Arg → Option (BitVec f.size × BitVec 64)) :
    SemaFunc where
  returns := [f.rclass, .RegX]
  call args mem := (op args).map fun p => ([f.value p.1, Form.X.value p.2], mem)
  typed args mem r h := by
    obtain ⟨p, -, rfl⟩ := Option.map_eq_some_iff.mp h
    exact congrArg (fun erc => [erc, .RegX]) (f.value_erc p.1)

/-- `B` computes nothing: the lifter follows the target of the decoder. -/
def DoDirectBranch : SemaFunc := .void 0

/-- `BR` computes nothing either: the lifter reads the target itself. -/
def DoIndirectBranch : SemaFunc := .void 1

/-- `NOP` -/
def DoNOP : SemaFunc := .void 0

/-- `B.cond` returns what the condition function makes of the flags. -/
def DirectCondBranch (check_cond : BitVec 64 → BitVec 64) : SemaFunc := .single .X fun args =>
  match args with
  | [ecv_nzcv_src] => some (check_cond (ecv_nzcv_src.read 64))
  | _ => none

/-- `AL` and `NV` always hold. -/
def CondAL (_ : BitVec 64) : BitVec 64 := 1#64

/-- `BL` and `BLR` return the address for `X30`. -/
def CALL : SemaFunc := .single .X fun args =>
  match args with
  | [_, ret_addr] => some (ret_addr.read 64)
  | _ => none

/-- `RET` returns its target, which becomes the program counter. -/
def RET : SemaFunc := .single .X fun args =>
  match args with
  | [target_pc] => some (target_pc.read 64)
  | _ => none

/-- `Load` of a constant or of an address that is computed. -/
def Load (f : Form) : SemaFunc := .single f fun args =>
  match args with
  | [src] => some (src.read f.size)
  | _ => none

/-- The comparisons return 64 bits, whatever they compare. -/
def callTest (f : Form) (op : BitVec f.size → BitVec 64) : SemaFunc := .single .X fun args =>
  match args with
  | [src] => some (op (src.read f.size))
  | _ => none

/-- The tests of a bit, which come with its position. -/
def callTestBit (f : Form) (op : BitVec 8 → BitVec f.size → Option (BitVec 64)) : SemaFunc :=
  .single .X fun args =>
    match args with
    | [bit_pos, src] => op (bit_pos.read 8) (src.read f.size)
    | _ => none

/-- The functions of one operand. -/
def callUnary (f : Form) (op : BitVec f.size → Option (BitVec f.size)) : SemaFunc :=
  .single f fun args =>
    match args with
    | [src] => op (src.read f.size)
    | _ => none

/-- The functions of two operands. -/
def callBinary (f : Form) (op : BitVec f.size → BitVec f.size → Option (BitVec f.size)) :
    SemaFunc :=
  .single f fun args =>
    match args with
    | [src1, src2] => op (src1.read f.size) (src2.read f.size)
    | _ => none

/-- The functions that return the flags with their result. -/
def callFlags (f : Form)
    (op : BitVec f.size → BitVec f.size → Option (BitVec f.size × BitVec 64)) : SemaFunc :=
  .withFlags f fun args =>
    match args with
    | [src1, src2] => op (src1.read f.size) (src2.read f.size)
    | _ => none

/-- `MOVK` takes the old value, the immediate and the shift. -/
def callMoveWithKeep (f : Form) : SemaFunc := .single f fun args =>
  match args with
  | [src, imm, shift_] => MoveWithKeep (src.read f.size) (imm.read 16) (shift_.read 8)
  | _ => none

/-- `EXTR` takes the two registers and the lowest bit. -/
def callEXTR (f : Form) : SemaFunc := .single f fun args =>
  match args with
  | [src1, src2, src3] => EXTR (src1.read f.size) (src2.read f.size) (src3.read f.size)
  | _ => none

/-- The bit-field moves and the logical instructions, of which `ANDS` returns the flags. -/
def callMask (i : MaskInst) (f : Form) : SemaFunc :=
  if i = .ANDS then
    .withFlags f fun args => do
      let r ← i.call (args.map (Arg.read f.size))
      return (r.value, ← r.nzcv)
  else
    .single f fun args => do
      let r ← i.call (args.map (Arg.read f.size))
      return r.value

/-! ### The table -/

/-- The function of a name; nothing where there is none. -/
def ISEL (ovf : Overflow) (flag : OverflowFlag) : InstForm → FunctionSuffix → Option SemaFunc
  | .BR_64_BRANCH_REG, .none => some DoIndirectBranch
  | .B_ONLY_BRANCH_IMM, .none => some DoDirectBranch
  | .B_ONLY_CONDBRANCH, .cond (some c) => some (DirectCondBranch c.check)
  | .B_ONLY_CONDBRANCH, .cond none => some (DirectCondBranch CondAL)
  | .CBZ_64_COMPBRANCH, .none => some (callTest .X CBZ)
  | .CBZ_32_COMPBRANCH, .none => some (callTest .W CBZ)
  | .CBNZ_64_COMPBRANCH, .none => some (callTest .X CBNZ)
  | .CBNZ_32_COMPBRANCH, .none => some (callTest .W CBNZ)
  | .TBZ_ONLY_TESTBRANCH, .width f => some (callTestBit f TBZ)
  | .TBNZ_ONLY_TESTBRANCH, .width f => some (callTestBit f TBNZ)
  | .RET_64R_BRANCH_REG, .none => some RET
  | .BLR_64_BRANCH_REG, .none => some CALL
  | .BL_ONLY_BRANCH_IMM, .none => some CALL
  | .NOP_HI_SYSTEM, .none => some DoNOP
  | .ADRP_ONLY_PCRELADDR, .none => some (callUnary .X ADRP)
  | .ADR_ONLY_PCRELADDR, .none => some (Load .X)
  | .ADD_32_ADDSUB_IMM, .none => some (callBinary .W ADD)
  | .ADD_64_ADDSUB_IMM, .none => some (callBinary .X ADD)
  | .SUB_32_ADDSUB_IMM, .none => some (callBinary .W SUB)
  | .SUB_64_ADDSUB_IMM, .none => some (callBinary .X SUB)
  | .SUBS_32S_ADDSUB_IMM, .none => some (callFlags .W (SUBS ovf flag))
  | .SUBS_64S_ADDSUB_IMM, .none => some (callFlags .X (SUBS ovf flag))
  | .ADDS_32S_ADDSUB_IMM, .none => some (callFlags .W (ADDS ovf flag))
  | .ADDS_64S_ADDSUB_IMM, .none => some (callFlags .X (ADDS ovf flag))
  | .MOVZ_32_MOVEWIDE, .none => some (Load .W)
  | .MOVZ_64_MOVEWIDE, .none => some (Load .X)
  | .MOVN_32_MOVEWIDE, .none => some (Load .W)
  | .MOVN_64_MOVEWIDE, .none => some (Load .X)
  | .MOVK_32_MOVEWIDE, .none => some (callMoveWithKeep .W)
  | .MOVK_64_MOVEWIDE, .none => some (callMoveWithKeep .X)
  | .EXTR_32_EXTRACT, .none => some (callEXTR .W)
  | .EXTR_64_EXTRACT, .none => some (callEXTR .X)
  | .UBFM_32M_BITFIELD, .none => some (callMask .UBFM .W)
  | .UBFM_64M_BITFIELD, .none => some (callMask .UBFM .X)
  | .SBFM_32M_BITFIELD, .none => some (callMask .SBFM .W)
  | .SBFM_64M_BITFIELD, .none => some (callMask .SBFM .X)
  | .BFM_32M_BITFIELD, .none => some (callMask .BFM .W)
  | .BFM_64M_BITFIELD, .none => some (callMask .BFM .X)
  | .EOR_32_LOG_IMM, .none => some (callMask .EOR .W)
  | .EOR_64_LOG_IMM, .none => some (callMask .EOR .X)
  | .AND_32_LOG_IMM, .none => some (callMask .AND .W)
  | .AND_64_LOG_IMM, .none => some (callMask .AND .X)
  | .ORR_32_LOG_IMM, .none => some (callMask .ORR .W)
  | .ORR_64_LOG_IMM, .none => some (callMask .ORR .X)
  | .ANDS_32S_LOG_IMM, .none => some (callMask .ANDS .W)
  | .ANDS_64S_LOG_IMM, .none => some (callMask .ANDS .X)
  | _, _ => none

end Elfconv.AArch64
