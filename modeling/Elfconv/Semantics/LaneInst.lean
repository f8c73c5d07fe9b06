/-
Elfconv/Semantics/LaneInst.lean

The integer instructions on vectors, from the fields of the instruction to the destination register.

The decoders differ in the sizes they reject.  Each adds the arrangement to the name of the
instruction; the table of the `DEF_ISEL`s gives the semantics function of that name, on operands of
the class of the arrangement.
-/
import Elfconv.Semantics.BitCount
import Elfconv.Semantics.LaneFolds
import Elfconv.Semantics.Vectors

namespace Elfconv.AArch64

open CInt Lanes

variable {n w : ℕ}

/-! ### The decoders -/

/-- The fields of the instructions. -/
structure SimdFields where
  Q : BitVec 1
  size : BitVec 2
  Rd : BitVec 5
  Rn : BitVec 5
  Rm : BitVec 5

namespace SimdFields

variable (d : SimdFields)

/-- The common part: the arrangement is added to the name, and all operands are of its class. -/
def decodeArranged (elem_size : ℕ) (srcs : List (BitVec 5)) (imms : List (BitVec 64)) :
    Option (Option VectorInst) := do
  let total_size := if d.Q = 1#1 then 128 else 64
  let specifier ← ArrangementSpecifier total_size elem_size
  let rclass ← ArrangementRegClass total_size elem_size false
  return some ⟨[specifier], (rclass, d.Rd), srcs.map fun r => (rclass, r), imms⟩

/-- The single double word is rejected. -/
def TryDecodeADD_ASIMDSAME_ONLY : Option (Option VectorInst) :=
  if 0x3#2 = d.size ∧ d.Q = 0#1 then some none
  else d.decodeArranged (8 <<< d.size.toNat) [d.Rn, d.Rm] []

/-- The comparisons reject the single double word as well. -/
def TryDecodeCMEQ_ASIMDSAME_ONLY : Option (Option VectorInst) :=
  if d.size = 3#2 ∧ d.Q = 0#1 then some none
  else d.decodeArranged (8 <<< d.size.toNat) [d.Rn, d.Rm] []

/-- The minima and maxima reject all double words. -/
def TryDecodeUMAXP_ASIMDSAME_ONLY : Option (Option VectorInst) :=
  if 0x3#2 = d.size then some none
  else d.decodeArranged (8 <<< d.size.toNat) [d.Rn, d.Rm] []

/-- The comparisons with zero, which is an immediate. -/
def TryDecodeCMEQ_ASIMDMISC_Z : Option (Option VectorInst) :=
  if d.size = 3#2 ∧ d.Q = 0#1 then some none
  else d.decodeArranged (8 <<< d.size.toNat) [d.Rn] [0#64]

/-- The reductions reject two words and all double words. -/
def TryDecodeADDV_ASIMDALL_ONLY : Option (Option VectorInst) :=
  if d.size = 0x2#2 ∧ d.Q = 0#1 then some none
  else if d.size = 0x3#2 then some none
  else d.decodeArranged (8 <<< d.size.toNat) [d.Rn] []

/-- The size is not looked at. -/
def TryDecodeCNT_ASIMDMISC_R : Option (Option VectorInst) := do
  let specifier ← ArrangementSpecifier (if d.Q = 1#1 then 128 else 64) 8
  let rclass := if d.Q = 1#1 then ERC.Reg16B else ERC.Reg8B
  return some ⟨[specifier], (rclass, d.Rd), [(rclass, d.Rn)], []⟩

/-- Every size but the first is taken for that of half-words. -/
def TryDecodeREV32_ASIMDMISC_R : Option (Option VectorInst) :=
  d.decodeArranged (if d.size ≠ 0#2 then 16 else 8) [d.Rn] []

/-- The name has an arrangement of bytes, the operands are of double words. -/
def decodeBitwise (srcs : List (BitVec 5)) : Option (Option VectorInst) :=
  let specifier := if d.Q = 1#1 then Arrangement.B16 else Arrangement.B8
  let rclass := if d.Q = 1#1 then ERC.Reg2D else ERC.Reg1D
  some (some ⟨[specifier], (rclass, d.Rd), srcs.map fun r => (rclass, r), []⟩)

/-- The destination is only written. -/
def TryDecodeORR_ASIMDSAME_ONLY : Option (Option VectorInst) := d.decodeBitwise [d.Rn, d.Rm]

/-- The destination is read as well, before the sources. -/
def TryDecodeBIT_ASIMDSAME_ONLY : Option (Option VectorInst) := d.decodeBitwise [d.Rd, d.Rn, d.Rm]

/-- The scalar comparison, whose operands are whole registers. -/
def TryDecodeCMGE_ASISDMISC_Z : Option (Option VectorInst) :=
  if d.size ≠ 0b11#2 then some none
  else some (some ⟨[], (.Reg2D, d.Rd), [(.Reg2D, d.Rn)], []⟩)

end SimdFields

/-- The instructions, by their decoders. -/
inductive LaneOp
  | ADD_ASIMDSAME_ONLY | SUB_ASIMDSAME_ONLY | ADDP_ASIMDSAME_ONLY
  | UMIN_ASIMDSAME_ONLY | UMAX_ASIMDSAME_ONLY | SMIN_ASIMDSAME_ONLY | SMAX_ASIMDSAME_ONLY
  | UMINP_ASIMDSAME_ONLY | UMAXP_ASIMDSAME_ONLY | SMINP_ASIMDSAME_ONLY | SMAXP_ASIMDSAME_ONLY
  | CMEQ_ASIMDSAME_ONLY | CMGE_ASIMDSAME_ONLY | CMGT_ASIMDSAME_ONLY | CMTST_ASIMDSAME_ONLY
  | CMHS_ASIMDSAME_ONLY
  | CMEQ_ASIMDMISC_Z | CMLT_ASIMDMISC_Z | CMLE_ASIMDMISC_Z | CMGT_ASIMDMISC_Z | CMGE_ASIMDMISC_Z
  | EOR_ASIMDSAME_ONLY | BIT_ASIMDSAME_ONLY | BIF_ASIMDSAME_ONLY | BSL_ASIMDSAME_ONLY
  | ADDV_ASIMDALL_ONLY | UMINV_ASIMDALL_ONLY | UMAXV_ASIMDALL_ONLY | SMINV_ASIMDALL_ONLY
  | SMAXV_ASIMDALL_ONLY
  | CNT_ASIMDMISC_R | REV32_ASIMDMISC_R | CMGE_ASISDMISC_Z
  deriving DecidableEq

namespace LaneOp

/-- Most decoders are a call of another one. -/
def TryDecode (d : SimdFields) : LaneOp → Option (Option VectorInst)
  | ADD_ASIMDSAME_ONLY | SUB_ASIMDSAME_ONLY | ADDP_ASIMDSAME_ONLY => d.TryDecodeADD_ASIMDSAME_ONLY
  | UMIN_ASIMDSAME_ONLY | UMAX_ASIMDSAME_ONLY | SMIN_ASIMDSAME_ONLY | SMAX_ASIMDSAME_ONLY
  | UMINP_ASIMDSAME_ONLY | UMAXP_ASIMDSAME_ONLY | SMINP_ASIMDSAME_ONLY | SMAXP_ASIMDSAME_ONLY =>
      d.TryDecodeUMAXP_ASIMDSAME_ONLY
  | CMEQ_ASIMDSAME_ONLY | CMGE_ASIMDSAME_ONLY | CMGT_ASIMDSAME_ONLY | CMTST_ASIMDSAME_ONLY
  | CMHS_ASIMDSAME_ONLY => d.TryDecodeCMEQ_ASIMDSAME_ONLY
  | CMEQ_ASIMDMISC_Z | CMLT_ASIMDMISC_Z | CMLE_ASIMDMISC_Z | CMGT_ASIMDMISC_Z | CMGE_ASIMDMISC_Z =>
      d.TryDecodeCMEQ_ASIMDMISC_Z
  | EOR_ASIMDSAME_ONLY => d.TryDecodeORR_ASIMDSAME_ONLY
  | BIT_ASIMDSAME_ONLY | BIF_ASIMDSAME_ONLY | BSL_ASIMDSAME_ONLY => d.TryDecodeBIT_ASIMDSAME_ONLY
  | ADDV_ASIMDALL_ONLY | UMINV_ASIMDALL_ONLY | UMAXV_ASIMDALL_ONLY | SMINV_ASIMDALL_ONLY
  | SMAXV_ASIMDALL_ONLY => d.TryDecodeADDV_ASIMDALL_ONLY
  | CNT_ASIMDMISC_R => d.TryDecodeCNT_ASIMDMISC_R
  | REV32_ASIMDMISC_R => d.TryDecodeREV32_ASIMDMISC_R
  | CMGE_ASISDMISC_Z => d.TryDecodeCMGE_ASISDMISC_Z

end LaneOp

/-! ### The semantics functions by their names -/

/-- From the arrangements in the name and the operands to the result. -/
abbrev Isel := List Arrangement → List Value → List (BitVec 64) → Option Value

namespace Isel

/-- A function template on two vectors, instantiated at some arrangements. -/
def binary (as : List Arrangement) (f : ∀ {n w : ℕ}, Vec n w → Vec n w → Option (Vec n w)) : Isel
  | [a], [x, y], [] =>
      if a ∈ as then
        (f (vecOf a.lanes a.esize x) (vecOf a.lanes a.esize y)).map (vecValue (a.regClass false))
      else none
  | _, _, _ => none

/-- On a vector and an immediate of the size of its elements. -/
def withImm (as : List Arrangement) (f : ∀ {n w : ℕ}, Vec n w → BitVec w → Option (Vec n w)) : Isel
  | [a], [x], [imm] =>
      if a ∈ as then
        (f (vecOf a.lanes a.esize x) (imm.setWidth a.esize)).map (vecValue (a.regClass false))
      else none
  | _, _, _ => none

/-- A function on a list of two operands. -/
def onTwo (f : Vec n w → Vec n w → Option (Vec n w)) : List (Vec n w) → Option (Vec n w)
  | [x, y] => f x y
  | _ => none

/-- A function on a list of three operands. -/
def onThree (f : Vec n w → Vec n w → Vec n w → Option (Vec n w)) :
    List (Vec n w) → Option (Vec n w)
  | [x, y, z] => f x y z
  | _ => none

/-- On the double words of vectors, where the name has an arrangement of bytes. -/
def bitwise (f : ∀ {n : ℕ}, List (Vec n 64) → Option (Vec n 64)) : Isel
  | [.B8], xs, [] => (f (xs.map (vecOf 1 64))).map (vecValue .Reg1D)
  | [.B16], xs, [] => (f (xs.map (vecOf 2 64))).map (vecValue .Reg2D)
  | _, _, _ => none

/-- The class of a result of a single element. -/
def scalarClass : Arrangement → ERC
  | .B8 | .B16 => .RegB
  | .H4 | .H8 => .RegH
  | .S2 | .S4 => .RegW
  | .D1 | .D2 => .RegX

/-- From a vector to an element. -/
def reduction (as : List Arrangement) (f : ∀ {n w : ℕ}, Vec n w → Option (BitVec w)) : Isel
  | [a], [x], [] =>
      if a ∈ as then
        (f (vecOf a.lanes a.esize x)).map fun r => ⟨scalarClass a, r.setWidth _⟩
      else none
  | _, _, _ => none

end Isel

namespace LaneOp

/-- The semantics function of an instruction, at the arrangements that have a `DEF_ISEL`. -/
def isel (ovf : Overflow) : LaneOp → Isel
  | ADD_ASIMDSAME_ONLY => .binary [.B8, .B16, .H4, .H8, .S2, .S4, .D2] ADD_V
  | SUB_ASIMDSAME_ONLY => .binary [.B8, .B16, .H4, .H8, .S2, .S4, .D2] SUB_V
  | ADDP_ASIMDSAME_ONLY => .binary [.B8, .B16, .H4, .H8, .S2, .S4, .D2] ADDP
  | UMIN_ASIMDSAME_ONLY => .binary [.B8, .B16, .H4, .H8, .S2, .S4] UMIN_V
  | UMAX_ASIMDSAME_ONLY => .binary [.B8, .B16, .H4, .H8, .S2, .S4] UMAX_V
  | SMIN_ASIMDSAME_ONLY => .binary [.B8, .B16, .H4, .H8, .S2, .S4] SMIN_V
  | SMAX_ASIMDSAME_ONLY => .binary [.B8, .B16, .H4, .H8, .S2, .S4] SMAX_V
  | UMINP_ASIMDSAME_ONLY => .binary [.B8, .B16, .H4, .H8, .S2, .S4] UMINP
  | UMAXP_ASIMDSAME_ONLY => .binary [.B8, .B16, .H4, .H8, .S2, .S4] UMAXP
  | SMINP_ASIMDSAME_ONLY => .binary [.B8, .B16, .H4, .H8, .S2, .S4] SMINP
  | SMAXP_ASIMDSAME_ONLY => .binary [.B8, .B16, .H4, .H8, .S2, .S4] SMAXP
  | CMEQ_ASIMDSAME_ONLY => .binary [.B8, .B16, .H4, .H8, .S2, .S4, .D2] CMPEQ
  | CMGE_ASIMDSAME_ONLY => .binary [.B8, .B16, .H4, .H8, .S2, .S4, .D2] CMPGE
  | CMGT_ASIMDSAME_ONLY => .binary [.B8, .B16, .H4, .H8, .S2, .S4, .D2] CMPGT
  | CMTST_ASIMDSAME_ONLY => .binary [.B8, .B16, .H4, .H8, .S2, .S4, .D2] CMPTST
  | CMHS_ASIMDSAME_ONLY => .binary [.B8, .B16, .H4, .H8, .S2, .S4, .D2] CMPHS
  | CMEQ_ASIMDMISC_Z => .withImm [.B8, .B16, .H4, .H8, .S2, .S4, .D1, .D2] CMPEQ_IMM
  | CMLT_ASIMDMISC_Z => .withImm [.B8, .B16, .H4, .H8, .S2, .S4, .D1, .D2] CMPLT_IMM
  | CMLE_ASIMDMISC_Z => .withImm [.B8, .B16, .H4, .H8, .S2, .S4, .D1, .D2] CMPLE_IMM
  | CMGT_ASIMDMISC_Z => .withImm [.B8, .B16, .H4, .H8, .S2, .S4, .D1, .D2] CMPGT_IMM
  | CMGE_ASIMDMISC_Z => .withImm [.B8, .B16, .H4, .H8, .S2, .S4, .D1, .D2] CMPGE_IMM
  | EOR_ASIMDSAME_ONLY => .bitwise (Isel.onTwo EOR_Vec)
  | BIT_ASIMDSAME_ONLY => .bitwise (Isel.onThree BIT_Vec)
  | BIF_ASIMDSAME_ONLY => .bitwise (Isel.onThree BIF_Vec)
  | BSL_ASIMDSAME_ONLY => .bitwise (Isel.onThree BSL_Vec)
  | ADDV_ASIMDALL_ONLY => .reduction [.B8, .B16, .H4, .H8, .S4] (ADDV_Reduce ovf)
  | UMINV_ASIMDALL_ONLY => .reduction [.B8, .B16, .H4, .H8, .S4] UMINV
  | SMINV_ASIMDALL_ONLY => .reduction [.B8, .B16, .H4, .H8, .S4] SMINV
  | UMAXV_ASIMDALL_ONLY => .reduction [.B8, .B16, .H4, .H8, .S4] UMAXV
  | SMAXV_ASIMDALL_ONLY => .reduction [.B8, .B16, .H4, .H8, .S4] SMAXV
  | CNT_ASIMDMISC_R => fun
      | [.B8], [x], [] => (CNT_SIMD (vecOf 8 8 x)).map (vecValue .Reg8B)
      | [.B16], [x], [] => (CNT_SIMD (vecOf 16 8 x)).map (vecValue .Reg16B)
      | _, _, _ => none
  | REV32_ASIMDMISC_R => fun
      | [.B8], [x], [] => (REV32_VectorB (vecOf 8 8 x)).map (vecValue .Reg8B)
      | [.B16], [x], [] => (REV32_VectorB (vecOf 16 8 x)).map (vecValue .Reg16B)
      | [.H4], [x], [] => (REV32_VectorH (vecOf 4 16 x)).map (vecValue .Reg4H)
      | [.H8], [x], [] => (REV32_VectorH (vecOf 8 16 x)).map (vecValue .Reg8H)
      | _, _, _ => none
  | CMGE_ASISDMISC_Z => fun
      | [], [x], [] => (CMGE_ASISDMISC_ONLYD (vecOf 2 64 x)).map (vecValue .Reg2D)
      | _, _, _ => none

/-- The registers after the instruction, or that it is rejected; nothing where the lifter ends or
the semantics function computes no value. -/
def exec (ovf : Overflow) (op : LaneOp) (d : SimdFields) (V : VectorRegs) :
    Option (Option VectorRegs) := do
  let some i ← op.TryDecode d | return none
  let result ← op.isel ovf i.specifiers (i.operands V) i.imms
  return some (i.store V result)

end LaneOp

end Elfconv.AArch64
