/-
Elfconv/Semantics/LaneMove.lean

The vector instructions that move lanes, from their fields to the registers.

The element is chosen by the lowest set bit of an immediate, its index by the bits above.  The name
of the semantics function gets a suffix: the arrangement, or the element alone, which then belongs
to a full vector.
-/
import Elfconv.Semantics.Execute
import Elfconv.Semantics.Vectors

namespace Elfconv.AArch64

open Lanes

variable {n w m : ℕ}

/-! ### Semantics functions -/

/-- The operations on floating-point lanes, by the width. -/
structure FloatOps where
  FMul : ∀ w : ℕ, BitVec w → BitVec w → BitVec w
  FAdd : ∀ w : ℕ, BitVec w → BitVec w → BitVec w

/-- The second loop starts anew at the top, over what the first one has left there. -/
def EXT (count : ℕ) (src1 src2 : Vec count 8) (lsb : ℕ) : Option (Vec 16 8) := do
  let result ← forLoop 0 (count - lsb) 1
    (fun i result => Vec.assign result (count - 1 - i) (Vec.get src2 (i + lsb))) fun _ => 0#8
  forLoop lsb count 1
    (fun i result => Vec.assign result (count - 1 - i) (Vec.get src1 (i - lsb))) result

/-- One element is copied to all. -/
def DUP_DV (src : Vec n w) (index : ℕ) : Option (Vec n w) := do
  let val ← Vec.get src index
  forLoop 0 n 1 (fun i vec => Vec.assign vec i (some val)) fun _ => 0#w

/-- Every element is multiplied by one. -/
def FMULID_V (fp : FloatOps) (src1 src2 : Vec n w) (index : ℕ) : Option (Vec n w) := do
  let v2_val ← Vec.get src2 index
  forLoop 0 n 1
    (fun i res => Vec.assign res i ((Vec.get src1 i).map fun x => fp.FMul w x v2_val)) fun _ => 0#w

/-- The products first, then the sums with the destination. -/
def FMLA_ELEM_V (fp : FloatOps) (dst_src src1 src2 : Vec n w) (index : ℕ) : Option (Vec n w) := do
  let res ← forLoop 0 n 1 (fun i res => Vec.assign res i (do
    let x ← Vec.get src1 i
    let y ← Vec.get src2 index
    return fp.FMul w x y)) fun _ => 0#w
  forLoop 0 n 1 (fun i res => Vec.assign res i (do
    let d ← Vec.get dst_src i
    let x ← Vec.get res i
    return fp.FAdd w d x)) res

/-- An element from a general register. -/
def INS (dst_src : Vec n w) (index : ℕ) (val : BitVec m) : Option (Vec n w) :=
  Vec.set dst_src index (val.setWidth w)

/-- An element from another vector. -/
def INS_MOV (dst_src : Vec n w) (index_1 : ℕ) (src : Vec n w) (index_2 : ℕ) : Option (Vec n w) :=
  Vec.assign dst_src index_1 (Vec.get src index_2)

/-- An element to a general register, without signs. -/
def UMovFromVec (m : ℕ) (src : Vec n w) (index : ℕ) : Option (BitVec m) :=
  (Vec.get src index).map fun x => x.zeroExtend m

/-- An element to a general register, with signs. -/
def SMovFromVec (m : ℕ) (src : Vec n w) (index : ℕ) : Option (BitVec m) :=
  (Vec.get src index).map fun x => x.signExtend m

/-- The bits of the result are those of a `double`. -/
def FMOV_UInt64ToVector (src : BitVec 64) : BitVec 64 := src

/-! ### Instructions -/

/-- The fields of the forms by element. -/
structure ElemFields where
  Q : BitVec 1
  sz : BitVec 1
  L : BitVec 1
  M : BitVec 1
  Rm : BitVec 4
  H : BitVec 1
  Rn : BitVec 5
  Rd : BitVec 5

/-- The instructions.  `Q` tells the forms `W_W` of `UMOV` and `SMOV` from the forms `X_X`. -/
inductive LaneMove
  | EXT_ASIMDEXT_ONLY (Q : BitVec 1) (imm4 : BitVec 4) (Rm Rn Rd : BitVec 5)
  | DUP_ASIMDINS_DV_V (Q : BitVec 1) (imm5 Rn Rd : BitVec 5)
  | FMUL_ASIMDELEM_R_SD (d : ElemFields)
  | FMLA_ASIMDELEM_R_SD (d : ElemFields)
  | INS_ASIMDINS_IR_R (imm5 Rn Rd : BitVec 5)
  | MOV_INS_ASIMDINS_IV_V (imm5 : BitVec 5) (imm4 : BitVec 4) (Rn Rd : BitVec 5)
  | FMOV_V64I_FLOAT2INT (Rn Rd : BitVec 5)
  | UMOV_ASIMDINS (Q : BitVec 1) (imm5 Rn Rd : BitVec 5)
  | SMOV_ASIMDINS (Q : BitVec 1) (imm5 Rn Rd : BitVec 5)

/-- A decoded instruction, with the suffix of its name. -/
structure DecodedMove where
  suffix : Option Arrangement
  inst : SemaInst

/-! ### The decoders -/

/-- `__builtin_ctzll(val)`; nothing for zero. -/
def LeastSignificantSetBit (val : BitVec 64) : Option ℕ :=
  (List.range 64).find? fun i => val.getLsbD i

/-- The suffixes `_B`, `_H`, `_S` and `_D`, each by the full vector of such elements. -/
def elementSuffix : ℕ → Option Arrangement
  | 0 => some .B16
  | 1 => some .H8
  | 2 => some .S4
  | 3 => some .D2
  | _ => none

/-- A register operand that is a value. -/
def valueReg (action : Action) (rclass : ERC) (reg_num : BitVec 5) : SemaOperand :=
  .reg action rclass .kUseAsValue reg_num

/-- An instruction without a write-back. -/
def DecodedMove.of (suffix : Option Arrangement) (operands : List SemaOperand) : DecodedMove :=
  ⟨suffix, ⟨operands, none⟩⟩

/-- `EXT <Vd>.<T>, <Vn>.<T>, <Vm>.<T>, #<index>` -/
def TryDecodeEXT_ASIMDEXT_ONLY (Q : BitVec 1) (imm4 : BitVec 4) (Rm Rn Rd : BitVec 5) :
    Option (Option DecodedMove) :=
  if Q = 0#1 ∧ imm4 &&& 0x8#4 ≠ 0#4 then some none
  else
    let specifier := if Q = 1#1 then Arrangement.B16 else .B8
    let rclass := if Q = 1#1 then ERC.Reg16B else .Reg8B
    some (some (.of (some specifier) [valueReg .kActionWrite rclass Rd,
      valueReg .kActionRead rclass Rn, valueReg .kActionRead rclass Rm, .imm (imm4.setWidth 64)]))

/-- Without a set bit the decoder throws. -/
def TryDecodeDUP_ASIMDINS_DV_V (Q : BitVec 1) (imm5 Rn Rd : BitVec 5) :
    Option (Option DecodedMove) := do
  let size ← (List.range 4).find? fun i => imm5.getLsbD i
  let total_size := if Q = 1#1 then 128 else 64
  let specifier ← ArrangementSpecifier total_size (8 <<< size)
  let rclass ← ArrangementRegClass total_size (8 <<< size) false
  return some (.of (some specifier) [valueReg .kActionWrite rclass Rd,
    valueReg .kActionRead rclass Rn, .imm (imm5.setWidth 64 >>> (size + 1))])

/-- The common part of the forms by element.  The bit `M` of the number of the second source is
not looked at. -/
def decodeElem (d : ElemFields) (dst : Action) : Option (Option DecodedMove) := do
  let index : BitVec 64 ←
    if d.sz = 0#1 then some ((d.H.setWidth 64 <<< 1) + d.L.setWidth 64)
    else if d.L = 0#1 then some (d.H.setWidth 64)
    else none
  let total_size := if d.Q = 1#1 then 128 else 64
  let elem_size := if d.sz = 1#1 then 64 else 32
  let specifier ← ArrangementSpecifier total_size elem_size
  let rclass ← ArrangementRegClass total_size elem_size true
  return some (.of (some specifier) [valueReg dst rclass d.Rd, valueReg .kActionRead rclass d.Rn,
    valueReg .kActionRead rclass (d.Rm.setWidth 5), .imm index])

/-- `FMUL <Vd>.<T>, <Vn>.<T>, <Vm>.<Ts>[<index>]` -/
def TryDecodeFMUL_ASIMDELEM_R_SD (d : ElemFields) : Option (Option DecodedMove) :=
  decodeElem d .kActionWrite

/-- `FMLA <Vd>.<T>, <Vn>.<T>, <Vm>.<Ts>[<index>]`, which reads its destination. -/
def TryDecodeFMLA_ASIMDELEM_R_SD (d : ElemFields) : Option (Option DecodedMove) :=
  decodeElem d .kActionReadWrite

/-- `INS <Vd>.<Ts>[<index>], <R><n>` -/
def TryDecodeINS_ASIMDINS_IR_R (imm5 Rn Rd : BitVec 5) : Option (Option DecodedMove) :=
  match LeastSignificantSetBit (imm5.setWidth 64) with
  | none => some none
  | some size =>
      match elementSuffix size with
      | none => some none
      | some suffix =>
          some (some (.of (some suffix) [valueReg .kActionReadWrite (suffix.regClass false) Rd,
            .imm (imm5.setWidth 64 >>> (size + 1)),
            valueReg .kActionRead (if size = 3 then .RegX else .RegW) Rn]))

/-- `MOV <Vd>.<Ts>[<index1>], <Vn>.<Ts>[<index2>]` -/
def TryDecodeMOV_INS_ASIMDINS_IV_V (imm5 : BitVec 5) (imm4 : BitVec 4) (Rn Rd : BitVec 5) :
    Option (Option DecodedMove) :=
  match LeastSignificantSetBit (imm5.setWidth 64) with
  | none => some none
  | some size =>
      match elementSuffix size with
      | none => some none
      | some suffix =>
          some (some (.of (some suffix) [valueReg .kActionReadWrite (suffix.regClass false) Rd,
            .imm (imm5.setWidth 64 >>> (size + 1)),
            valueReg .kActionRead (suffix.regClass false) Rn, .imm (imm4.setWidth 64 >>> size)]))

/-- The check of `IsUnallocatedFloatEncoding` lets the one encoding pass. -/
def TryDecodeFMOV_V64I_FLOAT2INT (Rn Rd : BitVec 5) : Option (Option DecodedMove) :=
  some (some (.of none [valueReg .kActionWrite .Reg2D Rd, valueReg .kActionRead .RegX Rn]))

/-- The common part of `UMOV` and `SMOV`, up to the sizes that each rejects. -/
def decodeMovFromVec (rejected : ℕ → Bool) (Q : BitVec 1) (imm5 Rn Rd : BitVec 5) :
    Option (Option DecodedMove) :=
  match LeastSignificantSetBit (imm5.setWidth 64) with
  | none => some none
  | some size =>
      if rejected size = true then some none
      else
        match elementSuffix size with
        | none => some none
        | some suffix =>
            some (some (.of (some suffix)
              [valueReg .kActionWrite (if Q = 1#1 then .RegX else .RegW) Rd,
              valueReg .kActionRead (suffix.regClass false) Rn,
              .imm (imm5.setWidth 64 >>> (size + 1))]))

/-- `UMOV <Rd>, <Vn>.<Ts>[<index>]` -/
def TryDecodeUMOV_ASIMDINS (Q : BitVec 1) (imm5 Rn Rd : BitVec 5) : Option (Option DecodedMove) :=
  decodeMovFromVec (fun size => size > 3 || Q == 1#1 && size < 3) Q imm5 Rn Rd

/-- `SMOV <Rd>, <Vn>.<Ts>[<index>]` -/
def TryDecodeSMOV_ASIMDINS (Q : BitVec 1) (imm5 Rn Rd : BitVec 5) : Option (Option DecodedMove) :=
  decodeMovFromVec (fun size => size > 2 || size == 2 && Q == 0#1) Q imm5 Rn Rd

namespace LaneMove

/-- The decoder of an instruction. -/
def TryDecode : LaneMove → Option (Option DecodedMove)
  | .EXT_ASIMDEXT_ONLY Q imm4 Rm Rn Rd => TryDecodeEXT_ASIMDEXT_ONLY Q imm4 Rm Rn Rd
  | .DUP_ASIMDINS_DV_V Q imm5 Rn Rd => TryDecodeDUP_ASIMDINS_DV_V Q imm5 Rn Rd
  | .FMUL_ASIMDELEM_R_SD d => TryDecodeFMUL_ASIMDELEM_R_SD d
  | .FMLA_ASIMDELEM_R_SD d => TryDecodeFMLA_ASIMDELEM_R_SD d
  | .INS_ASIMDINS_IR_R imm5 Rn Rd => TryDecodeINS_ASIMDINS_IR_R imm5 Rn Rd
  | .MOV_INS_ASIMDINS_IV_V imm5 imm4 Rn Rd => TryDecodeMOV_INS_ASIMDINS_IV_V imm5 imm4 Rn Rd
  | .FMOV_V64I_FLOAT2INT Rn Rd => TryDecodeFMOV_V64I_FLOAT2INT Rn Rd
  | .UMOV_ASIMDINS Q imm5 Rn Rd => TryDecodeUMOV_ASIMDINS Q imm5 Rn Rd
  | .SMOV_ASIMDINS Q imm5 Rn Rd => TryDecodeSMOV_ASIMDINS Q imm5 Rn Rd

/-! ### The semantics functions by their names -/

/-- A vector in a `_ecv_u128v1_t`. -/
def fullValue (v : Vec n w) : Value := ⟨.RegV, v.bits.setWidth 128⟩

/-- A result of a `uint32_t` or a `uint64_t`. -/
def wordValue (Q : BitVec 1) (result : ∀ m, Option (BitVec m)) : Option Value :=
  if Q = 1#1 then (result 64).map fun x => ⟨.RegX, x⟩ else (result 32).map fun x => ⟨.RegW, x⟩

/-- The semantics function, at the suffixes that have a `DEF_ISEL`. -/
def isel (fp : FloatOps) : LaneMove → Option Arrangement → List Arg → Option Value
  | .EXT_ASIMDEXT_ONLY .., some .B8, [.value x, .value y, .word imm] =>
      (EXT 8 (vecOf 8 8 x) (vecOf 8 8 y) (imm.setWidth 32).toNat).map (vecValue .Reg16B)
  | .EXT_ASIMDEXT_ONLY .., some .B16, [.value x, .value y, .word imm] =>
      (EXT 16 (vecOf 16 8 x) (vecOf 16 8 y) (imm.setWidth 32).toNat).map (vecValue .Reg16B)
  | .DUP_ASIMDINS_DV_V .., some a, [.value x, .word imm] =>
      if a ≠ .D1 then
        (DUP_DV (vecOf a.lanes a.esize x) (imm.setWidth 32).toNat).map
          (vecValue (a.regClass false))
      else none
  | .FMUL_ASIMDELEM_R_SD _, some a, [.value x, .value y, .word imm] =>
      if a ∈ [Arrangement.S2, .S4, .D2] then
        (FMULID_V fp (vecOf a.lanes a.esize x) (vecOf a.lanes a.esize y)
          (imm.setWidth 32).toNat).map (vecValue (a.regClass true))
      else none
  | .FMLA_ASIMDELEM_R_SD _, some a, [.value d, .value x, .value y, .word imm] =>
      if a ∈ [Arrangement.S2, .S4, .D2] then
        (FMLA_ELEM_V fp (vecOf a.lanes a.esize d) (vecOf a.lanes a.esize x)
          (vecOf a.lanes a.esize y) imm.toNat).map (vecValue (a.regClass true))
      else none
  | .INS_ASIMDINS_IR_R .., some a, [.value d, .word idx, .value x] =>
      (INS (vecOf a.lanes a.esize d) idx.toNat x.bits).map fullValue
  | .MOV_INS_ASIMDINS_IV_V .., some a, [.value d, .word idx1, .value x, .word idx2] =>
      (INS_MOV (vecOf a.lanes a.esize d) idx1.toNat (vecOf a.lanes a.esize x) idx2.toNat).map
        fullValue
  | .FMOV_V64I_FLOAT2INT .., none, [.value x] =>
      some ⟨.RegD, FMOV_UInt64ToVector (x.bits.setWidth 64)⟩
  | .UMOV_ASIMDINS Q .., some a, [.value x, .word index] =>
      if Q = 1#1 ↔ a = .D2 then
        wordValue Q fun m => UMovFromVec m (vecOf a.lanes a.esize x) index.toNat
      else none
  | .SMOV_ASIMDINS Q .., some a, [.value x, .word index] =>
      if a ∈ [Arrangement.B16, .H8] ∨ Q = 1#1 ∧ a = .S4 then
        wordValue Q fun m => SMovFromVec m (vecOf a.lanes a.esize x) index.toNat
      else none
  | _, _, _ => none

/-- The semantics function of the name; nothing for a suffix that no function has. -/
def sema (fp : FloatOps) (i : LaneMove) (suffix : Option Arrangement) : Sema := fun args mem =>
  (i.isel fp suffix args).map fun result => ([result], mem)

/-- The program after the instruction, or that it is rejected. -/
def exec (fp : FloatOps) (indirectbr : Bool) (i : LaneMove) (g : Guest) :
    Option (Option Guest) := do
  let some d ← i.TryDecode | return none
  let g' ← execInst indirectbr (i.sema fp d.suffix) d.inst g
  return some g'

end LaneMove

end Elfconv.AArch64
