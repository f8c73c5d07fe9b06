/-
Elfconv/Semantics/ShiftRegs.lean

Shifted and extended registers, from the fields of the decoders to the values of the operands.

A decoder says which bits are taken, how they are extended and how far they are shifted, and leaves
out what would do nothing.  The lifter does the rest, one step after the other.
`operand_eq_iff` says that the value is the architecture's unless the register is the zero register:
only a plain register operand has a case for it.
-/
import Elfconv.Semantics.BitField
import Elfconv.Semantics.Execute

namespace Elfconv.AArch64

open CInt

/-! ### Fields -/

/-- The shifts of `Shift`, in the order of their encoding. -/
inductive ShiftType
  | kShiftLSL
  | kShiftLSR
  | kShiftASR
  | kShiftROR
  deriving DecidableEq

/-- The shift of a field. -/
def ShiftType.ofField (shift : BitVec 2) : ShiftType :=
  match shift.toNat with
  | 0 => kShiftLSL
  | 1 => kShiftLSR
  | 2 => kShiftASR
  | _ => kShiftROR

/-- The extensions of `Extend`, in the order of their encoding. -/
inductive ExtendType
  | kExtendUXTB
  | kExtendUXTH
  | kExtendUXTW
  | kExtendUXTX
  | kExtendSXTB
  | kExtendSXTH
  | kExtendSXTW
  | kExtendSXTX
  deriving DecidableEq

namespace ExtendType

/-- The extension of a field. -/
def ofField (option : BitVec 3) : ExtendType :=
  match option.toNat with
  | 0 => kExtendUXTB
  | 1 => kExtendUXTH
  | 2 => kExtendUXTW
  | 3 => kExtendUXTX
  | 4 => kExtendSXTB
  | 5 => kExtendSXTH
  | 6 => kExtendSXTW
  | _ => kExtendSXTX

/-- The bits of the register that are taken. -/
def ExtractSizeInBits : ExtendType → ℕ
  | kExtendUXTB | kExtendSXTB => 8
  | kExtendUXTH | kExtendSXTH => 16
  | kExtendUXTW | kExtendSXTW => 32
  | kExtendUXTX | kExtendSXTX => 64

/-- The class that the register is read by. -/
def ExtendTypeToRegClass : ExtendType → ERC
  | kExtendUXTX | kExtendSXTX => .RegX
  | _ => .RegW

/-- Whether the sign is extended. -/
def ShiftRegExtendType : ExtendType → Extend
  | kExtendUXTB | kExtendUXTH | kExtendUXTW | kExtendUXTX => .kExtendUnsigned
  | kExtendSXTB | kExtendSXTH | kExtendSXTW | kExtendSXTX => .kExtendSigned

end ExtendType

/-- The shift that the lifter makes of it. -/
def GetOperandShift : ShiftType → OperandShift
  | .kShiftLSL => .kShiftLeftWithZeroes
  | .kShiftLSR => .kShiftUnsignedRight
  | .kShiftASR => .kShiftSignedRight
  | .kShiftROR => .kShiftRightAround

/-! ### Operands -/

/-- An operand of `kTypeShiftRegister`; `none` is `kShiftInvalid` and `kExtendInvalid`. -/
structure ShiftRegOperand where
  rclass : ERC
  reg_num : BitVec 5
  shift_op : Option OperandShift
  shift_size : BitVec 64
  extend_op : Option Extend
  extract_size : ℕ
  size : ℕ

/-- What the two functions add: a plain register, or a shifted one. -/
inductive RegOperand
  | reg (rclass : ERC) (reg_num : BitVec 5)
  | shiftReg (op : ShiftRegOperand)

namespace RegOperand

/-- `AddShiftRegOperand`: a shift by zero leaves a plain register. -/
def AddShiftRegOperand (rclass : ERC) (reg_num : BitVec 5) (shift_type : ShiftType)
    (shift_size : BitVec 64) : RegOperand :=
  if shift_size = 0#64 then .reg rclass reg_num
  else .shiftReg ⟨rclass, reg_num, some (GetOperandShift shift_type), shift_size, none, 0,
    ERCSize rclass⟩

/-- `AddExtendRegOperand`: an extraction of the whole register, or of more, is none. -/
def AddExtendRegOperand (reg_class : ERC) (reg_num : BitVec 5) (extend_type : ExtendType)
    (output_size : ℕ) (shift_size : BitVec 64) : RegOperand :=
  let extend_op := extend_type.ShiftRegExtendType
  let extract_size := extend_type.ExtractSizeInBits
  -- no extraction needs to be done, or it is wider than the register
  let invalid := extend_op = .kExtendUnsigned ∧ extract_size = ERCSize reg_class ∨
    extract_size > ERCSize reg_class
  .shiftReg ⟨reg_class, reg_num,
    if shift_size ≠ 0#64 then some .kShiftLeftWithZeroes else none, shift_size,
    if invalid then none else some extend_op,
    if invalid then 0 else extract_size,
    output_size⟩

end RegOperand

namespace ShiftRegOperand

/-- A value of the lifter, with its width. -/
abbrev Sized := Σ n : ℕ, BitVec n

/-- The extraction and the extension, where there is one. -/
def extend (op : ShiftRegOperand) (reg : Value) : Option Sized :=
  match op.extend_op with
  | none => some ⟨_, reg.bits⟩
  | some extend_op =>
      let extracted : Option Sized :=
        if ERCSize reg.erc > op.extract_size then
          some ⟨op.extract_size, reg.bits.setWidth op.extract_size⟩
        else if ERCSize reg.erc = op.extract_size then some ⟨_, reg.bits⟩
        else none
      if op.size > op.extract_size then
        match extend_op with
        | .kExtendSigned => extracted.map fun x => ⟨op.size, x.2.signExtend op.size⟩
        | .kExtendUnsigned => extracted.map fun x => ⟨op.size, x.2.zeroExtend op.size⟩
      else extracted

/-- `LiftShiftRegisterOperand`; nothing where the lifter ends. -/
def lift (op : ShiftRegOperand) (R : RegFile) : Option (BitVec op.size) := do
  let name ← regNameOf .kActionRead op.rclass .kUseAsValue op.reg_num.toNat
  let reg ← LoadRegValue R name
  let extended ← op.extend reg
  if extended.1 ≤ op.size then
    let reg := extended.2.zeroExtend op.size
    match op.shift_op with
    | none => some reg
    | some shift_op => LiftShiftRegisterOperand shift_op op.shift_size reg
  else none

end ShiftRegOperand

/-- The value of an operand, with its width. -/
def RegOperand.lift (R : RegFile) : RegOperand → Option ShiftRegOperand.Sized
  | .reg rclass reg_num => do
      let name ← regNameOf .kActionRead rclass .kUseAsValue reg_num.toNat
      let v ← liftRegister R name
      return ⟨_, v.bits⟩
  | .shiftReg op => (op.lift R).map fun x => ⟨op.size, x⟩

/-! ### Decoders -/

/-- The fields of the instructions with a shifted register. -/
structure ShiftFields where
  shift : BitVec 2
  Rm : BitVec 5
  imm6 : BitVec 6

/-- The fields of the instructions with an extended register. -/
structure ExtFields where
  option : BitVec 3
  Rm : BitVec 5
  imm3 : BitVec 3

/-- The fields of the accesses with a register offset. -/
structure RegOffFields where
  size : BitVec 2
  opc : BitVec 2
  option : BitVec 3
  S : BitVec 1
  Rm : BitVec 5

/-- The decoders that hand their work to `TryDecodeLDRn_m_LDST_REGOFF`. -/
inductive LDRn_m
  | LDRB_32B | LDRSB_32B | LDRSB_64B | LDRH_32 | LDRSH_32 | LDRSH_64 | LDRSW_64

/-- The shift of the offset where it is scaled. -/
def LDRn_m.scale : LDRn_m → ℕ
  | LDRB_32B | LDRSB_32B | LDRSB_64B => 0
  | LDRH_32 | LDRSH_32 | LDRSH_64 => 1
  | LDRSW_64 => 2

/-- The decoders that call the two functions, each for those that hand their work to it. -/
inductive ShiftRegDecoder
  | ADD_ADDSUB_SHIFT (f : Form) (d : ShiftFields)
  | SUBS_ADDSUB_SHIFT (f : Form) (d : ShiftFields)
  | EOR_LOG_SHIFT (f : Form) (d : ShiftFields)
  | UBFM_BITFIELD (f : Form) (N : BitVec 1) (immr imms : BitVec 6) (Rn : BitVec 5)
  | ADD_ADDSUB_EXT (f : Form) (d : ExtFields)
  | SUBS_ADDSUB_EXT (f : Form) (d : ExtFields)
  | STRB_32B_LDST_REGOFF (d : RegOffFields)
  | STRB_32BL_LDST_REGOFF (d : RegOffFields)
  | LDRB_32BL_LDST_REGOFF (d : RegOffFields)
  | LDR_n_LDST_REGOFF (d : RegOffFields)
  | STR_n_LDST_REGOFF (d : RegOffFields)
  | LDRn_m_LDST_REGOFF (i : LDRn_m) (d : RegOffFields)
  | STRn_m_LDST_REGOFF (d : RegOffFields)
  | STR_Vn_LDST_REGOFF (d : RegOffFields)
  | LDR_Vn_LDST_REGOFF (d : RegOffFields)

namespace RegOffFields

variable (d : RegOffFields)

/-- `IsSubWordIndex`: such an index is reserved. -/
def IsSubWordIndex : Bool := !d.option.getLsbD 1

/-- `DecodeScale`: the size, with the upper bit of `opc` above it. -/
def DecodeScale : BitVec 64 := ((d.opc.setWidth 64 &&& 0x2#64) <<< 1) ||| d.size.setWidth 64

/-- The operand of the offset. -/
def offset (shift : BitVec 64) : Option RegOperand :=
  if d.IsSubWordIndex then none
  else
    let extend_type := ExtendType.ofField d.option
    some (.AddExtendRegOperand extend_type.ExtendTypeToRegClass d.Rm extend_type 64 shift)

/-- The operand of an offset that is not extended. -/
def offsetBL : Option RegOperand :=
  if d.IsSubWordIndex then none else some (.AddShiftRegOperand .RegX d.Rm .kShiftLSL 0#64)

end RegOffFields

namespace ShiftRegDecoder

/-- The operand that is added, where the decoder comes to it.  `DecodeBitMasks`, which rejects some
more of `UBFM`, is left out. -/
def TryDecode : ShiftRegDecoder → Option RegOperand
  | .ADD_ADDSUB_SHIFT f d =>
      if f = .W ∧ d.imm6.getLsbD 5 then none
      else
        let shift_type := ShiftType.ofField d.shift
        if shift_type = .kShiftROR then none
        else some (.AddShiftRegOperand f.rclass d.Rm shift_type (d.imm6.setWidth 64))
  -- the same two checks as for `ADD`, in the other order
  | .SUBS_ADDSUB_SHIFT f d =>
      let shift_type := ShiftType.ofField d.shift
      if shift_type = .kShiftROR then none
      else if f = .W ∧ d.imm6.getLsbD 5 then none
      else some (.AddShiftRegOperand f.rclass d.Rm shift_type (d.imm6.setWidth 64))
  | .EOR_LOG_SHIFT f d =>
      if f = .W ∧ d.imm6.getLsbD 5 then none
      else some (.AddShiftRegOperand f.rclass d.Rm (.ofField d.shift) (d.imm6.setWidth 64))
  -- the shift of `UBFM` is a rotation, by an amount below the width
  | .UBFM_BITFIELD .W N immr imms Rn =>
      if N = 1#1 ∨ immr &&& 0x20#6 ≠ 0#6 ∨ imms &&& 0x20#6 ≠ 0#6 then none
      else some (.AddShiftRegOperand .RegW Rn .kShiftROR (immr.setWidth 64))
  | .UBFM_BITFIELD .X N immr _ Rn =>
      if N = 0#1 then none else some (.AddShiftRegOperand .RegX Rn .kShiftROR (immr.setWidth 64))
  | .ADD_ADDSUB_EXT .W d | .SUBS_ADDSUB_EXT .W d =>
      if d.imm3.toNat > 4 then none
      else some (.AddExtendRegOperand .RegW d.Rm (.ofField d.option) 32 (d.imm3.setWidth 64))
  | .ADD_ADDSUB_EXT .X d | .SUBS_ADDSUB_EXT .X d =>
      if d.imm3.toNat > 4 then none
      else
        let extend_type := ExtendType.ofField d.option
        some (.AddExtendRegOperand extend_type.ExtendTypeToRegClass d.Rm extend_type 64
          (d.imm3.setWidth 64))
  | .STRB_32B_LDST_REGOFF d => d.offset 0#64
  | .STRB_32BL_LDST_REGOFF d | .LDRB_32BL_LDST_REGOFF d => d.offsetBL
  | .LDR_n_LDST_REGOFF d | .STR_n_LDST_REGOFF d =>
      d.offset (if d.S = 1#1 then d.size.setWidth 64 else 0#64)
  | .LDRn_m_LDST_REGOFF i d => d.offset (d.S.setWidth 64 * BitVec.ofNat 64 i.scale)
  | .STRn_m_LDST_REGOFF d | .STR_Vn_LDST_REGOFF d | .LDR_Vn_LDST_REGOFF d =>
      if d.DecodeScale.toNat > 4 then none
      else d.offset (if d.S = 1#1 then d.DecodeScale else 0#64)

end ShiftRegDecoder

/-! ### The architecture -/

namespace Arm

/-- The shift of the field. -/
def ShiftReg {w : ℕ} (shift : BitVec 2) (x : BitVec w) (amount : ℕ) : BitVec w :=
  match shift.toNat with
  | 0 => x <<< amount
  | 1 => x >>> amount
  | 2 => x.sshiftRight amount
  | _ => x.rotateRight amount

/-- The low bits extended to the width of the operation, then shifted. -/
def ExtendReg (w : ℕ) (option : BitVec 3) (x : BitVec 64) (shift : ℕ) : BitVec w :=
  let low := x.setWidth (8 <<< (option.setWidth 2).toNat)
  (if option.getLsbD 2 then low.signExtend w else low.zeroExtend w) <<< shift

/-- The offset of the architecture. -/
def offset (R : RegFile) (d : RegOffFields) (scale : ℕ) : ShiftRegOperand.Sized :=
  ⟨64, ExtendReg 64 d.option (X R d.Rm) (if d.S = 1#1 then scale else 0)⟩

/-- The scale of an access, by the two fields together. -/
def scale (d : RegOffFields) : ℕ := (d.opc.getLsbD 1).toNat * 4 + d.size.toNat

/-- The operand that the architecture computes. -/
def operand (R : RegFile) : ShiftRegDecoder → ShiftRegOperand.Sized
  | .ADD_ADDSUB_SHIFT f d | .SUBS_ADDSUB_SHIFT f d | .EOR_LOG_SHIFT f d =>
      ⟨f.size, ShiftReg d.shift ((X R d.Rm).setWidth f.size) d.imm6.toNat⟩
  | .UBFM_BITFIELD f _ immr _ Rn => ⟨f.size, ShiftReg 3#2 ((X R Rn).setWidth f.size) immr.toNat⟩
  | .ADD_ADDSUB_EXT f d | .SUBS_ADDSUB_EXT f d =>
      ⟨f.size, ExtendReg f.size d.option (X R d.Rm) d.imm3.toNat⟩
  | .STRB_32B_LDST_REGOFF d => offset R d 0
  | .STRB_32BL_LDST_REGOFF d | .LDRB_32BL_LDST_REGOFF d => ⟨64, X R d.Rm⟩
  | .LDR_n_LDST_REGOFF d | .STR_n_LDST_REGOFF d => offset R d d.size.toNat
  | .LDRn_m_LDST_REGOFF i d => offset R d i.scale
  | .STRn_m_LDST_REGOFF d | .STR_Vn_LDST_REGOFF d | .LDR_Vn_LDST_REGOFF d => offset R d (scale d)

end Arm

/-- When the operand is right: its register is not the zero register, or it is a plain operand. -/
def ShiftRegDecoder.Right : ShiftRegDecoder → Prop
  | .ADD_ADDSUB_SHIFT _ d | .SUBS_ADDSUB_SHIFT _ d | .EOR_LOG_SHIFT _ d =>
      d.Rm ≠ 31#5 ∨ d.imm6 = 0#6
  | .UBFM_BITFIELD _ _ immr _ Rn => Rn ≠ 31#5 ∨ immr = 0#6
  | .ADD_ADDSUB_EXT _ d | .SUBS_ADDSUB_EXT _ d => d.Rm ≠ 31#5
  | .STRB_32BL_LDST_REGOFF _ | .LDRB_32BL_LDST_REGOFF _ => True
  | .STRB_32B_LDST_REGOFF d | .LDR_n_LDST_REGOFF d | .STR_n_LDST_REGOFF d
  | .LDRn_m_LDST_REGOFF _ d | .STRn_m_LDST_REGOFF d | .STR_Vn_LDST_REGOFF d
  | .LDR_Vn_LDST_REGOFF d => d.Rm ≠ 31#5

/-! ### Registers -/

section

variable {R : RegFile} {rclass : ERC} {n : BitVec 5}

theorem lift_register (h : rclass = .RegW ∨ rclass = .RegX) :
    (RegOperand.reg rclass n).lift R =
      some ⟨ERCSize rclass, (Arm.X R n).setWidth (ERCSize rclass)⟩ := by
  show ((regNameOf .kActionRead rclass .kUseAsValue n.toNat).bind fun name =>
    (liftRegister R name).bind fun v => some (⟨_, v.bits⟩ : ShiftRegOperand.Sized)) = _
  rw [← Option.bind_assoc, read_register h]
  rfl

/-- The steps of the lifter on the register that it loads. -/
theorem lift_shiftReg {op : ShiftRegOperand} (h : op.rclass = .RegW ∨ op.rclass = .RegX) :
    (RegOperand.shiftReg op).lift R = if op.reg_num = 31#5 then none else
      (do
        let extended ← op.extend ⟨op.rclass, (Arm.X R op.reg_num).setWidth (ERCSize op.rclass)⟩
        if extended.1 ≤ op.size then
          let reg := extended.2.zeroExtend op.size
          match op.shift_op with
          | none => some reg
          | some shift_op => LiftShiftRegisterOperand shift_op op.shift_size reg
        else none).map fun x => (⟨op.size, x⟩ : ShiftRegOperand.Sized) := by
  show (ShiftRegOperand.lift op R).map _ = _
  have hload := load_register (R := R) (n := op.reg_num) h
  unfold ShiftRegOperand.lift
  simp only [Option.bind_eq_bind] at hload ⊢
  rw [← Option.bind_assoc, hload]
  split_ifs <;> rfl

end

/-! ### Shifted registers -/

section

variable (f : Form) (R : RegFile) (n : BitVec 5)

theorem ShiftReg_zero {w : ℕ} (shift : BitVec 2) (x : BitVec w) : Arm.ShiftReg shift x 0 = x := by
  unfold Arm.ShiftReg
  split
  · exact BitVec.shiftLeft_zero x
  · exact BitVec.ushiftRight_zero x
  · exact BitVec.sshiftRight_zero
  · exact BitPattern.rotateRight_zero x

theorem LiftShift_eq (shift : BitVec 2) (x : BitVec f.size) {amount : BitVec 64}
    (hne : amount ≠ 0#64) (hlt : amount.toNat < f.size) :
    LiftShiftRegisterOperand (GetOperandShift (.ofField shift)) amount x =
      some (Arm.ShiftReg shift x amount.toNat) := by
  rcases (by decide : ∀ s : BitVec 2, s = 0#2 ∨ s = 1#2 ∨ s = 2#2 ∨ s = 3#2) shift with
    rfl | rfl | rfl | rfl
  · exact if_pos hlt
  · exact if_pos hlt
  · exact if_pos hlt
  · exact LiftShift_rotate f amount x hne hlt

theorem lift_AddShiftRegOperand (shift : BitVec 2) {amount : BitVec 64}
    (hlt : amount.toNat < f.size) :
    (RegOperand.AddShiftRegOperand f.rclass n (.ofField shift) amount).lift R =
      if n = 31#5 ∧ amount ≠ 0#64 then none
      else some ⟨f.size, Arm.ShiftReg shift ((Arm.X R n).setWidth f.size) amount.toNat⟩ := by
  have hsize : ERCSize f.rclass = f.size := by cases f <;> rfl
  unfold RegOperand.AddShiftRegOperand
  by_cases hzero : amount = 0#64
  · rw [if_pos hzero, if_neg fun h => h.2 hzero, lift_register (rclass_general f), hzero]
    show _ = some (⟨f.size, Arm.ShiftReg shift _ 0⟩ : ShiftRegOperand.Sized)
    rw [ShiftReg_zero, hsize]
  · rw [if_neg hzero, lift_shiftReg (rclass_general f)]
    by_cases hn : n = 31#5
    · rw [if_pos hn, if_pos ⟨hn, hzero⟩]
    · rw [if_neg hn, if_neg fun h => hn h.1]
      have hshift := LiftShift_eq f shift ((Arm.X R n).setWidth f.size) hzero hlt
      cases f <;>
      · show (LiftShiftRegisterOperand _ amount (((Arm.X R n).setWidth _).setWidth _)).map _ = _
        rw [BitVec.setWidth_eq]
        exact congrArg (Option.map _) hshift

/-! ### Extended registers -/

/-- The classes of the register, by the width of the operation. -/
def ExtendClass (f : Form) (option : BitVec 3) : ERC :=
  match f with
  | .W => .RegW
  | .X => (ExtendType.ofField option).ExtendTypeToRegClass

theorem extendClass_general (option : BitVec 3) :
    ExtendClass f option = .RegW ∨ ExtendClass f option = .RegX := by
  cases f with
  | W => exact .inl rfl
  | X =>
    exact (by decide : ∀ o, (ExtendType.ofField o).ExtendTypeToRegClass = .RegW ∨
      (ExtendType.ofField o).ExtendTypeToRegClass = .RegX) option

theorem option_cases : ∀ o : BitVec 3, o = 0#3 ∨ o = 1#3 ∨ o = 2#3 ∨ o = 3#3 ∨ o = 4#3 ∨ o = 5#3 ∨
    o = 6#3 ∨ o = 7#3 := by decide

section

variable {m k w : ℕ} (x : BitVec 64)

theorem zeroExtend_low (h : k ≤ m) :
    (((x.setWidth m).setWidth k).zeroExtend w).zeroExtend w =
      (x.setWidth k).zeroExtend w <<< 0 := by
  rw [BitVec.shiftLeft_zero, BitVec.setWidth_setWidth_of_le x h]
  exact BitVec.setWidth_eq _

theorem signExtend_low (h : k ≤ m) :
    (((x.setWidth m).setWidth k).signExtend w).zeroExtend w =
      (x.setWidth k).signExtend w <<< 0 := by
  rw [BitVec.shiftLeft_zero, BitVec.setWidth_setWidth_of_le x h]
  exact BitVec.setWidth_eq _

/-- Nothing is extended where all the bits of the operation are taken. -/
theorem zeroExtend_all (h : w ≤ k) :
    (x.setWidth w).zeroExtend w = (x.setWidth k).zeroExtend w <<< 0 := by
  rw [BitVec.shiftLeft_zero]
  show (x.setWidth w).setWidth w = (x.setWidth k).setWidth w
  rw [BitVec.setWidth_setWidth_of_le x h, BitVec.setWidth_eq]

theorem signExtend_all (h : w ≤ k) :
    (x.setWidth w).zeroExtend w = (x.setWidth k).signExtend w <<< 0 := by
  rw [BitVec.shiftLeft_zero, BitVec.signExtend_eq_setWidth_of_le _ h]
  show (x.setWidth w).setWidth w = (x.setWidth k).setWidth w
  rw [BitVec.setWidth_setWidth_of_le x h, BitVec.setWidth_eq]

end

/-- What is extracted and extended is the value before the shift, perhaps still to be extended by
zeros. -/
theorem extend_eq (option : BitVec 3) (x : BitVec 64) (shift_size : BitVec 64)
    {op : ShiftRegOperand}
    (hop : RegOperand.AddExtendRegOperand (ExtendClass f option) n (.ofField option) f.size
      shift_size = .shiftReg op) :
    ∃ e : ShiftRegOperand.Sized,
      op.extend ⟨ExtendClass f option, x.setWidth (ERCSize (ExtendClass f option))⟩ = some e ∧
      e.1 ≤ f.size ∧ e.2.zeroExtend f.size = Arm.ExtendReg f.size option x 0 := by
  cases hop
  cases f with
  | W =>
    -- the eight values of the field, in the order of `ExtendType`
    rcases option_cases option with rfl | rfl | rfl | rfl | rfl | rfl | rfl | rfl
    · exact ⟨⟨32, _⟩, rfl, le_refl 32, zeroExtend_low x (by decide : 8 ≤ 32)⟩
    · exact ⟨⟨32, _⟩, rfl, le_refl 32, zeroExtend_low x (by decide : 16 ≤ 32)⟩
    · exact ⟨⟨32, _⟩, rfl, le_refl 32, zeroExtend_all x (by decide : 32 ≤ 32)⟩
    · exact ⟨⟨32, _⟩, rfl, le_refl 32, zeroExtend_all x (by decide : 32 ≤ 64)⟩
    · exact ⟨⟨32, _⟩, rfl, le_refl 32, signExtend_low x (by decide : 8 ≤ 32)⟩
    · exact ⟨⟨32, _⟩, rfl, le_refl 32, signExtend_low x (by decide : 16 ≤ 32)⟩
    · exact ⟨⟨32, _⟩, rfl, le_refl 32, signExtend_all x (by decide : 32 ≤ 32)⟩
    · exact ⟨⟨32, _⟩, rfl, le_refl 32, signExtend_all x (by decide : 32 ≤ 64)⟩
  | X =>
    -- `UXTW` alone leaves 32 bits, which the shift extends by zeros
    rcases option_cases option with rfl | rfl | rfl | rfl | rfl | rfl | rfl | rfl
    · exact ⟨⟨64, _⟩, rfl, le_refl 64, zeroExtend_low x (by decide : 8 ≤ 32)⟩
    · exact ⟨⟨64, _⟩, rfl, le_refl 64, zeroExtend_low x (by decide : 16 ≤ 32)⟩
    · exact ⟨⟨32, _⟩, rfl, (by decide : 32 ≤ 64), (BitVec.shiftLeft_zero _).symm⟩
    · exact ⟨⟨64, _⟩, rfl, le_refl 64, zeroExtend_all x (by decide : 64 ≤ 64)⟩
    · exact ⟨⟨64, _⟩, rfl, le_refl 64, signExtend_low x (by decide : 8 ≤ 32)⟩
    · exact ⟨⟨64, _⟩, rfl, le_refl 64, signExtend_low x (by decide : 16 ≤ 32)⟩
    · exact ⟨⟨64, (x.setWidth 32).signExtend 64⟩, rfl, le_refl 64,
        (BitVec.setWidth_eq _).trans (BitVec.shiftLeft_zero _).symm⟩
    · exact ⟨⟨64, _⟩, rfl, le_refl 64, signExtend_all x (by decide : 64 ≤ 64)⟩

theorem ExtendReg_shift (w : ℕ) (option : BitVec 3) (x : BitVec 64) (shift : ℕ) :
    Arm.ExtendReg w option x shift = Arm.ExtendReg w option x 0 <<< shift := by
  unfold Arm.ExtendReg
  rw [BitVec.shiftLeft_zero]

/-- The shift to the left, which is left out where it does nothing. -/
theorem shift_extended {w : ℕ} (x : BitVec w) {shift_size : BitVec 64}
    (hlt : shift_size.toNat < w) :
    (match if shift_size ≠ 0#64 then some OperandShift.kShiftLeftWithZeroes else none with
      | none => some x
      | some shift_op => LiftShiftRegisterOperand shift_op shift_size x) =
      some (x <<< shift_size.toNat) := by
  by_cases hzero : shift_size = 0#64
  · rw [if_neg fun h => h hzero, hzero]
    exact congrArg some (BitVec.shiftLeft_zero x).symm
  · rw [if_pos hzero]
    exact if_pos hlt

theorem lift_AddExtendRegOperand (option : BitVec 3) {shift_size : BitVec 64}
    (hlt : shift_size.toNat < f.size) :
    (RegOperand.AddExtendRegOperand (ExtendClass f option) n (.ofField option) f.size
      shift_size).lift R = if n = 31#5 then none
      else some ⟨f.size, Arm.ExtendReg f.size option (Arm.X R n) shift_size.toNat⟩ := by
  obtain ⟨e, hextend, hle, heq⟩ := extend_eq f n option (Arm.X R n) shift_size rfl
  refine (lift_shiftReg (extendClass_general f option)).trans ?_
  apply ite_congr rfl (fun _ => rfl)
  intro _
  show Option.map _ (Option.bind (ShiftRegOperand.extend _ _) _) = _
  rw [hextend]
  show Option.map _ (if e.1 ≤ f.size then _ else none) = _
  rw [if_pos hle, heq, shift_extended _ hlt]
  exact congrArg (fun y => some (⟨f.size, y⟩ : ShiftRegOperand.Sized))
    (ExtendReg_shift f.size option _ _).symm

/-! ### The operands of the decoders -/

/-- A lift that ends for `p` and otherwise gives `v`. -/
theorem eq_some_iff {α : Type*} {p : Prop} [Decidable p] {o : Option α} {v : α}
    (h : o = if p then none else some v) : o = some v ↔ ¬p := by
  rw [h]
  by_cases hp : p
  · rw [if_pos hp]
    exact ⟨fun hnone => (nomatch hnone), fun hnot => absurd hp hnot⟩
  · rw [if_neg hp]
    exact ⟨fun _ => hp, fun _ => rfl⟩

variable {f R n}

theorem AddShiftRegOperand_iff (shift : BitVec 2) {amount : BitVec 6}
    (hlt : amount.toNat < f.size) :
    (RegOperand.AddShiftRegOperand f.rclass n (.ofField shift) (amount.setWidth 64)).lift R =
      some ⟨f.size, Arm.ShiftReg shift ((Arm.X R n).setWidth f.size) amount.toNat⟩ ↔
      n ≠ 31#5 ∨ amount = 0#6 := by
  have hamount : (amount.setWidth 64).toNat = amount.toNat :=
    BitVec.toNat_setWidth_of_le (by decide)
  have hzero : amount.setWidth 64 = 0#64 ↔ amount = 0#6 :=
    (by decide : ∀ b : BitVec 6, b.setWidth 64 = 0#64 ↔ b = 0#6) amount
  have hlift := lift_AddShiftRegOperand f R n shift (hamount.trans_lt hlt)
  rw [hamount] at hlift
  rw [eq_some_iff hlift, not_and_or, not_not, hzero]

theorem AddExtendRegOperand_iff (option : BitVec 3) {shift_size : BitVec 64} {k : ℕ}
    (hk : shift_size.toNat = k) (hlt : k < f.size) :
    (RegOperand.AddExtendRegOperand (ExtendClass f option) n (.ofField option) f.size
      shift_size).lift R = some ⟨f.size, Arm.ExtendReg f.size option (Arm.X R n) k⟩ ↔
      n ≠ 31#5 := by
  have hlift := lift_AddExtendRegOperand f R n option (hk.trans_lt hlt)
  rw [hk] at hlift
  exact eq_some_iff hlift

theorem offset_iff {d : RegOffFields} {shift : BitVec 64} {o : RegOperand} {scale : ℕ}
    (hshift : shift.toNat = if d.S = 1#1 then scale else 0) (hscale : scale ≤ 4)
    (h : d.offset shift = some o) : o.lift R = some (Arm.offset R d scale) ↔ d.Rm ≠ 31#5 := by
  unfold RegOffFields.offset at h
  by_cases hsub : d.IsSubWordIndex
  · rw [if_pos hsub] at h
    exact nomatch h
  · rw [if_neg hsub] at h
    cases h
    apply AddExtendRegOperand_iff (f := .X) d.option hshift
    split
    · exact hscale.trans_lt (by decide)
    · decide

theorem offsetBL_iff {d : RegOffFields} {o : RegOperand} (h : d.offsetBL = some o) :
    o.lift R = some ⟨64, Arm.X R d.Rm⟩ := by
  unfold RegOffFields.offsetBL at h
  by_cases hsub : d.IsSubWordIndex
  · rw [if_pos hsub] at h
    exact nomatch h
  · rw [if_neg hsub] at h
    cases h
    apply (lift_register (.inr rfl)).trans
    exact congrArg (fun x => some (⟨64, x⟩ : ShiftRegOperand.Sized)) (BitVec.setWidth_eq _)

end

/-- The amounts that the decoders let through. -/
theorem amount_lt {f : Form} {imm6 : BitVec 6} (h : ¬(f = .W ∧ imm6.getLsbD 5)) :
    imm6.toNat < f.size := by
  cases f with
  | X => exact imm6.isLt
  | W =>
    exact (by decide : ∀ b : BitVec 6, ¬b.getLsbD 5 = true → b.toNat < 32) imm6
      fun hbit => h ⟨rfl, hbit⟩

theorem toNat_DecodeScale (d : RegOffFields) : d.DecodeScale.toNat = Arm.scale d := by
  obtain ⟨size, opc, -, -, -⟩ := d
  exact (by decide : ∀ size opc : BitVec 2,
    (((opc.setWidth 64 &&& 0x2#64) <<< 1) ||| size.setWidth 64).toNat =
      (opc.getLsbD 1).toNat * 4 + size.toNat) size opc

section

variable {R : RegFile} {o : RegOperand}

theorem ADDSUB_EXT_iff {f : Form} {d : ExtFields}
    (h : (ShiftRegDecoder.ADD_ADDSUB_EXT f d).TryDecode = some o) :
    o.lift R = some ⟨f.size, Arm.ExtendReg f.size d.option (Arm.X R d.Rm) d.imm3.toNat⟩ ↔
      d.Rm ≠ 31#5 := by
  have hk : (d.imm3.setWidth 64).toNat = d.imm3.toNat := BitVec.toNat_setWidth_of_le (by decide)
  cases f with
  | W =>
    obtain ⟨himm, h⟩ := option_ite h
    cases h
    exact AddExtendRegOperand_iff (f := .W) d.option hk
      ((Nat.le_of_not_lt himm).trans_lt (by decide))
  | X =>
    obtain ⟨himm, h⟩ := option_ite h
    cases h
    exact AddExtendRegOperand_iff (f := .X) d.option hk
      ((Nat.le_of_not_lt himm).trans_lt (by decide))

/-- An access of general registers, whose scale is its size. -/
theorem size_offset_iff {d : RegOffFields}
    (h : (ShiftRegDecoder.LDR_n_LDST_REGOFF d).TryDecode = some o) :
    o.lift R = some (Arm.offset R d d.size.toNat) ↔ d.Rm ≠ 31#5 := by
  apply offset_iff _ (d.size.isLt.le) h
  split
  · exact BitVec.toNat_setWidth_of_le (by decide)
  · rfl

/-- An access whose scale is checked. -/
theorem scale_offset_iff {d : RegOffFields}
    (h : (ShiftRegDecoder.STRn_m_LDST_REGOFF d).TryDecode = some o) :
    o.lift R = some (Arm.offset R d (Arm.scale d)) ↔ d.Rm ≠ 31#5 := by
  obtain ⟨hscale, h⟩ := option_ite h
  rw [toNat_DecodeScale] at hscale
  apply offset_iff _ (Nat.le_of_not_lt hscale) h
  split
  · exact toNat_DecodeScale d
  · rfl

end

/-- The operand of an accepted instruction has the value of the architecture exactly if it does not
extend or shift the zero register. -/
theorem operand_eq_iff (R : RegFile) (i : ShiftRegDecoder) {o : RegOperand}
    (h : i.TryDecode = some o) : o.lift R = some (Arm.operand R i) ↔ i.Right := by
  -- the decoders of one kind share their lemma; what the decoder checks bounds the amount
  cases i with
  | ADD_ADDSUB_SHIFT f d =>
    obtain ⟨hamount, h⟩ := option_ite h
    obtain ⟨-, h⟩ := option_ite h
    cases h
    exact AddShiftRegOperand_iff d.shift (amount_lt hamount)
  | SUBS_ADDSUB_SHIFT f d =>
    obtain ⟨-, h⟩ := option_ite h
    obtain ⟨hamount, h⟩ := option_ite h
    cases h
    exact AddShiftRegOperand_iff d.shift (amount_lt hamount)
  | EOR_LOG_SHIFT f d =>
    obtain ⟨hamount, h⟩ := option_ite h
    cases h
    exact AddShiftRegOperand_iff d.shift (amount_lt hamount)
  | UBFM_BITFIELD f N immr imms Rn =>
    cases f with
    | W =>
      obtain ⟨hamount, h⟩ := option_ite h
      cases h
      apply AddShiftRegOperand_iff (f := .W) 3#2
      apply (by decide : ∀ b : BitVec 6, b &&& 0x20#6 = 0#6 → b.toNat < 32)
      exact not_not.mp fun hne => hamount (.inr (.inl hne))
    | X =>
      obtain ⟨-, h⟩ := option_ite h
      cases h
      exact AddShiftRegOperand_iff (f := .X) 3#2 immr.isLt
  | ADD_ADDSUB_EXT f d => exact ADDSUB_EXT_iff h
  | SUBS_ADDSUB_EXT f d =>
    cases f with
    | W => exact ADDSUB_EXT_iff (f := .W) h
    | X => exact ADDSUB_EXT_iff (f := .X) h
  | STRB_32B_LDST_REGOFF d => exact offset_iff (by split <;> rfl) (by decide) h
  | STRB_32BL_LDST_REGOFF d => exact iff_true_intro (offsetBL_iff h)
  | LDRB_32BL_LDST_REGOFF d => exact iff_true_intro (offsetBL_iff h)
  | LDR_n_LDST_REGOFF d => exact size_offset_iff h
  | STR_n_LDST_REGOFF d => exact size_offset_iff h
  | LDRn_m_LDST_REGOFF i d =>
    apply offset_iff _ (by cases i <;> decide) h
    rcases (by decide : ∀ b : BitVec 1, b = 0#1 ∨ b = 1#1) d.S with hS | hS <;>
      rw [hS] <;> cases i <;> rfl
  | STRn_m_LDST_REGOFF d => exact scale_offset_iff h
  | STR_Vn_LDST_REGOFF d => exact scale_offset_iff h
  | LDR_Vn_LDST_REGOFF d => exact scale_offset_iff h

/-- `ADD X0, X1, X2, LSL #3` -/
theorem operand_lsl_three :
    (RegOperand.AddShiftRegOperand .RegX 2#5 .kShiftLSL 3#64).lift (fun _ => 5#128) =
      some ⟨64, 40#64⟩ :=
  (operand_eq_iff (fun _ => 5#128) (.ADD_ADDSUB_SHIFT .X ⟨0#2, 2#5, 3#6⟩) rfl).mpr
    (.inl (by decide))

/-- `ADD X0, X1, XZR, LSL #1` ends the lifter. -/
theorem operand_zero_lsl_one :
    ∃ o, (ShiftRegDecoder.ADD_ADDSUB_SHIFT .X ⟨0#2, 31#5, 1#6⟩).TryDecode = some o ∧
      o.lift (fun _ => 0#128) ≠
        some (Arm.operand (fun _ => 0#128) (.ADD_ADDSUB_SHIFT .X ⟨0#2, 31#5, 1#6⟩)) := by
  refine ⟨_, rfl, ?_⟩
  show (none : Option ShiftRegOperand.Sized) ≠ _
  exact fun h => nomatch h

end Elfconv.AArch64
