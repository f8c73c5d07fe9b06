/-
Elfconv/Semantics/BitField.lean

Bit-field moves and logical operations with an immediate, from the fields of the instruction to the
value of the destination.

The decoder checks the fields, makes the masks and gives the operands; the lifter turns them into
values; the semantics function combines these.  `UBFM` gets its source rotated by the lifter and
one mask, `SBFM` and `BFM` rotate by themselves.  All of it agrees with the architecture where the
masks do, but that the lifter ends where it has to rotate the zero register.
-/
import Elfconv.Semantics.BitMasks
import Elfconv.Semantics.Execute
import Elfconv.Semantics.Flags

namespace Elfconv.AArch64

open CInt BitPattern

variable {w : ℕ}

/-! ### Operands -/

/-- The registers that are read: the destination of `BFM`, and the source. -/
inductive SourceReg
  | Rd
  | Rn

/-- `GetOperandShift` -/
inductive OperandShift
  | kShiftLeftWithZeroes
  | kShiftUnsignedRight
  | kShiftSignedRight
  | kShiftRightAround

/-- The operands that are read. -/
inductive MaskOperand
  | reg (reg : SourceReg)
  | shiftReg (reg : SourceReg) (shift_op : OperandShift) (shift_size : BitVec 64)
  | imm (val : BitVec 64)

/-- `AddShiftRegOperand`: a shift by zero leaves a plain register. -/
def AddShiftRegOperand (reg : SourceReg) (shift_type : OperandShift) (shift_size : BitVec 64) :
    MaskOperand :=
  if shift_size = 0#64 then .reg reg else .shiftReg reg shift_type shift_size

/-- The shift of `LiftShiftRegisterOperand`; the check of the amount ends the lifter. -/
def LiftShiftRegisterOperand (shift_op : OperandShift) (shift_size : BitVec 64) (reg : BitVec w) :
    Option (BitVec w) :=
  if shift_size.toNat < w then
    match shift_op with
    | .kShiftLeftWithZeroes => some (reg <<< shift_size.toNat)
    | .kShiftUnsignedRight => some (reg >>> shift_size.toNat)
    | .kShiftSignedRight => some (reg.sshiftRight shift_size.toNat)
    | .kShiftRightAround =>
      let shl_amount := (~~~shift_size + 1#64) &&& (BitVec.ofNat 64 w - 1#64)
      some (reg >>> shift_size.toNat ||| reg <<< shl_amount.toNat)
  else none

/-- The class of the registers of a form. -/
def Form.rclass : Form → ERC
  | .W => .RegW
  | .X => .RegX

/-- The number in the field. -/
def SourceReg.num (Rd Rn : BitVec 5) : SourceReg → BitVec 5
  | .Rd => Rd
  | .Rn => Rn

/-- The value of an operand; nothing where the lifter ends.  A register that is shifted is loaded,
and there is no register of the name of the zero register. -/
def MaskOperand.lift (f : Form) (Rd Rn : BitVec 5) (R : RegFile) :
    MaskOperand → Option (BitVec f.size)
  | .reg r => do
      let name ← regNameOf .kActionRead f.rclass .kUseAsValue (r.num Rd Rn).toNat
      let v ← liftRegister R name
      return v.bits.setWidth f.size
  | .shiftReg r shift_op shift_size => do
      let name ← regNameOf .kActionRead f.rclass .kUseAsValue (r.num Rd Rn).toNat
      let v ← LoadRegValue R name
      LiftShiftRegisterOperand shift_op shift_size (v.bits.setWidth f.size)
  | .imm val => some (val.setWidth f.size)

/-! ### Decoders -/

/-- The instructions whose immediates are masks. -/
inductive MaskInst
  | UBFM | SBFM | BFM | AND | ORR | EOR | ANDS
  deriving DecidableEq

section

variable (big : Overshift) (f : Form) (d : MaskFields)

/-- `DecodeBitMasks` on the fields of an instruction. -/
def decodeMasks (is_immediate : Bool) : Option (Option (BitVec 64 × BitVec 64)) :=
  DecodeBitMasks big (d.N.setWidth 64) (d.imms.setWidth 64) (d.immr.setWidth 64) is_immediate
    (BitVec.ofNat 64 f.size)

/-- The checks of the bit-field decoders on the fields. -/
def rejectsBitField : Bool :=
  match f with
  | .W => d.N != 0#1 || (d.immr &&& 0x20#6 != 0#6 || d.imms &&& 0x20#6 != 0#6)
  | .X => d.N == 0#1

/-- A bit-field decoder: the checks, the masks, and the operands made from these. -/
def TryDecodeBitField (operands : BitVec 64 → BitVec 64 → List MaskOperand) :
    Option (Option (List MaskOperand)) := do
  if rejectsBitField f d then
    return none
  let some (wmask, tmask) ← decodeMasks big f d false | return none
  return some (operands wmask tmask)

/-- The rotation is left to the operand, and one mask to the function. -/
def TryDecodeUBFM : Option (Option (List MaskOperand)) :=
  TryDecodeBitField big f d fun wmask tmask =>
    [AddShiftRegOperand .Rn .kShiftRightAround (d.immr.setWidth 64), .imm (wmask &&& tmask)]

/-- The function gets both fields and both masks. -/
def TryDecodeSBFM : Option (Option (List MaskOperand)) :=
  TryDecodeBitField big f d fun wmask tmask =>
    [.reg .Rn, .imm (d.immr.setWidth 64), .imm (d.imms.setWidth 64), .imm wmask, .imm tmask]

/-- The destination is an operand too. -/
def TryDecodeBFM : Option (Option (List MaskOperand)) :=
  TryDecodeBitField big f d fun wmask tmask =>
    [.reg .Rd, .reg .Rn, .imm (d.immr.setWidth 64), .imm wmask, .imm tmask]

/-- `TryDecodeEOR_32_LOG_IMM` and its like; only those for 32 bits look at `N`. -/
def TryDecodeLogImm : Option (Option (List MaskOperand)) := do
  if f = .W ∧ d.N ≠ 0#1 then
    return none
  let some (wmask, _) ← decodeMasks big f d true | return none
  return some [.reg .Rn, .imm wmask]

/-- The decoder of an instruction. -/
def MaskInst.TryDecode : MaskInst → Option (Option (List MaskOperand))
  | UBFM => TryDecodeUBFM big f d
  | SBFM => TryDecodeSBFM big f d
  | BFM => TryDecodeBFM big f d
  | AND | ORR | EOR | ANDS => TryDecodeLogImm big f d

end

/-! ### Semantics functions -/

/-- `UBFM`, on a rotated operand. -/
def UBFM (src1 mask : BitVec w) : Option (BitVec w) := UAnd src1 mask

/-- `SBFM`: bit `S` is brought to the top and spread by a shift with signs. -/
def SBFM (src R S wmask tmask : BitVec w) : Option (BitVec w) := do
  let bot ← UAnd (← Ror src R) wmask
  let shift_max := BitVec.ofNat w (w - 1)
  let top ← SShr (← UShl src (← USub shift_max S)) shift_max
  UOr (← UAnd top (← UNot tmask)) (← UAnd bot tmask)

/-- `BFM` keeps the destination outside the masks. -/
def BFM (dst_val src R wmask tmask : BitVec w) : Option (BitVec w) := do
  let bot ← UOr (← UAnd dst_val (← UNot wmask)) (← UAnd (← Ror src R) wmask)
  UOr (← UAnd dst_val (← UNot tmask)) (← UAnd bot tmask)

/-- `AND`, under the mask of the immediate. -/
def AND (src1 src2 : BitVec w) : Option (BitVec w) := UAnd src1 src2

/-- `ORR`, with the mask of the immediate. -/
def ORR (src1 src2 : BitVec w) : Option (BitVec w) := UOr src1 src2

/-- `EOR`, with the mask of the immediate. -/
def EOR (src1 src2 : BitVec w) : Option (BitVec w) := UXor src1 src2

/-- `ANDS` clears the carry and the overflow. -/
def ANDS (src1 src2 : BitVec w) : Option (BitVec w × BitVec 64) := do
  let res ← UAnd src1 src2
  return (res, packNZCV (ofBool64 (SignFlag res)) (ofBool64 (ZeroFlag res)) (ofBool64 false)
    (ofBool64 false))

/-- The value of the destination, and the flags if the instruction sets them. -/
structure MaskResult (w : ℕ) where
  value : BitVec w
  nzcv : Option (BitVec 64)
  deriving DecidableEq

/-- The semantics function, called on the values of the operands. -/
def MaskInst.call : MaskInst → List (BitVec w) → Option (MaskResult w)
  | UBFM, [src1, mask] => do return ⟨← AArch64.UBFM src1 mask, none⟩
  | SBFM, [src, R, S, wmask, tmask] => do return ⟨← AArch64.SBFM src R S wmask tmask, none⟩
  | BFM, [dst, src, R, wmask, tmask] => do return ⟨← AArch64.BFM dst src R wmask tmask, none⟩
  | AND, [src1, src2] => do return ⟨← AArch64.AND src1 src2, none⟩
  | ORR, [src1, src2] => do return ⟨← AArch64.ORR src1 src2, none⟩
  | EOR, [src1, src2] => do return ⟨← AArch64.EOR src1 src2, none⟩
  | ANDS, [src1, src2] => do
    let (res, nzcv) ← AArch64.ANDS src1 src2
    return ⟨res, some nzcv⟩
  | _, _ => none

/-- From the fields to the value: nothing where it is undefined or the lifter ends, else what is
computed, unless the decoder rejects the instruction. -/
def MaskInst.sem (big : Overshift) (i : MaskInst) (f : Form) (d : MaskFields) (Rd Rn : BitVec 5)
    (R : RegFile) : Option (Option (MaskResult f.size)) := do
  let some operands ← i.TryDecode big f d | return none
  return some (← i.call (← operands.mapM (MaskOperand.lift f Rd Rn R)))

/-! ### The architecture -/

namespace Arm

section

variable (R S : ℕ) (wmask tmask : BitVec w)

/-- The rotated source under both masks. -/
def UBFM (src : BitVec w) : BitVec w :=
  let bot := src.rotateRight R &&& wmask
  bot &&& tmask

/-- Above the top mask stand copies of bit `S`. -/
def SBFM (src : BitVec w) : BitVec w :=
  let bot := src.rotateRight R &&& wmask
  let top := if src.getLsbD S then BitVec.allOnes w else 0#w
  (top &&& ~~~tmask) ||| (bot &&& tmask)

/-- Outside the masks stands the destination. -/
def BFM (dst src : BitVec w) : BitVec w :=
  let bot := (dst &&& ~~~wmask) ||| (src.rotateRight R &&& wmask)
  (dst &&& ~~~tmask) ||| (bot &&& tmask)

end

/-- The instruction is reserved: `UNDEFINED` in its decoding. -/
def reserved (f : Form) (d : MaskFields) : MaskInst → Bool
  | .UBFM | .SBFM | .BFM =>
    (match f with
      | .W => d.N != 0#1 || (d.immr.getLsbD 5 || d.imms.getLsbD 5)
      | .X => d.N != 1#1) || decide (d.Reserved f.size false)
  | .AND | .ORR | .EOR | .ANDS =>
    (decide (f = .W) && d.N != 0#1) || decide (d.Reserved f.size true)

/-- What an instruction that is not reserved computes. -/
def result (f : Form) (d : MaskFields) (rd rn : BitVec f.size) : MaskInst → MaskResult f.size
  | .UBFM => ⟨UBFM d.immr.toNat (d.wmask f.size) (d.tmask f.size) rn, none⟩
  | .SBFM => ⟨SBFM d.immr.toNat d.imms.toNat (d.wmask f.size) (d.tmask f.size) rn, none⟩
  | .BFM => ⟨BFM d.immr.toNat (d.wmask f.size) (d.tmask f.size) rd rn, none⟩
  | .AND => ⟨rn &&& d.wmask f.size, none⟩
  | .ORR => ⟨rn ||| d.wmask f.size, none⟩
  | .EOR => ⟨rn ^^^ d.wmask f.size, none⟩
  | .ANDS =>
    let res := rn &&& d.wmask f.size
    ⟨res, some (Flags.mk res.msb (decide (res = 0#f.size)) false false).word⟩

end Arm

/-! ### Lifting and semantics functions -/

theorem LiftShift_rotate (f : Form) (n : BitVec 64) (reg : BitVec f.size) (hn : n ≠ 0#64)
    (hlt : n.toNat < f.size) :
    LiftShiftRegisterOperand .kShiftRightAround n reg = some (reg.rotateRight n.toNat) := by
  have hle : f.size ≤ 64 := by cases f <;> decide
  have hpos : 0 < n.toNat := by
    rw [Nat.pos_iff_ne_zero]
    exact fun h => hn (BitVec.eq_of_toNat_eq h)
  have hmask : (BitVec.ofNat 64 f.size - 1#64).toNat = f.size - 1 := by cases f <;> rfl
  -- the amount of the shift to the left is the width less the rotation
  have hamount : ((~~~n + 1#64) &&& (BitVec.ofNat 64 f.size - 1#64)).toNat = f.size - n.toNat := by
    rw [← BitVec.neg_eq_not_add, BitVec.toNat_and, hmask, BitVec.toNat_neg]
    cases f with
    | W =>
      show (2 ^ 64 - n.toNat) % 2 ^ 64 &&& (2 ^ 5 - 1) = 32 - n.toNat
      rw [Nat.and_two_pow_sub_one_eq_mod]
      have hlt' : n.toNat < 32 := hlt
      omega
    | X =>
      show (2 ^ 64 - n.toNat) % 2 ^ 64 &&& (2 ^ 6 - 1) = 64 - n.toNat
      rw [Nat.and_two_pow_sub_one_eq_mod]
      have hlt' : n.toNat < 64 := hlt
      omega
  rw [BitVec.rotateRight_eq_rotateRightAux_of_lt hlt]
  unfold LiftShiftRegisterOperand
  rw [if_pos hlt]
  show some (_ ||| reg <<< _) = _
  rw [hamount]
  rfl

section

variable {R : RegFile} {rclass : ERC} {n : BitVec 5}

theorem rclass_general (f : Form) : f.rclass = .RegW ∨ f.rclass = .RegX := by
  cases f
  · exact .inl rfl
  · exact .inr rfl

/-- Any other register has a name, under which it is loaded. -/
theorem exists_regName (h : rclass = .RegW ∨ rclass = .RegX) (hn : n ≠ 31#5) :
    ∃ name, regNameOf .kActionRead rclass .kUseAsValue n.toNat = some name ∧
      LoadRegValue R name = some ⟨rclass, (Arm.X R n).setWidth (ERCSize rclass)⟩ ∧
      liftRegister R name = LoadRegValue R name := by
  rw [Arm.X, if_neg hn]
  rcases h with rfl | rfl
  · refine ⟨_, regNameXW_of_ne (by decide) _ _ hn, ?_, rfl⟩
    show _ = some (⟨.RegW, ((R ⟨.General, n.toNat⟩).setWidth 64).setWidth 32⟩ : Value)
    rw [BitVec.setWidth_setWidth_of_le _ (by decide)]
    rfl
  · refine ⟨_, regNameXW_of_ne (by decide) _ _ hn, ?_, rfl⟩
    show _ = some (⟨.RegX, ((R ⟨.General, n.toNat⟩).setWidth 64).setWidth 64⟩ : Value)
    rw [BitVec.setWidth_eq]
    rfl

/-- As it stands the zero register is a constant. -/
theorem read_register (h : rclass = .RegW ∨ rclass = .RegX) :
    ((regNameOf .kActionRead rclass .kUseAsValue n.toNat).bind fun name => liftRegister R name) =
      some ⟨rclass, (Arm.X R n).setWidth (ERCSize rclass)⟩ := by
  by_cases hn : n = 31#5
  · rw [Arm.X, if_pos hn, hn]
    rcases h with rfl | rfl <;> rfl
  · obtain ⟨name, hname, hload, hlift⟩ := exists_regName (R := R) h hn
    rw [hname, Option.bind_some, hlift, hload]

/-- The zero register has a name, but there is no register of the name. -/
theorem load_register (h : rclass = .RegW ∨ rclass = .RegX) :
    ((regNameOf .kActionRead rclass .kUseAsValue n.toNat).bind fun name => LoadRegValue R name) =
      if n = 31#5 then none else some ⟨rclass, (Arm.X R n).setWidth (ERCSize rclass)⟩ := by
  by_cases hn : n = 31#5
  · rw [if_pos hn, hn]
    rcases h with rfl | rfl <;> rfl
  · obtain ⟨name, hname, hload, -⟩ := exists_regName (R := R) h hn
    rw [if_neg hn, hname, Option.bind_some, hload]

end

section

variable (f : Form) (Rd Rn : BitVec 5) (R : RegFile)

theorem lift_reg (r : SourceReg) :
    (MaskOperand.reg r).lift f Rd Rn R = some ((Arm.X R (r.num Rd Rn)).setWidth f.size) := by
  show ((regNameOf .kActionRead f.rclass .kUseAsValue (r.num Rd Rn).toNat).bind fun name =>
    (liftRegister R name).bind fun v => some (v.bits.setWidth f.size)) = _
  rw [← Option.bind_assoc, read_register (rclass_general f)]
  cases f <;> exact congrArg some (BitVec.setWidth_eq _)

/-- The source that is rotated. -/
theorem lift_AddShiftReg (n : BitVec 64) (hlt : n.toNat < f.size) :
    (AddShiftRegOperand .Rn .kShiftRightAround n).lift f Rd Rn R =
      if Rn = 31#5 ∧ n ≠ 0#64 then none
      else some (((Arm.X R Rn).setWidth f.size).rotateRight n.toNat) := by
  unfold AddShiftRegOperand
  by_cases hn : n = 0#64
  · rw [if_pos hn, if_neg fun h => h.2 hn, lift_reg, hn]
    exact congrArg some (rotateRight_zero _).symm
  · have hload := load_register (R := R) (n := Rn) (rclass_general f)
    rw [if_neg hn]
    show ((regNameOf .kActionRead f.rclass .kUseAsValue Rn.toNat).bind fun name =>
      (LoadRegValue R name).bind fun v => LiftShiftRegisterOperand _ n (v.bits.setWidth f.size)) = _
    rw [← Option.bind_assoc, hload]
    by_cases hz : Rn = 31#5
    · rw [if_pos hz, if_pos ⟨hz, hn⟩]
      rfl
    · rw [if_neg hz, if_neg fun h => hz h.1, Option.bind_some, ← LiftShift_rotate f n _ hn hlt]
      cases f <;> exact congrArg (LiftShiftRegisterOperand _ n) (BitVec.setWidth_eq _)

end

theorem toNat_field (f : Form) (x : BitVec 6) :
    ((x.setWidth 64).setWidth f.size).toNat = x.toNat := by
  have hle : 2 ^ 6 ≤ 2 ^ f.size := Nat.pow_le_pow_right (by decide) (by cases f <;> decide)
  rw [BitVec.toNat_setWidth, BitVec.toNat_setWidth_of_le (by decide),
    Nat.mod_eq_of_lt (x.isLt.trans_le hle)]

/-- The sign in every place. -/
theorem sshiftRight_pred (hw : 0 < w) (x : BitVec w) :
    x.sshiftRight (w - 1) = if x.msb then BitVec.allOnes w else 0#w := by
  apply BitVec.eq_of_getLsbD_eq
  intro i hi
  have hbit : (x.sshiftRight (w - 1)).getLsbD i = x.msb := by
    rw [BitVec.getLsbD_sshiftRight, decide_eq_false (by omega), Bool.not_false, Bool.true_and]
    split
    · next h => rw [show w - 1 + i = w - 1 by omega, BitVec.msb_eq_getLsbD_last]
    · rfl
  rw [hbit]
  cases x.msb with
  | true => rw [if_pos rfl, BitVec.getLsbD_allOnes, decide_eq_true hi]
  | false => rw [if_neg Bool.false_ne_true, BitVec.getLsbD_zero]

theorem SBFM_eq (f : Form) (src wmask tmask : BitVec f.size) (immr imms : BitVec 6)
    (hS : imms.toNat < f.size) :
    SBFM src ((immr.setWidth 64).setWidth f.size) ((imms.setWidth 64).setWidth f.size) wmask tmask =
      some (Arm.SBFM immr.toNat imms.toNat wmask tmask src) := by
  have hpos : 0 < f.size := Nat.zero_lt_of_lt hS
  have hmax : (BitVec.ofNat f.size (f.size - 1)).toNat = f.size - 1 := by cases f <;> rfl
  have hsub : (BitVec.ofNat f.size (f.size - 1) - (imms.setWidth 64).setWidth f.size).toNat =
      f.size - 1 - imms.toNat := by
    rw [BitVec.toNat_sub_of_le (by rw [BitVec.le_def, hmax, toNat_field]; omega), hmax, toNat_field]
  have htop : (src <<< (f.size - 1 - imms.toNat)).sshiftRight (f.size - 1) =
      if src.getLsbD imms.toNat then BitVec.allOnes f.size else 0#f.size := by
    have hmsb : (src <<< (f.size - 1 - imms.toNat)).msb = src.getLsbD imms.toNat := by
      rw [BitVec.msb_eq_getLsbD_last, BitVec.getLsbD_shiftLeft, decide_eq_true (by omega),
        decide_eq_false (by omega), Bool.not_false, Bool.true_and, Bool.true_and]
      congr 1
      omega
    rw [sshiftRight_pred hpos, hmsb]
  simp only [SBFM, Ror_eq _ _ hpos, toNat_field, UAnd_eq, USub_eq, UNot_eq, UOr_eq,
    Option.bind_eq_bind, Option.bind_some]
  rw [UShl_eq src (by rw [hsub]; omega), Option.bind_some,
    SShr_eq _ (by rw [hmax]; omega) (size_le_two_pow f), Option.bind_some, hsub, hmax, htop]
  rfl

theorem BFM_eq (f : Form) (dst src wmask tmask : BitVec f.size) (immr : BitVec 6) :
    BFM dst src ((immr.setWidth 64).setWidth f.size) wmask tmask =
      some (Arm.BFM immr.toNat wmask tmask dst src) := by
  have hpos : 0 < f.size := by cases f <;> decide
  simp only [BFM, Ror_eq _ _ hpos, toNat_field, UAnd_eq, UNot_eq, UOr_eq, Option.bind_eq_bind,
    Option.bind_some]
  rfl

theorem ANDS_eq (a b : BitVec w) :
    ANDS a b = some (a &&& b,
      (Flags.mk (a &&& b).msb (decide (a &&& b = 0#w)) false false).word) := by
  simp only [ANDS, UAnd_eq, Option.bind_eq_bind, Option.bind_some, SignFlag_eq, ZeroFlag_eq]
  rfl

/-! ### From the fields to the value -/

/-- The decoder's masks are those of the architecture. -/
def MasksFollow (big : Overshift) (f : Form) (d : MaskFields) (immediate : Bool) : Prop :=
  decodeMasks big f d immediate = some (if d.Reserved f.size immediate then none
    else some ((d.wmask f.size).setWidth 64, (d.tmask f.size).setWidth 64))

theorem setWidth_mask (f : Form) (m : BitVec f.size) : (m.setWidth 64).setWidth f.size = m := by
  apply BitVec.eq_of_getLsbD_eq
  intro i hi
  have hle : f.size ≤ 64 := by cases f <;> decide
  rw [BitVec.getLsbD_setWidth, BitVec.getLsbD_setWidth, decide_eq_true hi,
    decide_eq_true (hi.trans_le hle), Bool.true_and, Bool.true_and]

theorem and_0x20_ne : ∀ x : BitVec 6, (x &&& 0x20#6 != 0#6) = x.getLsbD 5 := by decide

/-- The checks of the bit-field decoders are those of the architecture. -/
theorem rejectsBitField_eq (f : Form) (d : MaskFields) : rejectsBitField f d =
    match f with
    | .W => d.N != 0#1 || (d.immr.getLsbD 5 || d.imms.getLsbD 5)
    | .X => d.N != 1#1 := by
  have hN : ∀ N : BitVec 1, (N == 0#1) = (N != 1#1) := by decide
  cases f with
  | W => simp only [rejectsBitField, and_0x20_ne]
  | X => exact hN d.N

theorem reserved_bitField {f : Form} {d : MaskFields} {i : MaskInst}
    (hi : i = .UBFM ∨ i = .SBFM ∨ i = .BFM) :
    Arm.reserved f d i = (rejectsBitField f d || decide (d.Reserved f.size false)) := by
  rw [rejectsBitField_eq]
  rcases hi with rfl | rfl | rfl <;> rfl

theorem lt_size_of_not_rejects {f : Form} {d : MaskFields} (h : rejectsBitField f d = false) :
    d.immr.toNat < f.size ∧ d.imms.toNat < f.size := by
  have hlow : ∀ x : BitVec 6, x.getLsbD 5 = false → x.toNat < 32 := by decide
  rw [rejectsBitField_eq] at h
  cases f with
  | W =>
    simp only [Bool.or_eq_false_iff] at h
    exact ⟨hlow _ h.2.1, hlow _ h.2.2⟩
  | X => exact ⟨d.immr.isLt, d.imms.isLt⟩

section

variable {big : Overshift} {f : Form} {d : MaskFields}

theorem TryDecodeBitField_eq (h : MasksFollow big f d false)
    (operands : BitVec 64 → BitVec 64 → List MaskOperand) :
    TryDecodeBitField big f d operands =
      some (if rejectsBitField f d || decide (d.Reserved f.size false) then none
        else some (operands ((d.wmask f.size).setWidth 64) ((d.tmask f.size).setWidth 64))) := by
  unfold TryDecodeBitField
  rw [show decodeMasks big f d false = _ from h]
  cases rejectsBitField f d with
  | true => rfl
  | false =>
    by_cases hres : d.Reserved f.size false
    · rw [if_pos hres, decide_eq_true hres]
      rfl
    · rw [if_neg hres, decide_eq_false hres]
      rfl

theorem TryDecodeLogImm_eq (h : MasksFollow big f d true) :
    TryDecodeLogImm big f d =
      some (if (decide (f = .W) && d.N != 0#1) || decide (d.Reserved f.size true) then none
        else some [.reg .Rn, .imm ((d.wmask f.size).setWidth 64)]) := by
  unfold TryDecodeLogImm
  rw [show decodeMasks big f d true = _ from h]
  by_cases hN : f = .W ∧ d.N ≠ 0#1
  · have hcheck : (decide (f = .W) && d.N != 0#1) = true := by
      rw [Bool.and_eq_true, decide_eq_true_iff, bne_iff_ne]
      exact hN
    rw [if_pos hN, hcheck]
    rfl
  · have hcheck : (decide (f = .W) && d.N != 0#1) = false := by
      rw [Bool.eq_false_iff, Ne, Bool.and_eq_true, decide_eq_true_iff, bne_iff_ne]
      exact hN
    rw [if_neg hN, hcheck]
    by_cases hres : d.Reserved f.size true
    · rw [if_pos hres, decide_eq_true hres]
      rfl
    · rw [if_neg hres, decide_eq_false hres]
      rfl

/-- The operands that a decoder makes of the fields. -/
def MaskInst.operands (f : Form) (d : MaskFields) (i : MaskInst) : List MaskOperand :=
  let wmask := (d.wmask f.size).setWidth 64
  let tmask := (d.tmask f.size).setWidth 64
  match i with
  | UBFM => [AddShiftRegOperand .Rn .kShiftRightAround (d.immr.setWidth 64), .imm (wmask &&& tmask)]
  | SBFM =>
      [.reg .Rn, .imm (d.immr.setWidth 64), .imm (d.imms.setWidth 64), .imm wmask, .imm tmask]
  | BFM => [.reg .Rd, .reg .Rn, .imm (d.immr.setWidth 64), .imm wmask, .imm tmask]
  | AND | ORR | EOR | ANDS => [.reg .Rn, .imm wmask]

/-- Where the masks are those of the architecture, what is reserved is rejected. -/
theorem TryDecode_eq (h : ∀ immediate, MasksFollow big f d immediate) (i : MaskInst) :
    i.TryDecode big f d =
      some (if Arm.reserved f d i then none else some (i.operands f d)) := by
  cases i with
  | UBFM =>
    exact (TryDecodeBitField_eq (h false) _).trans (by rw [reserved_bitField (.inl rfl)]; rfl)
  | SBFM =>
    exact (TryDecodeBitField_eq (h false) _).trans
      (by rw [reserved_bitField (.inr (.inl rfl))]; rfl)
  | BFM =>
    exact (TryDecodeBitField_eq (h false) _).trans
      (by rw [reserved_bitField (.inr (.inr rfl))]; rfl)
  | AND | ORR | EOR | ANDS => exact TryDecodeLogImm_eq (h true)

/-- The zero register has to be rotated. -/
def MaskInst.RotatesZero (i : MaskInst) (d : MaskFields) (Rn : BitVec 5) : Prop :=
  i = .UBFM ∧ Rn = 31#5 ∧ d.immr ≠ 0#6

instance (i : MaskInst) (d : MaskFields) (Rn : BitVec 5) : Decidable (i.RotatesZero d Rn) :=
  inferInstanceAs (Decidable (_ ∧ _))

theorem fields_lt {i : MaskInst} (hi : i = .UBFM ∨ i = .SBFM ∨ i = .BFM)
    (hres : Arm.reserved f d i = false) : d.immr.toNat < f.size ∧ d.imms.toNat < f.size := by
  rw [reserved_bitField hi, Bool.or_eq_false_iff] at hres
  exact lt_size_of_not_rejects hres.1

theorem toNat_immr (d : MaskFields) : (d.immr.setWidth 64).toNat = d.immr.toNat :=
  BitVec.toNat_setWidth_of_le (by decide)

theorem immr_ne_zero_iff (d : MaskFields) : d.immr.setWidth 64 ≠ 0#64 ↔ d.immr ≠ 0#6 := by
  refine not_congr ⟨fun h => BitVec.eq_of_toNat_eq ?_, fun h => by rw [h]; rfl⟩
  rw [← toNat_immr, h]
  rfl

section

variable (Rd Rn : BitVec 5) (R : RegFile)

/-- The source of `UBFM`, rotated. -/
theorem lift_source (hres : Arm.reserved f d .UBFM = false) :
    (AddShiftRegOperand .Rn .kShiftRightAround (d.immr.setWidth 64)).lift f Rd Rn R =
      if MaskInst.UBFM.RotatesZero d Rn then none
      else some (((Arm.X R Rn).setWidth f.size).rotateRight d.immr.toNat) := by
  rw [lift_AddShiftReg f Rd Rn R _ (by rw [toNat_immr]; exact (fields_lt (.inl rfl) hres).1),
    toNat_immr]
  refine if_congr ?_ rfl rfl
  rw [immr_ne_zero_iff, MaskInst.RotatesZero, eq_self_iff_true, true_and]

/-- The lifter ends where the zero register has to be rotated. -/
theorem lift_operands_eq_none {i : MaskInst} (hres : Arm.reserved f d i = false)
    (hrot : i.RotatesZero d Rn) : (i.operands f d).mapM (MaskOperand.lift f Rd Rn R) = none := by
  obtain ⟨rfl, hrot⟩ := hrot
  rw [MaskInst.operands, List.mapM_cons, lift_source Rd Rn R hres, if_pos ⟨rfl, hrot⟩]
  rfl

theorem UBFM_call (hres : Arm.reserved f d .UBFM = false)
    (hrot : ¬ MaskInst.UBFM.RotatesZero d Rn) :
    ((MaskInst.UBFM.operands f d).mapM (MaskOperand.lift f Rd Rn R)).bind MaskInst.UBFM.call =
      some (Arm.result f d ((Arm.X R Rd).setWidth f.size) ((Arm.X R Rn).setWidth f.size)
        .UBFM) := by
  have hmask : (MaskOperand.imm
      ((d.wmask f.size).setWidth 64 &&& (d.tmask f.size).setWidth 64)).lift f Rd Rn R =
        some (d.wmask f.size &&& d.tmask f.size) := by
    show some ((_ &&& _ : BitVec 64).setWidth f.size) = _
    rw [BitVec.setWidth_and, setWidth_mask, setWidth_mask]
  rw [MaskInst.operands, List.mapM_cons, lift_source Rd Rn R hres, if_neg hrot, List.mapM_cons,
    hmask, List.mapM_nil]
  show MaskInst.UBFM.call [_, d.wmask f.size &&& d.tmask f.size] = _
  rw [MaskInst.call, AArch64.UBFM, UAnd_eq, ← BitVec.and_assoc]
  rfl

theorem SBFM_call (hres : Arm.reserved f d .SBFM = false) :
    ((MaskInst.SBFM.operands f d).mapM (MaskOperand.lift f Rd Rn R)).bind MaskInst.SBFM.call =
      some (Arm.result f d ((Arm.X R Rd).setWidth f.size) ((Arm.X R Rn).setWidth f.size)
        .SBFM) := by
  rw [MaskInst.operands, List.mapM_cons, lift_reg]
  show (AArch64.SBFM ((Arm.X R Rn).setWidth f.size) ((d.immr.setWidth 64).setWidth f.size)
    ((d.imms.setWidth 64).setWidth f.size) (((d.wmask f.size).setWidth 64).setWidth f.size)
    (((d.tmask f.size).setWidth 64).setWidth f.size)).bind _ = _
  rw [setWidth_mask, setWidth_mask, SBFM_eq f _ _ _ _ _ (fields_lt (.inr (.inl rfl)) hres).2]
  rfl

theorem BFM_call :
    ((MaskInst.BFM.operands f d).mapM (MaskOperand.lift f Rd Rn R)).bind MaskInst.BFM.call =
      some (Arm.result f d ((Arm.X R Rd).setWidth f.size) ((Arm.X R Rn).setWidth f.size) .BFM) := by
  rw [MaskInst.operands, List.mapM_cons, lift_reg, List.mapM_cons, lift_reg]
  show (AArch64.BFM ((Arm.X R Rd).setWidth f.size) ((Arm.X R Rn).setWidth f.size)
    ((d.immr.setWidth 64).setWidth f.size) (((d.wmask f.size).setWidth 64).setWidth f.size)
    (((d.tmask f.size).setWidth 64).setWidth f.size)).bind _ = _
  rw [setWidth_mask, setWidth_mask, BFM_eq]
  rfl

/-- The operands of a logical operation. -/
theorem lift_logImm : [MaskOperand.reg .Rn, .imm ((d.wmask f.size).setWidth 64)].mapM
    (MaskOperand.lift f Rd Rn R) = some [(Arm.X R Rn).setWidth f.size, d.wmask f.size] := by
  rw [List.mapM_cons, lift_reg]
  show some [_, ((d.wmask f.size).setWidth 64).setWidth f.size] = _
  rw [setWidth_mask]
  rfl

/-- The function is right on the values of the operands. -/
theorem call_operands {i : MaskInst} (hres : Arm.reserved f d i = false)
    (hrot : ¬ i.RotatesZero d Rn) :
    ((i.operands f d).mapM (MaskOperand.lift f Rd Rn R)).bind i.call =
      some (Arm.result f d ((Arm.X R Rd).setWidth f.size) ((Arm.X R Rn).setWidth f.size) i) := by
  cases i with
  | UBFM => exact UBFM_call Rd Rn R hres hrot
  | SBFM => exact SBFM_call Rd Rn R hres
  | BFM => exact BFM_call Rd Rn R
  | AND =>
    rw [MaskInst.operands, lift_logImm, Option.bind_some, MaskInst.call, AArch64.AND, UAnd_eq]
    rfl
  | ORR =>
    rw [MaskInst.operands, lift_logImm, Option.bind_some, MaskInst.call, AArch64.ORR, UOr_eq]
    rfl
  | EOR =>
    rw [MaskInst.operands, lift_logImm, Option.bind_some, MaskInst.call, AArch64.EOR, UXor_eq]
    rfl
  | ANDS =>
    rw [MaskInst.operands, lift_logImm, Option.bind_some, MaskInst.call, ANDS_eq]
    rfl

/-- What becomes of an instruction where the masks are those of the architecture. -/
theorem sem_eq (h : ∀ immediate, MasksFollow big f d immediate) (i : MaskInst) :
    i.sem big f d Rd Rn R =
      if Arm.reserved f d i then some none
      else if i.RotatesZero d Rn then none
      else some (some (Arm.result f d ((Arm.X R Rd).setWidth f.size)
        ((Arm.X R Rn).setWidth f.size) i)) := by
  unfold MaskInst.sem
  rw [TryDecode_eq h]
  by_cases hres : Arm.reserved f d i = true
  · rw [if_pos hres, if_pos hres]
    rfl
  · rw [if_neg hres, if_neg hres]
    show ((i.operands f d).mapM (MaskOperand.lift f Rd Rn R)).bind (fun vs =>
      (i.call vs).bind fun r => some (some r)) = _
    have hres : Arm.reserved f d i = false := Bool.eq_false_iff.mpr hres
    by_cases hrot : i.RotatesZero d Rn
    · rw [if_pos hrot, lift_operands_eq_none Rd Rn R hres hrot]
      rfl
    · rw [if_neg hrot, ← Option.bind_assoc, call_operands Rd Rn R hres hrot]
      rfl

end

/-- Nothing that the masks lack is left of a zero shifted by 64, in the 64-bit forms with `N` set;
elsewhere no such shift is made. -/
def ZeroShiftFits (big : Overshift) (f : Form) (d : MaskFields) : Prop :=
  f = .X → d.N = 1#1 → ∃ z, big 64 0#64 64#64 = some z ∧
    z ||| d.wmask 64 = d.wmask 64 ∧ z ||| d.tmask 64 = d.tmask 64

theorem len_eq_six_iff (d : MaskFields) : d.len = 6 ↔ d.N = 1#1 := by
  have hlog : ∀ (N : BitVec 1) (imms : BitVec 6),
      Nat.log2 (N ++ ~~~imms).toNat = 6 ↔ N = 1#1 := by
    decide +kernel
  exact hlog d.N d.imms

theorem masksFollow_iff : (∀ immediate, MasksFollow big f d immediate) ↔ ZeroShiftFits big f d := by
  have hword : d.esize = 64 ↔ d.N = 1#1 := by
    rw [← len_eq_six_iff]
    exact Nat.pow_right_inj (by decide : 2 ≤ 2) (n := 6)
  constructor
  · -- with `N` set the element is the whole word, and the copy loop ends in the shift by 64
    rintro h rfl hN
    have hesize := hword.mpr hN
    have hlen := (len_eq_six_iff d).mpr hN
    have hres : ¬ d.Reserved Form.X.size false := by
      rintro (h | h | h)
      · omega
      · exact absurd h (hesize.le.not_gt)
      · exact absurd h.1 Bool.false_ne_true
    have hmasks := (d.DecodeBitMasks_eq big .X false).symm.trans (h false)
    rw [if_neg hres, if_neg (by omega : ¬ d.esize < 64)] at hmasks
    have hmasks' : ((big 64 0#64 64#64).map fun z =>
        some (z ||| (d.wmask 64).setWidth 64, z ||| (d.tmask 64).setWidth 64)) =
        some (some ((d.wmask 64).setWidth 64, (d.tmask 64).setWidth 64)) :=
      hmasks.trans (congrArg some (if_neg hres))
    rw [BitVec.setWidth_eq, BitVec.setWidth_eq] at hmasks'
    cases hz : big 64 0#64 64#64 with
    | none =>
      rw [hz] at hmasks'
      cases hmasks'
    | some z =>
      rw [hz, Option.map_some, Option.some.injEq, Option.some.injEq, Prod.mk.injEq] at hmasks'
      exact ⟨z, rfl, hmasks'.1, hmasks'.2⟩
  · -- a smaller element never comes to that shift
    intro hfits immediate
    unfold MasksFollow decodeMasks
    rw [d.DecodeBitMasks_eq]
    by_cases hres : d.Reserved f.size immediate
    · rw [if_pos hres, if_pos hres]
    · rw [if_neg hres, if_neg hres]
      by_cases hlt : d.esize < 64
      · rw [if_pos hlt]
      · have hle : d.esize ≤ f.size := by
          by_contra hgt
          exact hres (Or.inr (Or.inl (by omega)))
        cases f with
        | W =>
          have h32 : d.esize ≤ 32 := hle
          omega
        | X =>
          have h64 : d.esize ≤ 64 := hle
          obtain ⟨z, hz, hw, ht⟩ := hfits rfl (hword.mp (by omega))
          rw [if_neg hlt, hz, Option.map_some]
          show some (some (z ||| (d.wmask 64).setWidth 64, z ||| (d.tmask 64).setWidth 64)) =
            some (some ((d.wmask 64).setWidth 64, (d.tmask 64).setWidth 64))
          rw [BitVec.setWidth_eq, BitVec.setWidth_eq, hw, ht]

/-- Nothing is left of a zero that is shifted by 64. -/
theorem masksFollow_of_zero (hbig : big 64 0#64 64#64 = some 0#64) (f : Form) (d : MaskFields)
    (immediate : Bool) : MasksFollow big f d immediate :=
  masksFollow_iff.mpr (fun _ _ => ⟨0#64, hbig, BitVec.zero_or, BitVec.zero_or⟩) immediate

/-- The masks are those of the architecture, and so is the value of the instruction on all register
files, unless it is reserved: then it is rejected. -/
structure FollowsArm (big : Overshift) (f : Form) (d : MaskFields) (i : MaskInst)
    (Rd Rn : BitVec 5) : Prop where
  masks : ∀ immediate, MasksFollow big f d immediate
  values : ∀ R, i.sem big f d Rd Rn R = some (if Arm.reserved f d i then none
    else some (Arm.result f d ((Arm.X R Rd).setWidth f.size) ((Arm.X R Rn).setWidth f.size) i))

/-- **Bit-field moves and logical immediates follow the architecture** but for a shift of a zero by
64 that leaves something else than zero, and for a `UBFM` that rotates the zero register. -/
theorem followsArm_iff {i : MaskInst} {Rd Rn : BitVec 5} :
    FollowsArm big f d i Rd Rn ↔
      ZeroShiftFits big f d ∧ (i.RotatesZero d Rn → Arm.reserved f d i = true) := by
  rw [← masksFollow_iff]
  constructor
  · intro h
    refine ⟨h.masks, fun hrot => ?_⟩
    by_contra hres
    have hvalue := h.values fun _ => 0#128
    rw [sem_eq Rd Rn _ h.masks, if_neg hres, if_pos hrot] at hvalue
    cases hvalue
  · rintro ⟨h, hrot⟩
    refine ⟨h, fun R => ?_⟩
    rw [sem_eq Rd Rn R h]
    by_cases hres : Arm.reserved f d i = true
    · rw [if_pos hres, if_pos hres]
    · rw [if_neg hres, if_neg hres, if_neg (mt hrot hres)]

/-- `UBFM X0, X1, #0, #0`, where C++ does not say what the shift by 64 leaves, and
`LSR X0, XZR, #1`. -/
theorem not_followsArm_UBFM :
    ¬ FollowsArm Overshift.undefined .X ⟨1#1, 0#6, 0#6⟩ .UBFM 0#5 1#5 ∧
      ¬ FollowsArm Overshift.wraps .X ⟨1#1, 1#6, 63#6⟩ .UBFM 0#5 31#5 := by
  constructor
  · intro h
    obtain ⟨z, hz, -⟩ := masksFollow_iff.mp h.masks rfl rfl
    cases hz
  · intro h
    have hvalue := h.values fun _ => 0#128
    rw [sem_eq _ _ _ h.masks, if_neg (by decide), if_pos (by decide)] at hvalue
    cases hvalue

end

end Elfconv.AArch64
