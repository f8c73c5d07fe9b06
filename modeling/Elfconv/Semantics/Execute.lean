/-
Elfconv/Semantics/Execute.lean

One decoded instruction, from its operands to the registers and the memory after it.

`LiftIntoBlock` hands the operands that are read to the semantics function, in the order of the
decoder, and notes the registers that are written.  In a function with an indirect branch every call
is followed by stores of its results; in the others they are kept, and a later read of the register
casts them.  Both ways a result is extended by zeros to the whole register.

Number 31 is the stack pointer in an address and the zero register elsewhere.  No register has the
name of the zero register: as a plain operand it is replaced by a constant, and where it is loaded
or stored to, the lifter ends.
-/
import Elfconv.VirtualRegs.Operands
import Elfconv.VirtualRegs.Width

namespace Elfconv.AArch64

/-! ### States and operands -/

/-- The memory of the program, by bytes. -/
abbrev Memory := BitVec 64 → BitVec 8

/-- The registers and the memory of the program. -/
structure Guest where
  regs : RegFile
  mem : Memory

/-- What an `Operand::ShiftRegister` does with its register. -/
structure ShiftOp where
  shift_op : Option Shift
  shift_size : ℕ
  extend_op : Option Extend
  extract_size : ℕ

/-- The operands as the decoders add them: with `AddRegOperand`, with `AddImmOperand`, with
`AddBasePlusOffsetMemOp` and with `AddExtendRegOperand`. -/
inductive SemaOperand
  | reg (action : Action) (rclass : ERC) (rtype : RegUsage) (reg_num : BitVec 5)
  | imm (val : BitVec 64)
  | address (base_reg : BitVec 5) (displacement : BitVec 64)
  | shiftReg (rclass : ERC) (reg_num : BitVec 5) (op : ShiftOp)

/-- The register that a pre- or post-indexed access updates, and what is added to it. -/
structure IndexUpdate where
  base_reg : BitVec 5
  index_reg : Option (BitVec 5)
  displacement : BitVec 64

/-- An instruction.  A write-back of `SUPPRESS_WRITEBACK` has no register. -/
structure SemaInst where
  operands : List SemaOperand
  write_back : Option (Option IndexUpdate)

/-- An argument of a semantics function: a register by its class, or a word. -/
inductive Arg
  | value (v : Value)
  | word (bits : BitVec 64)

/-- A semantics function, from its arguments and the memory to its results and the memory; nothing
where it is undefined. -/
abbrev Sema := List Arg → Memory → Option (List Value × Memory)

/-! ### Lifting the operands -/

/-- `LoadRegValue`; nothing where there is no register of the name. -/
def LoadRegValue (R : RegFile) (name : RegName) : Option Value :=
  if name = .XZR ∨ name = .WZR then none
  else (GetRegInfo name).map fun p => .low p.2 (R p.1)

/-- The value of a register operand: the zero registers are constants. -/
def liftRegister (R : RegFile) (name : RegName) : Option Value :=
  if name = .XZR then some ⟨.RegX, 0#64⟩
  else if name = .WZR then some ⟨.RegW, 0#32⟩
  else LoadRegValue R name

/-- The extended and shifted register of an operand of 64 bits.  The loads shift to the left
only. -/
def liftShiftRegister (op : ShiftOp) (reg : Value) : Option (BitVec 64) := do
  let extended ←
    match op.extend_op with
    | none => if ERCSize reg.erc ≤ 64 then some (reg.bits.setWidth 64) else none
    | some extend_op =>
        if op.extract_size ≤ ERCSize reg.erc ∧ op.extract_size ≤ 64 then
          let extracted := reg.bits.setWidth op.extract_size
          match extend_op with
          | .kExtendUnsigned => some (extracted.zeroExtend 64)
          | .kExtendSigned => some (extracted.signExtend 64)
        else none
  match op.shift_op with
  | none => some extended
  | some .kShiftLeftWithZeroes =>
      if op.shift_size < 64 then some (extended <<< op.shift_size) else none
  | some _ => none

/-- `LiftAddressOperand` -/
def liftAddress (R : RegFile) (base_reg : BitVec 5) (displacement : BitVec 64) :
    Option (BitVec 64) := do
  let name ← regNameOf .kActionRead .RegX .kUseAsAddress base_reg.toNat
  let base ← LoadRegValue R name
  return base.bits.setWidth 64 + displacement

/-- The index of an address, with the scale of one that it always has. -/
def liftIndex (R : RegFile) : Option (BitVec 5) → Option (BitVec 64)
  | none => some 0#64
  | some index_reg => do
      let name ← regNameOf .kActionRead .RegX .kUseAsAddress index_reg.toNat
      let index ← LoadRegValue R name
      return index.bits.setWidth 64 * 1#64

/-- The new value of the base register. -/
def IndexUpdate.new_addr (R : RegFile) (u : IndexUpdate) : Option (BitVec 64) := do
  let addr ← liftAddress R u.base_reg u.displacement
  let index ← liftIndex R u.index_reg
  return addr + index

namespace SemaOperand

/-- The arguments that come from an operand. -/
def args (R : RegFile) : SemaOperand → Option (List Arg)
  | .reg .kActionWrite _ _ _ => some []
  | .reg _ rclass rtype reg_num => do
      let name ← regNameOf .kActionRead rclass rtype reg_num.toNat
      let v ← liftRegister R name
      return [.value v]
  | .imm val => some [.word val]
  | .address base_reg displacement => do
      let addr ← liftAddress R base_reg displacement
      return [.word addr]
  | .shiftReg rclass reg_num op => do
      let name ← regNameOf .kActionRead rclass .kUseAsValue reg_num.toNat
      let v ← LoadRegValue R name
      let bits ← liftShiftRegister op v
      return [.word bits]

/-- The register that an operand writes. -/
def writes : SemaOperand → Option (List EcvReg)
  | .reg .kActionRead _ _ _ => some []
  | .reg _ rclass rtype reg_num => do
      let name ← regNameOf .kActionWrite rclass rtype reg_num.toNat
      let (er, _) ← GetRegInfo name
      return [er]
  | _ => some []

end SemaOperand

/-! ### Storing the results -/

/-- The class of the whole of a register, `ERC2WholeLLVMTy`. -/
def wholeERC (er : EcvReg) : ERC :=
  match er.reg_kind with
  | .General | .Special => .RegX
  | .Vector => .RegQ

/-- A result goes to the whole register. -/
def storeResult (R : RegFile) (er : EcvReg) (v : Value) : RegFile :=
  Function.update R er (castFromInst v (wholeERC er)).whole

/-- The registers after a call.  Where a single result is stored, the register is looked up although
nothing is to be written. -/
def storeResults (indirectbr : Bool) (R : RegFile) (writes : List EcvReg) (results : List Value) :
    Option RegFile :=
  match writes, results with
  | [er], [v] =>
      if er.number = IGNORE_WRITE_TO_XZR_ORDER then
        if indirectbr = true then none else some R
      else some (storeResult R er v)
  | ers, vs =>
      if ers.length = vs.length then
        some ((ers.zip vs).foldl (fun R p =>
          if p.1.number = IGNORE_WRITE_TO_XZR_ORDER then R else storeResult R p.1 p.2) R)
      else none

/-- The write-back, after the results. -/
def storeUpdate (R : RegFile) : Option (Option IndexUpdate) → Option RegFile
  | none => some R
  | some none => none
  | some (some u) => do
      let name ← regNameOf .kActionWrite .RegX .kUseAsAddress u.base_reg.toNat
      let (er, _) ← GetRegInfo name
      let new_addr ← u.new_addr R
      return storeResult R er ⟨.RegX, new_addr⟩

/-- The program after an instruction; nothing where the lifter ends or its semantics function is
undefined. -/
def execInst (indirectbr : Bool) (sema : Sema) (i : SemaInst) (g : Guest) : Option Guest := do
  let args ← i.operands.mapM (SemaOperand.args g.regs)
  let writes ← i.operands.mapM SemaOperand.writes
  let (results, mem) ← sema args.flatten g.mem
  let regs ← storeResults indirectbr g.regs writes.flatten results
  let regs ← storeUpdate regs i.write_back
  return ⟨regs, mem⟩

/-! ### The registers of the architecture -/

namespace Arm

/-- A general register, with zero for number 31. -/
def X (R : RegFile) (n : BitVec 5) : BitVec 64 :=
  if n = 31#5 then 0#64 else (R ⟨.General, n.toNat⟩).setWidth 64

/-- A base register. -/
def base (R : RegFile) (n : BitVec 5) : BitVec 64 :=
  if n = 31#5 then (R ⟨.Special, SP_ORDER⟩).setWidth 64 else (R ⟨.General, n.toNat⟩).setWidth 64

/-- A vector register. -/
def V (R : RegFile) (n : BitVec 5) : BitVec 128 := R ⟨.Vector, n.toNat⟩

/-- Number 31 drops what is written. -/
def setX (R : RegFile) (n : BitVec 5) (x : BitVec 64) : RegFile :=
  if n = 31#5 then R else Function.update R ⟨.General, n.toNat⟩ (x.setWidth 128)

/-- Number 31 is the stack pointer. -/
def setBase (R : RegFile) (n : BitVec 5) (x : BitVec 64) : RegFile :=
  if n = 31#5 then Function.update R ⟨.Special, SP_ORDER⟩ (x.setWidth 128)
  else Function.update R ⟨.General, n.toNat⟩ (x.setWidth 128)

/-- A vector register that is written. -/
def setV (R : RegFile) (n : BitVec 5) (x : BitVec 128) : RegFile :=
  Function.update R ⟨.Vector, n.toNat⟩ x

end Arm

/-! ### What the operands come to -/

/-- The register that a general destination is stored to. -/
def destX (n : BitVec 5) : EcvReg :=
  if n = 31#5 then ⟨.Special, IGNORE_WRITE_TO_XZR_ORDER⟩ else ⟨.General, n.toNat⟩

section

variable (R : RegFile) (n : BitVec 5)

theorem toNat_lt_31 {n : BitVec 5} (h : n ≠ 31#5) : n.toNat < 31 := by
  have hlt := n.isLt
  have hne : n.toNat ≠ 31 := fun h' => h (BitVec.eq_of_toNat_eq h')
  omega

theorem regNameXW_of_ne {action : Action} (h : action ≠ .kActionReadWrite) (rclass : ERC)
    (rtype : RegUsage) {n : BitVec 5} (hn : n ≠ 31#5) :
    RegNameXW action rclass rtype n.toNat = some (if rclass = .RegX
      then .X ⟨n.toNat, toNat_lt_31 hn⟩ else .W ⟨n.toNat, toNat_lt_31 hn⟩) := by
  have hlt := toNat_lt_31 hn
  rw [RegNameXW, if_neg (by omega), if_neg h, if_neg (by omega), dif_pos hlt]

@[simp] theorem args_write (rclass : ERC) (rtype : RegUsage) :
    SemaOperand.args R (.reg .kActionWrite rclass rtype n) = some [] := rfl

@[simp] theorem args_readWrite (rclass : ERC) (rtype : RegUsage) :
    SemaOperand.args R (.reg .kActionReadWrite rclass rtype n) =
      SemaOperand.args R (.reg .kActionRead rclass rtype n) := rfl

@[simp] theorem args_imm (val : BitVec 64) : SemaOperand.args R (.imm val) = some [.word val] := rfl

@[simp] theorem writes_read (rclass : ERC) (rtype : RegUsage) :
    SemaOperand.writes (.reg .kActionRead rclass rtype n) = some [] := rfl

@[simp] theorem writes_readWrite (rclass : ERC) (rtype : RegUsage) :
    SemaOperand.writes (.reg .kActionReadWrite rclass rtype n) =
      SemaOperand.writes (.reg .kActionWrite rclass rtype n) := rfl

@[simp] theorem writes_imm (val : BitVec 64) : SemaOperand.writes (.imm val) = some [] := rfl

@[simp] theorem writes_address (displacement : BitVec 64) :
    SemaOperand.writes (.address n displacement) = some [] := rfl

theorem regNameOf_V {action : Action} (ha : action ≠ .kActionReadWrite) {erc : ERC}
    (h : RegKind.Vector.allows erc = true) :
    regNameOf action erc .kUseAsValue n.toNat = some (.vec erc ⟨n.toNat, n.isLt⟩ h) := by
  have hfp : RegNameFP action erc n.toNat = some (.vec erc ⟨n.toNat, n.isLt⟩ h) := by
    rw [RegNameFP, if_neg ha, dif_pos ⟨n.isLt, h⟩]
  cases erc <;> first | exact absurd h (by decide) | exact hfp

/-- A general register as a value. -/
theorem args_X : SemaOperand.args R (.reg .kActionRead .RegX .kUseAsValue n) =
    some [.value ⟨.RegX, Arm.X R n⟩] := by
  show ((RegNameXW .kActionRead .RegX .kUseAsValue n.toNat).bind fun name =>
    (liftRegister R name).bind fun v => some [Arg.value v]) = _
  unfold Arm.X
  by_cases h : n = 31#5
  · subst h
    rfl
  · rw [regNameXW_of_ne (by decide) _ _ h, if_neg h]
    rfl

theorem args_W : SemaOperand.args R (.reg .kActionRead .RegW .kUseAsValue n) =
    some [.value ⟨.RegW, (Arm.X R n).setWidth 32⟩] := by
  show ((RegNameXW .kActionRead .RegW .kUseAsValue n.toNat).bind fun name =>
    (liftRegister R name).bind fun v => some [Arg.value v]) = _
  unfold Arm.X
  by_cases h : n = 31#5
  · subst h
    rfl
  · rw [regNameXW_of_ne (by decide) _ _ h, if_neg h, BitVec.setWidth_setWidth_of_le _ (by decide)]
    rfl

/-- A vector register by its class. -/
theorem args_V {erc : ERC} (h : RegKind.Vector.allows erc = true) :
    SemaOperand.args R (.reg .kActionRead erc .kUseAsValue n) =
      some [.value (.low erc (Arm.V R n))] := by
  show ((regNameOf .kActionRead erc .kUseAsValue n.toNat).bind fun name =>
    (liftRegister R name).bind fun v => some [Arg.value v]) = _
  rw [regNameOf_V n (by decide) h]
  rfl

theorem liftAddress_eq (displacement : BitVec 64) :
    liftAddress R n displacement = some (Arm.base R n + displacement) := by
  show ((RegNameXW .kActionRead .RegX .kUseAsAddress n.toNat).bind fun name =>
    (LoadRegValue R name).bind fun v => some (v.bits.setWidth 64 + displacement)) = _
  unfold Arm.base
  by_cases h : n = 31#5
  · subst h
    show some (((R ⟨.Special, SP_ORDER⟩).setWidth 64).setWidth 64 + displacement) = _
    rw [BitVec.setWidth_eq]
    rfl
  · rw [regNameXW_of_ne (by decide) _ _ h, if_neg h]
    show some (((R ⟨.General, n.toNat⟩).setWidth 64).setWidth 64 + displacement) = _
    rw [BitVec.setWidth_eq]

theorem args_address (displacement : BitVec 64) :
    SemaOperand.args R (.address n displacement) =
      some [.word (Arm.base R n + displacement)] := by
  show ((liftAddress R n displacement).bind fun addr => some [Arg.word addr]) = _
  rw [liftAddress_eq]
  rfl

theorem writes_general {rclass : ERC} (h : RegKind.General.allows rclass = true) :
    SemaOperand.writes (.reg .kActionWrite rclass .kUseAsValue n) = some [destX n] := by
  have hname : regNameOf .kActionWrite rclass .kUseAsValue n.toNat =
      RegNameXW .kActionWrite rclass .kUseAsValue n.toNat := by
    cases rclass <;> first | exact absurd h (by decide) | rfl
  show ((regNameOf .kActionWrite rclass .kUseAsValue n.toNat).bind fun name =>
    (GetRegInfo name).bind fun p => some [p.1]) = _
  rw [hname]
  unfold destX
  by_cases hn : n = 31#5
  · subst hn
    rfl
  · rw [regNameXW_of_ne (by decide) _ _ hn, if_neg hn]
    by_cases hx : rclass = .RegX
    · rw [if_pos hx]
      rfl
    · rw [if_neg hx]
      rfl

theorem writes_V {erc : ERC} (h : RegKind.Vector.allows erc = true) :
    SemaOperand.writes (.reg .kActionWrite erc .kUseAsValue n) = some [⟨.Vector, n.toNat⟩] := by
  show ((regNameOf .kActionWrite erc .kUseAsValue n.toNat).bind fun name =>
    (GetRegInfo name).bind fun p => some [p.1]) = _
  rw [regNameOf_V n (by decide) h]
  rfl

/-! ### What the results come to -/

theorem destX_number_iff : (destX n).number = IGNORE_WRITE_TO_XZR_ORDER ↔ n = 31#5 := by
  unfold destX
  by_cases h : n = 31#5
  · rw [if_pos h]
    exact iff_of_true rfl h
  · have hlt := toNat_lt_31 h
    rw [if_neg h]
    refine iff_of_false ?_ h
    show n.toNat ≠ 39
    omega

theorem storeResult_general (v : Value) (h : n ≠ 31#5) :
    storeResult R (destX n) v = Arm.setX R n (v.bits.setWidth 64) := by
  rw [storeResult, destX, if_neg h, castFromInst_eq, Arm.setX, if_neg h]
  rfl

/-- A result for a general register. -/
theorem storeResults_X (indirectbr : Bool) (v : Value) :
    storeResults indirectbr R [destX n] [v] =
      if n = 31#5 ∧ indirectbr = true then none
      else some (Arm.setX R n (v.bits.setWidth 64)) := by
  show (if (destX n).number = IGNORE_WRITE_TO_XZR_ORDER then
    if indirectbr = true then none else some R else some (storeResult R (destX n) v)) = _
  by_cases h : n = 31#5
  · rw [if_pos ((destX_number_iff n).mpr h), Arm.setX, if_pos h]
    simp only [h, true_and]
  · rw [if_neg (mt (destX_number_iff n).mp h), if_neg (mt And.left h), storeResult_general R n v h]

/-- A result for a vector register. -/
theorem storeResults_V (indirectbr : Bool) (v : Value) :
    storeResults indirectbr R [⟨.Vector, n.toNat⟩] [v] = some (Arm.setV R n v.whole) := by
  have hlt : n.toNat < 32 := n.isLt
  show (if n.toNat = 39 then _ else some (storeResult R ⟨.Vector, n.toNat⟩ v)) = _
  rw [if_neg (by omega), storeResult, castFromInst_eq]
  exact congrArg (fun x => some (Function.update R ⟨.Vector, n.toNat⟩ x))
    (BitVec.setWidth_eq (v.bits.setWidth 128))

/-- The new value of a base register. -/
def Arm.newBase (R : RegFile) (u : IndexUpdate) : BitVec 64 :=
  base R u.base_reg + u.displacement +
    match u.index_reg with
    | none => 0#64
    | some m => X R m

theorem liftIndex_eq {m : BitVec 5} (h : m ≠ 31#5) : liftIndex R (some m) = some (Arm.X R m) := by
  show ((RegNameXW .kActionRead .RegX .kUseAsAddress m.toNat).bind fun name =>
    (LoadRegValue R name).bind fun v => some (v.bits.setWidth 64 * 1#64)) = _
  rw [regNameXW_of_ne (by decide) _ _ h, Arm.X, if_neg h]
  show some (((R ⟨.General, m.toNat⟩).setWidth 64).setWidth 64 * 1#64) = _
  rw [BitVec.setWidth_eq, BitVec.mul_one]

theorem new_addr_eq {u : IndexUpdate} (h : u.index_reg ≠ some 31#5) :
    u.new_addr R = some (Arm.newBase R u) := by
  have hindex : liftIndex R u.index_reg =
      some (match u.index_reg with | none => 0#64 | some m => Arm.X R m) := by
    rcases hm : u.index_reg with - | m
    · rfl
    · exact liftIndex_eq R fun h31 => h (hm.trans (congrArg some h31))
  show ((liftAddress R u.base_reg u.displacement).bind fun addr =>
    (liftIndex R u.index_reg).bind fun index => some (addr + index)) = _
  rw [liftAddress_eq, hindex]
  rfl

/-- The register that an address is read from and written back to. -/
def baseReg (n : BitVec 5) : EcvReg :=
  if n = 31#5 then ⟨.Special, SP_ORDER⟩ else ⟨.General, n.toNat⟩

theorem storeUpdate_eq {u : IndexUpdate} (h : u.index_reg ≠ some 31#5) :
    storeUpdate R (some (some u)) = some (Arm.setBase R u.base_reg (Arm.newBase R u)) := by
  show ((RegNameXW .kActionWrite .RegX .kUseAsAddress u.base_reg.toNat).bind fun name =>
    (GetRegInfo name).bind fun p => (u.new_addr R).bind fun new_addr =>
      some (storeResult R p.1 ⟨.RegX, new_addr⟩)) = _
  rw [new_addr_eq R h]
  generalize Arm.newBase R u = addr
  generalize u.base_reg = n
  unfold Arm.setBase
  by_cases hn : n = 31#5
  · subst hn
    rfl
  · rw [regNameXW_of_ne (by decide) _ _ hn, if_neg hn]
    rfl

end

/-- What a decoder has checked. -/
theorem option_ite {α : Type*} {p : Prop} [Decidable p] {o : Option α} {v : α}
    (h : (if p then none else o) = some v) : ¬p ∧ o = some v := by
  by_cases hp : p
  · rw [if_pos hp] at h
    exact nomatch h
  · rw [if_neg hp] at h
    exact ⟨hp, h⟩

/-- The program after an instruction, by its arguments and the registers it writes. -/
theorem execInst_eq {indirectbr : Bool} {sema : Sema} {i : SemaInst} {g : Guest}
    {args : List (List Arg)} {writes : List (List EcvReg)}
    (hargs : i.operands.mapM (SemaOperand.args g.regs) = some args)
    (hwrites : i.operands.mapM SemaOperand.writes = some writes) :
    execInst indirectbr sema i g = (sema args.flatten g.mem).bind fun r =>
      (storeResults indirectbr g.regs writes.flatten r.1).bind fun regs =>
        (storeUpdate regs i.write_back).bind fun regs => some ⟨regs, r.2⟩ := by
  unfold execInst
  rw [hargs, hwrites]
  rfl

end Elfconv.AArch64
