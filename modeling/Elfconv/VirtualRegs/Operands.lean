/-
Elfconv/VirtualRegs/Operands.lean

The operands of a decoded instruction, and the loads that lifting one of them emits.

A register operand has a name and a number.  `Reg` gives it both; the operands of the program
counter as a base, the monitor, the flags and the branch condition are given a name only, and
their number is whatever the memory held.  `GetRegInfo` reads a name back: the register and
the class of the access.
-/
import Elfconv.VirtualRegs.Reg

namespace Elfconv

/-- The program counter. -/
def PC_ORDER : Nat := 33

/-- The condition of a branch. -/
def BRANCH_TAKEN_ORDER : Nat := 36

/-- The flags. -/
def ECV_NZCV_ORDER : Nat := 37

/-- The zero register as a destination. -/
def IGNORE_WRITE_TO_XZR_ORDER : Nat := 39

/-- The monitor of the exclusive accesses. -/
def MONITOR_ORDER : Nat := 40

/-- The zero register of 32 bits as a source. -/
def WZR_ORDER : Nat := 41

/-- The zero register of 64 bits as a source. -/
def XZR_ORDER : Nat := 42

/-! ### Registers -/

/-- The register names of the decoder. -/
inductive RegName
  | X (n : Fin 31)
  | W (n : Fin 31)
  | vec (erc : ERC) (n : Fin 32) (vector : RegKind.Vector.allows erc = true)
  | SP | WSP | PC | XZR | WZR | IGNORE_WRITE_TO_XZR | SUPPRESS_WRITEBACK
  | MONITOR | ECV_NZCV | BRANCH_TAKEN
  deriving DecidableEq

/-- The number `Reg` puts beside a name, for the names it alone makes. -/
def RegName.regNum : RegName → Option Nat
  | .X n | .W n => some n
  | .vec _ n _ => some n
  | .SP | .WSP | .XZR | .WZR | .IGNORE_WRITE_TO_XZR => some 31
  | .PC | .SUPPRESS_WRITEBACK | .MONITOR | .ECV_NZCV | .BRANCH_TAKEN => none

/-- `Operand::Register` -/
structure Register where
  name : RegName
  number : Nat
  numbered : ∀ n, name.regNum = some n → number = n

/-- `RegUsage`: what number 31 stands for. -/
inductive RegUsage
  | kUseAsAddress | kUseAsValue
  deriving DecidableEq

/-- `Action`: an operand that is read, written or both. -/
inductive Action
  | kActionRead | kActionWrite | kActionReadWrite
  deriving DecidableEq

/-- Number 31 is a zero register or the stack pointer. -/
def regName31 (action : Action) (rclass : ERC) : RegUsage → RegName
  | .kUseAsValue =>
      if action = .kActionWrite then .IGNORE_WRITE_TO_XZR
      else if rclass = .RegX then .XZR else .WZR
  | .kUseAsAddress =>
      if action = .kActionWrite then .SP
      else if rclass = .RegX then .SP else .WSP

/-- `RegNameXW`; `none` where a check stops the run. -/
def RegNameXW (action : Action) (rclass : ERC) (rtype : RegUsage) (number : Nat) :
    Option RegName :=
  if number = 33 then some .PC
  else if action = .kActionReadWrite then none
  else if number = 31 then some (regName31 action rclass rtype)
  else if h : number < 31 then
    some (if rclass = .RegX then .X ⟨number, h⟩ else .W ⟨number, h⟩)
  else none

/-- `RegNameFP`; `none` where a check stops the run. -/
def RegNameFP (action : Action) (rclass : ERC) (number : Nat) : Option RegName :=
  if action = .kActionReadWrite then none
  else if h : number < 32 ∧ RegKind.Vector.allows rclass = true then
    some (.vec rclass ⟨number, h.1⟩ h.2)
  else none

/-- The name of a register; `none` where a check of the decoder stops the run. -/
def regNameOf (action : Action) (rclass : ERC) (rtype : RegUsage) (number : Nat) :
    Option RegName :=
  match rclass with
  | .RegX | .RegW => RegNameXW action rclass rtype number
  | _ => RegNameFP action rclass number

variable {action : Action} {rclass : ERC} {rtype : RegUsage} {number n : Nat} {name : RegName}

theorem regNum_regName31 (action : Action) (rclass : ERC) (rtype : RegUsage) :
    (regName31 action rclass rtype).regNum = some 31 := by
  have hname (p : Prop) [Decidable p] {a b : RegName} (ha : a.regNum = some 31)
      (hb : b.regNum = some 31) : (if p then a else b).regNum = some 31 := by
    split
    · exact ha
    · exact hb
  cases rtype with
  | kUseAsAddress => exact hname _ rfl (hname _ rfl rfl)
  | kUseAsValue => exact hname _ rfl (hname _ rfl rfl)

theorem regNum_regNameXW (h : RegNameXW action rclass rtype number = some name)
    (hn : name.regNum = some n) : number = n := by
  unfold RegNameXW at h
  split at h
  · -- the return address has no number of its own
    cases h
    cases hn
  · split at h
    · cases h
    · split at h
      · rename_i h31
        cases h
        rw [regNum_regName31] at hn
        exact h31.trans (Option.some.inj hn)
      · split at h
        · cases h
          split at hn <;> exact Option.some.inj hn
        · cases h

theorem regNum_regNameFP (h : RegNameFP action rclass number = some name)
    (hn : name.regNum = some n) : number = n := by
  unfold RegNameFP at h
  by_cases hrw : action = .kActionReadWrite
  · rw [if_pos hrw] at h
    cases h
  · rw [if_neg hrw] at h
    split at h
    · cases h
      cases hn
      rfl
    · cases h

theorem regNum_regNameOf (h : regNameOf action rclass rtype number = some name)
    (hn : name.regNum = some n) : number = n := by
  unfold regNameOf at h
  split at h
  · exact regNum_regNameXW h hn
  · exact regNum_regNameXW h hn
  · exact regNum_regNameFP h hn

/-- `Reg`: the register operand of an encoded number. -/
def Reg (action : Action) (rclass : ERC) (rtype : RegUsage) (reg_num : Nat) : Option Register :=
  match h : regNameOf action rclass rtype reg_num with
  | some name => some ⟨name, reg_num, fun _ hn => regNum_regNameOf h hn⟩
  | none => none

/-- `EcvReg::GetRegInfo`; `none` for the names it does not expect. -/
def GetRegInfo : RegName → Option (EcvReg × ERC)
  | .X n => some (⟨.General, n⟩, .RegX)
  | .W n => some (⟨.General, n⟩, .RegW)
  | .vec erc n _ => some (⟨.Vector, n⟩, erc)
  | .SP => some (⟨.Special, SP_ORDER⟩, .RegX)
  | .PC => some (⟨.Special, PC_ORDER⟩, .RegX)
  | .BRANCH_TAKEN => some (⟨.Special, BRANCH_TAKEN_ORDER⟩, .RegX)
  | .ECV_NZCV => some (⟨.Special, ECV_NZCV_ORDER⟩, .RegX)
  | .IGNORE_WRITE_TO_XZR => some (⟨.Special, IGNORE_WRITE_TO_XZR_ORDER⟩, .RegX)
  | .MONITOR => some (⟨.Special, MONITOR_ORDER⟩, .RegX)
  | .WZR => some (⟨.Special, WZR_ORDER⟩, .RegW)
  | .XZR => some (⟨.Special, XZR_ORDER⟩, .RegX)
  | .WSP | .SUPPRESS_WRITEBACK => none

/-- The registers that read as zero and drop what is written. -/
def EcvReg.IsZero (er : EcvReg) : Prop :=
  er.number = XZR_ORDER ∨ er.number = WZR_ORDER ∨ er.number = IGNORE_WRITE_TO_XZR_ORDER

/-- The reads that enter `bb_ld_r_mp`: `31 != t_reg->number || "SP" == t_reg->name`. -/
def Register.counted (reg : Register) : Bool := reg.number ≠ 31 ∨ reg.name = .SP

/-! ### Operands -/

/-- `Operand::ShiftRegister::Shift` -/
inductive Shift
  | kShiftLeftWithZeroes | kShiftUnsignedRight | kShiftSignedRight | kShiftRightAround
  deriving DecidableEq

/-- `Operand::ShiftRegister::Extend` -/
inductive Extend
  | kExtendUnsigned | kExtendSigned
  deriving DecidableEq

/-- `Operand::ShiftRegister`; `none` is `kShiftInvalid` and `kExtendInvalid`. -/
structure ShiftRegister where
  reg : Register
  shift_op : Option Shift
  shift_size : Nat
  extend_op : Option Extend
  extract_size : Nat

/-- What the semantics function takes for a register that is read: its address, a value of
the type it is loaded with, or one that is cast first. -/
inductive ArgType
  | pointer | same | cast
  deriving DecidableEq

/-- The operands of a decoded instruction.  All but `write` are read. -/
inductive Operand
  | write (reg : Register)
  | read (reg : Register) (arg_type : ArgType)
  | shiftRegister (shift_reg : ShiftRegister) (size : Nat)
  | address (base_reg : Register) (displacement : Int)
  | immediate

/-- `AddRegOperand` -/
def AddRegOperand (action : Action) (rclass : ERC) (rtype : RegUsage) (reg_num : Nat)
    (arg_type : ArgType) : Option (List Operand) := do
  let writes ←
    if action = .kActionWrite ∨ action = .kActionReadWrite then
      (Reg .kActionWrite rclass rtype reg_num).map fun reg => [Operand.write reg]
    else some []
  let reads ←
    if action = .kActionRead ∨ action = .kActionReadWrite then
      (Reg .kActionRead rclass rtype reg_num).map fun reg => [Operand.read reg arg_type]
    else some []
  return writes ++ reads

/-! ### Lifting an operand -/

/-- The loads that lifting an operand emits, and whether its value is one of them as it is. -/
structure Lifted where
  loads : List (EcvReg × ERC)
  isLoad : Bool

/-- A zero register is a constant, and a pointer needs no load. -/
def LiftRegisterOperand (reg : Register) (arg_type : ArgType) (info : EcvReg × ERC) : Lifted :=
  if arg_type = .pointer then ⟨[], false⟩
  else if reg.number = 31 ∧ (reg.name = .XZR ∨ reg.name = .WZR) then ⟨[], false⟩
  else ⟨[info], arg_type == .same⟩

/-- Whether the loaded register is passed on as it is; `none` where a check fails.  A zero register
is loaded like any other here, and it has no address. -/
def LiftShiftRegisterOperand (op : ShiftRegister) (size reg_size : Nat) : Option Bool := do
  guard (op.reg.name ≠ .XZR ∧ op.reg.name ≠ .WZR)
  let (curr_size, isLoad) ←
    match op.extend_op with
    | none => some (reg_size, true)
    | some _ =>
        if op.extract_size < reg_size then
          some (if op.extract_size < size then size else op.extract_size, false)
        else if reg_size = op.extract_size then
          some (if op.extract_size < size then (size, false) else (reg_size, true))
        else none
  if curr_size ≤ size then
    match op.shift_op with
    | none => some (isLoad && curr_size == size)
    | some _ => if op.shift_size < size then some false else none
  else none

/-- The base, as it is or extended to a word, and the displacement when there is one. -/
def LiftAddressOperand (base_reg : Register) (displacement : Int) (info : EcvReg × ERC) :
    Option Lifted :=
  if ERCSize info.2 ≤ 64 then
    if base_reg.name = .PC then some ⟨[], false⟩
    else some ⟨[info], displacement == 0 && ERCSize info.2 == 64⟩
  else none

/-- The register an operand names, and how it is lifted; `none` for an immediate, and for the
register of a write. -/
def Operand.reads : Operand → Option (Register × (EcvReg × ERC → Option Lifted))
  | .write _ | .immediate => none
  | .read reg arg_type => some (reg, fun info => some (LiftRegisterOperand reg arg_type info))
  | .shiftRegister op size =>
      some (op.reg, fun info =>
        (LiftShiftRegisterOperand op size (ERCSize info.2)).map fun isLoad => ⟨[info], isLoad⟩)
  | .address base_reg displacement =>
      some (base_reg, LiftAddressOperand base_reg displacement)

/-! ### Instructions -/

/-- The write-back of a pre- or post-indexed access: the register that is updated, and the
base and the index of its new value. -/
structure WriteBack where
  updated_reg : Register
  base_reg : Register
  index_reg : Option Register

/-- A decoded instruction.  The new address of a write-back is built from an address operand,
so its base is read there as well. -/
structure DecodedInst where
  pc : Nat
  operands : List Operand
  write_back : Option WriteBack
  /-- the number of values the semantics function returns, `none` when it returns nothing -/
  results : Option Nat
  base_read : ∀ w, write_back = some w → ∃ d, Operand.address w.base_reg d ∈ operands

end Elfconv
