/-
Elfconv/Decoder/DecodedInst.lean

A decoded instruction, and the code that is lifted from it.

To the operands of `Execute` come those that the branches and the data processing with an immediate
have besides: registers with a name of their own, addresses relative to the program counter, and
shifted registers.  The program counter is a constant of the code.

The results are kept, and cast where a later instruction needs them.  In a function with an indirect
branch they are stored at once besides, and the lifter ends where that does not go.
-/
import Elfconv.Decoder.Extract
import Elfconv.Recovery.Instruction
import Elfconv.Semantics.Conditions
import Elfconv.Semantics.ShiftRegs

namespace Elfconv

/-! ### Names -/

/-- The name of a register as it is written. -/
def RegName.text : RegName → String
  | .X n => "X" ++ toString n.val
  | .W n => "W" ++ toString n.val
  | .vec erc n _ =>
      (match erc with
        | .RegB => "B" | .RegH => "H" | .RegS => "S" | .RegD => "D" | .RegQ => "Q" | .RegV => "V"
        | .Reg8B => "8B" | .Reg16B => "16B" | .Reg4H => "4H" | .Reg8H => "8H"
        | .Reg2S => "2S" | .Reg2SF => "2SF" | .Reg4S => "4S" | .Reg4SF => "4SF"
        | .Reg1D => "1D" | .Reg1DF => "1DF" | .Reg2D => "2D" | .Reg2DF => "2DF"
        | .RegW | .RegX | .RegP => "") ++ toString n.val
  | .SP => "SP"
  | .WSP => "WSP"
  | .PC => "PC"
  | .XZR => "XZR"
  | .WZR => "WZR"
  | .IGNORE_WRITE_TO_XZR => "IGNORE_WRITE_TO_XZR"
  | .SUPPRESS_WRITEBACK => "SUPPRESS_WRITEBACK"
  | .MONITOR => "MONITOR"
  | .ECV_NZCV => "ECV_NZCV"
  | .BRANCH_TAKEN => "BRANCH_TAKEN"

/-- The zero registers are not loaded. -/
def RegName.loaded (name : RegName) : List RegName :=
  if name = .XZR ∨ name = .WZR then [] else [name]

namespace AArch64

/-! ### Operands -/

/-- The operands as the decoders add them: with `AddRegOperand` and `AddImmOperand`, with
`AddShiftRegOperand`, with a name that is set by hand, and with `AddPCDisp`. -/
inductive InstOperand
  | sema (op : SemaOperand)
  | shiftReg (op : RegOperand)
  | named (action : Action) (name : RegName)
  | pcDisp (displacement : BitVec 64)

/-- What is put behind the name of an encoding to name its semantics function: nothing, a condition,
where `none` is `AL`, or the width of the register. -/
inductive FunctionSuffix
  | none
  | cond (c : Option Cond)
  | width (f : Form)

/-- `Instruction`, as the decoder fills it. -/
structure DecodedInst extends Instruction where
  pc : Addr
  iform : InstForm
  suffix : FunctionSuffix := .none
  operands : List InstOperand := []

section

variable (pc : Addr) (R : RegFile)

namespace InstOperand

/-- The arguments that come from an operand; nothing where the lifter ends. -/
def args : InstOperand → Option (List Arg)
  | .sema op => op.args R
  | .shiftReg op => (op.lift R).map fun x => [.word (x.2.setWidth 64)]
  | .named .kActionWrite _ => some []
  | .named _ name => (LoadRegValue R name).map fun v => [.value v]
  | .pcDisp displacement => some [.word (pc + displacement)]

/-- The register that an operand writes. -/
def writes : InstOperand → Option (List EcvReg)
  | .sema op => op.writes
  | .named .kActionRead _ => some []
  | .named _ name => (GetRegInfo name).map fun p => [p.1]
  | .shiftReg _ | .pcDisp _ => some []

end InstOperand

end

/-- A semantics function, with the classes of its results: it is `call` of its arguments. -/
structure SemaFunc where
  returns : List ERC
  call : Sema
  typed : ∀ args mem r, call args mem = some r → r.1.map Value.erc = returns

/-- What the storing of a result sees of the register that it is for. -/
def writtenReg (er : EcvReg) (erc : ERC) : WriteReg :=
  ⟨er.number = IGNORE_WRITE_TO_XZR_ORDER, castChecks er erc (wholeERC er)⟩

/-- The registers after a call; nothing where a result is not cast to the whole of its register. -/
def storeCast (indirectbr : Bool) (R : RegFile) (writes : List EcvReg) (results : List Value) :
    Option RegFile :=
  if (List.zipWith writtenReg writes (results.map Value.erc)).all fun w => w.ignored || w.casts then
    storeResults indirectbr R writes results
  else none

/-- The program after the code of an instruction, in a function with an indirect branch or
without. -/
def DecodedInst.exec (indirectbr : Bool) (sema : SemaFunc) (inst : DecodedInst) (g : Guest) :
    Option Guest := do
  let args ← inst.operands.mapM (InstOperand.args inst.pc g.regs)
  let writes ← inst.operands.mapM InstOperand.writes
  let (results, mem) ← sema.call args.flatten g.mem
  let regs ← storeCast indirectbr g.regs writes.flatten results
  return ⟨regs, mem⟩

/-! ### What the lifter makes of it -/

/-- The registers that the code of an operand loads. -/
def SemaOperand.loadNames : SemaOperand → List RegName
  | .reg .kActionWrite _ _ _ => []
  | .reg _ rclass rtype reg_num =>
      ((regNameOf .kActionRead rclass rtype reg_num.toNat).map RegName.loaded).getD []
  | .imm _ => []
  | .address base_reg _ =>
      ((regNameOf .kActionRead .RegX .kUseAsAddress base_reg.toNat).map RegName.loaded).getD []
  | .shiftReg rclass reg_num _ =>
      ((regNameOf .kActionRead rclass .kUseAsValue reg_num.toNat).map RegName.loaded).getD []

/-- The name under which the operand's register is loaded. -/
def RegOperand.loadNames : RegOperand → List RegName
  | .reg rclass reg_num | .shiftReg ⟨rclass, reg_num, _, _, _, _, _⟩ =>
      ((regNameOf .kActionRead rclass .kUseAsValue reg_num.toNat).map RegName.loaded).getD []

/-- The names of the registers that lifting the operand loads. -/
def InstOperand.loadNames : InstOperand → List RegName
  | .sema op => op.loadNames
  | .shiftReg op => op.loadNames
  | .named .kActionWrite _ => []
  | .named _ name => [name]
  | .pcDisp _ => []

/-- The code is built once: whether the lifter ends at an operand does not depend on the
registers. -/
def DecodedInst.lifts (inst : DecodedInst) : Bool :=
  (inst.operands.mapM (InstOperand.args inst.pc fun _ => 0#128)).isSome &&
    (inst.operands.mapM InstOperand.writes).isSome

/-- The registers that an instruction writes, for the storing of its results. -/
def DecodedInst.writeRegs (returns : List ERC) (inst : DecodedInst) : List WriteReg :=
  List.zipWith writtenReg ((inst.operands.mapM InstOperand.writes).getD []).flatten returns

/-- The names that the code of an instruction loads from. -/
def DecodedInst.loads (inst : DecodedInst) : List String :=
  (inst.operands.flatMap InstOperand.loadNames).map RegName.text

/-- `LiftIntoBlock`: nothing where the lifter ends. -/
def LiftIntoBlock (isel_func : Option SemaFunc) (inst : DecodedInst) : Option LiftedInst :=
  match isel_func with
  | none => some ⟨inst.toInstruction, false, [], []⟩
  | some sema =>
      if inst.category = .invalid then some ⟨inst.toInstruction, false, [], []⟩
      else if inst.lifts then
        some ⟨inst.toInstruction, true, inst.loads, inst.writeRegs sema.returns⟩
      else none

end AArch64

end Elfconv
