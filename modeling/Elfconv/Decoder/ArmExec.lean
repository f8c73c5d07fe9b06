/-
Elfconv/Decoder/ArmExec.lean

What the architecture says of the instructions of `Elfconv/Decoder/ArmInst.lean`: which of them are
undefined, where they lead, and what they leave in the registers.  None of them has to do with the
memory.
-/
import Elfconv.Decoder.ArmInst
import Elfconv.Semantics.Conditions
import Elfconv.Semantics.Execute

namespace Elfconv.AArch64

namespace Arm

/-! ### Flags -/

/-- The flags, from the register that they are kept in. -/
def flags (R : RegFile) : Flags :=
  .ofImm ((R ⟨.Special, ECV_NZCV_ORDER⟩).setWidth 4)

/-- The flags are kept in one register. -/
def setFlags (R : RegFile) (nzcv : BitVec 64) : RegFile :=
  Function.update R ⟨.Special, ECV_NZCV_ORDER⟩ (nzcv.setWidth 128)

/-- The upper bits of a condition choose what is tested, and the lowest bit inverts it. -/
def ConditionHolds (cond : BitVec 4) (fl : Flags) : Bool :=
  let result :=
    match (cond.extractLsb' 1 3).toNat with
    | 0 => fl.z
    | 1 => fl.c
    | 2 => fl.n
    | 3 => fl.v
    | 4 => fl.c && !fl.z
    | 5 => fl.n == fl.v
    | 6 => fl.n == fl.v && !fl.z
    | _ => true
  if cond.getLsbD 0 && cond != 0b1111#4 then !result else result

/-! ### Operations -/

/-- Whether the second operand is inverted and one is added. -/
def AddSubOp.sub : AddSubOp → Bool
  | ADD | ADDS => false
  | SUB | SUBS => true

/-- Whether the flags are set, which goes with a zero register as the destination. -/
def AddSubOp.setflags : AddSubOp → Bool
  | ADD | SUB => false
  | ADDS | SUBS => true

/-- The result from the destination's old value `x`, which only `MOVK` keeps part of. -/
def MoveWideOp.result {w : ℕ} (x : BitVec w) (imm16 : BitVec 16) (pos : ℕ) :
    MoveWideOp → BitVec w
  | MOVN => ~~~(imm16.setWidth w <<< pos)
  | MOVZ => imm16.setWidth w <<< pos
  | MOVK => x &&& ~~~((BitVec.allOnes 16).setWidth w <<< pos) ||| imm16.setWidth w <<< pos

/-- The logical instructions that leave the flags may have the stack pointer as their
destination. -/
def toStackPointer : MaskInst → Bool
  | .AND | .ORR | .EOR => true
  | .ANDS | .UBFM | .SBFM | .BFM => false

namespace Inst

variable (pc : Addr) (R : RegFile)

/-! ### Instructions -/

/-- The instruction is `UNDEFINED`. -/
def undefined : Inst → Bool
  | addSub _ _ shift _ _ _ => shift.getLsbD 1
  | mask op f d _ _ => reserved f d op
  | moveWide _ f hw _ _ => f = .W && hw.getLsbD 1
  | EXTR f N _ imms _ _ => N != sf f || f = .W && imms.getLsbD 5
  | _ => false

/-- The address of the next instruction. -/
def nextPC : Inst → Addr
  | B imm26 | BL imm26 => pc + (imm26 ++ 0#2).signExtend 64
  | Bcond imm19 cond =>
      if ConditionHolds cond (flags R) then pc + (imm19 ++ 0#2).signExtend 64 else pc + 4#64
  | CBZ f imm19 Rt =>
      if (X R Rt).setWidth f.size = 0#f.size then pc + (imm19 ++ 0#2).signExtend 64
      else pc + 4#64
  | CBNZ f imm19 Rt =>
      if (X R Rt).setWidth f.size = 0#f.size then pc + 4#64
      else pc + (imm19 ++ 0#2).signExtend 64
  | TBZ b5 b40 imm14 Rt =>
      if (X R Rt).getLsbD (b5 ++ b40).toNat then pc + 4#64
      else pc + (imm14 ++ 0#2).signExtend 64
  | TBNZ b5 b40 imm14 Rt =>
      if (X R Rt).getLsbD (b5 ++ b40).toNat then pc + (imm14 ++ 0#2).signExtend 64
      else pc + 4#64
  | BR Rn | BLR Rn | RET Rn => X R Rn
  | NOP | ADR .. | ADRP .. | addSub .. | mask .. | moveWide .. | EXTR .. => pc + 4#64

/-- The registers after the instruction. -/
def regs : Inst → RegFile
  | BL _ | BLR _ => setX R 30#5 (pc + 4#64)
  | ADR immlo immhi Rd => setX R Rd (pc + (immhi ++ immlo).signExtend 64)
  | ADRP immlo immhi Rd =>
      setX R Rd ((pc &&& ~~~0xfff#64) + (immhi ++ immlo ++ 0#12).signExtend 64)
  | addSub op f shift imm12 Rn Rd =>
      let imm := if shift = 0b01#2 then imm12.setWidth f.size <<< 12 else imm12.setWidth f.size
      let operand1 := (base R Rn).setWidth f.size
      let r := if op.sub then AddWithCarry operand1 (~~~imm) true
        else AddWithCarry operand1 imm false
      if op.setflags then setFlags (setX R Rd (r.1.setWidth 64)) r.2.word
      else setBase R Rd (r.1.setWidth 64)
  | mask op f d Rn Rd =>
      let r := result f d ((X R Rd).setWidth f.size) ((X R Rn).setWidth f.size) op
      match r.nzcv with
      | some nzcv => setFlags (setX R Rd (r.value.setWidth 64)) nzcv
      | none =>
          if toStackPointer op then setBase R Rd (r.value.setWidth 64)
          else setX R Rd (r.value.setWidth 64)
  | moveWide op f hw imm16 Rd =>
      setX R Rd ((op.result ((X R Rd).setWidth f.size) imm16 (hw.toNat * 16)).setWidth 64)
  | EXTR f _ Rm imms Rn Rd =>
      setX R Rd ((Arm.EXTR ((X R Rn).setWidth f.size) ((X R Rm).setWidth f.size)
        imms.toNat).setWidth 64)
  | B _ | Bcond .. | CBZ .. | CBNZ .. | TBZ .. | TBNZ .. | BR _ | RET _ | NOP => R

/-- One instruction, at `pc`. -/
def exec (i : Inst) (g : Guest) : Option (Addr × Guest) :=
  if i.undefined then none else some (i.nextPC pc g.regs, ⟨i.regs pc g.regs, g.mem⟩)

end Inst

end Arm

end Elfconv.AArch64
