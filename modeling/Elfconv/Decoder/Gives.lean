/-
Elfconv/Decoder/Gives.lean

What the operands of a decoded instruction come to.

`Gives` says of operands which arguments they give, for all registers, and which registers they
write.  It is put together operand by operand; `Gives.lift` and `Gives.exec` say what the lifter
makes of an instruction, and what its code does, by what the operands give.
-/
import Elfconv.Decoder.Arch
import Elfconv.Decoder.ArmExec

namespace Elfconv.AArch64

/-- The operands give the arguments and write the registers. -/
structure Gives (pc : Addr) (ops : List InstOperand) (as : RegFile → List Arg)
    (ws : List EcvReg) : Prop where
  args : ∀ R, (ops.mapM (InstOperand.args pc R)).map List.flatten = some (as R)
  writes : (ops.mapM InstOperand.writes).map List.flatten = some ws

section

variable {pc : Addr} {ops : List InstOperand} {as : RegFile → List Arg} {ws : List EcvReg}

/-! ### Operands -/

theorem gives_nil : Gives pc [] (fun _ => []) [] := ⟨fun _ => rfl, rfl⟩

/-- An operand in front of others. -/
theorem Gives.cons (h : Gives pc ops as ws) (op : InstOperand) (a : RegFile → List Arg)
    (w : List EcvReg) (hargs : ∀ R, op.args pc R = some (a R)) (hwrites : op.writes = some w) :
    Gives pc (op :: ops) (fun R => a R ++ as R) (w ++ ws) := by
  constructor
  · intro R
    obtain ⟨ls, hls, hflat⟩ := Option.map_eq_some_iff.mp (h.args R)
    rw [List.mapM_cons, hargs, hls, ← hflat]
    rfl
  · obtain ⟨ls, hls, hflat⟩ := Option.map_eq_some_iff.mp h.writes
    rw [List.mapM_cons, hwrites, hls, ← hflat]
    rfl

/-- The value of a general register. -/
theorem args_value (f : Form) (n : RegNum) (R : RegFile) :
    (InstOperand.sema (.reg .kActionRead f.rclass .kUseAsValue n)).args pc R =
      some [.value (f.value ((Arm.X R n).setWidth f.size))] := by
  cases f with
  | W => exact args_W R n
  | X =>
    refine (args_X R n).trans ?_
    exact congrArg (fun x => some [Arg.value (Form.X.value x)]) (BitVec.setWidth_eq _).symm

/-- A result for a register, or for none when it is number 31. -/
theorem writes_value (f : Form) (n : RegNum) :
    (InstOperand.sema (.reg .kActionWrite f.rclass .kUseAsValue n)).writes = some [destX n] := by
  cases f with
  | W => exact writes_general n rfl
  | X => exact writes_general n rfl

/-- A base register as a value; as a word of 32 bits the stack pointer is not loaded. -/
theorem args_baseReg {f : Form} {n : RegNum} (h : ¬ (f = .W ∧ n = 31#5)) (R : RegFile) :
    (InstOperand.sema (.reg .kActionRead f.rclass .kUseAsAddress n)).args pc R =
      some [.value (f.value ((Arm.base R n).setWidth f.size))] := by
  show ((regNameOf .kActionRead f.rclass .kUseAsAddress n.toNat).bind fun name =>
    (liftRegister R name).bind fun v => some [Arg.value v]) = _
  unfold Arm.base
  by_cases hn : n = 31#5
  · subst hn
    cases f with
    | W => exact absurd ⟨rfl, rfl⟩ h
    | X =>
      show some [Arg.value ⟨.RegX, (R ⟨.Special, SP_ORDER⟩).setWidth 64⟩] = _
      exact congrArg (fun x => some [Arg.value (Form.X.value x)]) (BitVec.setWidth_eq _).symm
  · rw [if_neg hn]
    cases f with
    | W =>
      show ((RegNameXW .kActionRead .RegW .kUseAsAddress n.toNat).bind _) = _
      rw [regNameXW_of_ne (by decide) _ _ hn, BitVec.setWidth_setWidth_of_le _ (by decide)]
      rfl
    | X =>
      show ((RegNameXW .kActionRead .RegX .kUseAsAddress n.toNat).bind _) = _
      rw [regNameXW_of_ne (by decide) _ _ hn]
      exact congrArg (fun x => some [Arg.value (Form.X.value x)]) (BitVec.setWidth_eq _).symm

/-- The stack pointer is not loaded as a word of 32 bits. -/
theorem args_WSP (R : RegFile) :
    (InstOperand.sema (.reg .kActionRead .RegW .kUseAsAddress 31#5)).args pc R = none := rfl

/-- A result for a register or the stack pointer. -/
theorem writes_baseReg (f : Form) (n : RegNum) :
    (InstOperand.sema (.reg .kActionWrite f.rclass .kUseAsAddress n)).writes =
      some [baseReg n] := by
  show ((regNameOf .kActionWrite f.rclass .kUseAsAddress n.toNat).bind fun name =>
    (GetRegInfo name).bind fun p => some [p.1]) = _
  unfold baseReg
  by_cases hn : n = 31#5
  · subst hn
    cases f <;> rfl
  · rw [if_neg hn]
    cases f with
    | W =>
      show ((RegNameXW .kActionWrite .RegW .kUseAsAddress n.toNat).bind _) = _
      rw [regNameXW_of_ne (by decide) _ _ hn]
      rfl
    | X =>
      show ((RegNameXW .kActionWrite .RegX .kUseAsAddress n.toNat).bind _) = _
      rw [regNameXW_of_ne (by decide) _ _ hn]
      rfl

/-- A register that is rotated: the zero register is not, unless the amount is zero. -/
theorem args_rotated {f : Form} {n : RegNum} {amount : BitVec 64} (hlt : amount.toNat < f.size)
    (Rd : RegNum) (R : RegFile) :
    ((AddShiftRegOperand .Rn .kShiftRightAround amount).operand f Rd n).args pc R =
      if n = 31#5 ∧ amount ≠ 0#64 then none
      else some [if amount = 0#64 then .value (f.value ((Arm.X R n).setWidth f.size))
        else .word ((((Arm.X R n).setWidth f.size).rotateRight amount.toNat).setWidth 64)] := by
  unfold AddShiftRegOperand
  by_cases hzero : amount = 0#64
  · rw [if_pos hzero, if_neg fun h => h.2 hzero, if_pos hzero]
    exact args_value f n R
  · have hlift := lift_AddShiftRegOperand f R n 3#2 hlt
    rw [RegOperand.AddShiftRegOperand, if_neg hzero] at hlift
    rw [if_neg hzero, if_neg hzero]
    refine (congrArg (Option.map fun x => [Arg.word (x.2.setWidth 64)]) hlift).trans ?_
    split_ifs <;> rfl

namespace Gives

/-- A register that is read. -/
theorem read (h : Gives pc ops as ws) (f : Form) (n : RegNum) :
    Gives pc (.sema (.reg .kActionRead f.rclass .kUseAsValue n) :: ops)
      (fun R => .value (f.value ((Arm.X R n).setWidth f.size)) :: as R) ws :=
  h.cons _ (fun R => [.value (f.value ((Arm.X R n).setWidth f.size))]) [] (args_value f n) rfl

/-- A register or the stack pointer that is read. -/
theorem readBase (h : Gives pc ops as ws) {f : Form} {n : RegNum}
    (hn : ¬ (f = .W ∧ n = 31#5)) :
    Gives pc (.sema (.reg .kActionRead f.rclass .kUseAsAddress n) :: ops)
      (fun R => .value (f.value ((Arm.base R n).setWidth f.size)) :: as R) ws :=
  h.cons _ (fun R => [.value (f.value ((Arm.base R n).setWidth f.size))]) [] (args_baseReg hn) rfl

/-- A register that is written. -/
theorem write (h : Gives pc ops as ws) (f : Form) (n : RegNum) :
    Gives pc (.sema (.reg .kActionWrite f.rclass .kUseAsValue n) :: ops) as (destX n :: ws) :=
  h.cons _ (fun _ => []) [destX n] (fun _ => rfl) (writes_value f n)

/-- A register or the stack pointer that is written. -/
theorem writeBase (h : Gives pc ops as ws) (f : Form) (n : RegNum) :
    Gives pc (.sema (.reg .kActionWrite f.rclass .kUseAsAddress n) :: ops) as (baseReg n :: ws) :=
  h.cons _ (fun _ => []) [baseReg n] (fun _ => rfl) (writes_baseReg f n)

/-- A register that is read and written. -/
theorem readWrite (h : Gives pc ops as ws) (f : Form) (n : RegNum) :
    Gives pc (.sema (.reg .kActionReadWrite f.rclass .kUseAsValue n) :: ops)
      (fun R => .value (f.value ((Arm.X R n).setWidth f.size)) :: as R) (destX n :: ws) :=
  h.cons _ (fun R => [.value (f.value ((Arm.X R n).setWidth f.size))]) [destX n]
    (@args_value pc f n) (writes_value f n)

/-- An immediate. -/
theorem imm (h : Gives pc ops as ws) (val : BitVec 64) :
    Gives pc (.sema (.imm val) :: ops) (fun R => .word val :: as R) ws :=
  h.cons _ (fun _ => [.word val]) [] (fun _ => rfl) rfl

/-- A displacement from the program counter. -/
theorem pcDisp (h : Gives pc ops as ws) (disp : BitVec 64) :
    Gives pc (.pcDisp disp :: ops) (fun R => .word (pc + disp) :: as R) ws :=
  h.cons _ (fun _ => [.word (pc + disp)]) [] (fun _ => rfl) rfl

/-- The flags. -/
theorem readFlags (h : Gives pc ops as ws) :
    Gives pc (.named .kActionRead .ECV_NZCV :: ops)
      (fun R => .value (Form.X.value ((R ⟨.Special, ECV_NZCV_ORDER⟩).setWidth 64)) :: as R) ws :=
  h.cons _ (fun R => [.value (Form.X.value ((R ⟨.Special, ECV_NZCV_ORDER⟩).setWidth 64))]) []
    (fun _ => rfl) rfl

/-- A register that is written by its name. -/
theorem writeNamed (h : Gives pc ops as ws) {name : RegName} {er : EcvReg} {erc : ERC}
    (hname : GetRegInfo name = some (er, erc)) :
    Gives pc (.named .kActionWrite name :: ops) as (er :: ws) := by
  refine h.cons _ (fun _ => []) [er] (fun _ => rfl) ?_
  show (GetRegInfo name).map _ = _
  rw [hname]
  rfl

theorem branchTaken (h : Gives pc ops as ws) :
    Gives pc (.named .kActionWrite .BRANCH_TAKEN :: ops) as
      (⟨.Special, BRANCH_TAKEN_ORDER⟩ :: ws) :=
  h.writeNamed rfl

theorem writeFlags (h : Gives pc ops as ws) :
    Gives pc (.named .kActionWrite .ECV_NZCV :: ops) as (⟨.Special, ECV_NZCV_ORDER⟩ :: ws) :=
  h.writeNamed rfl

/-- A rotated register, which must not be the zero register. -/
theorem rotated (h : Gives pc ops as ws) {f : Form} {n : RegNum} {amount : BitVec 64}
    (hlt : amount.toNat < f.size) (hn : ¬ (n = 31#5 ∧ amount ≠ 0#64)) (Rd : RegNum) :
    Gives pc ((AddShiftRegOperand .Rn .kShiftRightAround amount).operand f Rd n :: ops)
      (fun R => (if amount = 0#64 then .value (f.value ((Arm.X R n).setWidth f.size))
        else .word ((((Arm.X R n).setWidth f.size).rotateRight amount.toNat).setWidth 64)) :: as R)
      ws := by
  refine h.cons _ (fun R => [if amount = 0#64 then .value (f.value ((Arm.X R n).setWidth f.size))
    else .word ((((Arm.X R n).setWidth f.size).rotateRight amount.toNat).setWidth 64)]) []
    (fun R => (args_rotated hlt Rd R).trans (if_neg hn)) ?_
  unfold AddShiftRegOperand
  split <;> rfl

end Gives

/-! ### Instructions -/

variable {inst : DecodedInst}

/-- What the lifter makes of an instruction. -/
theorem Gives.lift {sema : SemaFunc} (h : Gives inst.pc inst.operands as ws)
    (hcategory : inst.category ≠ .invalid) :
    LiftIntoBlock (some sema) inst =
      some ⟨inst.toInstruction, true, inst.loads, List.zipWith writtenReg ws sema.returns⟩ := by
  have hargs := congrArg Option.isSome (h.args fun _ => 0#128)
  rw [Option.isSome_map] at hargs
  obtain ⟨ns, hns, hnflat⟩ := Option.map_eq_some_iff.mp h.writes
  have hlifts : inst.lifts = true := by
    rw [DecodedInst.lifts, hargs, hns]
    rfl
  have hregs : inst.writeRegs sema.returns = List.zipWith writtenReg ws sema.returns := by
    rw [DecodedInst.writeRegs, hns, ← hnflat]
    rfl
  rw [LiftIntoBlock, if_neg hcategory, if_pos hlifts, hregs]

/-- What the code of an instruction does. -/
theorem Gives.exec (h : Gives inst.pc inst.operands as ws) (indirectbr : Bool) (sema : SemaFunc)
    (g : Guest) :
    inst.exec indirectbr sema g = (sema.call (as g.regs) g.mem).bind fun r =>
      (storeCast indirectbr g.regs ws r.1).bind fun regs => some ⟨regs, r.2⟩ := by
  obtain ⟨ls, hls, hflat⟩ := Option.map_eq_some_iff.mp (h.args g.regs)
  obtain ⟨ns, hns, hnflat⟩ := Option.map_eq_some_iff.mp h.writes
  unfold DecodedInst.exec
  rw [hls, hns, ← hflat, ← hnflat]
  rfl

end

/-! ### Storing the results -/

/-- In a function with an indirect branch the code of an instruction comes to an end where the
storing of its results does. -/
theorem isSome_storeCast (R : RegFile) : ∀ {ws : List EcvReg} {vs : List Value},
    ws.length = vs.length → (storeCast true R ws vs).isSome =
      storesResults (List.zipWith writtenReg ws (vs.map Value.erc))
  | [], [], _ => rfl
  | [er], [v], _ => by
    show (if _ then (if er.number = IGNORE_WRITE_TO_XZR_ORDER then none else some _)
      else none).isSome =
      (!decide (er.number = IGNORE_WRITE_TO_XZR_ORDER) && castChecks er v.erc (wholeERC er))
    by_cases h : er.number = IGNORE_WRITE_TO_XZR_ORDER
    · simp [h]
    · cases hc : castChecks er v.erc (wholeERC er) <;> simp [writtenReg, h, hc]
  | er :: er' :: ws, v :: v' :: vs, hlen => by
    have hstore : (storeResults true R (er :: er' :: ws) (v :: v' :: vs)).isSome = true := by
      rw [storeResults, if_pos hlen]
      · rfl
      · simp
    rw [storeCast, storesResults]
    · split_ifs with h
      · rw [hstore, h]
      · rw [Bool.eq_false_iff.mpr h]
        rfl
    · simp

end Elfconv.AArch64
