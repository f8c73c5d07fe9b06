/-
Elfconv/Decoder/Follows.lean

Each instruction on its own: it is decoded, lifted and executed as the architecture says.

`Follows` compares the registers but for two that the program does not have, the program counter
and the one that conditional branches look at.  Some results cannot be stored: for these the code
comes to nothing, and where it has to store them the lifter ends.
-/
import Elfconv.Decoder.Gives
import Elfconv.Decoder.Table

namespace Elfconv.AArch64

open Encoding CInt

/-! ### The registers of the program -/

/-- The registers that only the lifted code has. -/
def EcvReg.internal (er : EcvReg) : Bool :=
  er = ⟨.Special, PC_ORDER⟩ || er = ⟨.Special, BRANCH_TAKEN_ORDER⟩

/-- The registers as the program sees them. -/
def hide (R : RegFile) : RegFile := fun er => if EcvReg.internal er then 0#128 else R er

section

variable (R : RegFile) (n : RegNum)

/-- A write to a register of the architecture is seen. -/
theorem hide_update {er : EcvReg} (h : EcvReg.internal er = false) (x : BitVec 128) :
    hide (Function.update R er x) = Function.update (hide R) er x := by
  funext er'
  by_cases he : er' = er
  · subst he
    simp [hide, h]
  · simp [hide, he]

/-- A write to a register of the lifter is not seen. -/
theorem hide_update_internal {er : EcvReg} (h : EcvReg.internal er = true) (x : BitVec 128) :
    hide (Function.update R er x) = hide R := by
  funext er'
  by_cases he : er' = er
  · subst he
    simp [hide, h]
  · simp [hide, he]

theorem X_hide : Arm.X (hide R) n = Arm.X R n := by
  simp [Arm.X, hide, EcvReg.internal]

theorem base_hide : Arm.base (hide R) n = Arm.base R n := by
  simp [Arm.base, hide, EcvReg.internal, SP_ORDER, PC_ORDER, BRANCH_TAKEN_ORDER]

theorem flags_hide : Arm.flags (hide R) = Arm.flags R := by
  simp [Arm.flags, hide, EcvReg.internal, ECV_NZCV_ORDER, PC_ORDER, BRANCH_TAKEN_ORDER]

theorem hide_setX (x : BitVec 64) : hide (Arm.setX R n x) = Arm.setX (hide R) n x := by
  unfold Arm.setX
  split
  · rfl
  · exact hide_update R (by simp [EcvReg.internal]) _

theorem hide_setBase (x : BitVec 64) : hide (Arm.setBase R n x) = Arm.setBase (hide R) n x := by
  unfold Arm.setBase
  split
  · exact hide_update R (by decide) _
  · exact hide_update R (by simp [EcvReg.internal]) _

theorem hide_setFlags (x : BitVec 64) : hide (Arm.setFlags R x) = Arm.setFlags (hide R) x :=
  hide_update R (by decide) _

/-- The instructions of the architecture do not look at the internal registers. -/
theorem nextPC_hide (pc : Addr) (i : Arm.Inst) :
    i.nextPC pc (hide R) = i.nextPC pc R := by
  cases i <;> simp only [Arm.Inst.nextPC, X_hide, flags_hide]

/-- An instruction of the architecture does not look at the registers of the lifter. -/
theorem regs_hide (pc : Addr) (i : Arm.Inst) : i.regs pc (hide R) = hide (i.regs pc R) := by
  cases i with
  | addSub op f shift imm12 Rn Rd =>
    cases op <;>
      simp [Arm.Inst.regs, Arm.AddSubOp.setflags, Arm.AddSubOp.sub, base_hide, hide_setBase,
        hide_setX, hide_setFlags]
  | mask op f d Rn Rd =>
    cases op <;>
      simp [Arm.Inst.regs, Arm.result, Arm.toStackPointer, X_hide, hide_setBase, hide_setX,
        hide_setFlags]
  | _ => simp only [Arm.Inst.regs, X_hide, hide_setX]

end

/-! ### One instruction -/

/-- What kind of an instruction it is to the lifter. -/
def Arm.Inst.category : Arm.Inst → Category
  | .B _ => .directJump
  | .BL _ => .directFunctionCall
  | .Bcond .. | .CBZ .. | .CBNZ .. | .TBZ .. | .TBNZ .. => .conditionalBranch
  | .BR _ => .indirectJump
  | .BLR _ => .indirectFunctionCall
  | .RET _ => .functionReturn
  | .NOP => .noOp
  | .ADR .. | .ADRP .. | .addSub .. | .mask .. | .moveWide .. | .EXTR .. => .normal

/-- Every instruction has a category that is lifted. -/
theorem Arm.Inst.category_valid (i : Arm.Inst) : i.category ≠ .invalid ∧ i.category ≠ .error := by
  cases i <;> exact ⟨(nomatch ·), (nomatch ·)⟩

/-- The result of the instruction cannot be stored: the stack pointer takes no word of 32 bits, and
in a function with an indirect branch no single result is for the zero register. -/
def Arm.Inst.storeEnds (indirectbr : Bool) : Arm.Inst → Bool
  | .addSub op f _ _ _ Rd => !op.setflags && (f = .W && Rd = 31#5)
  | .mask .ANDS .. => false
  | .mask op f _ _ Rd =>
      if Arm.toStackPointer op then f = .W && Rd = 31#5 else Rd = 31#5 && indirectbr
  | .ADR _ _ Rd | .ADRP _ _ Rd | .moveWide _ _ _ _ Rd | .EXTR _ _ _ _ _ Rd =>
      Rd = 31#5 && indirectbr
  | _ => false

/-- The register of an indirect branch or a return. -/
def Guest.target (g : Guest) (loads : List String) : Addr :=
  ((findIndirectBrAddress loads).map g.readName).getD 0

section

variable (o : Others) (ovf : Overflow) (flag : OverflowFlag)

/-- The decoded instruction is lifted, and its code does what the architecture says of `i` where its
result can be stored. -/
structure Follows (pc : Addr) (i : Arm.Inst) (inst : DecodedInst) : Prop where
  category : inst.category = i.category
  lift : ∃ write_regs, Decoded.lift o ovf flag pc (.inst inst) =
      some ⟨inst.toInstruction, true, inst.loads, write_regs⟩ ∧
    storesResults write_regs = !i.storeEnds true
  ends : ∀ indirectbr g, i.storeEnds indirectbr = true →
    Decoded.exec o ovf flag indirectbr pc g (.inst inst) = none
  exec : ∀ indirectbr (g : Guest), i.storeEnds indirectbr = false → ∃ g' : Guest,
    Decoded.exec o ovf flag indirectbr pc g (.inst inst) = some (g', g'.branchTaken) ∧
      g'.mem = g.mem ∧ hide g'.regs = hide (i.regs pc g.regs) ∧
      inst.toInstruction.target g'.branchTaken (g.target inst.loads) = i.nextPC pc g.regs

variable {o ovf flag} {pc : Addr} {i : Arm.Inst} {inst : DecodedInst} {sema : SemaFunc}
  {as : RegFile → List Arg} {ws : List EcvReg}

/-- What is left to show of an instruction, by what its operands give. -/
theorem follows_of_gives (hcategory : inst.category = i.category)
    (hsema : ISEL ovf flag inst.iform inst.suffix = some sema)
    (hgives : Gives inst.pc inst.operands as ws)
    (h : ∀ g : Guest, ∃ results R', sema.call (as g.regs) g.mem = some (results, g.mem) ∧
      ws.length = results.length ∧
      (∀ indirectbr, storeCast indirectbr g.regs ws results =
        if i.storeEnds indirectbr then none else some R') ∧
      hide R' = hide (i.regs pc g.regs) ∧
      inst.toInstruction.target (Guest.branchTaken ⟨R', g.mem⟩) (g.target inst.loads) =
        i.nextPC pc g.regs) :
    Follows o ovf flag pc i inst := by
  have hexec (indirectbr : Bool) (g : Guest) {results : List Value}
      (hrun : sema.call (as g.regs) g.mem = some (results, g.mem)) :
      Decoded.exec o ovf flag indirectbr pc g (.inst inst) =
        (storeCast indirectbr g.regs ws results).map fun R' =>
          (⟨R', g.mem⟩, Guest.branchTaken ⟨R', g.mem⟩) := by
    show ((ISEL ovf flag inst.iform inst.suffix).bind fun sema =>
      (inst.exec indirectbr sema g).bind _) = _
    rw [hsema, Option.bind_some, hgives.exec, hrun, Option.bind_some]
    cases storeCast indirectbr g.regs ws results <;> rfl
  refine ⟨hcategory, ⟨List.zipWith writtenReg ws sema.returns, ?_, ?_⟩,
    fun indirectbr g hends => ?_, fun indirectbr g hends => ?_⟩
  · show LiftIntoBlock (ISEL ovf flag inst.iform inst.suffix) inst = _
    rw [hsema]
    exact hgives.lift (hcategory ▸ i.category_valid.1)
  -- whether the results can be stored does not depend on the state, so any will do
  · obtain ⟨results, R', hrun, hlen, hstore, -⟩ := h ⟨fun _ => 0#128, fun _ => 0#8⟩
    rw [← sema.typed _ _ _ hrun, ← isSome_storeCast _ hlen, hstore]
    cases i.storeEnds true <;> rfl
  · obtain ⟨results, R', hrun, -, hstore, -⟩ := h g
    rw [hexec indirectbr g hrun, hstore, if_pos hends]
    rfl
  · obtain ⟨results, R', hrun, -, hstore, hregs, htarget⟩ := h g
    refine ⟨⟨R', g.mem⟩, ?_, rfl, hregs, htarget⟩
    rw [hexec indirectbr g hrun, hstore, if_neg (hends ▸ Bool.false_ne_true)]
    rfl

end

/-! ### Names -/

/-- The names of the general registers start with `X`. -/
theorem head_text_X : ∀ n : Fin 31, (RegName.X n).text.toList.head? = some 'X' := by
  decide +kernel

/-- The names of the general registers differ. -/
theorem text_X_inj : ∀ m n : Fin 31, (RegName.X m).text = (RegName.X n).text → m = n := by
  decide +kernel

/-- A general register, by its name. -/
theorem readName_X (g : Guest) (n : Fin 31) :
    g.readName (RegName.X n).text = (g.regs ⟨.General, n⟩).setWidth 64 := by
  unfold Guest.readName
  cases hfind : (List.finRange 31).find? fun m => (RegName.X m).text = (RegName.X n).text with
  | none =>
    have hnone := List.find?_eq_none.mp hfind n (List.mem_finRange n)
    simp at hnone
  | some m =>
    have hm := List.find?_some hfind
    rw [decide_eq_true_iff] at hm
    rw [text_X_inj m n hm]

/-- The register of an indirect branch: the zero register is not loaded, and the stack pointer is
not taken. -/
theorem findIndirectBrAddress_read (rtype : RegUsage) (n : RegNum) :
    findIndirectBrAddress ((SemaOperand.loadNames (.reg .kActionRead .RegX rtype n) ++ []).map
      RegName.text) =
      if h : n = 31#5 then none else some (RegName.X ⟨n.toNat, toNat_lt_31 h⟩).text := by
  by_cases hn : n = 31#5
  · subst hn
    cases rtype <;> rfl
  · have hname : SemaOperand.loadNames (.reg .kActionRead .RegX rtype n) =
        [.X ⟨n.toNat, toNat_lt_31 hn⟩] := by
      show ((RegNameXW .kActionRead .RegX rtype n.toNat).map RegName.loaded).getD [] = _
      rw [regNameXW_of_ne (by decide) _ _ hn]
      rfl
    rw [hname, dif_neg hn, findIndirectBrAddress, List.append_nil, List.map_cons, List.map_nil,
      List.find?_cons, head_text_X]
    rfl

/-- A branch goes to the register that its block loads first. -/
theorem target_read (g : Guest) (rtype : RegUsage) (n : RegNum) :
    g.target ((SemaOperand.loadNames (.reg .kActionRead .RegX rtype n) ++ []).map RegName.text) =
      Arm.X g.regs n := by
  rw [Guest.target, findIndirectBrAddress_read]
  unfold Arm.X
  by_cases hn : n = 31#5
  · rw [dif_pos hn, if_pos hn]
    rfl
  · rw [dif_neg hn, if_neg hn]
    exact readName_X g _

/-! ### Conditions -/

theorem setWidth_setWidth_4 (x : BitVec 64) : (x.setWidth 4).setWidth 64 = x &&& 15#64 := by
  have hmask : ∀ i < 64, (15#64).getLsbD i = decide (i < 4) := by decide
  apply BitVec.eq_of_getLsbD_eq
  intro i hi
  rw [BitVec.getLsbD_and, hmask i hi, BitVec.getLsbD_setWidth, BitVec.getLsbD_setWidth,
    decide_eq_true hi, Bool.true_and, Bool.and_comm]

/-- The condition functions look at the flags only. -/
theorem check_and_15 (c : Cond) (x : BitVec 64) : c.check (x &&& 15#64) = c.check x := by
  have hn : SR_ECV_NZCV_N (x &&& 15#64) = SR_ECV_NZCV_N x := by
    rw [SR_ECV_NZCV_N, BitVec.and_assoc]
    rfl
  have hz : SR_ECV_NZCV_Z (x &&& 15#64) = SR_ECV_NZCV_Z x := by
    rw [SR_ECV_NZCV_Z, BitVec.and_assoc]
    rfl
  have hc : SR_ECV_NZCV_C (x &&& 15#64) = SR_ECV_NZCV_C x := by
    rw [SR_ECV_NZCV_C, BitVec.and_assoc]
    rfl
  have hv : SR_ECV_NZCV_V (x &&& 15#64) = SR_ECV_NZCV_V x := by
    rw [SR_ECV_NZCV_V, BitVec.and_assoc]
    rfl
  cases c <;>
    simp only [Cond.check, CondGE, CondGT, CondLE, CondLT, CondEQ, CondNE, CondCS, CondCC, CondMI,
      CondPL, CondVS, CondVC, CondHI, CondLS, hn, hz, hc, hv]

/-- The conditions, for all values of the flags. -/
theorem check_ofImm : ∀ cond nzcv : BitVec 4,
    ((CondName (cond.setWidth 8)).elim CondAL Cond.check (nzcv.setWidth 64) == 1#64) =
      Arm.ConditionHolds cond (.ofImm nzcv) := by
  decide +kernel

/-- The condition function that a condition names. -/
theorem check_eq (cond : BitVec 4) (x : BitVec 64) :
    ((CondName (cond.setWidth 8)).elim CondAL Cond.check x == 1#64) =
      Arm.ConditionHolds cond (.ofImm (x.setWidth 4)) := by
  rw [← check_ofImm, setWidth_setWidth_4]
  rcases CondName (cond.setWidth 8) with - | c
  · rfl
  · show (c.check x == 1#64) = (c.check (x &&& 15#64) == 1#64)
    rw [check_and_15]

/-! ### Bits -/

/-- Zeros below a signed number are a shift. -/
theorem signExtend_append {n m : ℕ} (x : BitVec n) (hn : 0 < n) :
    (x ++ 0#m).signExtend 64 = x.signExtend 64 <<< m := by
  apply BitVec.eq_of_getLsbD_eq
  intro k hk
  simp only [BitVec.getLsbD_signExtend, BitVec.getLsbD_shiftLeft, BitVec.getLsbD_append,
    BitVec.msb_append, hk, decide_true, Bool.true_and, BitVec.getLsbD_zero]
  by_cases hm : k < m
  · simp [hm, (by omega : k < n + m)]
  · simp [hm, hn.ne', (by omega : k < n + m ↔ k - m < n), (by omega : k - m < 64)]

/-- A signed field. -/
theorem simm_setWidth {k : ℕ} (imm : BitVec k) (hk : k ≤ 64) :
    InstImm.simm k (imm.setWidth 64) = imm.signExtend 64 := by
  rw [InstImm.simm, BitVec.setWidth_setWidth_of_le _ hk, BitVec.setWidth_eq]

/-- The displacement of a branch. -/
theorem displacement_eq {k : ℕ} (imm : BitVec k) (hpos : 0 < k) (hk : k ≤ 64) :
    InstImm.simm k (imm.setWidth 64) <<< 2 = (imm ++ 0#2).signExtend 64 := by
  rw [simm_setWidth imm hk, signExtend_append imm hpos]

/-- The targets of the branches are even. -/
theorem umod_two_target {pc : BitVec 64} (hpc : pc % 4#64 = 0#64) (x : BitVec 64) :
    (pc + x <<< 2) % 2#64 = 0#64 := by
  have h4 : pc.toNat % 4 = 0 := by simpa using congrArg BitVec.toNat hpc
  apply BitVec.eq_of_toNat_eq
  simp only [BitVec.toNat_umod, BitVec.toNat_add, BitVec.toNat_shiftLeft, Nat.shiftLeft_eq]
  show (pc.toNat + x.toNat * 2 ^ 2 % 2 ^ 64) % 2 ^ 64 % 2 = 0
  omega

/-- A value is read at its own width. -/
theorem read_value (f : Form) (x : BitVec f.size) : (Arg.value (f.value x)).read f.size = x := by
  cases f <;> exact BitVec.setWidth_eq x

theorem bits_value (f : Form) (x : BitVec f.size) :
    ((f.value x).bits.setWidth 64 : BitVec 64) = x.setWidth 64 := by
  cases f <;> rfl

/-- A word that is returned. -/
theorem setWidth_read (x : BitVec 64) : ((Arg.word x).read 64).setWidth 64 = x := by
  show (x.setWidth 64).setWidth 64 = x
  rw [BitVec.setWidth_eq, BitVec.setWidth_eq]

/-- What a conditional branch looks at. -/
theorem branchTaken_storeResult (R : RegFile) (x : BitVec 64) (mem : Memory) :
    Guest.branchTaken ⟨storeResult R ⟨.Special, BRANCH_TAKEN_ORDER⟩ (Form.X.value x), mem⟩ =
      (x == 1#64) := by
  rw [Guest.branchTaken, storeResult, castFromInst_eq]
  show ((Function.update R _ ((x.setWidth 64).setWidth 128) _).setWidth 64 == 1#64) = _
  rw [Function.update_self, BitVec.setWidth_setWidth_of_le _ (by decide), BitVec.setWidth_eq,
    BitVec.setWidth_eq]

/-! ### Storing the results -/

/-- A single result that can be cast is stored as it is. -/
theorem storeCast_eq (indirectbr : Bool) (R : RegFile) {er : EcvReg} {v : Value}
    (h : er.number ≠ IGNORE_WRITE_TO_XZR_ORDER → castChecks er v.erc (wholeERC er) = true) :
    storeCast indirectbr R [er] [v] = storeResults indirectbr R [er] [v] := by
  refine if_pos ?_
  by_cases hn : er.number = IGNORE_WRITE_TO_XZR_ORDER
  · simp [writtenReg, hn]
  · simp [writtenReg, h hn]

/-- A word, of 32 bits or of 64, is stored to a general register. -/
theorem castChecks_general (n : ℕ) (f : Form) (x : BitVec f.size) :
    castChecks ⟨.General, n⟩ (f.value x).erc .RegX = true := by
  cases f <;> rfl

/-- A result for a general register. -/
theorem storeCast_destX (indirectbr : Bool) (R : RegFile) (n : RegNum) (f : Form)
    (x : BitVec f.size) :
    storeCast indirectbr R [destX n] [f.value x] =
      if decide (n = 31#5) && indirectbr then none else some (Arm.setX R n (x.setWidth 64)) := by
  rw [storeCast_eq, storeResults_X, bits_value]
  · simp only [Bool.and_eq_true, decide_eq_true_eq]
  · intro hn
    rw [destX, if_neg (mt (destX_number_iff n).mpr hn)]
    exact castChecks_general _ f x

/-- A result for one of the registers that only the lifted code has. -/
theorem storeCast_internal (indirectbr : Bool) (R : RegFile) {er : EcvReg}
    (h : EcvReg.internal er = true) (x : BitVec 64) :
    storeCast indirectbr R [er] [Form.X.value x] = some (storeResult R er (Form.X.value x)) := by
  rw [EcvReg.internal, Bool.or_eq_true_iff, decide_eq_true_iff, decide_eq_true_iff] at h
  rcases h with rfl | rfl <;> rfl

/-! ### Branches -/

section

variable {o : Others} {big : Overshift} {ovf : Overflow} {flag : OverflowFlag} {pc : Addr}

/-- A decoded instruction, by its instruction and what is decoded of it. -/
def Decodes (big : Overshift) (o : Others) (ovf : Overflow) (flag : OverflowFlag) (pc : Addr)
    (i : Arm.Inst) : Prop :=
  ∃ inst, decodeData big pc i.data = some (.inst inst) ∧ Follows o ovf flag pc i inst

/-- `B` goes on at its label. -/
theorem decodes_B (imm26 : BitVec 26) : Decodes big o ovf flag pc (.B imm26) := by
  refine ⟨_, rfl, follows_of_gives rfl rfl gives_nil fun g => ?_⟩
  refine ⟨[], g.regs, rfl, rfl, fun _ => rfl, rfl, ?_⟩
  exact congrArg (pc + ·) (displacement_eq imm26 (by decide) (by decide))

/-- `BL` leaves the return address in `X30`. -/
theorem decodes_BL (imm26 : BitVec 26) : Decodes big o ovf flag pc (.BL imm26) := by
  refine ⟨_, rfl, follows_of_gives rfl rfl
    (((gives_nil.pcDisp _).pcDisp _).write .X 30#5) fun g => ?_⟩
  refine ⟨_, _, rfl, rfl, fun _ => storeCast_destX _ _ _ .X _, ?_, ?_⟩
  · exact congrArg (fun x => hide (Arm.setX g.regs 30#5 x)) (setWidth_read (pc + 4#64))
  · exact congrArg (pc + ·) (displacement_eq imm26 (by decide) (by decide))

theorem decodes_NOP : Decodes big o ovf flag pc .NOP := by
  refine ⟨_, rfl, follows_of_gives rfl rfl gives_nil fun g => ?_⟩
  exact ⟨[], g.regs, rfl, rfl, fun _ => rfl, rfl, rfl⟩

/-! Branches to a register. -/

/-- `BR` goes where its register says. -/
theorem decodes_BR (Rn : BitVec 5) : Decodes big o ovf flag pc (.BR Rn) := by
  refine ⟨_, rfl, follows_of_gives rfl rfl
    (gives_nil.readBase (f := .X) (fun h => Form.noConfusion h.1)) fun g => ?_⟩
  refine ⟨[], g.regs, rfl, rfl, fun _ => rfl, rfl, ?_⟩
  exact target_read g .kUseAsAddress Rn

/-- `BLR` leaves the return address in `X30` and goes where its register says. -/
theorem decodes_BLR (Rn : BitVec 5) : Decodes big o ovf flag pc (.BLR Rn) := by
  refine ⟨_, rfl, follows_of_gives rfl rfl
    (((gives_nil.pcDisp _).read .X _).write .X 30#5) fun g => ?_⟩
  refine ⟨_, _, rfl, rfl, fun _ => storeCast_destX _ _ _ .X _, ?_, ?_⟩
  · exact congrArg (fun x => hide (Arm.setX g.regs 30#5 x)) (setWidth_read (pc + 4#64))
  · exact target_read g .kUseAsValue Rn

/-- `RET` goes where its register says, and leaves a register of the lifter only. -/
theorem decodes_RET (Rn : BitVec 5) : Decodes big o ovf flag pc (.RET Rn) := by
  refine ⟨_, rfl, follows_of_gives rfl rfl
    ((gives_nil.read .X _).writeNamed rfl) fun g => ?_⟩
  refine ⟨_, _, rfl, rfl, fun _ => storeCast_internal _ _ (by decide) _,
    hide_update_internal _ (by decide) _, ?_⟩
  exact target_read g .kUseAsValue Rn

/-! Conditional branches. -/

/-- The function of a conditional branch is that of its condition. -/
theorem ISEL_cond (c : Option Cond) : ISEL ovf flag .B_ONLY_CONDBRANCH (.cond c) =
    some (DirectCondBranch (c.elim CondAL Cond.check)) := by
  cases c <;> rfl

/-- A conditional branch is taken where its code leaves a one. -/
theorem follows_of_branch {i : Arm.Inst} {inst : DecodedInst} {sema : SemaFunc}
    {as : RegFile → List Arg} (hi : i.category = .conditionalBranch)
    (hcategory : inst.category = i.category) (hpc : inst.pc % 4#64 = 0#64) (x : BitVec 64)
    (htaken : inst.branch_taken_pc =
      (inst.DecodeCondBranchNotUsingPCArg (x <<< 2)).branch_taken_pc)
    (hsema : ISEL ovf flag inst.iform inst.suffix = some sema)
    (hgives : Gives inst.pc inst.operands as [⟨.Special, BRANCH_TAKEN_ORDER⟩])
    (h : ∀ g : Guest, ∃ t : BitVec 64,
      sema.call (as g.regs) g.mem = some ([Form.X.value t], g.mem) ∧ i.regs pc g.regs = g.regs ∧
      i.nextPC pc g.regs = if t == 1#64 then inst.pc + x <<< 2 else inst.branch_not_taken_pc) :
    Follows o ovf flag pc i inst := by
  have hends (indirectbr : Bool) : i.storeEnds indirectbr = false := by
    cases i <;> first | rfl | exact nomatch hi
  -- the result is the flag of the branch, which is no register of the guest
  refine follows_of_gives hcategory hsema hgives fun g => ?_
  obtain ⟨t, hrun, hregs, hnext⟩ := h g
  refine ⟨_, storeResult g.regs ⟨.Special, BRANCH_TAKEN_ORDER⟩ (Form.X.value t), hrun, rfl,
    fun indirectbr => ?_, ?_, ?_⟩
  · rw [hends]
    exact storeCast_internal _ _ (by decide) _
  · rw [hregs]
    exact hide_update_internal _ (by decide) _
  · have htarget : (inst.DecodeCondBranchNotUsingPCArg (x <<< 2)).branch_taken_pc =
        inst.pc + x <<< 2 := if_neg fun h => h (umod_two_target hpc x)
    rw [hnext]
    refine (Instruction.target_conditionalBranch (hcategory.trans hi) _ _).trans ?_
    show (if _ then inst.branch_taken_pc else inst.branch_not_taken_pc) = _
    rw [htaken, htarget, branchTaken_storeResult]

/-- `B.cond` looks at the flags. -/
theorem decodes_Bcond (hpc : pc % 4#64 = 0#64) (imm19 : BitVec 19) (cond : BitVec 4) :
    Decodes big o ovf flag pc (.Bcond imm19 cond) := by
  refine ⟨_, rfl, follows_of_branch rfl rfl hpc _ rfl (ISEL_cond _)
    (gives_nil.readFlags.branchTaken) fun g => ?_⟩
  refine ⟨_, rfl, rfl, ?_⟩
  have hholds : ((CondName (cond.setWidth 8)).elim CondAL Cond.check
      ((Arg.value (Form.X.value ((g.regs ⟨.Special, ECV_NZCV_ORDER⟩).setWidth 64))).read 64) ==
        1#64) = Arm.ConditionHolds cond (Arm.flags g.regs) := by
    rw [check_eq, Arm.flags]
    congr 2
    exact (congrArg (BitVec.setWidth 4) (read_value .X _)).trans
      (BitVec.setWidth_setWidth_of_le _ (by decide))
  rw [Arm.Inst.nextPC, ← hholds, ← displacement_eq imm19 (by decide) (by decide)]
  rfl

/-! Comparisons with zero. -/

/-- A condition, as the comparisons return it. -/
theorem ofBool_beq_one (b : Bool) : ((BitVec.ofBool b).setWidth 64 == 1#64) = b := by
  cases b <;> rfl

/-- `CBZ` compares in the width of its form. -/
theorem decodes_CBZ (hpc : pc % 4#64 = 0#64) (f : Form) (imm19 : BitVec 19) (Rt : BitVec 5) :
    Decodes big o ovf flag pc (.CBZ f imm19 Rt) := by
  have htaken (g : Guest) :
      (Arm.Inst.CBZ f imm19 Rt).nextPC pc g.regs =
        if CBZ ((Arg.value (f.value ((Arm.X g.regs Rt).setWidth f.size))).read f.size) == 1#64 then
          pc + InstImm.simm 19 (imm19.setWidth 64) <<< 2
        else pc + 4#64 := by
    rw [read_value, CBZ, UCmpEq, boolbinop, ofBool_beq_one, Arm.Inst.nextPC,
      displacement_eq imm19 (by decide) (by decide)]
    simp only [beq_iff_eq]
  cases f with
  | W =>
    exact ⟨_, rfl, follows_of_branch rfl rfl hpc _ rfl rfl (gives_nil.read .W _).branchTaken
      fun g => ⟨_, rfl, rfl, htaken g⟩⟩
  | X =>
    exact ⟨_, rfl, follows_of_branch rfl rfl hpc _ rfl rfl (gives_nil.read .X _).branchTaken
      fun g => ⟨_, rfl, rfl, htaken g⟩⟩

/-- `CBNZ` compares in the width of its form. -/
theorem decodes_CBNZ (hpc : pc % 4#64 = 0#64) (f : Form) (imm19 : BitVec 19) (Rt : BitVec 5) :
    Decodes big o ovf flag pc (.CBNZ f imm19 Rt) := by
  have htaken (g : Guest) :
      (Arm.Inst.CBNZ f imm19 Rt).nextPC pc g.regs =
        if CBNZ ((Arg.value (f.value ((Arm.X g.regs Rt).setWidth f.size))).read f.size) == 1#64 then
          pc + InstImm.simm 19 (imm19.setWidth 64) <<< 2
        else pc + 4#64 := by
    rw [read_value, CBNZ, UCmpNeq, boolbinop, ofBool_beq_one, Arm.Inst.nextPC,
      displacement_eq imm19 (by decide) (by decide)]
    simp only [bne_iff_ne, ite_not]
  cases f with
  | W =>
    exact ⟨_, rfl, follows_of_branch rfl rfl hpc _ rfl rfl (gives_nil.read .W _).branchTaken
      fun g => ⟨_, rfl, rfl, htaken g⟩⟩
  | X =>
    exact ⟨_, rfl, follows_of_branch rfl rfl hpc _ rfl rfl (gives_nil.read .X _).branchTaken
      fun g => ⟨_, rfl, rfl, htaken g⟩⟩

/-! Tests of a bit. -/

/-- The bit that is tested, of a register of the form that the bit needs. -/
theorem testBit_eq {f : Form} {bit_pos : BitVec 8} (h : bit_pos.toNat < f.size)
    (src : BitVec f.size) :
    testBit bit_pos src = some (src &&& BitVec.twoPow f.size bit_pos.toNat) := by
  have hpos : (bit_pos.setWidth f.size).toNat = bit_pos.toNat :=
    BitVec.toNat_setWidth_of_le (by cases f <;> decide)
  rw [testBit, ZExtTo, ZExtTo, ZExtTo, UShl_eq _ (by rw [hpos]; exact h), hpos, BitVec.setWidth_eq,
    BitVec.setWidth_eq]
  exact UAnd_eq _ _

/-- A single bit, by a mask. -/
theorem and_twoPow_eq_zero {w n : ℕ} (h : n < w) (src : BitVec w) :
    src &&& BitVec.twoPow w n = 0#w ↔ src.getLsbD n = false := by
  rw [BitVec.and_twoPow]
  by_cases hbit : src.getLsbD n = true
  · have hne : BitVec.twoPow w n ≠ 0#w := fun h0 => by
      have hn := congrArg (BitVec.getLsbD · n) h0
      simp [h] at hn
    simp [hbit, hne]
  · simp [hbit]

/-- `TBZ` asks whether the bit is clear. -/
theorem TBZ_eq {f : Form} {bit_pos : BitVec 8} (h : bit_pos.toNat < f.size)
    (src : BitVec f.size) : TBZ bit_pos src =
      some ((BitVec.ofBool (!src.getLsbD bit_pos.toNat)).setWidth 64) := by
  have hzero : (src &&& BitVec.twoPow f.size bit_pos.toNat == 0#f.size) =
      !src.getLsbD bit_pos.toNat := by
    rw [Bool.eq_iff_iff, beq_iff_eq, and_twoPow_eq_zero h, Bool.not_eq_true']
  rw [TBZ, testBit_eq h, Option.bind_eq_bind, Option.bind_some, UCmpEq, boolbinop, hzero]
  rfl

/-- `TBNZ` asks whether the bit is set. -/
theorem TBNZ_eq {f : Form} {bit_pos : BitVec 8} (h : bit_pos.toNat < f.size)
    (src : BitVec f.size) : TBNZ bit_pos src =
      some ((BitVec.ofBool (src.getLsbD bit_pos.toNat)).setWidth 64) := by
  have hzero : (src &&& BitVec.twoPow f.size bit_pos.toNat != 0#f.size) =
      src.getLsbD bit_pos.toNat := by
    rw [Bool.eq_iff_iff, bne_iff_ne, Ne, and_twoPow_eq_zero h, Bool.not_eq_false]
  rw [TBNZ, testBit_eq h, Option.bind_eq_bind, Option.bind_some, UCmpNeq, boolbinop, hzero]
  rfl

/-- The call of a bit test, with the position as a word. -/
theorem callTestBit_eq {f : Form} {op : BitVec 8 → BitVec f.size → Option (BitVec 64)}
    {bit_pos : BitVec 8} {x : BitVec f.size} {t : BitVec 64} (h : op bit_pos x = some t)
    (mem : Memory) :
    (callTestBit f op).call [.word (bit_pos.setWidth 64), .value (f.value x)] mem =
      some ([Form.X.value t], mem) := by
  have hpos : (Arg.word (bit_pos.setWidth 64)).read 8 = bit_pos :=
    (BitVec.setWidth_setWidth_of_le _ (by decide)).trans (BitVec.setWidth_eq _)
  show (op _ _).map _ = _
  rw [hpos, read_value, h]
  rfl

/-- The position of the bit, and the form that the decoder chooses for it. -/
theorem bit_pos_eq : ∀ (b5 : BitVec 1) (b40 : BitVec 5),
    (b5.setWidth 8 <<< 5 ||| b40.setWidth 8).toNat = (b5 ++ b40).toNat ∧
      (b5 ++ b40).toNat < (if b5.setWidth 8 = 1#8 then Form.X else .W).size := by
  decide

/-- The form that the decoder chooses has the bit. -/
theorem bit_pos_lt (b5 : BitVec 1) (b40 : BitVec 5) :
    (b5.setWidth 8 <<< 5 ||| b40.setWidth 8).toNat <
      (if b5.setWidth 8 = 1#8 then Form.X else .W).size := by
  rw [(bit_pos_eq b5 b40).1]
  exact (bit_pos_eq b5 b40).2

/-- The bit in the form that the decoder chooses is the bit of the whole register. -/
theorem getLsbD_bit_pos (b5 : BitVec 1) (b40 : BitVec 5) (x : BitVec 64) :
    (x.setWidth (if b5.setWidth 8 = 1#8 then Form.X else .W).size).getLsbD
      (b5.setWidth 8 <<< 5 ||| b40.setWidth 8).toNat = x.getLsbD (b5 ++ b40).toNat := by
  rw [BitVec.getLsbD_setWidth, decide_eq_true (bit_pos_lt b5 b40), Bool.true_and,
    (bit_pos_eq b5 b40).1]

theorem decodes_TBZ (hpc : pc % 4#64 = 0#64) (b5 : BitVec 1) (b40 : BitVec 5)
    (imm14 : BitVec 14) (Rt : BitVec 5) :
    Decodes big o ovf flag pc (.TBZ b5 b40 imm14 Rt) := by
  refine ⟨_, rfl, follows_of_branch rfl rfl hpc _ rfl rfl ((gives_nil.read _ _).branchTaken.imm _)
    fun g => ?_⟩
  refine ⟨_, callTestBit_eq (TBZ_eq (bit_pos_lt b5 b40) _) _, rfl, ?_⟩
  have htaken : (Arm.Inst.TBZ b5 b40 imm14 Rt).nextPC pc g.regs =
      if !(Arm.X g.regs Rt).getLsbD (b5 ++ b40).toNat then
        pc + InstImm.simm 14 (imm14.setWidth 64) <<< 2
      else pc + 4#64 := by
    rw [displacement_eq imm14 (by decide) (by decide), Arm.Inst.nextPC]
    cases (Arm.X g.regs Rt).getLsbD (b5 ++ b40).toNat <;> rfl
  rw [ofBool_beq_one, htaken, ← getLsbD_bit_pos b5 b40]
  rfl

theorem decodes_TBNZ (hpc : pc % 4#64 = 0#64) (b5 : BitVec 1) (b40 : BitVec 5)
    (imm14 : BitVec 14) (Rt : BitVec 5) :
    Decodes big o ovf flag pc (.TBNZ b5 b40 imm14 Rt) := by
  refine ⟨_, rfl, follows_of_branch rfl rfl hpc _ rfl rfl ((gives_nil.read _ _).branchTaken.imm _)
    fun g => ?_⟩
  refine ⟨_, callTestBit_eq (TBNZ_eq (bit_pos_lt b5 b40) _) _, rfl, ?_⟩
  have htaken : (Arm.Inst.TBNZ b5 b40 imm14 Rt).nextPC pc g.regs =
      if (Arm.X g.regs Rt).getLsbD (b5 ++ b40).toNat then
        pc + InstImm.simm 14 (imm14.setWidth 64) <<< 2
      else pc + 4#64 := by
    rw [displacement_eq imm14 (by decide) (by decide), Arm.Inst.nextPC]
  rw [ofBool_beq_one, htaken, ← getLsbD_bit_pos b5 b40]
  rfl

end

end Elfconv.AArch64
