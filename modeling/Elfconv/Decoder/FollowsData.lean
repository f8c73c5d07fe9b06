/-
Elfconv/Decoder/FollowsData.lean

Each instruction that processes data with an immediate, as `Elfconv/Decoder/Follows.lean` does for
the branches.

The lifter ends at the operands of two kinds of them: an addition or a subtraction of 32 bits from
the stack pointer, and a bit-field move that rotates the zero register.  Where a result goes is in
`storeCast_destX`, `storeCast_base` and `storeCast_flags`.
-/
import Elfconv.Decoder.Follows

namespace Elfconv.AArch64

open Encoding CInt

section

variable {o : Others} {big : Overshift} {ovf : Overflow} {flag : OverflowFlag} {pc : Addr}

/-! ### Results -/

/-- The decoder of an encoding that is here. -/
theorem decodeData_eq {data : InstData} {t : InstData → DecodedInst → Option (Option DecodedInst)}
    (h : kDecoder big data.iform = some t) (address : Addr) :
    decodeData big address data =
      (t data (data.start address)).map fun inst => inst.elim .invalid .inst := by
  rw [decodeData, h]

/-- A result for a base register. -/
theorem storeCast_base (indirectbr : Bool) (R : RegFile) (n : RegNum) (f : Form)
    (x : BitVec f.size) :
    storeCast indirectbr R [baseReg n] [f.value x] =
      if decide (f = .W) && decide (n = 31#5) then none
      else some (Arm.setBase R n (x.setWidth 64)) := by
  unfold baseReg Arm.setBase
  by_cases hn : n = 31#5
  · subst hn
    cases f with
    | W => rfl
    | X =>
      show some (storeResult R ⟨.Special, SP_ORDER⟩ _) = _
      rw [storeResult, castFromInst_eq]
      rfl
  · have hlt := toNat_lt_31 hn
    rw [if_neg hn, if_neg hn, storeCast_eq _ _ fun _ => castChecks_general _ f x,
      decide_eq_false hn, Bool.and_false, if_neg Bool.false_ne_true]
    show (if n.toNat = 39 then _ else some (storeResult R ⟨.General, n.toNat⟩ (f.value x))) = _
    rw [if_neg (by omega), storeResult, castFromInst_eq, ← bits_value]
    rfl

/-- A result with the flags: nothing is stored to the zero register. -/
theorem storeCast_flags (indirectbr : Bool) (R : RegFile) (n : RegNum) (f : Form)
    (x : BitVec f.size) (nzcv : BitVec 64) :
    storeCast indirectbr R [destX n, ⟨.Special, ECV_NZCV_ORDER⟩] [f.value x, Form.X.value nzcv] =
      some (Arm.setFlags (Arm.setX R n (x.setWidth 64)) nzcv) := by
  have hflags (R : RegFile) : storeResult R ⟨.Special, ECV_NZCV_ORDER⟩ (Form.X.value nzcv) =
      Arm.setFlags R nzcv := by
    rw [storeResult, castFromInst_eq, Arm.setFlags]
    exact congrArg (Function.update R _) (congrArg (BitVec.setWidth 128) (BitVec.setWidth_eq nzcv))
  have hcasts : (List.zipWith writtenReg [destX n, ⟨.Special, ECV_NZCV_ORDER⟩]
      ([f.value x, Form.X.value nzcv].map Value.erc)).all
        (fun w => w.ignored || w.casts) = true := by
    by_cases hn : n = 31#5
    · subst hn
      rfl
    · rw [destX, if_neg hn]
      cases f <;> simp [writtenReg, castChecks, wholeERC, ERC.isInteger, Form.value]
  rw [storeCast, if_pos hcasts]
  show some (storeResult (if (destX n).number = IGNORE_WRITE_TO_XZR_ORDER then R
    else storeResult R (destX n) (f.value x)) _ _) = _
  rw [hflags]
  by_cases hn : n = 31#5
  · rw [if_pos ((destX_number_iff n).mpr hn), Arm.setX, if_pos hn]
  · rw [if_neg (mt (destX_number_iff n).mp hn), storeResult_general R n _ hn, bits_value]

section

variable {f : Form} {a b c : Arg} {x : BitVec f.size}

/-- A call that returns a value. -/
theorem single_eq {op : List Arg → Option (BitVec f.size)} {args : List Arg}
    (h : op args = some x) (mem : Memory) :
    (SemaFunc.single f op).call args mem = some ([f.value x], mem) := by
  show (op args).map _ = _
  rw [h]
  rfl

theorem callUnary_eq {op : BitVec f.size → Option (BitVec f.size)}
    (h : op (a.read f.size) = some x) (mem : Memory) :
    (callUnary f op).call [a] mem = some ([f.value x], mem) :=
  single_eq h mem

theorem callBinary_eq {op : BitVec f.size → BitVec f.size → Option (BitVec f.size)}
    (h : op (a.read f.size) (b.read f.size) = some x) (mem : Memory) :
    (callBinary f op).call [a, b] mem = some ([f.value x], mem) :=
  single_eq h mem

theorem callFlags_eq {op : BitVec f.size → BitVec f.size → Option (BitVec f.size × BitVec 64)}
    {nzcv : BitVec 64} (h : op (a.read f.size) (b.read f.size) = some (x, nzcv)) (mem : Memory) :
    (callFlags f op).call [a, b] mem = some ([f.value x, Form.X.value nzcv], mem) := by
  show (op _ _).map _ = _
  rw [h]
  rfl

theorem callMoveWithKeep_eq
    (h : MoveWithKeep (a.read f.size) (b.read 16) (c.read 8) = some x) (mem : Memory) :
    (callMoveWithKeep f).call [a, b, c] mem = some ([f.value x], mem) :=
  single_eq h mem

theorem callEXTR_eq (h : EXTR (a.read f.size) (b.read f.size) (c.read f.size) = some x)
    (mem : Memory) : (callEXTR f).call [a, b, c] mem = some ([f.value x], mem) :=
  single_eq h mem

end

/-- An instruction that is followed by the next one. -/
theorem follows_of_data {i : Arm.Inst} {inst : DecodedInst} {sema : SemaFunc}
    {as : RegFile → List Arg} {ws : List EcvReg} (hi : i.category = .normal)
    (hcategory : inst.category = i.category)
    (hnext : ∀ R, i.nextPC pc R = inst.next_pc)
    (hsema : ISEL ovf flag inst.iform inst.suffix = some sema)
    (hgives : Gives inst.pc inst.operands as ws)
    (h : ∀ g : Guest, ∃ results, sema.call (as g.regs) g.mem = some (results, g.mem) ∧
      ws.length = results.length ∧ ∀ indirectbr, storeCast indirectbr g.regs ws results =
        if i.storeEnds indirectbr then none else some (i.regs pc g.regs)) :
    Follows o ovf flag pc i inst := by
  refine follows_of_gives hcategory hsema hgives fun g => ?_
  obtain ⟨results, hrun, hlen, hstore⟩ := h g
  refine ⟨results, _, hrun, hlen, hstore, rfl, ?_⟩
  rw [hnext]
  exact Instruction.target_normal (hcategory.trans hi) _ _

/-! ### Addresses -/

/-- The parts of an immediate of 21 bits. -/
theorem immhi_immlo_eq (immlo : BitVec 2) (immhi : BitVec 19) :
    InstImm.simm 21 (immhi.setWidth 64 <<< 2 ||| immlo.setWidth 64) =
      (immhi ++ immlo).signExtend 64 := by
  rw [InstImm.simm]
  congr 1
  apply BitVec.eq_of_getLsbD_eq
  intro k hk
  simp only [BitVec.getLsbD_setWidth, BitVec.getLsbD_or, BitVec.getLsbD_shiftLeft,
    BitVec.getLsbD_append]
  by_cases hlow : k < 2
  · simp [hlow, hk, (by omega : k < 64)]
  · simp [hlow, hk, (by omega : k < 64), (by omega : k - 2 < 64),
      BitVec.getLsbD_of_ge immlo k (by omega)]

/-- `ADR` leaves the address of its label. -/
theorem decodes_ADR (immlo : BitVec 2) (immhi : BitVec 19) (Rd : BitVec 5) :
    Decodes big o ovf flag pc (.ADR immlo immhi Rd) := by
  refine ⟨_, rfl, follows_of_data rfl rfl (fun _ => rfl) rfl ((gives_nil.pcDisp _).write .X _)
    fun g => ?_⟩
  refine ⟨_, rfl, rfl, fun indirectbr => (storeCast_destX _ _ _ .X _).trans ?_⟩
  show (if decide (Rd = 31#5) && indirectbr then none
    else some (Arm.setX g.regs Rd (((Arg.word (pc +
      InstImm.simm 21 (immhi.setWidth 64 <<< 2 ||| immlo.setWidth 64))).read 64).setWidth 64))) = _
  rw [setWidth_read, immhi_immlo_eq]
  rfl

/-- The address of a page. -/
theorem and_not_0xfff (x : BitVec 64) : x &&& ~~~0xfff#64 = x >>> 12 <<< 12 := by
  have hmask : ∀ i < 64, (~~~0xfff#64).getLsbD i = decide (12 ≤ i) := by decide
  apply BitVec.eq_of_getLsbD_eq
  intro i hi
  rw [BitVec.getLsbD_and, hmask i hi, BitVec.getLsbD_shiftLeft, BitVec.getLsbD_ushiftRight]
  by_cases h : 12 ≤ i
  · rw [Nat.add_sub_cancel' h]
    simp [h, hi]
  · simp [h]

/-- A displacement in pages moves the page. -/
theorem page_add (x y : BitVec 64) :
    ~~~4095#64 &&& (x + y <<< 12) = (x &&& ~~~0xfff#64) + y <<< 12 := by
  rw [BitVec.and_comm]
  show (x + y <<< 12) &&& ~~~0xfff#64 = _
  rw [and_not_0xfff, and_not_0xfff]
  apply BitVec.eq_of_toNat_eq
  simp only [BitVec.toNat_shiftLeft, BitVec.toNat_ushiftRight, BitVec.toNat_add,
    Nat.shiftLeft_eq, Nat.shiftRight_eq_div_pow]
  omega

/-- `ADRP` leaves the page of its label. -/
theorem decodes_ADRP (immlo : BitVec 2) (immhi : BitVec 19) (Rd : BitVec 5) :
    Decodes big o ovf flag pc (.ADRP immlo immhi Rd) := by
  have hvalue (label : BitVec 64) : ADRP ((Arg.word label).read 64) =
      some (~~~4095#64 &&& label) := by
    rw [ADRP, UNot_eq, Option.bind_eq_bind, Option.bind_some, UAnd_eq]
    exact congrArg (fun x => some (~~~4095#64 &&& x)) (BitVec.setWidth_eq label)
  refine ⟨_, rfl, follows_of_data rfl rfl (fun _ => rfl) rfl ((gives_nil.pcDisp _).write .X _)
    fun g => ?_⟩
  refine ⟨_, callUnary_eq (f := .X) (hvalue _) g.mem, rfl,
    fun indirectbr => (storeCast_destX _ _ _ .X _).trans ?_⟩
  show (if decide (Rd = 31#5) && indirectbr then none
    else some (Arm.setX g.regs Rd ((~~~4095#64 &&&
      (pc + InstImm.simm 21 (immhi.setWidth 64 <<< 2 ||| immlo.setWidth 64) <<< 12)).setWidth
        64))) = _
  rw [immhi_immlo_eq, page_add, BitVec.setWidth_eq, Arm.Inst.regs, signExtend_append _ (by decide)]
  rfl

/-! ### Additions and subtractions -/

/-- The immediate of an addition. -/
def addSubImm (shift : BitVec 2) (imm12 : BitVec 12) : BitVec 64 :=
  if shift = 0b01#2 then imm12.setWidth 64 <<< 12 else imm12.setWidth 64

/-- The shifts by 24 and 36 are reserved. -/
theorem ShiftImmediate_eq (shift : BitVec 2) (imm12 : BitVec 12) :
    ShiftImmediate (imm12.setWidth 64) (shift.setWidth 8) =
      if shift.getLsbD 1 then none else some (addSubImm shift imm12) := by
  have hcases : ∀ shift : BitVec 2, shift = 0#2 ∨ shift = 1#2 ∨ shift = 2#2 ∨ shift = 3#2 := by
    decide
  rcases hcases shift with rfl | rfl | rfl | rfl <;> rfl

/-- The immediate is shifted at the width of the form. -/
theorem read_addSubImm (f : Form) (shift : BitVec 2) (imm12 : BitVec 12) :
    (Arg.word (addSubImm shift imm12)).read f.size =
      if shift = 0b01#2 then imm12.setWidth f.size <<< 12 else imm12.setWidth f.size := by
  have hle : f.size ≤ 64 := by cases f <;> decide
  show (addSubImm shift imm12).setWidth f.size = _
  unfold addSubImm
  split_ifs
  · apply BitVec.eq_of_getLsbD_eq
    intro k hk
    simp [hk, (by omega : k < 64)]
  · exact BitVec.setWidth_setWidth_of_le _ hle

theorem ADD_eq_AddWithCarry {w : ℕ} (a b : BitVec w) :
    ADD a b = some (Arm.AddWithCarry a b false).1 :=
  ADD_eq a b

theorem SUB_eq_AddWithCarry {w : ℕ} (a b : BitVec w) :
    SUB a b = some (Arm.AddWithCarry a (~~~b) true).1 := by
  rw [AddWithCarry_not, SUB, USub_eq]
  exact congrArg some (BitVec.setWidth_eq _)

section

variable (op : Arm.AddSubOp) (f : Form) (shift : BitVec 2) (imm12 : BitVec 12) (Rn Rd : BitVec 5)

/-- What an addition or a subtraction is decoded to. -/
theorem decodeData_addSub : decodeData big pc (Arm.Inst.addSub op f shift imm12 Rn Rd).data =
    if shift.getLsbD 1 then some .invalid
    else
      let inst := (((((Arm.Inst.addSub op f shift imm12 Rn Rd).data.start pc).AddRegOperand
        .kActionWrite f.rclass (if op.setflags then .kUseAsValue else .kUseAsAddress)
          Rd).AddRegOperand .kActionRead f.rclass .kUseAsAddress Rn).AddImmOperand
            (addSubImm shift imm12))
      some (.inst (if op.setflags then inst.AddEcvNZCVOperand .kActionWrite else inst)) := by
  have himm : ShiftImmediate (Arm.Inst.addSub op f shift imm12 Rn Rd).data.imm12
      (Arm.Inst.addSub op f shift imm12 Rn Rd).data.shift =
        if shift.getLsbD 1 then none else some (addSubImm shift imm12) :=
    ShiftImmediate_eq shift imm12
  generalize hdata : (Arm.Inst.addSub op f shift imm12 Rn Rd).data = data at *
  have hdecode : decodeData big pc data =
      ((if op.setflags then data.decodeSubsImm (data.start pc) f
        else data.decodeAddImm (data.start pc) f).map fun inst => inst.elim .invalid .inst) := by
    rw [← hdata]
    cases op <;> cases f <;> rfl
  have hRn : data.Rn = Rn := by rw [← hdata]; rfl
  have hRd : data.Rd = Rd := by rw [← hdata]; rfl
  rw [hdecode, InstData.decodeSubsImm, InstData.decodeAddImm, himm, hRn, hRd]
  cases op.setflags <;> cases shift.getLsbD 1 <;> rfl

/-- The function of an addition or a subtraction. -/
def Arm.AddSubOp.sema (ovf : Overflow) (flag : OverflowFlag) (f : Form) : Arm.AddSubOp → SemaFunc
  | ADD => callBinary f AArch64.ADD
  | ADDS => callFlags f (AArch64.ADDS ovf flag)
  | SUB => callBinary f AArch64.SUB
  | SUBS => callFlags f (AArch64.SUBS ovf flag)

/-- Additions and subtractions follow the architecture where the stack pointer is not read as a word
of 32 bits. -/
theorem decodes_addSub (hflag : flag.ReturnsFirst) (hshift : shift.getLsbD 1 = false)
    (hbase : ¬ (f = .W ∧ Rn = 31#5)) :
    Decodes big o ovf flag pc (.addSub op f shift imm12 Rn Rd) := by
  have hcategory : InstCategory (Arm.Inst.addSub op f shift imm12 Rn Rd).data = .normal := by
    cases op <;> cases f <;> rfl
  have hsema : ISEL ovf flag (Arm.Inst.addSub op f shift imm12 Rn Rd).data.iform .none =
      some (op.sema ovf flag f) := by
    cases op <;> cases f <;> rfl
  have hread := read_addSubImm f shift imm12
  have hw : 2 ≤ f.size := two_le_size f
  refine ⟨_, (decodeData_addSub op f shift imm12 Rn Rd).trans
    (if_neg (hshift ▸ Bool.false_ne_true)), ?_⟩
  cases op with
  | ADD =>
    refine follows_of_data rfl hcategory (fun _ => rfl) hsema
      (((gives_nil.imm _).readBase hbase).writeBase f _) fun g => ?_
    refine ⟨_, callBinary_eq (ADD_eq_AddWithCarry _ _) _, rfl,
      fun _ => (storeCast_base _ _ _ f _).trans ?_⟩
    rw [read_value, hread]
    rfl
  | SUB =>
    refine follows_of_data rfl hcategory (fun _ => rfl) hsema
      (((gives_nil.imm _).readBase hbase).writeBase f _) fun g => ?_
    refine ⟨_, callBinary_eq (SUB_eq_AddWithCarry _ _) _, rfl,
      fun _ => (storeCast_base _ _ _ f _).trans ?_⟩
    rw [read_value, hread]
    rfl
  | ADDS =>
    refine follows_of_data rfl hcategory (fun _ => rfl) hsema
      (((gives_nil.writeFlags.imm _).readBase hbase).write f _) fun g => ?_
    refine ⟨_, callFlags_eq (ADDS_eq ovf hflag hw _ _) _, rfl,
      fun _ => (storeCast_flags _ _ _ f _ _).trans ?_⟩
    rw [read_value, hread]
    rfl
  | SUBS =>
    refine follows_of_data rfl hcategory (fun _ => rfl) hsema
      (((gives_nil.writeFlags.imm _).readBase hbase).write f _) fun g => ?_
    refine ⟨_, callFlags_eq (SUBS_eq ovf hflag hw _ _) _, rfl,
      fun _ => (storeCast_flags _ _ _ f _ _).trans ?_⟩
    rw [read_value, hread]
    rfl

end

/-! ### Moves -/

/-- A word made from a value of a form. -/
theorem read_word (f : Form) (x : BitVec f.size) :
    (Arg.word (x.setWidth 64)).read f.size = x := by
  cases f with
  | W => exact (BitVec.setWidth_setWidth_of_le _ (by decide)).trans (BitVec.setWidth_eq x)
  | X => exact (BitVec.setWidth_setWidth_of_le _ (by decide)).trans (BitVec.setWidth_eq x)

/-- The position of a move: the test for 32 bits, and the amount. -/
theorem hw_eq : ∀ hw : BitVec 2,
    ((hw.setWidth 8 &&& 2#8 ≠ 0#8) ↔ hw.getLsbD 1 = true) ∧
      (hw.setWidth 8 >>> 1 &&& 1#8 != 0#8) = hw.getLsbD 1 ∧
      (((hw.setWidth 8).setWidth 64 <<< 4 : BitVec 64)).toNat = hw.toNat * 16 := by
  decide

/-- The immediate of a move, shifted at the width of a form. -/
theorem setWidth_shiftLeft (f : Form) (imm16 : BitVec 16) (n : ℕ) :
    (imm16.setWidth 64 <<< n).setWidth f.size = imm16.setWidth f.size <<< n := by
  have hle : f.size ≤ 64 := by cases f <;> decide
  apply BitVec.eq_of_getLsbD_eq
  intro k hk
  simp [hk, (by omega : k < 64)]

/-- `MOVK` replaces 16 bits. -/
theorem MoveWithKeep_eq {f : Form} (src : BitVec f.size) (imm : BitVec 16) {shift_ : BitVec 8}
    (h : shift_.toNat < f.size) :
    MoveWithKeep src imm shift_ = some (Arm.MoveWideOp.MOVK.result src imm shift_.toNat) := by
  have hshift : (shift_.setWidth f.size).toNat = shift_.toNat :=
    BitVec.toNat_setWidth_of_le (by cases f <;> decide)
  have hones : (0xFFFF#64).setWidth f.size = (BitVec.allOnes 16).setWidth f.size := by
    cases f <;> rfl
  unfold MoveWithKeep ZExtTo
  simp only [UShl_eq _ (show (shift_.setWidth f.size).toNat < f.size by rw [hshift]; exact h),
    Option.bind_eq_bind, Option.bind_some, UNot_eq, UAnd_eq, UOr_eq, hshift, hones,
    BitVec.setWidth_eq]
  rfl

section

variable (op : Arm.MoveWideOp) (f : Form) (hw : BitVec 2) (imm16 : BitVec 16) (Rd : BitVec 5)

/-- The operands of a move: what it moves, and where `MOVK` puts it. -/
def moveWideOperands : Arm.MoveWideOp → List InstOperand
  | .MOVK =>
      [.sema (.reg .kActionReadWrite f.rclass .kUseAsValue Rd), .sema (.imm (imm16.setWidth 64)),
        .sema (.imm ((hw.setWidth 8).setWidth 64 <<< 4))]
  | op =>
      [.sema (.reg .kActionWrite f.rclass .kUseAsValue Rd),
        .sema (.imm ((op.result 0#f.size imm16 (hw.toNat * 16)).setWidth 64))]

/-- What a move is decoded to. -/
theorem decodeData_moveWide : decodeData big pc (Arm.Inst.moveWide op f hw imm16 Rd).data =
    if f = .W ∧ hw.getLsbD 1 = true then some .invalid
    else some (.inst { (Arm.Inst.moveWide op f hw imm16 Rd).data.start pc with
      operands := moveWideOperands f hw imm16 Rd op }) := by
  have hfields : (Arm.Inst.moveWide op f hw imm16 Rd).data.imm16 = imm16.setWidth 64 ∧
      (Arm.Inst.moveWide op f hw imm16 Rd).data.hw = hw.setWidth 8 ∧
      (Arm.Inst.moveWide op f hw imm16 Rd).data.Rd = Rd :=
    ⟨rfl, rfl, rfl⟩
  obtain ⟨himm16, hhw, hRd⟩ := hfields
  obtain ⟨hand, hres, hshift⟩ := hw_eq hw
  have hshl : imm16.setWidth 64 <<< ((hw.setWidth 8).setWidth 64 <<< 4 : BitVec 64) =
      imm16.setWidth 64 <<< (hw.toNat * 16) := by
    rw [← hshift]
    rfl
  generalize hdata : (Arm.Inst.moveWide op f hw imm16 Rd).data = data at *
  subst hRd
  -- the immediates are made at 64 bits, and cut to the form
  have himm (x : BitVec f.size) {y : BitVec 64} (h : y = x.setWidth 64) :
      some (Decoded.inst (((data.start pc).AddRegOperand .kActionWrite f.rclass .kUseAsValue
        data.Rd).AddImmOperand y)) = some (.inst { data.start pc with
          operands := [.sema (.reg .kActionWrite f.rclass .kUseAsValue data.Rd),
            .sema (.imm (x.setWidth 64))] }) := by
    rw [h]
    rfl
  cases f with
  | X =>
    rw [if_neg fun h => nomatch h.1]
    cases op with
    | MOVN =>
      rw [decodeData_eq (t := InstData.TryDecodeMOVN_64_MOVEWIDE) (by rw [← hdata]; rfl),
        InstData.TryDecodeMOVN_64_MOVEWIDE, InstData.hwShift, himm16, hhw, hshl]
      exact himm _ (BitVec.setWidth_eq _).symm
    | MOVZ =>
      rw [decodeData_eq (t := InstData.TryDecodeMOVZ_64_MOVEWIDE) (by rw [← hdata]; rfl),
        InstData.TryDecodeMOVZ_64_MOVEWIDE, InstData.hwShift, himm16, hhw, hshl]
      exact himm _ (BitVec.setWidth_eq _).symm
    | MOVK =>
      rw [decodeData_eq (t := InstData.TryDecodeMOVK_64_MOVEWIDE) (by rw [← hdata]; rfl),
        InstData.TryDecodeMOVK_64_MOVEWIDE, InstData.hwShift, himm16, hhw]
      rfl
  | W =>
    have hcut := setWidth_shiftLeft .W imm16 (hw.toNat * 16)
    cases op with
    | MOVN =>
      rw [decodeData_eq (t := InstData.TryDecodeMOVN_32_MOVEWIDE) (by rw [← hdata]; rfl),
        InstData.TryDecodeMOVN_32_MOVEWIDE, InstData.hwReserved, InstData.hwShift, himm16, hhw,
        hshl, hres]
      cases hw.getLsbD 1 with
      | true => rfl
      | false =>
        exact himm _ (congrArg (BitVec.setWidth 64)
          ((BitVec.setWidth_not (by decide)).trans (congrArg (~~~ ·) hcut)))
    | MOVZ =>
      rw [decodeData_eq (t := InstData.TryDecodeMOVZ_32_MOVEWIDE) (by rw [← hdata]; rfl),
        InstData.TryDecodeMOVZ_32_MOVEWIDE, InstData.hwShift, himm16, hhw, hshl]
      simp only [hand]
      cases hw.getLsbD 1 with
      | true => rfl
      | false => exact himm _ (congrArg (BitVec.setWidth 64) hcut)
    | MOVK =>
      rw [decodeData_eq (t := InstData.TryDecodeMOVK_32_MOVEWIDE) (by rw [← hdata]; rfl),
        InstData.TryDecodeMOVK_32_MOVEWIDE, InstData.hwReserved, InstData.hwShift, himm16, hhw,
        hres]
      cases hw.getLsbD 1 <;> rfl

/-- The function of a move. -/
def Arm.MoveWideOp.sema (f : Form) : Arm.MoveWideOp → SemaFunc
  | MOVN | MOVZ => Load f
  | MOVK => callMoveWithKeep f

/-- The position as the function reads it is within the form. -/
theorem hw_read : ∀ hw : BitVec 2,
    ((Arg.word ((hw.setWidth 8).setWidth 64 <<< 4)).read 8).toNat = hw.toNat * 16 ∧
      hw.toNat * 16 < 64 ∧ (hw.getLsbD 1 = false → hw.toNat * 16 < 32) := by
  decide

/-- Moves of an immediate follow the architecture. -/
theorem decodes_moveWide (h : ¬ (f = .W ∧ hw.getLsbD 1 = true)) :
    Decodes big o ovf flag pc (.moveWide op f hw imm16 Rd) := by
  have hcategory : InstCategory (Arm.Inst.moveWide op f hw imm16 Rd).data = .normal := by
    cases op <;> cases f <;> rfl
  have hsema : ISEL ovf flag (Arm.Inst.moveWide op f hw imm16 Rd).data.iform .none =
      some (op.sema f) := by
    cases op <;> cases f <;> rfl
  obtain ⟨hshift, hX, hW⟩ := hw_read hw
  have hlt : hw.toNat * 16 < f.size := by
    cases f with
    | W => exact hW (by simpa using h)
    | X => exact hX
  refine ⟨_, (decodeData_moveWide op f hw imm16 Rd).trans (if_neg h), ?_⟩
  -- `MOVK` alone reads the register it writes
  cases op with
  | MOVN | MOVZ =>
    refine follows_of_data rfl hcategory (fun _ => rfl) hsema ((gives_nil.imm _).write f _)
      fun g => ?_
    refine ⟨_, rfl, rfl, fun _ => (storeCast_destX _ _ _ f _).trans ?_⟩
    rw [read_word]
    rfl
  | MOVK =>
    refine follows_of_data rfl hcategory (fun _ => rfl) hsema
      (((gives_nil.imm _).imm _).readWrite f _) fun g => ?_
    refine ⟨_, callMoveWithKeep_eq (MoveWithKeep_eq _ _ (by rw [hshift]; exact hlt)) _, rfl,
      fun _ => (storeCast_destX _ _ _ f _).trans ?_⟩
    have himm : (Arg.word (imm16.setWidth 64)).read 16 = imm16 :=
      (BitVec.setWidth_setWidth_of_le _ (by decide)).trans (BitVec.setWidth_eq _)
    rw [read_value, hshift, himm]
    rfl

end

/-! ### Extraction -/

/-- The amount is checked for 32 bits only. -/
theorem decodes_EXTR (f : Form) (Rm : BitVec 5) (imms : BitVec 6) (Rn Rd : BitVec 5)
    (himms : f = .X ∨ imms.getLsbD 5 = false) :
    Decodes big o ovf flag pc (.EXTR f (Arm.sf f) Rm imms Rn Rd) := by
  have hlt : imms.toNat < f.size := by
    have hlow : ∀ imms : BitVec 6, imms.getLsbD 5 = false → imms.toNat < 32 := by decide
    cases f with
    | W => exact hlow imms (by simpa using himms)
    | X => exact imms.isLt
  have hdecode : decodeData big pc (Arm.Inst.EXTR f (Arm.sf f) Rm imms Rn Rd).data =
      some (.inst { (Arm.Inst.EXTR f (Arm.sf f) Rm imms Rn Rd).data.start pc with
        operands := [.sema (.reg .kActionWrite f.rclass .kUseAsValue Rd),
          .sema (.reg .kActionRead f.rclass .kUseAsValue Rn),
          .sema (.reg .kActionRead f.rclass .kUseAsValue Rm),
          .sema (.imm (imms.setWidth 64))] }) := by
    cases f with
    -- the decoder lets an amount below 32 through
    | W =>
      have hand : ∀ imms : BitVec 6, imms.getLsbD 5 = false →
          imms.setWidth 64 &&& 0x20#64 = 0#64 := by
        decide
      have hclear : imms.setWidth 64 &&& 0x20#64 = 0#64 := hand imms (by simpa using himms)
      rw [decodeData_eq (t := InstData.TryDecodeEXTR_32_EXTRACT) rfl,
        InstData.TryDecodeEXTR_32_EXTRACT, if_neg, if_neg]
      · rfl
      · exact fun h => h hclear
      · exact fun h => h rfl
    | X =>
      rw [decodeData_eq (t := InstData.TryDecodeEXTR_64_EXTRACT) rfl,
        InstData.TryDecodeEXTR_64_EXTRACT, if_neg]
      · rfl
      · exact fun h => h rfl
  have hcategory : InstCategory (Arm.Inst.EXTR f (Arm.sf f) Rm imms Rn Rd).data = .normal := by
    cases f <;> rfl
  have hsema : ISEL ovf flag (Arm.Inst.EXTR f (Arm.sf f) Rm imms Rn Rd).data.iform .none =
      some (callEXTR f) := by
    cases f <;> rfl
  have hamount : ((Arg.word (imms.setWidth 64)).read f.size).toNat = imms.toNat :=
    toNat_field f imms
  refine ⟨_, hdecode, follows_of_data rfl hcategory (fun _ => rfl) hsema
    ((((gives_nil.imm _).read f _).read f _).write f _) fun g => ?_⟩
  refine ⟨_, callEXTR_eq (EXTR_eq _ _ (by rw [hamount]; exact hlt)) _, rfl,
    fun _ => (storeCast_destX _ _ _ f _).trans ?_⟩
  rw [read_value, read_value, hamount]
  rfl

/-! ### Masks -/

section

variable {f : Form} {d : MaskFields}

/-- The operands give what the function is called on. -/
theorem mask_gives {op : MaskInst} {Rn : RegNum} (Rd : RegNum) {tail : List InstOperand}
    {ws : List EcvReg} (htail : Gives pc tail (fun _ => []) ws)
    (hres : Arm.reserved f d op = false) (hrot : ¬ op.RotatesZero d Rn) :
    ∃ as, Gives pc ((op.operands f d).map (MaskOperand.operand f Rd Rn) ++ tail) as ws ∧
      ∀ R, (op.operands f d).mapM (MaskOperand.lift f Rd Rn R) =
        some ((as R).map (Arg.read f.size)) := by
  cases op with
  -- `UBFM` rotates where its operand is lifted, and not at all by zero
  | UBFM =>
    have hlt : (d.immr.setWidth 64).toNat < f.size := by
      rw [toNat_immr]
      exact (fields_lt (.inl rfl) hres).1
    have hn : ¬ (Rn = 31#5 ∧ d.immr.setWidth 64 ≠ 0#64) := fun h =>
      hrot ⟨rfl, h.1, (immr_ne_zero_iff d).mp h.2⟩
    refine ⟨_, (htail.imm _).rotated hlt hn Rd, fun R => ?_⟩
    rw [MaskInst.operands, List.mapM_cons, lift_AddShiftReg f Rd Rn R _ hlt, if_neg hn,
      List.map_cons]
    by_cases hzero : d.immr.setWidth 64 = 0#64
    · rw [if_pos hzero, read_value, hzero]
      exact congrArg (fun x => some (x :: _)) (BitPattern.rotateRight_zero _)
    · rw [if_neg hzero, read_word]
      rfl
  | SBFM =>
    refine ⟨_, ((((htail.imm _).imm _).imm _).imm _).read f Rn, fun R => ?_⟩
    rw [MaskInst.operands, List.mapM_cons, lift_reg, List.map_cons, read_value]
    rfl
  | BFM =>
    refine ⟨_, ((((htail.imm _).imm _).imm _).read f Rn).read f Rd, fun R => ?_⟩
    rw [MaskInst.operands, List.mapM_cons, lift_reg, List.mapM_cons, lift_reg, List.map_cons,
      read_value, List.map_cons, read_value]
    rfl
  | AND | ORR | EOR | ANDS =>
    refine ⟨_, (htail.imm _).read f Rn, fun R => ?_⟩
    rw [MaskInst.operands, List.mapM_cons, lift_reg, List.map_cons, read_value]
    rfl

end

section

variable (op : MaskInst) (f : Form) (d : MaskFields) (Rn Rd : BitVec 5)

/-- The fields of the mask are read back from the bytes that hold them. -/
theorem maskFields_data : (Arm.Inst.mask op f d Rn Rd).data.maskFields = d := by
  show (⟨(d.N.setWidth 8).setWidth 1, (d.immr.setWidth 64).setWidth 6,
    (d.imms.setWidth 64).setWidth 6⟩ : MaskFields) = d
  simp

/-- The register that the result is put in. -/
def maskDest : InstOperand :=
  .sema (.reg .kActionWrite f.rclass
    (if Arm.toStackPointer op then .kUseAsAddress else .kUseAsValue) Rd)

/-- The flags are written behind the operands. -/
def maskTail : List InstOperand :=
  if op = .ANDS then [.named .kActionWrite .ECV_NZCV] else []

/-- What a bit-field move or a logical instruction is decoded to. -/
theorem decodeData_mask (h : ∀ immediate, MasksFollow big f d immediate) :
    decodeData big pc (Arm.Inst.mask op f d Rn Rd).data =
      if Arm.reserved f d op then some .invalid
      else some (.inst { (Arm.Inst.mask op f d Rn Rd).data.start pc with
        operands := maskDest op f Rd :: ((op.operands f d).map (MaskOperand.operand f Rd Rn) ++
          maskTail op) }) := by
  have hd := maskFields_data op f d Rn Rd
  generalize hdata : (Arm.Inst.mask op f d Rn Rd).data = data at *
  have hdecode : decodeData big pc data =
      (if op = .ANDS then (data.decodeMask big (data.start pc) op f .kUseAsValue).map fun i =>
          i.map fun i => i.AddEcvNZCVOperand .kActionWrite
        else data.decodeMask big (data.start pc) op f
          (if Arm.toStackPointer op then .kUseAsAddress else .kUseAsValue)).map fun inst =>
            inst.elim .invalid .inst := by
    rw [← hdata]
    cases op <;> cases f <;> rfl
  have hRn : data.Rn = Rn := by rw [← hdata]; rfl
  have hRd : data.Rd = Rd := by rw [← hdata]; rfl
  have hmask (rtype : RegUsage) : data.decodeMask big (data.start pc) op f rtype =
      some (if Arm.reserved f d op then none
        else some (data.withOperands (data.start pc) f rtype (op.operands f d))) := by
    rw [InstData.decodeMask, hd, TryDecode_eq h]
    cases Arm.reserved f d op <;> rfl
  rw [hdecode, hmask, hmask, InstData.withOperands, InstData.withOperands, hRn, hRd]
  cases op <;> cases Arm.reserved f d _ <;> rfl

/-- Bit-field moves and logical instructions follow the architecture where no zero register is
rotated. -/
theorem decodes_mask (h : ∀ immediate, MasksFollow big f d immediate)
    (hres : Arm.reserved f d op = false) (hrot : ¬ op.RotatesZero d Rn) :
    Decodes big o ovf flag pc (.mask op f d Rn Rd) := by
  have hcategory : InstCategory (Arm.Inst.mask op f d Rn Rd).data = .normal := by
    cases op <;> cases f <;> rfl
  have hsema : ISEL ovf flag (Arm.Inst.mask op f d Rn Rd).data.iform .none =
      some (callMask op f) := by
    cases op <;> cases f <;> rfl
  have hcall {as : RegFile → List Arg} (g : Guest)
      (hlift : (op.operands f d).mapM (MaskOperand.lift f Rd Rn g.regs) =
        some ((as g.regs).map (Arg.read f.size))) :
      op.call ((as g.regs).map (Arg.read f.size)) =
        some (Arm.result f d ((Arm.X g.regs Rd).setWidth f.size)
          ((Arm.X g.regs Rn).setWidth f.size) op) := by
    rw [← call_operands Rd Rn g.regs hres hrot, hlift, Option.bind_some]
  refine ⟨_, (decodeData_mask op f d Rn Rd h).trans (if_neg (hres ▸ Bool.false_ne_true)), ?_⟩
  -- by how the result is written: to a register, to a base, or with the flags
  cases op with
  | UBFM | SBFM | BFM =>
    obtain ⟨as, hgives, hlift⟩ := mask_gives Rd gives_nil hres hrot
    refine follows_of_data rfl hcategory (fun _ => rfl) hsema (hgives.write f Rd) fun g => ?_
    exact ⟨_, single_eq (by rw [hcall g (hlift g.regs)]; rfl) _, rfl,
      fun _ => storeCast_destX _ _ _ f _⟩
  | AND | ORR | EOR =>
    obtain ⟨as, hgives, hlift⟩ := mask_gives Rd gives_nil hres hrot
    refine follows_of_data rfl hcategory (fun _ => rfl) hsema (hgives.writeBase f Rd) fun g => ?_
    exact ⟨_, single_eq (by rw [hcall g (hlift g.regs)]; rfl) _, rfl,
      fun _ => storeCast_base _ _ _ f _⟩
  | ANDS =>
    obtain ⟨as, hgives, hlift⟩ := mask_gives Rd gives_nil.writeFlags hres hrot
    refine follows_of_data rfl hcategory (fun _ => rfl) hsema (hgives.write f Rd) fun g => ?_
    refine ⟨_, ?_, rfl, fun _ => storeCast_flags _ _ _ f _ _⟩
    show Option.map _ (Option.bind (MaskInst.ANDS.call _) _) = _
    rw [hcall g (hlift g.regs)]
    rfl

end

end

end Elfconv.AArch64
