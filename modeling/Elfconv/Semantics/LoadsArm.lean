/-
Elfconv/Semantics/LoadsArm.lean

The results of loads of general registers, in a block and in a function that stores them at once.

A load comes to one call of its semantics function, with the address that the architecture accesses.
Its results are the words as the architecture extends them, but for the functions that extend a word
of 32 bits further (`GeneralLoad.result`).
-/
import Elfconv.Semantics.IndexedRun
import Elfconv.Semantics.Loads

namespace Elfconv.AArch64

open ByteMemory

/-! ### Offsets -/

section

variable {R : RegFile} {n : BitVec 5}

/-- The shift to the left, which is left out where it does nothing. -/
theorem shift_offset (extended : BitVec 64) {shift : BitVec 64} (hlt : shift.toNat < 64) :
    (match (if shift ≠ 0#64 then some OperandShift.kShiftLeftWithZeroes else none).map
        OperandShift.shift with
      | none => some extended
      | some .kShiftLeftWithZeroes =>
          if shift.toNat < 64 then some (extended <<< shift.toNat) else none
      | some _ => none) = some (extended <<< shift.toNat) := by
  by_cases hzero : shift = 0#64
  · rw [if_neg fun h => h hzero, hzero]
    exact congrArg some (BitVec.shiftLeft_zero extended).symm
  · rw [if_pos hzero]
    exact if_pos hlt

theorem args_shiftReg {rclass : ERC} (h : rclass = .RegW ∨ rclass = .RegX) (op : ShiftOp) :
    SemaOperand.args R (.shiftReg rclass n op) = if n = 31#5 then none
      else (liftShiftRegister op ⟨rclass, (Arm.X R n).setWidth _⟩).bind fun bits =>
        some [.word bits] := by
  have hload := load_register (R := R) (n := n) h
  show ((regNameOf .kActionRead rclass .kUseAsValue n.toNat).bind fun name =>
    (LoadRegValue R name).bind fun v => (liftShiftRegister op v).bind fun bits =>
      some [Arg.word bits]) = _
  rw [← Option.bind_assoc, hload]
  split_ifs <;> rfl

/-- The offsets that are not rejected. -/
theorem option_word {d : RegOffFields} (h : ¬d.IsSubWordIndex = true) :
    d.option = 2#3 ∨ d.option = 3#3 ∨ d.option = 6#3 ∨ d.option = 7#3 :=
  (by decide : ∀ o : BitVec 3, ¬(!o.getLsbD 1) = true → o = 2#3 ∨ o = 3#3 ∨ o = 6#3 ∨ o = 7#3)
    d.option h

/-- An offset comes to the register as it is extended and shifted. -/
theorem args_offset {d : RegOffFields} {shift : BitVec 64} {o : RegOperand}
    (h : d.offset shift = some o) (hlt : shift.toNat < 64) :
    SemaOperand.args R o.operand = if d.Rm = 31#5 then none
      else some [.word (Arm.ExtendReg 64 d.option (Arm.X R d.Rm) shift.toNat)] := by
  obtain ⟨hsub, h⟩ := option_ite h
  cases h
  have hoption := option_word hsub
  obtain ⟨size, opc, option, S, Rm⟩ := d
  replace hoption : option = 2#3 ∨ option = 3#3 ∨ option = 6#3 ∨ option = 7#3 := hoption
  show _ = if Rm = 31#5 then none
    else some [Arg.word (Arm.ExtendReg 64 option (Arm.X R Rm) shift.toNat)]
  let shift_op := (if shift ≠ 0#64 then some OperandShift.kShiftLeftWithZeroes else none).map
    OperandShift.shift
  have hargs : ∀ (rclass : ERC) (op : ShiftOp) (extended : BitVec 64),
      rclass = .RegW ∨ rclass = .RegX →
      liftShiftRegister op ⟨rclass, (Arm.X R Rm).setWidth _⟩ = some (extended <<< shift.toNat) →
      Arm.ExtendReg 64 option (Arm.X R Rm) shift.toNat = extended <<< shift.toNat →
      SemaOperand.args R (.shiftReg rclass Rm op) = if Rm = 31#5 then none
        else some [Arg.word (Arm.ExtendReg 64 option (Arm.X R Rm) shift.toNat)] := by
    intro rclass op extended hclass hlift hextend
    rw [args_shiftReg hclass, hlift, hextend]
    rfl
  -- `UXTW`, `LSL`, `SXTW` and `SXTX`
  rcases hoption with rfl | rfl | rfl | rfl
  · exact hargs .RegW ⟨shift_op, shift.toNat, none, 0⟩ _ (.inl rfl)
      (shift_offset (((Arm.X R Rm).setWidth 32).setWidth 64) hlt) rfl
  · exact hargs .RegX ⟨shift_op, shift.toNat, none, 0⟩ _ (.inr rfl)
      (shift_offset (((Arm.X R Rm).setWidth 64).setWidth 64) hlt) rfl
  · refine hargs .RegW ⟨shift_op, shift.toNat, some .kExtendSigned, 32⟩ _ (.inl rfl)
      (shift_offset ((((Arm.X R Rm).setWidth 32).setWidth 32).signExtend 64) hlt) ?_
    rw [BitVec.setWidth_eq]
    rfl
  · refine hargs .RegX ⟨shift_op, shift.toNat, some .kExtendSigned, 64⟩ _ (.inr rfl)
      (shift_offset ((((Arm.X R Rm).setWidth 64).setWidth 64).signExtend 64) hlt) ?_
    rw [BitVec.setWidth_eq]
    rfl

/-- A base that is handed on as a register. -/
theorem args_base (R : RegFile) (n : BitVec 5) :
    SemaOperand.args R (.reg .kActionRead .RegX .kUseAsAddress n) =
      some [.value ⟨.RegX, Arm.base R n⟩] := by
  show ((RegNameXW .kActionRead .RegX .kUseAsAddress n.toNat).bind fun name =>
    (liftRegister R name).bind fun v => some [Arg.value v]) = _
  unfold Arm.base
  by_cases h : n = 31#5
  · subst h
    rfl
  · rw [regNameXW_of_ne (by decide) _ _ h, if_neg h]
    rfl

namespace LoadRegOff

variable (i : LoadRegOff) {d : RegLoadFields}

theorem args_base : ∃ a : Arg, SemaOperand.args R (i.base n) = some [a] ∧
    a.addr = Arm.base R n := by
  cases i with
  | LDR_32 | LDR_64 => exact ⟨_, args_address R n 0#64, BitVec.add_zero _⟩
  | _ => exact ⟨_, AArch64.args_base R n, BitVec.setWidth_eq _⟩

theorem writes_base : SemaOperand.writes (i.base n) = some [] := by
  cases i <;> rfl

/-- What an offset comes to, where it is lifted. -/
structure Lifts (R : RegFile) (i : LoadRegOff) (d : RegLoadFields) (o : RegOperand) : Prop where
  decoded : (i.decoder d).TryDecode = some o
  writes : SemaOperand.writes o.operand = some []
  args : (i.decoder d).Right → ∃ a : Arg, SemaOperand.args R o.operand = some [a] ∧
    a.addr = (Arm.operand R (i.decoder d)).2.setWidth 64
  ends : ¬(i.decoder d).Right → SemaOperand.args R o.operand = none

/-- An allocated offset is extended, or it is a plain register. -/
theorem lifts (h : d.option.getLsbD 1 = true) : ∃ o, i.Lifts R d o := by
  have hsub : ¬(i.fields d).IsSubWordIndex = true := by
    show ¬(!d.option.getLsbD 1) = true
    rw [h]
    exact Bool.false_ne_true
  have hoffset : ∀ (shift : BitVec 64) (scale : ℕ),
      shift.toNat = (if d.S = 1#1 then scale else 0) → scale ≤ 4 →
      ∃ o, (i.fields d).offset shift = some o ∧ SemaOperand.writes o.operand = some [] ∧
        SemaOperand.args R o.operand = if d.Rm = 31#5 then none
          else some [.word (Arm.offset R (i.fields d) scale).2] := by
    intro shift scale hshift hscale
    have hlt : shift.toNat < 64 := by
      rw [hshift]
      split <;> omega
    refine ⟨_, if_neg hsub, rfl, ?_⟩
    rw [args_offset (if_neg hsub) hlt, hshift]
    rfl
  have hextended : ∀ (dec : ShiftRegDecoder) (o : RegOperand) (scale : ℕ),
      i.decoder d = dec → dec.TryDecode = some o → (dec.Right ↔ d.Rm ≠ 31#5) →
      Arm.operand R dec = Arm.offset R (i.fields d) scale →
      SemaOperand.writes o.operand = some [] →
      (SemaOperand.args R o.operand = if d.Rm = 31#5 then none
        else some [.word (Arm.offset R (i.fields d) scale).2]) → i.Lifts R d o := by
    rintro dec o scale rfl hdec hright hoperand hwrites hargs
    refine ⟨hdec, hwrites, fun hr => ⟨_, hargs.trans (if_neg (hright.mp hr)), ?_⟩, fun hr => ?_⟩
    · rw [hoperand]
      exact (BitVec.setWidth_eq _).symm
    · exact hargs.trans (if_pos (not_not.mp (mt hright.mpr hr)))
  have hS : d.S = 0#1 ∨ d.S = 1#1 := (by decide : ∀ b : BitVec 1, b = 0#1 ∨ b = 1#1) d.S
  -- the offset is scaled by the size of the access
  have hsized : i.decoder d = .LDR_n_LDST_REGOFF (i.fields d) → ∃ o, i.Lifts R d o := by
    intro hdec
    obtain ⟨o, ho, hwrites, hargs⟩ := hoffset (if d.S = 1#1 then i.size.setWidth 64 else 0#64)
      i.size.toNat (by rcases hS with h | h <;> rw [h] <;> cases i <;> rfl)
      (by cases i <;> decide)
    exact ⟨o, hextended _ o i.size.toNat hdec ho Iff.rfl rfl hwrites hargs⟩
  have hscaled : ∀ k : LDRn_m, i.decoder d = .LDRn_m_LDST_REGOFF k (i.fields d) →
      ∃ o, i.Lifts R d o := by
    intro k hdec
    obtain ⟨o, ho, hwrites, hargs⟩ := hoffset (d.S.setWidth 64 * BitVec.ofNat 64 k.scale) k.scale
      (by rcases hS with h | h <;> rw [h] <;> cases k <;> rfl) (by cases k <;> decide)
    exact ⟨o, hextended _ o k.scale hdec ho Iff.rfl rfl hwrites hargs⟩
  have hplain : i.decoder d = .LDRB_32BL_LDST_REGOFF (i.fields d) → ∃ o, i.Lifts R d o := by
    intro hdec
    have htry : (ShiftRegDecoder.LDRB_32BL_LDST_REGOFF (i.fields d)).TryDecode =
        some (.reg .RegX d.Rm) := if_neg hsub
    refine ⟨.reg .RegX d.Rm, ?_, rfl, fun _ => ⟨_, args_X R d.Rm, ?_⟩, fun hr => ?_⟩
    · rw [hdec, htry]
    · rw [hdec]
      rfl
    · rw [hdec] at hr
      exact absurd trivial hr
  cases i with
  | LDR_32 | LDR_64 => exact hsized rfl
  | LDRB_32BL | LDRSB_32BL | LDRSB_64BL => exact hplain rfl
  | LDRB_32B => exact hscaled .LDRB_32B rfl
  | LDRSB_32B => exact hscaled .LDRSB_32B rfl
  | LDRSB_64B => exact hscaled .LDRSB_64B rfl
  | LDRH_32 => exact hscaled .LDRH_32 rfl
  | LDRSH_32 => exact hscaled .LDRSH_32 rfl
  | LDRSH_64 => exact hscaled .LDRSH_64 rfl
  | LDRSW_64 => exact hscaled .LDRSW_64 rfl

end LoadRegOff

end

/-! ### Results -/

/-- What is loaded, by a function that does more to it. -/
def Arm.Transfer.mapLoad (f : BitVec 64 → BitVec 64) : Arm.Transfer → Arm.Transfer
  | loadX n extend Rts => loadX n (fun x => f (extend x)) Rts
  | t => t

/-- The functions for a word of 32 bits whose result has 64. -/
def LoadX.overextends : LoadX → Bool
  | LDRSB_32 | LDRSH_32 => true
  | _ => false

namespace GeneralLoad

/-- `LDURSB` and `LDRSB` to a word, and those of half-words, extend the sign to 64 bits. -/
def overextends : GeneralLoad → Bool
  | POS i _ | UNSCALED i _ => i.overextends
  | REGOFF _ _ | IMM _ _ _ | LDP_OFF _ _ | LDP _ _ _ => false

/-- The result of the function, from that of the architecture. -/
def result (l : GeneralLoad) (y : BitVec 64) : BitVec 64 :=
  if l.overextends then (y.setWidth 32).signExtend 64 else y

/-- The loads that the decoder and the lifter take. -/
def Lifts : GeneralLoad → Prop
  | UNSCALED i _ => i ≠ .LDRSB_64
  | REGOFF i d => (i.decoder d).Right
  | POS _ _ | IMM _ _ _ | LDP_OFF _ _ | LDP _ _ _ => True

/-- The address that the architecture accesses. -/
def addr (R : RegFile) : GeneralLoad → BitVec 64
  | POS i d =>
      Arm.base R d.Rn + d.imm12.setWidth 64 * BitVec.ofNat 64 (Arm.transferX d.Rt i).bytes
  | UNSCALED _ d => Arm.base R d.Rn + d.imm9.signExtend 64
  | REGOFF i d => Arm.base R d.Rn + (Arm.operand R (i.decoder d)).2.setWidth 64
  | IMM i m d => (Indexed.LDR i.one m d).addr R
  | LDP_OFF i d =>
      Arm.base R d.Rn + d.imm7.signExtend 64 * BitVec.ofNat 64 (Arm.transferLDP d i.pair).bytes
  | LDP i m d => (Indexed.LDP i.pair m d).addr R

end GeneralLoad

section

variable {R : RegFile} {mem : Memory} {r Rn : BitVec 5}

/-- A word that is extended by signs after all. -/
theorem signExtend_word (x : BitVec 32) :
    (x.signExtend 64).setWidth 64 = ((x.zeroExtend 64).setWidth 32).signExtend 64 := by
  show _ = ((x.setWidth 64).setWidth 32).signExtend 64
  rw [BitVec.setWidth_eq, BitVec.setWidth_setWidth_of_le _ (by decide), BitVec.setWidth_eq]

/-- A load at a base and a displacement. -/
theorem LoadX.call (i : LoadX) {disp disp' : BitVec 64} (hdisp : disp = disp')
    {f : BitVec 64 → BitVec 64}
    (hf : ∀ y, f y = if i.overextends then (y.setWidth 32).signExtend 64 else y) :
    Call ⟨[writeReg i.rclass r, .address Rn disp], none⟩ i.isel R mem (Arm.base R Rn + disp')
      ((Arm.transferX r i).mapLoad f) := by
  have hcall : ∀ {n : ℕ} {rclass erc : ERC} {g : BitVec (n * 8) → BitVec (ERCSize erc)}
      {extend : BitVec (n * 8) → BitVec 64}, RegKind.General.allows rclass = true →
      (∀ x, (g x).setWidth 64 = extend x) →
      Call ⟨[writeReg rclass r, .address Rn disp], none⟩ (callLoad n 1 erc g) R mem
        (Arm.base R Rn + disp') (.loadX n extend [r]) := by
    intro n rclass erc g extend hclass hg
    have h : Call (AddIndexMemOp ([r].map (writeReg rclass)) Rn disp [] .PRE) (callLoad n 1 erc g)
        R mem (accessAddr .PRE (Arm.base R Rn) disp') (.loadX n extend [r]) :=
      call_load_X hclass [r] hg hdisp
    exact Indexed.call_of_operands_eq h rfl
  cases i with
  | LDR_32 | LDRB_32 | LDRH_32 =>
    refine hcall rfl fun x => ?_
    rw [hf]
    exact BitVec.setWidth_setWidth (by decide)
  | LDR_64 =>
    refine hcall rfl fun x => ?_
    rw [hf]
    exact BitVec.setWidth_eq _
  | LDRSB_64 | LDRSH_64 | LDRSW_64 =>
    refine hcall rfl fun x => ?_
    rw [hf]
    exact (BitVec.setWidth_eq _).trans (BitVec.signExtend_eq _)
  | LDRSB_32 | LDRSH_32 =>
    refine hcall rfl fun x => ?_
    rw [hf]
    exact signExtend_word (x.signExtend 32)

/-- A load of two registers. -/
theorem LoadPairX.call (i : LoadPairX) {d : PairFields} {disp : BitVec 64}
    (hdisp : disp = d.imm7.signExtend 64 <<< i.scale) :
    Call ⟨[writeReg i.rclass d.Rt, writeReg i.rclass d.Rt2, .address d.Rn disp], none⟩ i.isel R mem
      (Arm.base R d.Rn +
        d.imm7.signExtend 64 * BitVec.ofNat 64 (Arm.transferLDP d i.pair).bytes)
      (Arm.transferLDP d i.pair) := by
  subst hdisp
  have hcall : ∀ {n k : ℕ} {rclass erc : ERC} {g : BitVec (n * 8) → BitVec (ERCSize erc)}
      {extend : BitVec (n * 8) → BitVec 64}, RegKind.General.allows rclass = true →
      (∀ x, (g x).setWidth 64 = extend x) → n = 2 ^ k →
      Call ⟨[writeReg rclass d.Rt, writeReg rclass d.Rt2,
        .address d.Rn (d.imm7.signExtend 64 <<< k)], none⟩ (callLoad n 2 erc g) R mem
        (Arm.base R d.Rn + d.imm7.signExtend 64 * BitVec.ofNat 64 n)
        (.loadX n extend [d.Rt, d.Rt2]) := by
    intro n k rclass erc g extend hclass hg hn
    have h : Call (AddIndexMemOp ([d.Rt, d.Rt2].map (writeReg rclass)) d.Rn
        (d.imm7.signExtend 64 <<< k) [] .PRE) (callLoad n 2 erc g) R mem
        (accessAddr .PRE (Arm.base R d.Rn) (d.imm7.signExtend 64 * BitVec.ofNat 64 n))
        (.loadX n extend [d.Rt, d.Rt2]) :=
      call_load_X hclass [d.Rt, d.Rt2] hg (hn ▸ shiftLeft_mul _ k)
    exact Indexed.call_of_operands_eq h rfl
  cases i with
  | LDP_32 => exact hcall rfl (fun _ => BitVec.setWidth_eq _) (k := 2) rfl
  | LDP_64 => exact hcall rfl (fun _ => BitVec.setWidth_eq _) (k := 3) rfl
  | LDPSW_64 => exact hcall rfl (fun _ => BitVec.setWidth_eq _) (k := 2) rfl

/-- A load at a base and an offset. -/
theorem call_fromOffset {n : ℕ} {rclass erc : ERC} {g : BitVec (n * 8) → BitVec (ERCSize erc)}
    {extend : BitVec (n * 8) → BitVec 64} {base offset : SemaOperand} {a b : Arg}
    (h : RegKind.General.allows rclass = true) (hg : ∀ x, (g x).setWidth 64 = extend x)
    (hbase : base.args R = some [a]) (hoffset : offset.args R = some [b])
    (hwbase : base.writes = some []) (hwoffset : offset.writes = some []) :
    Call ⟨[writeReg rclass r, base, offset], none⟩ (callLoadFromOffset n erc g) R mem
      (a.addr + b.addr) (.loadX n extend [r]) := by
  have hgen : rclass = .RegW ∨ rclass = .RegX := by
    cases rclass <;> first | exact absurd h (by decide) | decide
  refine ⟨[destX r], _, mem, ⟨[[], [a], [b]], [[destX r], [], []], ?_, ?_, rfl, rfl⟩, rfl, ?_, rfl⟩
  · simp [writeReg, hbase, hoffset]
  · have hwrites : (writeReg rclass r).writes = some [destX r] :=
      (writes_writeReg (.inl h)).trans (congrArg (fun er => some [er]) (if_pos hgen))
    simp [hwrites, hwbase, hwoffset]
  · exact congrArg (fun y => [y]) (hg _)

theorem LoadRegOff.call {x86_64 : Bool} {inst : SemaInst} (i : LoadRegOff) {d : RegLoadFields}
    (ha : d.option.getLsbD 1 = true) (hl : (i.decoder d).Right)
    (h : (GeneralLoad.REGOFF i d).TryDecode x86_64 = some inst) :
    Call inst i.isel R mem
      (Arm.base R d.Rn + (Arm.operand R (i.decoder d)).2.setWidth 64)
      (Arm.transferX d.Rt (Arm.loadRegOff i)) := by
  obtain ⟨o, ho⟩ := i.lifts (R := R) ha
  obtain ⟨a, hbase, hbaddr⟩ := i.args_base (R := R) (n := d.Rn)
  obtain ⟨b, hoffset, hoaddr⟩ := ho.args hl
  rw [← hbaddr, ← hoaddr]
  have hinst : inst = ⟨[writeReg i.rclass d.Rt, i.base d.Rn, o.operand], none⟩ := by
    have hmap : (i.decoder d).TryDecode.map (fun offset : RegOperand =>
        (⟨[writeReg i.rclass d.Rt, i.base d.Rn, offset.operand], none⟩ : SemaInst)) = some inst := h
    rw [ho.decoded] at hmap
    exact (Option.some.inj hmap).symm
  subst hinst
  have hwbase : SemaOperand.writes (i.base d.Rn) = some [] := i.writes_base
  cases i with
  | LDR_32 | LDRB_32B | LDRB_32BL | LDRH_32 =>
    exact call_fromOffset rfl (fun _ => BitVec.setWidth_setWidth (by decide)) hbase hoffset hwbase
      ho.writes
  | LDR_64 =>
    exact call_fromOffset rfl (fun _ => BitVec.setWidth_eq _) hbase hoffset hwbase ho.writes
  | LDRSB_32B | LDRSB_32BL | LDRSH_32 =>
    exact call_fromOffset rfl (fun _ => rfl) hbase hoffset hwbase ho.writes
  | LDRSB_64B | LDRSB_64BL | LDRSH_64 | LDRSW_64 =>
    exact call_fromOffset rfl (fun _ => BitVec.setWidth_eq _) hbase hoffset hwbase ho.writes

namespace GeneralLoad

variable {x86_64 : Bool} {inst : SemaInst} (l : GeneralLoad)

theorem result_of_not (h : l.overextends = false) : l.result = id := by
  funext y
  show (if l.overextends = true then _ else y) = y
  rw [h]
  rfl

theorem mapLoad_id (t : Arm.Transfer) : t.mapLoad id = t := by
  cases t <;> rfl

/-- A load comes to one call, whose results are the architecture's but for `result`. -/
theorem call (ha : Arm.Allocated l) (hl : l.Lifts) (h : l.TryDecode x86_64 = some inst) :
    Call inst l.isel R mem (l.addr R) ((Arm.transferGeneral l).mapLoad l.result) := by
  cases l with
  | POS i d =>
    cases h
    have hbytes : (Arm.transferX d.Rt i).bytes = 2 ^ i.scale := by cases i <;> rfl
    refine LoadX.call i ?_ fun _ => rfl
    rw [hbytes, shiftLeft_mul]
  | UNSCALED i d =>
    obtain ⟨-, h⟩ := option_ite h
    cases h
    exact LoadX.call i rfl fun _ => rfl
  | REGOFF i d =>
    rw [result_of_not _ rfl, mapLoad_id]
    exact LoadRegOff.call i ha hl h
  -- the forms with a write-back are the indexed accesses
  | IMM i m d =>
    have hsup : (Indexed.LDR i.one m d).Supported x86_64 := by cases i <;> trivial
    have htransfer : Arm.transferX d.Rt i = Arm.transferLDR d i.one := by cases i <;> rfl
    rw [result_of_not _ rfl, mapLoad_id]
    show Call inst i.one.isel R mem _ (Arm.transferX d.Rt i)
    rw [htransfer]
    exact Indexed.call (.LDR i.one m d) hsup h
  | LDP_OFF i d =>
    obtain ⟨-, h⟩ := option_ite h
    cases h
    rw [result_of_not _ rfl, mapLoad_id]
    exact LoadPairX.call i rfl
  | LDP i m d =>
    have hsup : (Indexed.LDP i.pair m d).Supported x86_64 := by cases i <;> trivial
    rw [result_of_not _ rfl, mapLoad_id]
    exact Indexed.call (.LDP i.pair m d) hsup h

end GeneralLoad

end

/-! ### The registers after a load -/

section

variable {n : ℕ} {r : BitVec 5}

theorem Arm.X_setX_self (R : RegFile) (h31 : r ≠ 31#5) (x : BitVec 64) :
    X (setX R r x) r = x := by
  unfold X setX
  rw [if_neg h31, if_neg h31, Function.update_self, BitVec.setWidth_setWidth (by omega),
    BitVec.setWidth_eq]

theorem Arm.X_setX_of_ne {s : BitVec 5} (R : RegFile) (h : s ≠ r) (x : BitVec 64) :
    X (setX R s x) r = X R r := by
  have hne : (⟨.General, r.toNat⟩ : EcvReg) ≠ ⟨.General, s.toNat⟩ :=
    fun heq => h (BitVec.eq_of_toNat_eq (congrArg EcvReg.number heq).symm)
  unfold X setX
  by_cases hs : s = 31#5
  · rw [if_pos hs]
  · rw [if_neg hs, Function.update_of_ne hne]

theorem Arm.setBase_general {Rn : BitVec 5} (R : RegFile) (h : Rn = 31#5 ∨ Rn ≠ r)
    (x : BitVec 64) : setBase R Rn x ⟨.General, r.toNat⟩ = R ⟨.General, r.toNat⟩ := by
  rw [setBase_eq, Function.update_of_ne (baseReg_ne_general h).symm]

theorem Arm.X_setBase {Rn : BitVec 5} (R : RegFile) (h : Rn = 31#5 ∨ Rn ≠ r) (x : BitVec 64) :
    X (setBase R Rn x) r = X R r := by
  unfold X
  rw [setBase_general R h]

theorem ne_of_spared {Rn : BitVec 5} {Rts : List (BitVec 5)} (h : Rn = 31#5 ∨ Rn ∉ Rts)
    (hr : r ∈ Rts) : Rn = 31#5 ∨ Rn ≠ r := h.imp_right fun hn heq => hn (heq ▸ hr)

/-- What is set for a register does not depend on the registers before, and is extended last. -/
theorem Arm.X_foldl {α : Type} (h31 : r ≠ 31#5) (l : List (BitVec 5 × α)) :
    r ∈ l.map Prod.fst → ∃ x : α, ∀ (extend : α → BitVec 64) (R : RegFile),
      X (l.foldl (fun R p => setX R p.1 (extend p.2)) R) r = extend x := by
  induction l using List.reverseRecOn with
  | nil => exact nofun
  | append_singleton l p ih =>
    intro hr
    by_cases hp : p.1 = r
    · subst hp
      refine ⟨p.2, fun extend R => ?_⟩
      rw [List.foldl_append]
      exact X_setX_self _ h31 _
    · have hmem : r ∈ l.map Prod.fst := by
        rw [List.map_append] at hr
        exact (List.mem_append.mp hr).resolve_right fun h => hp (List.mem_singleton.mp h).symm
      obtain ⟨x, hx⟩ := ih hmem
      refine ⟨x, fun extend R => ?_⟩
      rw [List.foldl_append]
      exact (X_setX_of_ne _ hp _).trans (hx extend R)

/-- The word that is loaded into a register. -/
theorem Arm.Transfer.X_load {Rts : List (BitVec 5)} (h31 : r ≠ 31#5) (hr : r ∈ Rts)
    (addr : BitVec 64) (mem : Memory) :
    ∃ x : BitVec (n * 8), ∀ extend R,
      X ((loadX n extend Rts).exec addr ⟨R, mem⟩).regs r = extend x := by
  refine X_foldl h31 (Rts.zip (loadWords n mem addr Rts.length)) ?_
  rw [List.map_fst_zip (length_loadWords ..).ge]
  exact hr

namespace GeneralLoad

variable {l : GeneralLoad}

theorem transfer_eq (l : GeneralLoad) :
    ∃ n extend, Arm.transferGeneral l = .loadX n extend l.Rts := by
  cases l with
  | POS i d | UNSCALED i d | REGOFF i d | IMM i m d | LDP_OFF i d | LDP i m d =>
    cases i <;> exact ⟨_, _, rfl⟩

/-- The result of the function is that of the architecture, with more done to it. -/
theorem X_mapLoad (hr : r ∈ l.Rts) (h31 : r ≠ 31#5) (f : BitVec 64 → BitVec 64) (addr : BitVec 64)
    (mem : Memory) (R R' : RegFile) :
    Arm.X (((Arm.transferGeneral l).mapLoad f).exec addr ⟨R, mem⟩).regs r =
      f (Arm.X ((Arm.transferGeneral l).exec addr ⟨R', mem⟩).regs r) := by
  obtain ⟨n, extend, ht⟩ := l.transfer_eq
  obtain ⟨x, hx⟩ := Arm.Transfer.X_load (n := n) h31 hr addr mem
  rw [ht, hx extend R']
  exact hx (fun x => f (extend x)) R

/-- A write-back leaves the registers that are loaded. -/
theorem X_execLoad (ha : Arm.Allocated l) (hr : r ∈ l.Rts) (g : Guest) :
    Arm.X (Arm.execLoad g l).regs r =
      Arm.X ((Arm.transferGeneral l).exec (l.addr g.regs) g).regs r := by
  cases l with
  | POS i d | UNSCALED i d | REGOFF i d | LDP_OFF i d => rfl
  | IMM i m d =>
    have htransfer : Arm.transferX d.Rt i = Arm.transferLDR d i.one := by cases i <;> rfl
    show _ = Arm.X ((Arm.transferX d.Rt i).exec _ g).regs r
    rw [htransfer]
    show Arm.X (Arm.execIndexed (.LDR i.one m d) g).regs r = _
    rw [Arm.execIndexed_eq]
    exact Arm.X_setBase _ (ne_of_spared ha hr) _
  | LDP i m d =>
    show Arm.X (Arm.execIndexed (.LDP i.pair m d) g).regs r = _
    rw [Arm.execIndexed_eq]
    exact Arm.X_setBase _ (ne_of_spared ha.2 hr) _

end GeneralLoad

/-! ### In a block, and in a function that stores its results -/

/-- An instruction without a write-back leaves its results in the map. -/
theorem BlockState.exec_of_call {sema : Sema} {inst : SemaInst} {R : RegFile} {s : BlockState}
    {addr : BitVec 64} {t : Arm.Transfer} (hnone : inst.write_back = none)
    (h : Call inst sema ((s.cur.touch R inst.loads).regs R) s.mem addr t) :
    ∃ s', s.exec R sema inst = some s' ∧
      ∀ er ∈ t.loaded, er.number ≠ IGNORE_WRITE_TO_XZR_ORDER →
        ∃ v, s'.cur er = some v ∧ Holds v er ((t.exec addr ⟨s.regs, s.mem⟩).regs er) := by
  obtain ⟨writes, results, mem', ⟨args, ws, hargs, hwrites, rfl, hcall⟩, hmoves⟩ := h
  have hloads : inst.loads = inst.operands.flatMap SemaOperand.loads := by
    unfold SemaInst.loads
    rw [hnone]
    exact List.append_nil _
  rw [hloads] at hargs
  have hreads : s.cur.ReadsAs R ((s.cur.touch R (inst.operands.flatMap SemaOperand.loads)).regs R)
      (inst.operands.flatMap SemaOperand.loads) := fun _ _ => rfl
  have hexec := BlockState.exec_eq hreads hargs hwrites hcall hmoves.length_eq
  rw [hnone] at hexec
  refine ⟨_, hexec, fun er her hnum => ?_⟩
  rw [← hmoves.storeEach_eq s.regs]
  exact holds_insertEach hnum hmoves.length_eq (hmoves.writes_eq ▸ her)

namespace GeneralLoad

variable {x86_64 : Bool} {inst : SemaInst} {l : GeneralLoad}

/-- A load with a write-back, as one of the pre- and post-indexed instructions. -/
structure WritesBack (x86_64 : Bool) (l : GeneralLoad) (i : IndexedInst x86_64) : Prop where
  supported : i.access.Supported x86_64
  isel : i.access.isel x86_64 = l.isel
  transfer : Arm.transfer i.access = (Arm.transferGeneral l).mapLoad l.result
  addr : ∀ R, i.access.addr R = l.addr R
  spared : ∀ r ∈ l.Rts, Arm.Rn i.access = 31#5 ∨ Arm.Rn i.access ≠ r

theorem write_back_cases (ha : Arm.Allocated l) (h : l.TryDecode x86_64 = some inst) :
    inst.write_back = none ∨ ∃ i, l.WritesBack x86_64 i ∧ i.inst = inst := by
  -- only the indexed forms write the base back
  cases l with
  | POS i d =>
    cases h
    exact .inl rfl
  | UNSCALED i d | LDP_OFF i d =>
    obtain ⟨-, h⟩ := option_ite h
    cases h
    exact .inl rfl
  | REGOFF i d =>
    obtain ⟨o, -, rfl⟩ := Option.map_eq_some_iff.mp h
    exact .inl rfl
  | IMM i m d =>
    right
    refine ⟨⟨.LDR i.one m d, inst, h, by cases i <;> exact ha⟩, ⟨?_, rfl, ?_, fun _ => rfl, ?_⟩,
      rfl⟩
    · cases i <;> trivial
    · rw [result_of_not _ rfl, mapLoad_id]
      cases i <;> rfl
    · exact fun r hr => ne_of_spared ha hr
  | LDP i m d =>
    right
    refine ⟨⟨.LDP i.pair m d, inst, h, by cases i <;> exact ha.2⟩, ⟨?_, rfl, ?_, fun _ => rfl, ?_⟩,
      rfl⟩
    · cases i <;> trivial
    · rw [result_of_not _ rfl, mapLoad_id]
      rfl
    · exact fun r hr => ne_of_spared ha.2 hr

/-- The value of a register in the map after a load. -/
theorem exec_block (ha : Arm.Allocated l) (hl : l.Lifts) (h : l.TryDecode x86_64 = some inst)
    (hr : r ∈ l.Rts) (h31 : r ≠ 31#5) (R : RegFile) (s : BlockState) :
    ∃ s', s.exec R l.isel inst = some s' ∧ ∃ v, s'.cur ⟨.General, r.toNat⟩ = some v ∧
      v.bits.setWidth 64 = l.result
        (Arm.X (Arm.execLoad ⟨(s.cur.touch R inst.loads).regs R, s.mem⟩ l).regs r) := by
  let er : EcvReg := ⟨.General, r.toNat⟩
  let V := (s.cur.touch R inst.loads).regs R
  let t := (Arm.transferGeneral l).mapLoad l.result
  have hnum : r.toNat ≠ IGNORE_WRITE_TO_XZR_ORDER := by
    have hlt : r.toNat < 32 := r.isLt
    show r.toNat ≠ 39
    omega
  have hloaded : er ∈ t.loaded := by
    obtain ⟨n, extend, ht⟩ := l.transfer_eq
    have hdest : destX r = er := if_neg h31
    show _ ∈ ((Arm.transferGeneral l).mapLoad l.result).loaded
    rw [ht, ← hdest]
    exact List.mem_map_of_mem hr
  -- both kinds of load leave the loaded value in the cache, with or without a write-back
  have hexec : ∃ s', s.exec R l.isel inst = some s' ∧ ∃ v, s'.cur er = some v ∧
      Holds v er ((t.exec (l.addr V) ⟨s.regs, s.mem⟩).regs er) := by
    rcases write_back_cases ha h with hnone | ⟨i, hi, rfl⟩
    · have hcall : Call inst l.isel V s.mem (l.addr V) t := l.call ha hl h
      obtain ⟨s', hs', hkept⟩ := BlockState.exec_of_call hnone hcall
      exact ⟨s', hs', hkept _ hloaded hnum⟩
    · obtain ⟨cur, s', hs', hstep, heffect⟩ := step_indexed i hi.supported R s
      have hstep' : s.exec R l.isel i.inst = some s' := hi.isel ▸ hstep
      have hmem : er ∈ i.access.updates := by
        refine .tail _ ?_
        rw [hi.transfer]
        exact hloaded
      obtain ⟨v, hv, hholds⟩ := heffect.updated _ hnum hmem
      have hregs : s'.regs er = (t.exec (l.addr V) ⟨s.regs, s.mem⟩).regs er := by
        rw [hs', hi.transfer, hi.addr]
        exact Arm.setBase_general _ (hi.spared r hr) _
      exact ⟨s', hstep', v, hv, hregs ▸ hholds⟩
  obtain ⟨s', hs', v, hv, hholds⟩ := hexec
  refine ⟨s', hs', v, hv, ?_⟩
  rw [X_execLoad ha hr, ← X_mapLoad hr h31 l.result (l.addr V) s.mem s.regs V, Arm.X, if_neg h31]
  exact hholds

/-- The value of a register after a load whose results are stored. -/
theorem exec_stored (ha : Arm.Allocated l) (hl : l.Lifts) (h : l.TryDecode x86_64 = some inst)
    (hr : r ∈ l.Rts) (h31 : r ≠ 31#5) (g : Guest) :
    ∃ g', execInst true l.isel inst g = some g' ∧
      (g'.regs ⟨.General, r.toNat⟩).setWidth 64 =
        l.result (Arm.X (Arm.execLoad g l).regs r) := by
  obtain ⟨R, mem⟩ := g
  let er : EcvReg := ⟨.General, r.toNat⟩
  let t := (Arm.transferGeneral l).mapLoad l.result
  have hzero : ¬t.LoadsZero := by
    obtain ⟨n, extend, ht⟩ := l.transfer_eq
    show ¬((Arm.transferGeneral l).mapLoad l.result).LoadsZero
    rw [ht]
    intro hz
    generalize l.Rts = Rts at hr hz
    rcases Rts with - | ⟨r', - | ⟨r'', Rts⟩⟩
    · exact nomatch hr
    · exact h31 ((List.mem_singleton.mp hr).trans hz)
    · exact False.elim hz
  have hX : ∀ R' : RegFile, R' er = (t.exec (l.addr R) ⟨R, mem⟩).regs er →
      (R' er).setWidth 64 = l.result (Arm.X (Arm.execLoad ⟨R, mem⟩ l).regs r) := by
    intro R' hR'
    rw [X_execLoad ha hr, ← X_mapLoad hr h31 l.result (l.addr R) mem R R, hR', Arm.X, if_neg h31]
  -- with a write-back the base is another register, so the value stays
  rcases write_back_cases ha h with hnone | ⟨i, hi, rfl⟩
  · obtain ⟨writes, results, mem', hlifted, hmoves⟩ :=
      (l.call ha hl h : Call inst l.isel R mem (l.addr R) t)
    refine ⟨⟨(t.exec (l.addr R) ⟨R, mem⟩).regs, mem'⟩, ?_, hX _ rfl⟩
    rw [exec_of_lifted hlifted, hmoves.storeResults_eq (.inr hzero), hnone]
    rfl
  · have hexec : execInst true (i.access.isel x86_64) i.inst ⟨R, mem⟩ = _ :=
      exec_indexed hi.supported i.decoded i.spares (.inr (hi.transfer ▸ hzero)) ⟨R, mem⟩
    rw [hi.isel] at hexec
    refine ⟨_, hexec, hX _ ?_⟩
    rw [Arm.execIndexed_eq, hi.transfer, hi.addr]
    exact Arm.setBase_general _ (hi.spared r hr) _

/-- An index that is not lifted ends the lifter. -/
theorem args_of_not (ha : Arm.Allocated l) (hl : ¬l.Lifts) (h : l.TryDecode x86_64 = some inst)
    (R : RegFile) : inst.operands.mapM (SemaOperand.args R) = none := by
  cases l with
  | UNSCALED i d =>
    obtain ⟨hi, -⟩ := option_ite h
    exact absurd hi hl
  | REGOFF i d =>
    obtain ⟨o, ho⟩ := i.lifts (R := R) ha
    obtain ⟨a, hbase, -⟩ := i.args_base (R := R) (n := d.Rn)
    obtain ⟨o', ho', rfl⟩ := Option.map_eq_some_iff.mp h
    cases ho.decoded.symm.trans ho'
    simp [writeReg, hbase, ho.ends hl]
  | POS | IMM | LDP_OFF | LDP => exact absurd trivial hl

theorem exec_block_of_not (ha : Arm.Allocated l) (hl : ¬l.Lifts)
    (h : l.TryDecode x86_64 = some inst) (R : RegFile) (s : BlockState) :
    s.exec R l.isel inst = none := by
  let V := (s.cur.touch R (inst.operands.flatMap SemaOperand.loads)).regs R
  have hreads : s.cur.ReadsAs R V (inst.operands.flatMap SemaOperand.loads) := fun _ _ => rfl
  unfold BlockState.exec
  rw [Cache.argsEach_eq hreads, args_of_not ha hl h V]
  rfl

theorem exec_stored_of_not (ha : Arm.Allocated l) (hl : ¬l.Lifts)
    (h : l.TryDecode x86_64 = some inst) (g : Guest) : execInst true l.isel inst g = none := by
  unfold execInst
  rw [args_of_not ha hl h g.regs]
  rfl

end GeneralLoad

end

end Elfconv.AArch64
