/-
Elfconv/Decoder/Outcome.lean

What becomes of an instruction, from its bytes to its code.

`outcome` puts the decoder, the lifter and the semantics functions together: an instruction that is
undefined is rejected, at some operands the lifter ends, and all else does what the architecture
says where its result can be stored.
-/
import Elfconv.Decoder.FollowsData

namespace Elfconv.AArch64

open Encoding CInt

/-- The lifter ends at an operand of the instruction: it does not load the stack pointer as a word
of 32 bits, and does not rotate the zero register. -/
def Arm.Inst.operandEnds : Arm.Inst → Bool
  | .addSub _ f _ _ Rn _ => f = .W && Rn = 31#5
  | .mask op _ d Rn _ => op.RotatesZero d Rn
  | _ => false

/-! ### Where the lifter ends -/

theorem mapM_eq_none_of_mem {α β : Type*} {f : α → Option β} {a : α} {l : List α} (hmem : a ∈ l)
    (h : f a = none) : l.mapM f = none := by
  induction l with
  | nil => cases hmem
  | cons b l ih =>
    rw [List.mapM_cons]
    rcases List.mem_cons.mp hmem with rfl | hmem
    · rw [h]
      rfl
    · rw [ih hmem]
      cases f b <;> rfl

/-- The lifter ends where it ends at one of the operands. -/
theorem lift_eq_none {o : Others} {ovf : Overflow} {flag : OverflowFlag} {pc : Addr}
    {inst : DecodedInst} {sema : SemaFunc} {op : InstOperand} (hcategory : inst.category ≠ .invalid)
    (hsema : ISEL ovf flag inst.iform inst.suffix = some sema) (hmem : op ∈ inst.operands)
    (h : op.args inst.pc (fun _ => 0#128) = none) :
    Decoded.lift o ovf flag pc (.inst inst) = none := by
  have hlifts : inst.lifts = false := by
    rw [DecodedInst.lifts, mapM_eq_none_of_mem hmem h]
    rfl
  show LiftIntoBlock (ISEL ovf flag inst.iform inst.suffix) inst = none
  rw [hsema]
  exact (if_neg hcategory).trans (if_neg (by simp [hlifts]))

section

variable {o : Others} {big : Overshift} {ovf : Overflow} {flag : OverflowFlag} {pc : Addr}

/-- An addition to `WSP` is decoded, and ends the lifter. -/
theorem lift_addSub_WSP (op : Arm.AddSubOp) {shift : BitVec 2} (hshift : shift.getLsbD 1 = false)
    (imm12 : BitVec 12) (Rd : BitVec 5) :
    ∃ inst, decodeData big pc (Arm.Inst.addSub op .W shift imm12 31#5 Rd).data =
      some (.inst inst) ∧ Decoded.lift o ovf flag pc (.inst inst) = none := by
  refine ⟨_, (decodeData_addSub op .W shift imm12 31#5 Rd).trans
    (if_neg (hshift ▸ Bool.false_ne_true)), ?_⟩
  cases op <;>
    exact lift_eq_none (fun h => nomatch h) rfl (.tail _ (.head _)) (args_WSP _)

/-- A `UBFM` that rotates the zero register is decoded, and ends the lifter. -/
theorem lift_UBFM_rotated {f : Form} {d : MaskFields}
    (h : ∀ immediate, MasksFollow big f d immediate) (hres : Arm.reserved f d .UBFM = false)
    (himmr : d.immr ≠ 0#6) (Rd : BitVec 5) :
    ∃ inst, decodeData big pc (Arm.Inst.mask .UBFM f d 31#5 Rd).data = some (.inst inst) ∧
      Decoded.lift o ovf flag pc (.inst inst) = none := by
  have hlt : (d.immr.setWidth 64).toNat < f.size := by
    rw [toNat_immr]
    exact (fields_lt (.inl rfl) hres).1
  have hcategory : InstCategory (Arm.Inst.mask .UBFM f d 31#5 Rd).data ≠ .invalid := by
    cases f <;> exact fun h => nomatch h
  have hsema : ISEL ovf flag (Arm.Inst.mask .UBFM f d 31#5 Rd).data.iform .none =
      some (callMask .UBFM f) := by
    cases f <;> rfl
  refine ⟨_, (decodeData_mask .UBFM f d 31#5 Rd h).trans
    (if_neg (hres ▸ Bool.false_ne_true)), ?_⟩
  exact lift_eq_none hcategory hsema (.tail _ (.head _))
    ((args_rotated hlt Rd _).trans (if_pos ⟨rfl, (immr_ne_zero_iff d).mpr himmr⟩))

/-- Where an operand ends the lifter, the decoder has accepted the instruction. -/
theorem lift_of_ends {i : Arm.Inst} (hbig : ∀ f d immediate, MasksFollow big f d immediate)
    (hdefined : i.undefined = false) (hends : i.operandEnds = true) :
    ∃ inst, decodeData big pc i.data = some (.inst inst) ∧
      Decoded.lift o ovf flag pc (.inst inst) = none := by
  cases i with
  | addSub op f shift imm12 Rn Rd =>
    simp only [Arm.Inst.operandEnds, Bool.and_eq_true, decide_eq_true_iff] at hends
    obtain ⟨rfl, rfl⟩ := hends
    exact lift_addSub_WSP op hdefined imm12 Rd
  | mask op f d Rn Rd =>
    obtain ⟨rfl, rfl, himmr⟩ := of_decide_eq_true hends
    exact lift_UBFM_rotated (hbig f d) hdefined himmr Rd
  | _ => cases hends

/-! ### What is undefined -/

/-- An instruction that is undefined is not accepted, or rejected by its decoder. -/
theorem decode_undefined {i : Arm.Inst} (hbig : ∀ f d immediate, MasksFollow big f d immediate)
    (h : i.undefined = true) :
    i.extracted = false ∨ decodeData big pc i.data = some .invalid := by
  cases i with
  | addSub op f shift imm12 Rn Rd =>
    exact .inr ((decodeData_addSub op f shift imm12 Rn Rd).trans (if_pos h))
  | mask op f d Rn Rd =>
    exact .inr ((decodeData_mask op f d Rn Rd (hbig f d)).trans (if_pos h))
  | moveWide op f hw imm16 Rd =>
    exact .inr ((decodeData_moveWide op f hw imm16 Rd).trans (if_pos (by
      simpa [Arm.Inst.undefined] using h)))
  | EXTR f N Rm imms Rn Rd =>
    refine .inl ?_
    cases f <;> simpa [Arm.Inst.undefined, Arm.Inst.extracted, imp_iff_not_or] using h
  | _ => cases h

/-- Every defined instruction is decoded and follows the architecture, by its kind. -/
theorem decodes {i : Arm.Inst} (hflag : flag.ReturnsFirst)
    (hbig : ∀ f d immediate, MasksFollow big f d immediate) (hpc : pc % 4#64 = 0#64)
    (hdefined : i.undefined = false) (hends : i.operandEnds = false) :
    Decodes big o ovf flag pc i := by
  cases i with
  | B imm26 => exact decodes_B imm26
  | BL imm26 => exact decodes_BL imm26
  | Bcond imm19 cond => exact decodes_Bcond hpc imm19 cond
  | CBZ f imm19 Rt => exact decodes_CBZ hpc f imm19 Rt
  | CBNZ f imm19 Rt => exact decodes_CBNZ hpc f imm19 Rt
  | TBZ b5 b40 imm14 Rt => exact decodes_TBZ hpc b5 b40 imm14 Rt
  | TBNZ b5 b40 imm14 Rt => exact decodes_TBNZ hpc b5 b40 imm14 Rt
  | BR Rn => exact decodes_BR Rn
  | BLR Rn => exact decodes_BLR Rn
  | RET Rn => exact decodes_RET Rn
  | NOP => exact decodes_NOP
  | ADR immlo immhi Rd => exact decodes_ADR immlo immhi Rd
  | ADRP immlo immhi Rd => exact decodes_ADRP immlo immhi Rd
  | addSub op f shift imm12 Rn Rd =>
    exact decodes_addSub op f shift imm12 Rn Rd hflag hdefined (by
      simpa [Arm.Inst.operandEnds] using hends)
  | mask op f d Rn Rd =>
    exact decodes_mask op f d Rn Rd (hbig f d) hdefined (of_decide_eq_false hends)
  | moveWide op f hw imm16 Rd =>
    exact decodes_moveWide op f hw imm16 Rd (by simpa [Arm.Inst.undefined] using hdefined)
  | EXTR f N Rm imms Rn Rd =>
    simp only [Arm.Inst.undefined, Bool.or_eq_false_iff, bne_eq_false_iff_eq] at hdefined
    obtain ⟨rfl, himms⟩ := hdefined
    refine decodes_EXTR f Rm imms Rn Rd ?_
    cases f with
    | W => exact .inr (by simpa using himms)
    | X => exact .inl rfl

/-! ### From the bytes -/

/-- At an aligned address a word goes through the table to its decoder. -/
theorem ArchDecodeInstruction_eq {inst_bytes : List (BitVec 8)} (hpc : pc % 4#64 = 0#64)
    (hlen : inst_bytes.length = kInstructionSize) :
    ArchDecodeInstruction o big pc inst_bytes =
      (TryExtract o.extract (instBits inst_bytes)).elim (some .invalid) (decodeData big pc) := by
  rw [ArchDecodeInstruction, if_neg (not_not_intro hlen.symm), if_neg (not_not_intro hpc)]
  cases TryExtract o.extract (instBits inst_bytes) <;> rfl

/-- An instruction that the table accepts goes to its decoder. -/
theorem ArchDecodeInstruction_of_extracted {inst_bytes : List (BitVec 8)} {i : Arm.Inst}
    (hpc : pc % 4#64 = 0#64) (hlen : inst_bytes.length = kInstructionSize)
    (hi : Arm.decode (instBits inst_bytes) = some i) (hext : i.extracted = true) :
    ArchDecodeInstruction o big pc inst_bytes = decodeData big pc i.data := by
  rw [ArchDecodeInstruction_eq hpc hlen, ← Arm.decode_eq_some_iff.mp hi, TryExtract_encode hext]
  rfl

/-- The fields that the table compares are reserved. -/
theorem extracted_of_defined {i : Arm.Inst} (h : i.undefined = false) : i.extracted = true := by
  cases i with
  | mask op f d Rn Rd =>
    simp only [Arm.Inst.undefined] at h
    cases op <;> cases f <;>
      simp_all [Arm.Inst.extracted, Arm.comparesN, Arm.reserved, Arm.sf]
  | EXTR f N Rm imms Rn Rd =>
    cases f <;> simp_all [Arm.Inst.undefined, Arm.Inst.extracted]
  | _ => rfl

section

variable {inst_bytes : List (BitVec 8)} {i : Arm.Inst}

/-- What is undefined is rejected, by the table or by the decoder. -/
theorem decode_eq_invalid (hbig : big 64 0#64 64#64 = some 0#64) (hpc : pc % 4#64 = 0#64)
    (hlen : inst_bytes.length = kInstructionSize) (hi : Arm.decode (instBits inst_bytes) = some i)
    (h : i.undefined = true) : ArchDecodeInstruction o big pc inst_bytes = some .invalid := by
  by_cases hext : i.extracted = true
  · rw [ArchDecodeInstruction_of_extracted hpc hlen hi hext]
    exact (decode_undefined (masksFollow_of_zero hbig) h).resolve_left (hext ▸ fun h => nomatch h)
  · rw [ArchDecodeInstruction_eq hpc hlen, ← Arm.decode_eq_some_iff.mp hi,
      TryExtract_eq_none (Bool.eq_false_iff.mpr hext)]
    rfl

/-- Where an operand ends the lifter. -/
theorem arch_eq_none (hbig : big 64 0#64 64#64 = some 0#64) (hpc : pc % 4#64 = 0#64)
    (hlen : inst_bytes.length = kInstructionSize) (hi : Arm.decode (instBits inst_bytes) = some i)
    (hdefined : i.undefined = false) (hends : i.operandEnds = true) :
    arch o big ovf flag pc inst_bytes = none := by
  obtain ⟨inst, hinst, hlift⟩ : ∃ inst, decodeData big pc i.data = some (.inst inst) ∧
      Decoded.lift o ovf flag pc (.inst inst) = none :=
    lift_of_ends (masksFollow_of_zero hbig) hdefined hends
  rw [arch, ArchDecodeInstruction_of_extracted hpc hlen hi (extracted_of_defined hdefined), hinst]
  exact hlift

/-- Where no operand ends the lifter. -/
theorem exists_follows (hflag : flag.ReturnsFirst) (hbig : big 64 0#64 64#64 = some 0#64)
    (hpc : pc % 4#64 = 0#64) (hlen : inst_bytes.length = kInstructionSize)
    (hi : Arm.decode (instBits inst_bytes) = some i) (hdefined : i.undefined = false)
    (hends : i.operandEnds = false) :
    ∃ inst, ArchDecodeInstruction o big pc inst_bytes = some (.inst inst) ∧
      Follows o ovf flag pc i inst := by
  rw [ArchDecodeInstruction_of_extracted hpc hlen hi (extracted_of_defined hdefined)]
  exact decodes hflag (masksFollow_of_zero hbig) hpc hdefined hends

/-- **What becomes of an instruction** at an aligned address: it is rejected where it is undefined,
at some operands the lifter ends, and all else does what the architecture says where its result can
be stored. -/
theorem outcome (hflag : flag.ReturnsFirst) (hbig : big 64 0#64 64#64 = some 0#64)
    (hpc : pc % 4#64 = 0#64) (hlen : inst_bytes.length = kInstructionSize)
    (hi : Arm.decode (instBits inst_bytes) = some i) :
    (i.undefined = true → ArchDecodeInstruction o big pc inst_bytes = some .invalid) ∧
      (i.undefined = false → i.operandEnds = true → arch o big ovf flag pc inst_bytes = none) ∧
      (i.undefined = false → i.operandEnds = false →
        ∃ inst, ArchDecodeInstruction o big pc inst_bytes = some (.inst inst) ∧
          Follows o ovf flag pc i inst) :=
  ⟨decode_eq_invalid hbig hpc hlen hi, arch_eq_none hbig hpc hlen hi,
    exists_follows hflag hbig hpc hlen hi⟩

end

end

/-- Nothing but the encodings whose decoders are here. -/
def Others.nothing : Others where
  extract _ _ := none
  lift _ _ := none
  exec _ _ _ _ := none
  extract_other _ _ _ _ _ h := nomatch h

/-- `ADD X0, X0, #1` -/
theorem outcome_add :
    let i : Arm.Inst := .addSub .ADD .X 0#2 1#12 0#5 0#5
    let inst_bytes := [0x00#8, 0x04#8, 0x00#8, 0x91#8]
    (i.undefined = true → ArchDecodeInstruction .nothing .wraps 0x1000#64 inst_bytes =
        some .invalid) ∧
      (i.undefined = false → i.operandEnds = true → arch .nothing .wraps .undefined
        (fun _ r _ _ _ => r) 0x1000#64 inst_bytes = none) ∧
      (i.undefined = false → i.operandEnds = false →
        ∃ inst, ArchDecodeInstruction .nothing .wraps 0x1000#64 inst_bytes = some (.inst inst) ∧
          Follows .nothing .undefined (fun _ r _ _ _ => r) 0x1000#64 i inst) :=
  outcome (fun _ _ _ _ _ => rfl) rfl rfl rfl (Arm.decode_eq_some_iff.mpr (by decide))

end Elfconv.AArch64
