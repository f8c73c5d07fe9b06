/-
Elfconv/Decoder/Table.lean

The table of `TryExtract` against the encodings of the architecture.

Every entry whose decoder is here compares the bits that an instruction of the architecture fixes:
its pattern is the encoding of the instruction with all fields clear.  No word matches two such
entries, and no entry before one of them takes its words away, so `TryExtract_eq_some_iff` says
which words are accepted, and as what.
-/
import Elfconv.Decoder.Arch
import Elfconv.Decoder.ArmInst

namespace Elfconv.AArch64

open Encoding

namespace Arm.Inst

/-! ### Entries of the table -/

/-- The entry for an instruction. -/
def extractor : Inst → Extractor 32 InstData
  | B _ => TryExtractB_ONLY_BRANCH_IMM
  | BL _ => TryExtractBL_ONLY_BRANCH_IMM
  | Bcond .. => TryExtractB_ONLY_CONDBRANCH
  | CBZ .W .. => TryExtractCBZ_32_COMPBRANCH
  | CBZ .X .. => TryExtractCBZ_64_COMPBRANCH
  | CBNZ .W .. => TryExtractCBNZ_32_COMPBRANCH
  | CBNZ .X .. => TryExtractCBNZ_64_COMPBRANCH
  | TBZ .. => TryExtractTBZ_ONLY_TESTBRANCH
  | TBNZ .. => TryExtractTBNZ_ONLY_TESTBRANCH
  | BR _ => TryExtractBR_64_BRANCH_REG
  | BLR _ => TryExtractBLR_64_BRANCH_REG
  | RET _ => TryExtractRET_64R_BRANCH_REG
  | NOP => TryExtractNOP_HI_SYSTEM
  | ADR .. => TryExtractADR_ONLY_PCRELADDR
  | ADRP .. => TryExtractADRP_ONLY_PCRELADDR
  | addSub .ADD .W .. => TryExtractADD_32_ADDSUB_IMM
  | addSub .ADD .X .. => TryExtractADD_64_ADDSUB_IMM
  | addSub .ADDS .W .. => TryExtractADDS_32S_ADDSUB_IMM
  | addSub .ADDS .X .. => TryExtractADDS_64S_ADDSUB_IMM
  | addSub .SUB .W .. => TryExtractSUB_32_ADDSUB_IMM
  | addSub .SUB .X .. => TryExtractSUB_64_ADDSUB_IMM
  | addSub .SUBS .W .. => TryExtractSUBS_32S_ADDSUB_IMM
  | addSub .SUBS .X .. => TryExtractSUBS_64S_ADDSUB_IMM
  | mask .UBFM .W .. => TryExtractUBFM_32M_BITFIELD
  | mask .UBFM .X .. => TryExtractUBFM_64M_BITFIELD
  | mask .SBFM .W .. => TryExtractSBFM_32M_BITFIELD
  | mask .SBFM .X .. => TryExtractSBFM_64M_BITFIELD
  | mask .BFM .W .. => TryExtractBFM_32M_BITFIELD
  | mask .BFM .X .. => TryExtractBFM_64M_BITFIELD
  | mask .AND .W .. => TryExtractAND_32_LOG_IMM
  | mask .AND .X .. => TryExtractAND_64_LOG_IMM
  | mask .ORR .W .. => TryExtractORR_32_LOG_IMM
  | mask .ORR .X .. => TryExtractORR_64_LOG_IMM
  | mask .EOR .W .. => TryExtractEOR_32_LOG_IMM
  | mask .EOR .X .. => TryExtractEOR_64_LOG_IMM
  | mask .ANDS .W .. => TryExtractANDS_32S_LOG_IMM
  | mask .ANDS .X .. => TryExtractANDS_64S_LOG_IMM
  | moveWide .MOVN .W .. => TryExtractMOVN_32_MOVEWIDE
  | moveWide .MOVN .X .. => TryExtractMOVN_64_MOVEWIDE
  | moveWide .MOVZ .W .. => TryExtractMOVZ_32_MOVEWIDE
  | moveWide .MOVZ .X .. => TryExtractMOVZ_64_MOVEWIDE
  | moveWide .MOVK .W .. => TryExtractMOVK_32_MOVEWIDE
  | moveWide .MOVK .X .. => TryExtractMOVK_64_MOVEWIDE
  | EXTR .W .. => TryExtractEXTR_32_EXTRACT
  | EXTR .X .. => TryExtractEXTR_64_EXTRACT

end Arm.Inst

/-- `N` is compared by the entries of the bit-field moves and of the logical instructions of 32
bits. -/
def Arm.comparesN : MaskInst → Form → Bool
  | .UBFM, _ | .SBFM, _ | .BFM, _ => true
  | .AND, f | .ORR, f | .EOR, f | .ANDS, f => f = .W

namespace Arm.Inst

/-- The fields that the entry compares have the values that are not reserved. -/
def extracted : Inst → Bool
  | mask op f d _ _ => !comparesN op f || d.N == sf f
  | EXTR f N _ imms _ _ => N == sf f && (f = .X || !imms.getLsbD 5)
  | _ => true

/-! ### Fields -/

/-- The encoding of an instruction. -/
def iform : Inst → InstForm
  | B _ => .B_ONLY_BRANCH_IMM
  | BL _ => .BL_ONLY_BRANCH_IMM
  | Bcond .. => .B_ONLY_CONDBRANCH
  | CBZ .W .. => .CBZ_32_COMPBRANCH
  | CBZ .X .. => .CBZ_64_COMPBRANCH
  | CBNZ .W .. => .CBNZ_32_COMPBRANCH
  | CBNZ .X .. => .CBNZ_64_COMPBRANCH
  | TBZ .. => .TBZ_ONLY_TESTBRANCH
  | TBNZ .. => .TBNZ_ONLY_TESTBRANCH
  | BR _ => .BR_64_BRANCH_REG
  | BLR _ => .BLR_64_BRANCH_REG
  | RET _ => .RET_64R_BRANCH_REG
  | NOP => .NOP_HI_SYSTEM
  | ADR .. => .ADR_ONLY_PCRELADDR
  | ADRP .. => .ADRP_ONLY_PCRELADDR
  | addSub .ADD .W .. => .ADD_32_ADDSUB_IMM
  | addSub .ADD .X .. => .ADD_64_ADDSUB_IMM
  | addSub .ADDS .W .. => .ADDS_32S_ADDSUB_IMM
  | addSub .ADDS .X .. => .ADDS_64S_ADDSUB_IMM
  | addSub .SUB .W .. => .SUB_32_ADDSUB_IMM
  | addSub .SUB .X .. => .SUB_64_ADDSUB_IMM
  | addSub .SUBS .W .. => .SUBS_32S_ADDSUB_IMM
  | addSub .SUBS .X .. => .SUBS_64S_ADDSUB_IMM
  | mask .UBFM .W .. => .UBFM_32M_BITFIELD
  | mask .UBFM .X .. => .UBFM_64M_BITFIELD
  | mask .SBFM .W .. => .SBFM_32M_BITFIELD
  | mask .SBFM .X .. => .SBFM_64M_BITFIELD
  | mask .BFM .W .. => .BFM_32M_BITFIELD
  | mask .BFM .X .. => .BFM_64M_BITFIELD
  | mask .AND .W .. => .AND_32_LOG_IMM
  | mask .AND .X .. => .AND_64_LOG_IMM
  | mask .ORR .W .. => .ORR_32_LOG_IMM
  | mask .ORR .X .. => .ORR_64_LOG_IMM
  | mask .EOR .W .. => .EOR_32_LOG_IMM
  | mask .EOR .X .. => .EOR_64_LOG_IMM
  | mask .ANDS .W .. => .ANDS_32S_LOG_IMM
  | mask .ANDS .X .. => .ANDS_64S_LOG_IMM
  | moveWide .MOVN .W .. => .MOVN_32_MOVEWIDE
  | moveWide .MOVN .X .. => .MOVN_64_MOVEWIDE
  | moveWide .MOVZ .W .. => .MOVZ_32_MOVEWIDE
  | moveWide .MOVZ .X .. => .MOVZ_64_MOVEWIDE
  | moveWide .MOVK .W .. => .MOVK_32_MOVEWIDE
  | moveWide .MOVK .X .. => .MOVK_64_MOVEWIDE
  | EXTR .W .. => .EXTR_32_EXTRACT
  | EXTR .X .. => .EXTR_64_EXTRACT

/-- The name of an instruction. -/
def iclass : Inst → InstName
  | B _ | Bcond .. => .B
  | BL _ => .BL
  | CBZ .. => .CBZ
  | CBNZ .. => .CBNZ
  | TBZ .. => .TBZ
  | TBNZ .. => .TBNZ
  | BR _ => .BR
  | BLR _ => .BLR
  | RET _ => .RET
  | NOP => .NOP
  | ADR .. => .ADR
  | ADRP .. => .ADRP
  | addSub .ADD .. => .ADD
  | addSub .ADDS .. => .ADDS
  | addSub .SUB .. => .SUB
  | addSub .SUBS .. => .SUBS
  | mask .UBFM .. => .UBFM
  | mask .SBFM .. => .SBFM
  | mask .BFM .. => .BFM
  | mask .AND .. => .AND
  | mask .ORR .. => .ORR
  | mask .EOR .. => .EOR
  | mask .ANDS .. => .ANDS
  | moveWide .MOVN .. => .MOVN
  | moveWide .MOVZ .. => .MOVZ
  | moveWide .MOVK .. => .MOVK
  | EXTR .. => .EXTR

/-- What the decoder gets of an instruction: its encoding, its name and its fields. -/
def data (i : Inst) : InstData :=
  let start : InstData := { iform := i.iform, iclass := i.iclass }
  match i with
  | B imm26 => { start with imm26 := imm26.setWidth 64 }
  | BL imm26 => { start with imm26 := imm26.setWidth 64, op := 1#8 }
  | Bcond imm19 cond => { start with imm19 := imm19.setWidth 64, cond := cond.setWidth 8 }
  | CBZ f imm19 Rt =>
      { start with Rt, imm19 := imm19.setWidth 64, sf := (Arm.sf f).setWidth 8 }
  | CBNZ f imm19 Rt =>
      { start with Rt, imm19 := imm19.setWidth 64, op := 1#8, sf := (Arm.sf f).setWidth 8 }
  | TBZ b5 b40 imm14 Rt =>
      { start with
        Rt, imm14 := imm14.setWidth 64, b40 := b40.setWidth 8, b5 := b5.setWidth 8 }
  | TBNZ b5 b40 imm14 Rt =>
      { start with
        Rt, imm14 := imm14.setWidth 64, b40 := b40.setWidth 8, op := 1#8, b5 := b5.setWidth 8 }
  | BR Rn => { start with Rn, op2 := 0b11111#8 }
  | BLR Rn => { start with Rn, op2 := 0b11111#8, op := 1#8 }
  | RET Rn => { start with Rn, op2 := 0b11111#8, op := 2#8 }
  | NOP => { start with Rt := 31#5, CRn := 2#8, op1 := 3#8 }
  | ADR immlo immhi Rd =>
      { start with
        Rd, immlo := immlo.setWidth 64, immhi := immhi.setWidth 64
        immhi_immlo := immhi.setWidth 64 <<< 2 ||| immlo.setWidth 64 }
  | ADRP immlo immhi Rd =>
      { start with
        Rd, immlo := immlo.setWidth 64, immhi := immhi.setWidth 64, op := 1#8
        immhi_immlo := immhi.setWidth 64 <<< 2 ||| immlo.setWidth 64 }
  | addSub op f shift imm12 Rn Rd =>
      { start with
        Rd, Rn, imm12 := imm12.setWidth 64, shift := shift.setWidth 8
        S := (op.opS.extractLsb' 0 1).setWidth 8, op := (op.opS.extractLsb' 1 1).setWidth 8
        sf := (Arm.sf f).setWidth 8 }
  | mask op f d Rn Rd =>
      { start with
        Rd, Rn, imms := d.imms.setWidth 64, immr := d.immr.setWidth 64, N := d.N.setWidth 8
        opc := (maskOpc op).setWidth 8, sf := (Arm.sf f).setWidth 8 }
  | moveWide op f hw imm16 Rd =>
      { start with
        Rd, imm16 := imm16.setWidth 64, hw := hw.setWidth 8, opc := op.opc.setWidth 8
        sf := (Arm.sf f).setWidth 8 }
  | EXTR f N Rm imms Rn Rd =>
      { start with
        Rd, Rn, Rm, imms := imms.setWidth 64, N := N.setWidth 8, sf := (Arm.sf f).setWidth 8 }

/-- The layout of the entry for an instruction. -/
def layout : Inst → InstForm → InstName → BitVec 32 → InstData
  | B _ | BL _ => branchImmFields
  | Bcond .. => condBranchFields
  | CBZ .. | CBNZ .. => compBranchFields
  | TBZ .. | TBNZ .. => testBranchFields
  | BR _ | BLR _ | RET _ => branchRegFields
  | NOP => systemFields
  | ADR .. | ADRP .. => pcRelFields
  | addSub .. => addSubImmFields
  | mask .. => maskFields
  | moveWide .. => moveWideFields
  | EXTR .. => extractFields

/-- The entry fills in the fields of its layout. -/
theorem extractor_fill (i : Inst) (w : BitVec 32) :
    i.extractor.fill w = i.layout i.iform i.iclass w := by
  cases i with
  | CBZ f | CBNZ f | EXTR f => cases f <;> rfl
  | addSub op f | mask op f | moveWide op f => cases op <;> cases f <;> rfl
  | _ => rfl

/-- The fields of the instruction are read back from its word. -/
theorem layout_encode (i : Inst) : i.layout i.iform i.iclass i.encode = i.data := by
  cases i with
  | B | BL =>
    simp [layout, branchImmFields, immField, byteField, encode, word, extract_pack_low,
      extract_pack_high, data]
  | Bcond =>
    simp [layout, condBranchFields, immField, byteField, encode, word, extract_pack_low,
      extract_pack_high, data]
  | CBZ | CBNZ =>
    simp [layout, compBranchFields, immField, byteField, regField, encode, word, extract_pack_low,
      extract_pack_high, data]
  | TBZ | TBNZ =>
    simp [layout, testBranchFields, immField, byteField, regField, encode, word, extract_pack_low,
      extract_pack_high, data]
  | BR | BLR | RET =>
    simp [layout, branchRegFields, byteField, regField, encode, word, extract_pack_low,
      extract_pack_high, data]
  | NOP => decide
  | ADR | ADRP =>
    simp [layout, pcRelFields, immField, byteField, regField, encode, word, extract_pack_low,
      extract_pack_high, data]
  | addSub =>
    simp [layout, addSubImmFields, immField, byteField, regField, encode, word, extract_pack_low,
      extract_pack_high, data]
  | mask =>
    simp [layout, maskFields, immField, byteField, regField, encode, word, extract_pack_low,
      extract_pack_high, data]
  | moveWide =>
    simp [layout, moveWideFields, immField, byteField, regField, encode, word, extract_pack_low,
      extract_pack_high, data]
  | EXTR =>
    simp [layout, extractFields, immField, byteField, regField, encode, word, extract_pack_low,
      extract_pack_high, data]

/-- The entry of an instruction fills in the fields of the instruction. -/
theorem fill_encode (i : Inst) : i.extractor.fill i.encode = i.data :=
  (i.extractor_fill i.encode).trans i.layout_encode

/-! ### Patterns -/

/-- The instruction with all fields clear that its entry does not compare. -/
def bare : Inst → Inst
  | B _ => B 0#26
  | BL _ => BL 0#26
  | Bcond .. => Bcond 0#19 0#4
  | CBZ f .. => CBZ f 0#19 0#5
  | CBNZ f .. => CBNZ f 0#19 0#5
  | TBZ .. => TBZ 0#1 0#5 0#14 0#5
  | TBNZ .. => TBNZ 0#1 0#5 0#14 0#5
  | BR _ => BR 0#5
  | BLR _ => BLR 0#5
  | RET _ => RET 0#5
  | NOP => NOP
  | ADR .. => ADR 0#2 0#19 0#5
  | ADRP .. => ADRP 0#2 0#19 0#5
  | addSub op f .. => addSub op f 0#2 0#12 0#5 0#5
  | mask op f .. => mask op f ⟨if comparesN op f then sf f else 0#1, 0#6, 0#6⟩ 0#5 0#5
  | moveWide op f .. => moveWide op f 0#2 0#16 0#5
  | EXTR f .. => EXTR f (sf f) 0#5 0#6 0#5 0#5

/-- The bits that the entry compares. -/
def fixed : Inst → BitVec 32
  | B _ | BL _ => 0xfc000000#32
  | Bcond .. => 0xff000010#32
  | CBZ .. | CBNZ .. | addSub .. => 0xff000000#32
  | TBZ .. | TBNZ .. => 0x7f000000#32
  | BR _ | BLR _ | RET _ => 0xfffffc1f#32
  | NOP => 0xffffffff#32
  | ADR .. | ADRP .. => 0x9f000000#32
  | mask op f .. => if comparesN op f then 0xffc00000#32 else 0xff800000#32
  | moveWide .. => 0xff800000#32
  | EXTR .W .. => 0xffe08000#32
  | EXTR .X .. => 0xffe00000#32

/-- The entry compares the fixed bits with the encoding that has all other fields clear. -/
theorem extractor_pattern (i : Inst) : i.extractor.pattern = ⟨i.fixed, i.bare.encode⟩ := by
  cases i with
  | CBZ f | CBNZ f | EXTR f => cases f <;> rfl
  | addSub op f | mask op f | moveWide op f => cases op <;> cases f <;> rfl
  | _ => rfl

/-! Fields under a mask of ones. -/

theorem and_ones_1 : ∀ b : BitVec 1, b &&& 1#1 = b := by decide

theorem and_ones_2 : ∀ b : BitVec 2, b &&& 3#2 = b := by decide

theorem and_ones_6 : ∀ b : BitVec 6, b &&& 63#6 = b := by decide

/-- The pattern of the entry matches the word. -/
theorem matches_encode {i : Inst} (h : i.extracted = true) :
    (⟨i.fixed, i.bare.encode⟩ : Pattern 32).Matches i.encode := by
  -- the fixed bits are whole pieces of the layout, and the mask is all ones or zero on each
  cases i with
  | B | BL =>
    refine Pattern.matches_of_pieces [(0, 26), (26, 5), (31, 1)] (by decide) ?_
    simp [fixed, bare, encode, word, extract_pack_low, extract_pack_high]
  | Bcond =>
    refine Pattern.matches_of_pieces [(0, 4), (4, 1), (5, 19), (24, 8)] (by decide) ?_
    simp [fixed, bare, encode, word, extract_pack_low, extract_pack_high]
  | CBZ f | CBNZ f =>
    refine Pattern.matches_of_pieces [(0, 5), (5, 19), (24, 1), (25, 6), (31, 1)] (by decide) ?_
    simp [fixed, bare, encode, word, extract_pack_low, extract_pack_high, and_ones_1]
  | TBZ | TBNZ =>
    refine Pattern.matches_of_pieces
      [(0, 5), (5, 14), (19, 5), (24, 1), (25, 6), (31, 1)] (by decide) ?_
    simp [fixed, bare, encode, word, extract_pack_low, extract_pack_high]
  | BR | BLR | RET =>
    refine Pattern.matches_of_pieces [(0, 5), (5, 5), (10, 11), (21, 4), (25, 7)] (by decide) ?_
    simp [fixed, bare, encode, word, extract_pack_low, extract_pack_high]
  | NOP => exact BitVec.and_allOnes
  | ADR | ADRP =>
    refine Pattern.matches_of_pieces [(0, 5), (5, 19), (24, 5), (29, 2), (31, 1)] (by decide) ?_
    simp [fixed, bare, encode, word, extract_pack_low, extract_pack_high]
  | addSub op f =>
    refine Pattern.matches_of_pieces
      [(0, 5), (5, 5), (10, 12), (22, 2), (24, 5), (29, 2), (31, 1)] (by decide) ?_
    simp [fixed, bare, encode, word, extract_pack_low, extract_pack_high, and_ones_1, and_ones_2]
  | moveWide op f =>
    refine Pattern.matches_of_pieces
      [(0, 5), (5, 16), (21, 2), (23, 6), (29, 2), (31, 1)] (by decide) ?_
    simp [fixed, bare, encode, word, extract_pack_low, extract_pack_high, and_ones_1, and_ones_2]
  | mask op f d =>
    refine Pattern.matches_of_pieces
      [(0, 5), (5, 5), (10, 6), (16, 6), (22, 1), (23, 6), (29, 2), (31, 1)] (by decide) ?_
    -- some of the entries compare `N`, the others leave it to the decoder
    by_cases hN : comparesN op f = true
    · have hd : d.N = sf f := by simpa [extracted, hN] using h
      simp [fixed, bare, encode, word, extract_pack_low, extract_pack_high, hN, hd, and_ones_1,
        and_ones_2, and_ones_6]
    · simp [fixed, bare, encode, word, extract_pack_low, extract_pack_high, hN, and_ones_1,
        and_ones_2, and_ones_6]
  | EXTR f N Rm imms =>
    refine Pattern.matches_of_pieces
      [(0, 5), (5, 5), (10, 5), (15, 1), (16, 5), (21, 1), (22, 1), (23, 6), (29, 2), (31, 1)]
      (by decide) ?_
    simp only [extracted, Bool.and_eq_true, beq_iff_eq] at h
    obtain ⟨rfl, himms⟩ := h
    cases f with
    | W =>
      have h5 : imms.extractLsb' 5 1 = 0#1 :=
        (by decide : ∀ b : BitVec 6, b.getLsbD 5 = false → b.extractLsb' 5 1 = 0#1) imms
          (by simpa using himms)
      simp [fixed, bare, encode, word, extract_pack_low, extract_pack_high, h5, and_ones_1]
    | X => simp [fixed, bare, encode, word, extract_pack_low, extract_pack_high, and_ones_1]

/-- A word that the pattern matches is an instruction of the entry. -/
theorem exists_of_matches {i : Inst} {w : BitVec 32}
    (h : (⟨i.fixed, i.bare.encode⟩ : Pattern 32).Matches w) :
    ∃ j : Inst, j.encode = w ∧ j.extracted = true ∧ j.extractor = i.extractor := by
  -- in each case: the fields are read off the word, and the word is their encoding piece by piece
  cases i with
  | B =>
    dsimp only [fixed, bare] at h
    refine ⟨B (w.extractLsb' 0 26), ?_, rfl, rfl⟩
    refine ext_of_covers [(0, 26), (26, 5), (31, 1)] (by decide) ?_
    simp [encode, word, extract_pack_low, extract_pack_high, Pattern.extract_of_matches h]
  | BL =>
    dsimp only [fixed, bare] at h
    refine ⟨BL (w.extractLsb' 0 26), ?_, rfl, rfl⟩
    refine ext_of_covers [(0, 26), (26, 5), (31, 1)] (by decide) ?_
    simp [encode, word, extract_pack_low, extract_pack_high, Pattern.extract_of_matches h]
  | Bcond =>
    dsimp only [fixed, bare] at h
    refine ⟨Bcond (w.extractLsb' 5 19) (w.extractLsb' 0 4), ?_, rfl, rfl⟩
    refine ext_of_covers [(0, 4), (4, 1), (5, 19), (24, 8)] (by decide) ?_
    simp [encode, word, extract_pack_low, extract_pack_high, Pattern.extract_of_matches h]
  | CBZ f =>
    dsimp only [fixed, bare] at h
    refine ⟨CBZ f (w.extractLsb' 5 19) (w.extractLsb' 0 5), ?_, rfl, by cases f <;> rfl⟩
    refine ext_of_covers [(0, 5), (5, 19), (24, 1), (25, 6), (31, 1)] (by decide) ?_
    simp [encode, word, extract_pack_low, extract_pack_high, Pattern.extract_of_matches h]
  | CBNZ f =>
    dsimp only [fixed, bare] at h
    refine ⟨CBNZ f (w.extractLsb' 5 19) (w.extractLsb' 0 5), ?_, rfl, by cases f <;> rfl⟩
    refine ext_of_covers [(0, 5), (5, 19), (24, 1), (25, 6), (31, 1)] (by decide) ?_
    simp [encode, word, extract_pack_low, extract_pack_high, Pattern.extract_of_matches h]
  | TBZ =>
    dsimp only [fixed, bare] at h
    refine ⟨TBZ (w.extractLsb' 31 1) (w.extractLsb' 19 5) (w.extractLsb' 5 14) (w.extractLsb' 0 5),
      ?_, rfl, rfl⟩
    refine ext_of_covers [(0, 5), (5, 14), (19, 5), (24, 1), (25, 6), (31, 1)] (by decide) ?_
    simp [encode, word, extract_pack_low, extract_pack_high, Pattern.extract_of_matches h]
  | TBNZ =>
    dsimp only [fixed, bare] at h
    refine ⟨TBNZ (w.extractLsb' 31 1) (w.extractLsb' 19 5) (w.extractLsb' 5 14)
      (w.extractLsb' 0 5), ?_, rfl, rfl⟩
    refine ext_of_covers [(0, 5), (5, 14), (19, 5), (24, 1), (25, 6), (31, 1)] (by decide) ?_
    simp [encode, word, extract_pack_low, extract_pack_high, Pattern.extract_of_matches h]
  | BR =>
    dsimp only [fixed, bare] at h
    refine ⟨BR (w.extractLsb' 5 5), ?_, rfl, rfl⟩
    refine ext_of_covers [(0, 5), (5, 5), (10, 11), (21, 4), (25, 7)] (by decide) ?_
    simp [encode, word, extract_pack_low, extract_pack_high, Pattern.extract_of_matches h]
  | BLR =>
    dsimp only [fixed, bare] at h
    refine ⟨BLR (w.extractLsb' 5 5), ?_, rfl, rfl⟩
    refine ext_of_covers [(0, 5), (5, 5), (10, 11), (21, 4), (25, 7)] (by decide) ?_
    simp [encode, word, extract_pack_low, extract_pack_high, Pattern.extract_of_matches h]
  | RET =>
    dsimp only [fixed, bare] at h
    refine ⟨RET (w.extractLsb' 5 5), ?_, rfl, rfl⟩
    refine ext_of_covers [(0, 5), (5, 5), (10, 11), (21, 4), (25, 7)] (by decide) ?_
    simp [encode, word, extract_pack_low, extract_pack_high, Pattern.extract_of_matches h]
  | NOP => exact ⟨NOP, h.symm.trans BitVec.and_allOnes, rfl, rfl⟩
  | ADR =>
    dsimp only [fixed, bare] at h
    refine ⟨ADR (w.extractLsb' 29 2) (w.extractLsb' 5 19) (w.extractLsb' 0 5), ?_, rfl, rfl⟩
    refine ext_of_covers [(0, 5), (5, 19), (24, 5), (29, 2), (31, 1)] (by decide) ?_
    simp [encode, word, extract_pack_low, extract_pack_high, Pattern.extract_of_matches h]
  | ADRP =>
    dsimp only [fixed, bare] at h
    refine ⟨ADRP (w.extractLsb' 29 2) (w.extractLsb' 5 19) (w.extractLsb' 0 5), ?_, rfl, rfl⟩
    refine ext_of_covers [(0, 5), (5, 19), (24, 5), (29, 2), (31, 1)] (by decide) ?_
    simp [encode, word, extract_pack_low, extract_pack_high, Pattern.extract_of_matches h]
  | addSub op f =>
    dsimp only [fixed, bare] at h
    refine ⟨addSub op f (w.extractLsb' 22 2) (w.extractLsb' 10 12) (w.extractLsb' 5 5)
      (w.extractLsb' 0 5), ?_, rfl, by cases op <;> cases f <;> rfl⟩
    refine ext_of_covers [(0, 5), (5, 5), (10, 12), (22, 2), (24, 5), (29, 2), (31, 1)]
      (by decide) ?_
    simp [encode, word, extract_pack_low, extract_pack_high, Pattern.extract_of_matches h]
  | moveWide op f =>
    dsimp only [fixed, bare] at h
    refine ⟨moveWide op f (w.extractLsb' 21 2) (w.extractLsb' 5 16) (w.extractLsb' 0 5), ?_, rfl,
      by cases op <;> cases f <;> rfl⟩
    refine ext_of_covers [(0, 5), (5, 16), (21, 2), (23, 6), (29, 2), (31, 1)] (by decide) ?_
    simp [encode, word, extract_pack_low, extract_pack_high, Pattern.extract_of_matches h]
  | mask op f =>
    have hcovers : covers 32
        [(0, 5), (5, 5), (10, 6), (16, 6), (22, 1), (23, 6), (29, 2), (31, 1)] = true := by
      decide
    refine ⟨mask op f ⟨w.extractLsb' 22 1, w.extractLsb' 16 6, w.extractLsb' 10 6⟩
      (w.extractLsb' 5 5) (w.extractLsb' 0 5), ext_of_covers _ hcovers ?_, ?_,
      by cases op <;> cases f <;> rfl⟩
    all_goals
      by_cases hN : comparesN op f = true <;> simp only [fixed, bare, hN] at h <;>
        simp [extracted, encode, word, extract_pack_low, extract_pack_high,
          Pattern.extract_of_matches h, hN]
  | EXTR f =>
    have hcovers : covers 32 [(0, 5), (5, 5), (10, 6), (16, 5), (21, 1), (22, 1), (23, 6), (29, 2),
        (31, 1)] = true := by
      decide
    refine ⟨EXTR f (w.extractLsb' 22 1) (w.extractLsb' 16 5) (w.extractLsb' 10 6)
      (w.extractLsb' 5 5) (w.extractLsb' 0 5), ext_of_covers _ hcovers ?_, ?_,
      by cases f <;> rfl⟩
    · cases f <;> dsimp only [fixed, bare] at h <;>
        simp [encode, word, extract_pack_low, extract_pack_high, Pattern.extract_of_matches h]
    · cases f with
      | W =>
        dsimp only [fixed, bare] at h
        -- the 32-bit entry also compares the top bit of the amount
        have h5 : w.extractLsb' 15 1 = 0#1 := by
          simp [Pattern.extract_of_matches h, encode, word, extract_pack_low, extract_pack_high]
        have hbit : w[15] = false := by
          simpa using congrArg (fun b => b.getLsbD 0) h5
        simp [extracted, Pattern.extract_of_matches h, encode, word, extract_pack_low,
          extract_pack_high, hbit]
      | X =>
        dsimp only [fixed, bare] at h
        simp [extracted, Pattern.extract_of_matches h, encode, word, extract_pack_low,
          extract_pack_high]

/-! ### The table -/

/-- The entries of the data processing with an immediate, in their order. -/
def kInsts4 : List Inst :=
  [EXTR .W 0#1 0#5 0#6 0#5 0#5, EXTR .X 1#1 0#5 0#6 0#5 0#5, logImm .EOR .W, bitField .BFM .W,
    bitField .SBFM .W, bitField .UBFM .X, bitField .BFM .X, logImm .AND .W, bitField .SBFM .X,
    logImm .ANDS .W, bitField .UBFM .W, logImm .ORR .W, logImm .ORR .X, move .MOVN .X,
    move .MOVZ .X, move .MOVK .W, logImm .AND .X, move .MOVZ .W, move .MOVN .W, move .MOVK .X,
    logImm .ANDS .X, logImm .EOR .X, add .ADD .W, add .SUB .W, add .ADDS .W, add .SUBS .X,
    add .SUBS .W, add .SUB .X, add .ADDS .X, add .ADD .X, ADR 0#2 0#19 0#5, ADRP 0#2 0#19 0#5]
where
  logImm (op : MaskInst) (f : Form) : Inst := mask op f ⟨0#1, 0#6, 0#6⟩ 0#5 0#5
  bitField (op : MaskInst) (f : Form) : Inst := mask op f ⟨sf f, 0#6, 0#6⟩ 0#5 0#5
  move (op : MoveWideOp) (f : Form) : Inst := moveWide op f 0#2 0#16 0#5
  add (op : AddSubOp) (f : Form) : Inst := addSub op f 0#2 0#12 0#5 0#5

/-- The entries of the branches. -/
def kInsts5 : List Inst :=
  [NOP, BLR 0#5, BR 0#5, RET 0#5, Bcond 0#19 0#4, CBZ .X 0#19 0#5, CBNZ .W 0#19 0#5,
    CBZ .W 0#19 0#5, CBNZ .X 0#19 0#5, TBZ 0#1 0#5 0#14 0#5, TBNZ 0#1 0#5 0#14 0#5, BL 0#26,
    B 0#26]

/-- All entries of the data processing are those of instructions. -/
theorem TryExtract4_eq : TryExtract4 = kInsts4.map extractor := rfl

end Arm.Inst

/-- The decoder of the entry is here. -/
def embeddedEntry (e : Extractor 32 InstData) : Bool := (e.fill 0#32).iform.embedded

namespace Arm.Inst

/-- The entries of the branches whose decoders are here are those of instructions. -/
theorem filter_TryExtract5 : TryExtract5.filter embeddedEntry = kInsts5.map extractor := rfl

/-- Every entry whose decoder is here is that of an instruction. -/
theorem exists_inst {e : Extractor 32 InstData} (he : e ∈ TryExtract4 ∨ e ∈ TryExtract5)
    (hembedded : embeddedEntry e = true) : ∃ i : Inst, i.extractor = e := by
  rcases he with he | he
  · rw [TryExtract4_eq] at he
    obtain ⟨i, -, hi⟩ := List.mem_map.mp he
    exact ⟨i, hi⟩
  · have hmem : e ∈ TryExtract5.filter embeddedEntry := List.mem_filter.mpr ⟨he, hembedded⟩
    rw [filter_TryExtract5] at hmem
    obtain ⟨i, -, hi⟩ := List.mem_map.mp hmem
    exact ⟨i, hi⟩

/-- The group of an instruction. -/
theorem mem_table (i : Inst) :
    i.encode.extractLsb' 26 3 = 4#3 ∧ i.extractor ∈ TryExtract4 ∨
      i.encode.extractLsb' 26 3 = 5#3 ∧ i.extractor ∈ TryExtract5 := by
  cases i with
  | ADR | ADRP =>
    exact .inl (by simp [encode, word, extract_pack_low, extract_pack_high, extractor, TryExtract4])
  | EXTR f =>
    cases f <;> exact .inl
      (by simp [encode, word, extract_pack_low, extract_pack_high, extractor, TryExtract4])
  | addSub op f | moveWide op f =>
    cases op <;> cases f <;> exact .inl
      (by simp [encode, word, extract_pack_low, extract_pack_high, extractor, TryExtract4])
  | mask op f =>
    cases op <;> cases f <;> exact .inl
      (by simp [encode, word, extract_pack_low, extract_pack_high, extractor, TryExtract4,
        maskClass])
  | CBZ f | CBNZ f =>
    cases f <;> exact .inr
      (by simp [encode, word, extract_pack_low, extract_pack_high, extractor, TryExtract5])
  | _ =>
    exact .inr (by simp [encode, word, extract_pack_low, extract_pack_high, extractor, TryExtract5])

end Arm.Inst

/-! ### What is accepted -/

/-- No word that an entry takes matches an earlier one. -/
theorem conflicts_TryExtract4 : TryExtract4.Pairwise fun e' e =>
    embeddedEntry e = true → e'.pattern.conflicts e.pattern = true := by
  decide +kernel

/-- No word that an entry takes matches an earlier one, where its decoder is here. -/
theorem conflicts_TryExtract5 : TryExtract5.Pairwise fun e' e =>
    embeddedEntry e = true → e'.pattern.conflicts e.pattern = true := by
  decide +kernel

/-- An entry gives its own encoding. -/
theorem iform_fill {e : Extractor 32 InstData} (he : e ∈ TryExtract4 ∨ e ∈ TryExtract5)
    (w : BitVec 32) : (e.fill w).iform = (e.fill 0#32).iform := by
  have hall : ∀ e ∈ TryExtract4 ++ TryExtract5, (e.fill w).iform = (e.fill 0#32).iform := by
    unfold TryExtract4 TryExtract5
    repeat refine List.forall_mem_cons.mpr ⟨rfl, ?_⟩
    exact List.forall_mem_nil _
  exact hall e (List.mem_append.mpr he)

theorem embeddedEntry_TryExtract4 : ∀ e ∈ TryExtract4, embeddedEntry e = true := by
  decide

/-- The three bits that choose the group. -/
theorem index_eq (w : BitVec 32) : ((w >>> 28 &&& 1#32) <<< 2 ||| (w >>> 27 &&& 1#32) <<< 1 |||
    (w >>> 26 &&& 1#32) <<< 0).setWidth 3 = w.extractLsb' 26 3 := by
  apply BitVec.eq_of_getLsbD_eq
  intro i hi
  have h : i = 0 ∨ i = 1 ∨ i = 2 := by omega
  rcases h with rfl | rfl | rfl <;> simp

/-- The group is chosen by three bits of the word. -/
theorem TryExtract_eq (others : BitVec 3 → BitVec 32 → Option InstData) (w : BitVec 32) :
    TryExtract others w = kFirstLevel others (w.extractLsb' 26 3) w :=
  congrArg (kFirstLevel others · w) (index_eq w)

section

variable {o : Others} {w : BitVec 32} {data : InstData} {i : Arm.Inst}

/-- The decoder of every instruction's entry is here. -/
theorem embedded_fill (i : Arm.Inst) (w : BitVec 32) :
    (i.extractor.fill w).iform.embedded = true := by
  rw [i.extractor_fill]
  cases i with
  | CBZ f | CBNZ f | EXTR f => cases f <;> rfl
  | addSub op f | mask op f | moveWide op f => cases op <;> cases f <;> rfl
  | _ => rfl

/-- The words of the instructions are accepted. -/
theorem TryExtract_encode (h : i.extracted = true) :
    TryExtract o.extract i.encode = some i.data := by
  have hmatch : i.extractor.pattern.Matches i.encode := by
    rw [i.extractor_pattern]
    exact Arm.Inst.matches_encode h
  have hembedded : embeddedEntry i.extractor = true := embedded_fill i 0#32
  rw [TryExtract_eq, kFirstLevel]
  rcases i.mem_table with ⟨hindex, hmem⟩ | ⟨hindex, hmem⟩
  · rw [if_pos hindex]
    rw [firstOf_of_mem conflicts_TryExtract4 hmem hembedded hmatch, i.fill_encode]
  · rw [hindex, if_neg (by decide), if_pos rfl]
    rw [firstOf_of_mem conflicts_TryExtract5 hmem hembedded hmatch, i.fill_encode]

/-- What is accepted, as an encoding whose decoder is here, is an instruction. -/
theorem exists_of_TryExtract (h : TryExtract o.extract w = some data)
    (hembedded : data.iform.embedded = true) :
    ∃ i : Arm.Inst, i.encode = w ∧ i.extracted = true ∧ i.data = data := by
  have hentry : ∃ e, (e ∈ TryExtract4 ∨ e ∈ TryExtract5) ∧ e.pattern.Matches w ∧
      e.fill w = data := by
    rw [TryExtract_eq, kFirstLevel] at h
    split_ifs at h with h4 h5
    · obtain ⟨e, he, hx⟩ := exists_of_firstOf h
      exact ⟨e, .inl he, hx⟩
    · obtain ⟨e, he, hx⟩ := exists_of_firstOf h
      exact ⟨e, .inr he, hx⟩
    · rw [o.extract_other _ _ _ h4 h5 h] at hembedded
      cases hembedded
  obtain ⟨e, he, hmatch, rfl⟩ := hentry
  obtain ⟨i, rfl⟩ := Arm.Inst.exists_inst he (by rwa [embeddedEntry, ← iform_fill he w])
  rw [i.extractor_pattern] at hmatch
  obtain ⟨j, hj, hext, hsame⟩ := Arm.Inst.exists_of_matches hmatch
  exact ⟨j, hj, hext, by rw [← j.fill_encode, hsame, hj]⟩

/-- The instructions whose reserved fields are compared are not accepted. -/
theorem TryExtract_eq_none (h : i.extracted = false) : TryExtract o.extract i.encode = none := by
  have hindex : i.encode.extractLsb' 26 3 = 4#3 := by
    rcases i.mem_table with ⟨hindex, -⟩ | ⟨hindex, -⟩
    · exact hindex
    · -- only the data processing with an immediate has reserved fields
      cases i with
      | mask op f =>
        cases op <;>
          simp [Arm.Inst.encode, Arm.word, extract_pack_low, extract_pack_high,
            Arm.maskClass] at hindex
      | EXTR f =>
        simp [Arm.Inst.encode, Arm.word, extract_pack_low, extract_pack_high] at hindex
      | _ => cases h
  rw [Option.eq_none_iff_forall_ne_some]
  intro data hdata
  have hembedded : data.iform.embedded = true := by
    have hfirst := hdata
    rw [TryExtract_eq, kFirstLevel, if_pos hindex] at hfirst
    obtain ⟨e, he, -, rfl⟩ := exists_of_firstOf hfirst
    rw [iform_fill (.inl he)]
    exact embeddedEntry_TryExtract4 e he
  obtain ⟨j, hj, hext, -⟩ := exists_of_TryExtract hdata hembedded
  have hsame := congrArg Arm.decode hj
  rw [Arm.decode_encode, Arm.decode_encode, Option.some.injEq] at hsame
  rw [← hsame, hext] at h
  cases h

/-- **The table accepts exactly the encodings of the architecture**, as what they are, but for
those whose reserved fields an entry compares. -/
theorem TryExtract_eq_some_iff :
    TryExtract o.extract w = some data ∧ data.iform.embedded = true ↔
      ∃ i, Arm.decode w = some i ∧ i.extracted = true ∧ i.data = data := by
  constructor
  · rintro ⟨h, hembedded⟩
    obtain ⟨i, hi, hext, hdata⟩ := exists_of_TryExtract h hembedded
    exact ⟨i, Arm.decode_eq_some_iff.mpr hi, hext, hdata⟩
  · rintro ⟨i, hi, hext, rfl⟩
    rw [← Arm.decode_eq_some_iff.mp hi]
    exact ⟨TryExtract_encode hext, i.fill_encode ▸ embedded_fill i _⟩

end

end Elfconv.AArch64
