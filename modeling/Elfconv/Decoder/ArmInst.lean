/-
Elfconv/Decoder/ArmInst.lean

The instructions of the architecture that process data with an immediate or branch, and their
encodings.

`encode` gives the word of an instruction field by field, the highest first, as the tables of the
architecture do; `decode` takes the tables from the top.  `decode_eq_some_iff` says that they are
inverse to each other.  An instruction may be reserved: it has an encoding, but is undefined.
-/
import Elfconv.Lib.Encoding
import Elfconv.Semantics.BitField

namespace Elfconv.AArch64

open Encoding

/-! ### Instructions -/

namespace Arm

/-- Addition and subtraction of an immediate, with the flags or without. -/
inductive AddSubOp
  | ADD | ADDS | SUB | SUBS
  deriving DecidableEq

/-- The moves of a wide immediate. -/
inductive MoveWideOp
  | MOVN | MOVZ | MOVK
  deriving DecidableEq

/-- The instructions, with their fields. -/
inductive Inst
  | B (imm26 : BitVec 26)
  | BL (imm26 : BitVec 26)
  | Bcond (imm19 : BitVec 19) (cond : BitVec 4)
  | CBZ (f : Form) (imm19 : BitVec 19) (Rt : BitVec 5)
  | CBNZ (f : Form) (imm19 : BitVec 19) (Rt : BitVec 5)
  | TBZ (b5 : BitVec 1) (b40 : BitVec 5) (imm14 : BitVec 14) (Rt : BitVec 5)
  | TBNZ (b5 : BitVec 1) (b40 : BitVec 5) (imm14 : BitVec 14) (Rt : BitVec 5)
  | BR (Rn : BitVec 5)
  | BLR (Rn : BitVec 5)
  | RET (Rn : BitVec 5)
  | NOP
  | ADR (immlo : BitVec 2) (immhi : BitVec 19) (Rd : BitVec 5)
  | ADRP (immlo : BitVec 2) (immhi : BitVec 19) (Rd : BitVec 5)
  | addSub (op : AddSubOp) (f : Form) (shift : BitVec 2) (imm12 : BitVec 12) (Rn Rd : BitVec 5)
  | mask (op : MaskInst) (f : Form) (d : MaskFields) (Rn Rd : BitVec 5)
  | moveWide (op : MoveWideOp) (f : Form) (hw : BitVec 2) (imm16 : BitVec 16) (Rd : BitVec 5)
  | EXTR (f : Form) (N : BitVec 1) (Rm : BitVec 5) (imms : BitVec 6) (Rn Rd : BitVec 5)

/-! ### Encodings -/

/-- The field `sf`. -/
def sf : Form → BitVec 1
  | .W => 0#1
  | .X => 1#1

/-- The fields `op` and `S` of an addition or a subtraction. -/
def AddSubOp.opS : AddSubOp → BitVec 2
  | ADD => 0b00#2
  | ADDS => 0b01#2
  | SUB => 0b10#2
  | SUBS => 0b11#2

/-- The opcode; `0b01` is not allocated. -/
def MoveWideOp.opc : MoveWideOp → BitVec 2
  | MOVN => 0b00#2
  | MOVZ => 0b10#2
  | MOVK => 0b11#2

/-- The fields `opc` of the logical instructions and of the bit-field moves. -/
def maskOpc : MaskInst → BitVec 2
  | .AND | .SBFM => 0b00#2
  | .ORR | .BFM => 0b01#2
  | .EOR | .UBFM => 0b10#2
  | .ANDS => 0b11#2

/-- The bits that tell the logical instructions from the bit-field moves. -/
def maskClass : MaskInst → BitVec 6
  | .AND | .ORR | .EOR | .ANDS => 0b100100#6
  | .SBFM | .BFM | .UBFM => 0b100110#6

/-- A word by its fields, the highest first. -/
def word (fields : List Bits) : BitVec 32 := pack 32 fields.reverse

namespace Inst

/-- The word of an instruction, its fields from the highest bit down. -/
def encode : Inst → BitVec 32
  | B imm26 => word [bits 0#1, bits 0b00101#5, bits imm26]
  | BL imm26 => word [bits 1#1, bits 0b00101#5, bits imm26]
  | Bcond imm19 cond => word [bits 0b01010100#8, bits imm19, bits 0#1, bits cond]
  | CBZ f imm19 Rt => word [bits (sf f), bits 0b011010#6, bits 0#1, bits imm19, bits Rt]
  | CBNZ f imm19 Rt => word [bits (sf f), bits 0b011010#6, bits 1#1, bits imm19, bits Rt]
  | TBZ b5 b40 imm14 Rt =>
      word [bits b5, bits 0b011011#6, bits 0#1, bits b40, bits imm14, bits Rt]
  | TBNZ b5 b40 imm14 Rt =>
      word [bits b5, bits 0b011011#6, bits 1#1, bits b40, bits imm14, bits Rt]
  | BR Rn => word [bits 0b1101011#7, bits 0b0000#4, bits 0b11111000000#11, bits Rn, bits 0#5]
  | BLR Rn => word [bits 0b1101011#7, bits 0b0001#4, bits 0b11111000000#11, bits Rn, bits 0#5]
  | RET Rn => word [bits 0b1101011#7, bits 0b0010#4, bits 0b11111000000#11, bits Rn, bits 0#5]
  | NOP => word [bits 0b11010101000000110010#20, bits 0b0000#4, bits 0b000#3, bits 0b11111#5]
  | ADR immlo immhi Rd => word [bits 0#1, bits immlo, bits 0b10000#5, bits immhi, bits Rd]
  | ADRP immlo immhi Rd => word [bits 1#1, bits immlo, bits 0b10000#5, bits immhi, bits Rd]
  | addSub op f shift imm12 Rn Rd =>
      word [bits (sf f), bits op.opS, bits 0b10001#5, bits shift, bits imm12, bits Rn, bits Rd]
  | mask op f d Rn Rd =>
      word [bits (sf f), bits (maskOpc op), bits (maskClass op), bits d.N, bits d.immr,
        bits d.imms, bits Rn, bits Rd]
  | moveWide op f hw imm16 Rd =>
      word [bits (sf f), bits op.opc, bits 0b100101#6, bits hw, bits imm16, bits Rd]
  | EXTR f N Rm imms Rn Rd =>
      word [bits (sf f), bits 0b00#2, bits 0b100111#6, bits N, bits 0#1, bits Rm, bits imms,
        bits Rn, bits Rd]

end Inst

/-! ### Decoding -/

section

variable (w : BitVec 32)

/-- The width by `sf`, the highest bit. -/
def form : Form := if w.extractLsb' 31 1 = 1#1 then .X else .W

/-- Addition and subtraction, by the bits 30 and 29. -/
def decodeAddSub : Inst :=
  let op := if w.extractLsb' 29 2 = 0b00#2 then AddSubOp.ADD
    else if w.extractLsb' 29 2 = 0b01#2 then .ADDS
    else if w.extractLsb' 29 2 = 0b10#2 then .SUB
    else .SUBS
  .addSub op (form w) (w.extractLsb' 22 2) (w.extractLsb' 10 12) (w.extractLsb' 5 5)
    (w.extractLsb' 0 5)

/-- The instructions with `N`, `immr` and `imms`. -/
def decodeMask (op : MaskInst) : Inst :=
  .mask op (form w) ⟨w.extractLsb' 22 1, w.extractLsb' 16 6, w.extractLsb' 10 6⟩
    (w.extractLsb' 5 5) (w.extractLsb' 0 5)

/-- The logical instructions, by the bits 30 and 29. -/
def decodeLogical : Inst :=
  decodeMask w (if w.extractLsb' 29 2 = 0b00#2 then .AND
    else if w.extractLsb' 29 2 = 0b01#2 then .ORR
    else if w.extractLsb' 29 2 = 0b10#2 then .EOR
    else .ANDS)

/-- The bit-field moves; the fourth opcode is not allocated. -/
def decodeBitField : Option Inst :=
  if w.extractLsb' 29 2 = 0b00#2 then some (decodeMask w .SBFM)
  else if w.extractLsb' 29 2 = 0b01#2 then some (decodeMask w .BFM)
  else if w.extractLsb' 29 2 = 0b10#2 then some (decodeMask w .UBFM)
  else none

/-- The wide moves; the second opcode is not allocated. -/
def decodeMoveWide : Option Inst :=
  let of (op : MoveWideOp) : Inst :=
    .moveWide op (form w) (w.extractLsb' 21 2) (w.extractLsb' 5 16) (w.extractLsb' 0 5)
  if w.extractLsb' 29 2 = 0b00#2 then some (of .MOVN)
  else if w.extractLsb' 29 2 = 0b10#2 then some (of .MOVZ)
  else if w.extractLsb' 29 2 = 0b11#2 then some (of .MOVK)
  else none

/-- `EXTR` alone is allocated in its group. -/
def decodeExtract : Option Inst :=
  if w.extractLsb' 29 2 = 0b00#2 ∧ w.extractLsb' 21 1 = 0#1 then
    some (.EXTR (form w) (w.extractLsb' 22 1) (w.extractLsb' 16 5) (w.extractLsb' 10 6)
      (w.extractLsb' 5 5) (w.extractLsb' 0 5))
  else none

/-- Data processing with an immediate. -/
def decodeImmediate : Option Inst :=
  if w.extractLsb' 24 5 = 0b10000#5 then
    some (if w.extractLsb' 31 1 = 0#1 then
      .ADR (w.extractLsb' 29 2) (w.extractLsb' 5 19) (w.extractLsb' 0 5)
    else .ADRP (w.extractLsb' 29 2) (w.extractLsb' 5 19) (w.extractLsb' 0 5))
  else if w.extractLsb' 24 5 = 0b10001#5 then some (decodeAddSub w)
  else if w.extractLsb' 23 6 = 0b100100#6 then some (decodeLogical w)
  else if w.extractLsb' 23 6 = 0b100101#6 then decodeMoveWide w
  else if w.extractLsb' 23 6 = 0b100110#6 then decodeBitField w
  else if w.extractLsb' 23 6 = 0b100111#6 then decodeExtract w
  else none

/-- Unconditional branches to a register. -/
def decodeBranchReg : Option Inst :=
  if w.extractLsb' 10 11 = 0b11111000000#11 ∧ w.extractLsb' 0 5 = 0#5 then
    if w.extractLsb' 21 4 = 0b0000#4 then some (.BR (w.extractLsb' 5 5))
    else if w.extractLsb' 21 4 = 0b0001#4 then some (.BLR (w.extractLsb' 5 5))
    else if w.extractLsb' 21 4 = 0b0010#4 then some (.RET (w.extractLsb' 5 5))
    else none
  else none

/-- Branches. -/
def decodeBranch : Option Inst :=
  if w.extractLsb' 26 5 = 0b00101#5 then
    some (if w.extractLsb' 31 1 = 0#1 then .B (w.extractLsb' 0 26) else .BL (w.extractLsb' 0 26))
  else if w.extractLsb' 25 6 = 0b011010#6 then
    some (if w.extractLsb' 24 1 = 0#1 then .CBZ (form w) (w.extractLsb' 5 19) (w.extractLsb' 0 5)
      else .CBNZ (form w) (w.extractLsb' 5 19) (w.extractLsb' 0 5))
  else if w.extractLsb' 25 6 = 0b011011#6 then
    let b5 := w.extractLsb' 31 1
    let b40 := w.extractLsb' 19 5
    some (if w.extractLsb' 24 1 = 0#1 then .TBZ b5 b40 (w.extractLsb' 5 14) (w.extractLsb' 0 5)
      else .TBNZ b5 b40 (w.extractLsb' 5 14) (w.extractLsb' 0 5))
  else if w.extractLsb' 25 7 = 0b1101011#7 then decodeBranchReg w
  else if w.extractLsb' 24 8 = 0b01010100#8 ∧ w.extractLsb' 4 1 = 0#1 then
    some (.Bcond (w.extractLsb' 5 19) (w.extractLsb' 0 4))
  else if w = 0xd503201f#32 then some .NOP
  else none

/-- The instruction of a word in the two groups; nothing for the words of the others. -/
def decode : Option Inst :=
  if w.extractLsb' 26 3 = 0b100#3 then decodeImmediate w
  else if w.extractLsb' 26 3 = 0b101#3 then decodeBranch w
  else none

end

/-! ### Round trip -/

theorem eq_of_ne_bit : ∀ {b : BitVec 1}, b ≠ 0#1 → b = 1#1 := by decide

/-- The form is read from `sf`. -/
theorem sf_form (w : BitVec 32) : sf (form w) = w.extractLsb' 31 1 := by
  unfold form
  by_cases h : w.extractLsb' 31 1 = 1#1
  · rw [if_pos h, h]
    rfl
  · rw [if_neg h]
    by_contra hne
    exact h (eq_of_ne_bit fun h0 => hne h0.symm)

theorem form_of_sf {w : BitVec 32} {f : Form} (h : w.extractLsb' 31 1 = sf f) : form w = f := by
  unfold form
  rw [h]
  cases f <;> rfl

/-- An addition or subtraction is read back. -/
theorem decode_encode_addSub (op : AddSubOp) (f : Form) (shift : BitVec 2) (imm12 : BitVec 12)
    (Rn Rd : BitVec 5) :
    decode (Inst.addSub op f shift imm12 Rn Rd).encode = some (.addSub op f shift imm12 Rn Rd) := by
  generalize he : (Inst.addSub op f shift imm12 Rn Rd).encode = e
  have hfields : e.extractLsb' 31 1 = sf f ∧ e.extractLsb' 29 2 = op.opS ∧
      e.extractLsb' 26 3 = 0b100#3 ∧ e.extractLsb' 24 5 = 0b10001#5 ∧
      e.extractLsb' 22 2 = shift ∧ e.extractLsb' 10 12 = imm12 ∧ e.extractLsb' 5 5 = Rn ∧
      e.extractLsb' 0 5 = Rd := by
    simp [← he, Inst.encode, word, extract_pack_low, extract_pack_high]
  obtain ⟨hsf, hop, hgroup, hclass, hshift, himm12, hRn, hRd⟩ := hfields
  rw [decode, if_pos hgroup, decodeImmediate, hclass, if_neg (by decide), if_pos rfl, decodeAddSub,
    form_of_sf hsf, hop, hshift, himm12, hRn, hRd]
  cases op <;> rfl

/-- A bit-field move or logical instruction is read back. -/
theorem decode_encode_mask (op : MaskInst) (f : Form) (d : MaskFields) (Rn Rd : BitVec 5) :
    decode (Inst.mask op f d Rn Rd).encode = some (.mask op f d Rn Rd) := by
  generalize he : (Inst.mask op f d Rn Rd).encode = e
  have hfields : e.extractLsb' 31 1 = sf f ∧ e.extractLsb' 29 2 = maskOpc op ∧
      e.extractLsb' 26 3 = (maskClass op).extractLsb' 3 3 ∧
      e.extractLsb' 24 5 = (maskClass op).extractLsb' 1 5 ∧ e.extractLsb' 23 6 = maskClass op ∧
      e.extractLsb' 22 1 = d.N ∧ e.extractLsb' 16 6 = d.immr ∧ e.extractLsb' 10 6 = d.imms ∧
      e.extractLsb' 5 5 = Rn ∧ e.extractLsb' 0 5 = Rd := by
    simp [← he, Inst.encode, word, extract_pack_low, extract_pack_high]
  obtain ⟨hsf, hopc, hgroup, h24, hclass, hN, himmr, himms, hRn, hRd⟩ := hfields
  have hmask (op' : MaskInst) : decodeMask e op' = .mask op' f d Rn Rd := by
    rw [decodeMask, form_of_sf hsf, hN, himmr, himms, hRn, hRd]
  rw [decode, hgroup, decodeImmediate, h24, hclass, decodeLogical, decodeBitField, hopc]
  simp only [hmask]
  cases op <;> rfl

/-- A move of an immediate is read back. -/
theorem decode_encode_moveWide (op : MoveWideOp) (f : Form) (hw : BitVec 2) (imm16 : BitVec 16)
    (Rd : BitVec 5) :
    decode (Inst.moveWide op f hw imm16 Rd).encode = some (.moveWide op f hw imm16 Rd) := by
  generalize he : (Inst.moveWide op f hw imm16 Rd).encode = e
  have hfields : e.extractLsb' 31 1 = sf f ∧ e.extractLsb' 29 2 = op.opc ∧
      e.extractLsb' 26 3 = 0b100#3 ∧ e.extractLsb' 24 5 = 0b10010#5 ∧
      e.extractLsb' 23 6 = 0b100101#6 ∧ e.extractLsb' 21 2 = hw ∧ e.extractLsb' 5 16 = imm16 ∧
      e.extractLsb' 0 5 = Rd := by
    simp [← he, Inst.encode, word, extract_pack_low, extract_pack_high]
  obtain ⟨hsf, hopc, hgroup, h24, hclass, hhw, himm16, hRd⟩ := hfields
  rw [decode, if_pos hgroup, decodeImmediate, h24, if_neg (by decide), if_neg (by decide), hclass,
    if_neg (by decide), if_pos rfl, decodeMoveWide, form_of_sf hsf, hopc, hhw, himm16, hRd]
  cases op <;> rfl

/-- Every instruction is decoded from its word. -/
theorem decode_encode (i : Inst) : decode i.encode = some i := by
  cases i with
  | NOP => rfl
  | B | BL | Bcond | TBZ | TBNZ | BR | BLR | RET =>
    simp [Inst.encode, word, extract_pack_low, extract_pack_high, decode, decodeBranch,
      decodeBranchReg]
  | CBZ f | CBNZ f =>
    cases f <;>
      simp [Inst.encode, word, extract_pack_low, extract_pack_high, decode, decodeBranch, form, sf]
  | ADR | ADRP =>
    simp [Inst.encode, word, extract_pack_low, extract_pack_high, decode, decodeImmediate]
  | addSub op f shift imm12 Rn Rd => exact decode_encode_addSub op f shift imm12 Rn Rd
  | mask op f d Rn Rd => exact decode_encode_mask op f d Rn Rd
  | moveWide op f hw imm16 Rd => exact decode_encode_moveWide op f hw imm16 Rd
  | EXTR f =>
    cases f <;>
      simp [Inst.encode, word, extract_pack_low, extract_pack_high, decode, decodeImmediate,
        decodeExtract, form, sf]

section

variable {w : BitVec 32} {i : Inst}

/-- A branch to a register has the word it was read from. -/
theorem encode_branchReg (htop : w.extractLsb' 25 7 = 0b1101011#7)
    (h : decodeBranchReg w = some i) : i.encode = w := by
  unfold decodeBranchReg at h
  split_ifs at h with hfixed h0 h1 h2
  all_goals
    cases h
    refine ext_of_covers [(0, 5), (5, 5), (10, 11), (21, 4), (25, 7)] (by decide) ?_
    simp [Inst.encode, word, extract_pack_low, extract_pack_high, *]

/-- A branch has the word it was read from. -/
theorem encode_branch (h : decodeBranch w = some i) : i.encode = w := by
  unfold decodeBranch at h
  split at h
  · split_ifs at h with h31
    all_goals
      cases h
      refine ext_of_covers [(0, 26), (26, 5), (31, 1)] (by decide) ?_
      simp [Inst.encode, word, extract_pack_low, extract_pack_high, eq_of_ne_bit, *]
  split at h
  · split_ifs at h with h24
    all_goals
      cases h
      refine ext_of_covers [(0, 5), (5, 19), (24, 1), (25, 6), (31, 1)] (by decide) ?_
      simp [Inst.encode, word, extract_pack_low, extract_pack_high, sf_form, eq_of_ne_bit, *]
  split at h
  · simp only at h
    split_ifs at h with h24
    all_goals
      cases h
      refine ext_of_covers
        [(0, 5), (5, 14), (19, 5), (24, 1), (25, 6), (31, 1)] (by decide) ?_
      simp [Inst.encode, word, extract_pack_low, extract_pack_high, eq_of_ne_bit, *]
  split at h
  · exact encode_branchReg ‹_› h
  split at h
  · cases h
    refine ext_of_covers [(0, 4), (4, 1), (5, 19), (24, 8)] (by decide) ?_
    simp [Inst.encode, word, extract_pack_low, extract_pack_high, *]
  split at h
  · cases h
    rw [‹w = _›]
    decide
  · cases h

/-- A bit-field move or logical instruction has the word it was read from. -/
theorem encode_mask {op : MaskInst} (hclass : w.extractLsb' 23 6 = maskClass op)
    (hopc : w.extractLsb' 29 2 = maskOpc op) : (decodeMask w op).encode = w := by
  refine ext_of_covers
    [(0, 5), (5, 5), (10, 6), (16, 6), (22, 1), (23, 6), (29, 2), (31, 1)]
    (by decide) ?_
  simp [decodeMask, Inst.encode, word, extract_pack_low, extract_pack_high, sf_form, *]

theorem ne_all : ∀ {b : BitVec 2}, b ≠ 0b00#2 → b ≠ 0b01#2 → b ≠ 0b10#2 → b = 0b11#2 := by decide

/-- Data processing with an immediate has the word it was read from. -/
theorem encode_immediate (h : decodeImmediate w = some i) : i.encode = w := by
  -- the classes in the order of the architecture's table
  unfold decodeImmediate at h
  split at h
  · split_ifs at h with h31
    all_goals
      cases h
      refine ext_of_covers [(0, 5), (5, 19), (24, 5), (29, 2), (31, 1)] (by decide) ?_
      simp [Inst.encode, word, extract_pack_low, extract_pack_high, eq_of_ne_bit, *]
  split at h
  · cases h
    refine ext_of_covers
      [(0, 5), (5, 5), (10, 12), (22, 2), (24, 5), (29, 2), (31, 1)] (by decide) ?_
    unfold decodeAddSub
    split_ifs with h0 h1 h2
    all_goals
      simp [Inst.encode, word, extract_pack_low, extract_pack_high, sf_form, AddSubOp.opS,
        ne_all, *]
  split at h
  · cases h
    unfold decodeLogical
    split_ifs with h0 h1 h2
    · exact encode_mask ‹_› h0
    · exact encode_mask ‹_› h1
    · exact encode_mask ‹_› h2
    · exact encode_mask ‹_› (ne_all h0 h1 h2)
  split at h
  · unfold decodeMoveWide at h
    split_ifs at h with h0 h2 h3
    all_goals
      cases h
      refine ext_of_covers
        [(0, 5), (5, 16), (21, 2), (23, 6), (29, 2), (31, 1)] (by decide) ?_
      simp [Inst.encode, word, extract_pack_low, extract_pack_high, sf_form, MoveWideOp.opc, *]
  split at h
  · unfold decodeBitField at h
    split_ifs at h with h0 h1 h2
    all_goals
      cases h
      exact encode_mask ‹_› ‹_›
  split at h
  · unfold decodeExtract at h
    split_ifs at h with hfixed
    cases h
    refine ext_of_covers
      [(0, 5), (5, 5), (10, 6), (16, 5), (21, 1), (22, 1), (23, 6), (29, 2), (31, 1)]
      (by decide) ?_
    simp [Inst.encode, word, extract_pack_low, extract_pack_high, sf_form, *]
  · cases h

/-- **`decode` and `encode` are inverse to each other.** -/
theorem decode_eq_some_iff : decode w = some i ↔ i.encode = w := by
  constructor
  · intro h
    unfold decode at h
    split_ifs at h
    · exact encode_immediate h
    · exact encode_branch h
  · rintro rfl
    exact decode_encode i

end

end Arm

end Elfconv.AArch64
