/-
Elfconv/Semantics/Indexed.lean

Pre- and post-indexed loads and stores, and what the architecture makes of them.

The address operand of the semantics function has the displacement before the access or none, and
the new value of the base is lifted after the call from another operand.
-/
import Elfconv.Lib.ByteMemory
import Elfconv.Semantics.Execute
import Elfconv.Semantics.Vectors

namespace Elfconv.AArch64

open ByteMemory

variable {n : ℕ}

/-! ### Semantics functions -/

/-- The functions that read `k` elements of memory, for registers of one class. -/
def callLoad (n k : ℕ) (erc : ERC) (f : BitVec (n * 8) → BitVec (ERCSize erc)) : Sema :=
  fun args mem =>
    match args with
    | [.word addr] => some ((loadWords n mem addr k).map fun x => ⟨erc, f x⟩, mem)
    | _ => none

/-- The functions that write an element of memory. -/
def callStore (n : ℕ) (f : Value → BitVec (n * 8)) : Sema := fun args mem =>
  match args with
  | [.value src, .word addr] => some ([], storeWords n mem addr [f src])
  | _ => none

/-- The functions that write a vector of two elements. -/
def callStorePair (n : ℕ) (f : Value → BitVec (n * 8)) : Sema := fun args mem =>
  match args with
  | [.value src1, .value src2, .word addr] => some ([], storeWords n mem addr [f src1, f src2])
  | _ => none

/-- The low bits of a value. -/
def Value.read (n : ℕ) (v : Value) : BitVec (n * 8) := v.bits.setWidth _

/-- `STP_32` stores the low words of two registers. -/
def StorePairUpdateIndex32 : Sema := callStorePair 4 (Value.read 4)

/-- `STP_64` stores two registers. -/
def StorePairUpdateIndex64 : Sema := callStorePair 8 (Value.read 8)

/-- `STP_S` stores the low words of two vectors. -/
def StorePairUpdateIndexS : Sema := callStorePair 4 (Value.read 4)

/-- `STP_D` stores the low halves of two vectors. -/
def StorePairUpdateIndexD : Sema := callStorePair 8 (Value.read 8)

/-- On x86-64 the elements are those of vectors of two words, and only the first is taken. -/
def STP_Q_UPDATE_ADDR (x86_64 : Bool) : Sema :=
  callStorePair 16 fun src =>
    if x86_64 then (src.bits.setWidth 64).setWidth _ else Value.read 16 src

/-- The stores of the low `n` bytes of a register. -/
def StoreUpdateIndex (n : ℕ) : Sema := callStore n (Value.read n)

/-- `STR_B` stores the low byte of a vector. -/
def StoreUpdateIndex_S8 : Sema := callStore 1 (Value.read 1)

/-- `STR_H` stores the low two bytes of a vector. -/
def StoreUpdateIndex_S16 : Sema := callStore 2 (Value.read 2)

/-- `STR_S` stores the low word of a vector. -/
def StoreUpdateIndex_F32 : Sema := callStore 4 (Value.read 4)

/-- `STR_D` stores the low half of a vector. -/
def StoreUpdateIndex_F64 : Sema := callStore 8 (Value.read 8)

/-- `STR_Q` stores a whole vector. -/
def STR_Q_UpdateIndex : Sema := callStore 16 (Value.read 16)

/-- One element of a vector is written. -/
def ST1_UNIT_POSTINDEX (n : ℕ) : Sema := fun args mem =>
  match args with
  | [.value src, .word index, .word addr] =>
      some ([], store n mem addr (src.bits.extractLsb' (index.toNat * (n * 8)) (n * 8)))
  | _ => none

/-- Two vectors are stored one after the other. -/
def ST1_PAIR_POSTINDEX (n : ℕ) : Sema := callStorePair n (Value.read n)

/-- `LDP_32` loads two words, zero-extended. -/
def LoadPairUpdateIndex32 : Sema := callLoad 4 2 .RegX fun x => x.setWidth _

/-- `LDP_64` loads two registers. -/
def LoadPairUpdateIndex64 : Sema := callLoad 8 2 .RegX fun x => x.setWidth _

/-- `LDPSW_64` loads two words, sign-extended. -/
def LoadSignedPairUpdateIndex64 : Sema := callLoad 4 2 .RegX fun x => x.signExtend _

/-- The loads that zero-extend to a word. -/
def LoadMemUpdateIndex_32 (n : ℕ) : Sema := callLoad n 1 .RegW fun x => x.setWidth _

/-- The loads that zero-extend to a whole register. -/
def LoadMemUpdateIndex_64 (n : ℕ) : Sema := callLoad n 1 .RegX fun x => x.setWidth _

/-- The loads that sign-extend to a word. -/
def LoadSExtUpdateIndex32 (n : ℕ) : Sema := callLoad n 1 .RegW fun x => x.signExtend _

/-- The loads that sign-extend to a whole register. -/
def LoadSExtUpdateIndex64 (n : ℕ) : Sema := callLoad n 1 .RegX fun x => x.signExtend _

/-- A word is loaded to a vector. -/
def LDR_S_UpdateIndex : Sema := callLoad 4 1 .RegS fun x => x.setWidth _

/-- Eight bytes are loaded to a vector. -/
def LDR_D_UpdateIndex : Sema := callLoad 8 1 .RegD fun x => x.setWidth _

/-- A whole vector is loaded. -/
def LDR_Q_UpdateIndex : Sema := callLoad 16 1 .RegQ fun x => x.setWidth _

/-- A word is loaded to each of two vectors. -/
def LDP_S_UpdateIndex : Sema := callLoad 4 2 .RegS fun x => x.setWidth _

/-- Eight bytes are loaded to each of two vectors. -/
def LDP_D_UpdateIndex : Sema := callLoad 8 2 .RegD fun x => x.setWidth _

/-- Two whole vectors are loaded. -/
def LDP_Q_UpdateIndex : Sema := callLoad 16 2 .RegQ fun x => x.setWidth _

/-- `LD1_SINGLE_POSTINDEX_8` and so on, on the memory of an arrangement. -/
def LD1_SINGLE_POSTINDEX (a : Arrangement) : Sema :=
  callLoad (a.lanes * a.esize / 8) 1 (a.regClass false) fun x => x.setWidth _

/-! ### Instructions -/

/-- Whether the base is updated before the access or after it. -/
inductive Index
  | PRE | POST
  deriving DecidableEq

/-- The fields of the accesses to two registers. -/
structure PairFields where
  imm7 : BitVec 7
  Rt2 : BitVec 5
  Rn : BitVec 5
  Rt : BitVec 5

/-- The fields of the accesses to one register, whose displacement is not scaled. -/
structure Imm9Fields where
  imm9 : BitVec 9
  Rn : BitVec 5
  Rt : BitVec 5

/-- The fields of the accesses to whole vectors and to their elements. -/
structure StructFields where
  Q : BitVec 1
  S : BitVec 1
  size : BitVec 2
  Rn : BitVec 5
  Rt : BitVec 5

/-- The stores of two registers. -/
inductive StorePair
  | STP_32 | STP_64 | STP_S | STP_D | STP_Q

/-- The loads of two registers. -/
inductive LoadPair
  | LDP_32 | LDP_64 | LDPSW_64 | LDP_S | LDP_D | LDP_Q

/-- The stores of one register. -/
inductive StoreOne
  | STR_32 | STR_64 | STR_B | STR_H | STR_S | STR_D | STR_Q | STRB_32 | STRH_32

/-- The loads of one register. -/
inductive LoadOne
  | LDR_32 | LDR_64 | LDRB_32 | LDRH_32 | LDRSB_32 | LDRSB_64 | LDRSH_32 | LDRSH_64 | LDRSW_64
  | LDR_S | LDR_D | LDR_Q

/-- The elements of `ST1` to a single one. -/
inductive StructElem
  | B | H | S | D

/-- The pre- and post-indexed instructions that have a decoder and a semantics function.  The number
31 of an index register is that of the immediate form. -/
inductive Indexed
  | STP (i : StorePair) (m : Index) (d : PairFields)
  | LDP (i : LoadPair) (m : Index) (d : PairFields)
  | STR (i : StoreOne) (m : Index) (d : Imm9Fields)
  | LDR (i : LoadOne) (m : Index) (d : Imm9Fields)
  | ST1_ASISDLSEP_I2_I2 (d : StructFields)
  | LD1_ASISDLSEP_I1_I1 (d : StructFields)
  | ST1_ASISDLSOP_I (e : StructElem) (d : StructFields)
  | ST1_ASISDLSOP_R (e : StructElem) (d : StructFields) (Rm : BitVec 5) (h : Rm ≠ 31#5)

/-! ### Decoders -/

/-- `K_REG_Q` -/
def K_REG_Q (x86_64 : Bool) : ERC := if x86_64 then .Reg2D else .RegQ

/-- The register that is updated: none where it is one of those that are loaded. -/
def updatedReg (base_reg : BitVec 5) (index_reg : Option (BitVec 5)) (disp : BitVec 64)
    (dest_regs : List (BitVec 5)) : Option IndexUpdate :=
  if base_reg ≠ 31#5 ∧ base_reg ∈ dest_regs then none else some ⟨base_reg, index_reg, disp⟩

/-- `AddPreIndexMemOp` and `AddPostIndexMemOp`, after the operands before. -/
def AddIndexMemOp (operands : List SemaOperand) (base_reg : BitVec 5) (disp : BitVec 64)
    (dest_regs : List (BitVec 5)) : Index → SemaInst
  | .PRE => ⟨operands ++ [.address base_reg disp], some (updatedReg base_reg none disp dest_regs)⟩
  | .POST => ⟨operands ++ [.address base_reg 0#64], some (updatedReg base_reg none disp dest_regs)⟩

/-- `AddPostIndexMemOp` with a register. -/
def AddPostIndexMemOp (operands : List SemaOperand) (base_reg disp_reg : BitVec 5) : SemaInst :=
  ⟨operands ++ [.address base_reg 0#64], some (updatedReg base_reg (some disp_reg) 0#64 [])⟩

namespace StorePair

/-- The class under which the decoder adds the registers. -/
def rclass (x86_64 : Bool) : StorePair → ERC
  | STP_32 => .RegW
  | STP_64 => .RegX
  | STP_S => .RegS
  | STP_D => .RegD
  | STP_Q => K_REG_Q x86_64

/-- The scale of the displacement. -/
def scale : StorePair → ℕ
  | STP_32 | STP_S => 2
  | STP_64 | STP_D => 3
  | STP_Q => 4

/-- The semantics function that the name of the instruction stands for. -/
def isel (x86_64 : Bool) : StorePair → Sema
  | STP_32 => StorePairUpdateIndex32
  | STP_64 => StorePairUpdateIndex64
  | STP_S => StorePairUpdateIndexS
  | STP_D => StorePairUpdateIndexD
  | STP_Q => STP_Q_UPDATE_ADDR x86_64

end StorePair

namespace LoadPair

/-- The class under which the decoder adds the registers. -/
def rclass (x86_64 : Bool) : LoadPair → ERC
  | LDP_32 => .RegW
  | LDP_64 | LDPSW_64 => .RegX
  | LDP_S => .RegS
  | LDP_D => .RegD
  | LDP_Q => K_REG_Q x86_64

/-- The scale of the displacement. -/
def scale : LoadPair → ℕ
  | LDP_32 | LDPSW_64 | LDP_S => 2
  | LDP_64 | LDP_D => 3
  | LDP_Q => 4

/-- Whether two equal registers are rejected. -/
def rejectsEqual : LoadPair → Bool
  | LDP_32 | LDP_64 | LDPSW_64 => true
  | LDP_S | LDP_D | LDP_Q => false

/-- The registers that may not be updated as well. -/
def dest_regs (d : PairFields) : LoadPair → Index → List (BitVec 5)
  | LDP_32, .PRE | LDP_64, .PRE | LDPSW_64, .PRE => [d.Rt, d.Rt2]
  | _, _ => []

/-- The semantics function that the name of the instruction stands for. -/
def isel : LoadPair → Sema
  | LDP_32 => LoadPairUpdateIndex32
  | LDP_64 => LoadPairUpdateIndex64
  | LDPSW_64 => LoadSignedPairUpdateIndex64
  | LDP_S => LDP_S_UpdateIndex
  | LDP_D => LDP_D_UpdateIndex
  | LDP_Q => LDP_Q_UpdateIndex

end LoadPair

namespace StoreOne

/-- The class under which the decoder adds the register. -/
def rclass (x86_64 : Bool) : StoreOne → ERC
  | STR_32 | STRB_32 | STRH_32 => .RegW
  | STR_64 => .RegX
  | STR_B => .RegB
  | STR_H => .RegH
  | STR_S => .RegS
  | STR_D => .RegD
  | STR_Q => K_REG_Q x86_64

/-- The register that may not be updated as well; only two of the stores name theirs. -/
def dest_regs (d : Imm9Fields) : StoreOne → List (BitVec 5)
  | STRB_32 | STRH_32 => [d.Rt]
  | _ => []

/-- The semantics function that the name of the instruction stands for. -/
def isel : StoreOne → Sema
  | STR_32 => StoreUpdateIndex 4
  | STR_64 => StoreUpdateIndex 8
  | STR_B => StoreUpdateIndex_S8
  | STR_H => StoreUpdateIndex_S16
  | STR_S => StoreUpdateIndex_F32
  | STR_D => StoreUpdateIndex_F64
  | STR_Q => STR_Q_UpdateIndex
  | STRB_32 => StoreUpdateIndex 1
  | STRH_32 => StoreUpdateIndex 2

end StoreOne

namespace LoadOne

/-- The class under which the decoder adds the register. -/
def rclass (x86_64 : Bool) : LoadOne → ERC
  | LDR_32 | LDRB_32 | LDRH_32 | LDRSB_32 | LDRSH_32 => .RegW
  | LDR_64 | LDRSB_64 | LDRSH_64 | LDRSW_64 => .RegX
  | LDR_S => .RegS
  | LDR_D => .RegD
  | LDR_Q => K_REG_Q x86_64

/-- The register that may not be updated as well. -/
def dest_regs (d : Imm9Fields) : LoadOne → List (BitVec 5)
  | LDR_S | LDR_D | LDR_Q => []
  | _ => [d.Rt]

/-- The semantics function that the name of the instruction stands for. -/
def isel : LoadOne → Sema
  | LDR_32 => LoadMemUpdateIndex_32 4
  | LDR_64 => LoadMemUpdateIndex_64 8
  | LDRB_32 => LoadMemUpdateIndex_32 1
  | LDRH_32 => LoadMemUpdateIndex_32 2
  | LDRSB_32 => LoadSExtUpdateIndex32 1
  | LDRSB_64 => LoadSExtUpdateIndex64 1
  | LDRSH_32 => LoadSExtUpdateIndex32 2
  | LDRSH_64 => LoadSExtUpdateIndex64 2
  | LDRSW_64 => LoadSExtUpdateIndex64 4
  | LDR_S => LDR_S_UpdateIndex
  | LDR_D => LDR_D_UpdateIndex
  | LDR_Q => LDR_Q_UpdateIndex

end LoadOne

namespace StructFields

variable (d : StructFields)

/-- The bits of the accessed part of a vector. -/
def data_size : ℕ := if d.Q = 1#1 then 128 else 64

/-- The bits of an element. -/
def esize : ℕ := 8 <<< d.size.toNat

/-- The bytes of as many registers. -/
def total_num_bytes (regs : ℕ) : BitVec 64 :=
  BitVec.ofNat 64 (d.esize / 8 * regs * (d.data_size / d.esize))

/-- The index of an element. -/
def index : StructElem → BitVec 64
  | .B => d.Q.setWidth 64 <<< 3 ||| d.S.setWidth 64 <<< 2 ||| d.size.setWidth 64
  | .H => d.Q.setWidth 64 <<< 2 ||| d.S.setWidth 64 <<< 1 ||| d.size.setWidth 64 >>> 1
  | .S => d.Q.setWidth 64 <<< 1 ||| d.S.setWidth 64
  | .D => d.Q.setWidth 64

end StructFields

namespace StructElem

/-- The bytes of an element. -/
def bytes : StructElem → ℕ
  | B => 1
  | H => 2
  | S => 4
  | D => 8

/-- The class under which the decoder adds the vector. -/
def rclass : StructElem → ERC
  | B => .Reg16B
  | H => .Reg8H
  | S => .Reg4S
  | D => .Reg2D

end StructElem

/-- A register that the semantics function reads. -/
def readReg (rclass : ERC) (r : BitVec 5) : SemaOperand := .reg .kActionRead rclass .kUseAsValue r

/-- A register that its result goes to. -/
def writeReg (rclass : ERC) (r : BitVec 5) : SemaOperand := .reg .kActionWrite rclass .kUseAsValue r

namespace Indexed

/-- The instruction; nothing for what is rejected. -/
def TryDecode (x86_64 : Bool) : Indexed → Option SemaInst
  | STP i m d =>
      let rclass := i.rclass x86_64
      some (AddIndexMemOp [readReg rclass d.Rt, readReg rclass d.Rt2] d.Rn
        (d.imm7.signExtend 64 <<< i.scale) [] m)
  | LDP i m d =>
      let rclass := i.rclass x86_64
      if i.rejectsEqual ∧ d.Rt = d.Rt2 then none
      else some (AddIndexMemOp [writeReg rclass d.Rt, writeReg rclass d.Rt2] d.Rn
        (d.imm7.signExtend 64 <<< i.scale) (i.dest_regs d m) m)
  | STR i m d =>
      some (AddIndexMemOp [readReg (i.rclass x86_64) d.Rt] d.Rn (d.imm9.signExtend 64)
        (i.dest_regs d) m)
  | LDR i m d =>
      some (AddIndexMemOp [writeReg (i.rclass x86_64) d.Rt] d.Rn (d.imm9.signExtend 64)
        (i.dest_regs d) m)
  | ST1_ASISDLSEP_I2_I2 d =>
      -- the registers are noted as written
      let rclass := if d.Q = 1#1 then K_REG_Q x86_64 else .RegD
      some (AddIndexMemOp [writeReg rclass d.Rt, writeReg rclass (d.Rt + 1#5)] d.Rn
        (d.total_num_bytes 2) [] .POST)
  | LD1_ASISDLSEP_I1_I1 d => do
      let rclass ← ArrangementRegClass d.data_size d.esize false
      return AddIndexMemOp [writeReg rclass d.Rt] d.Rn (d.total_num_bytes 1) [] .POST
  | ST1_ASISDLSOP_I e d =>
      some (AddIndexMemOp [readReg e.rclass d.Rt, .imm (d.index e)] d.Rn
        (BitVec.ofNat 64 e.bytes) [] .POST)
  | ST1_ASISDLSOP_R e d Rm _ =>
      some (AddPostIndexMemOp [readReg e.rclass d.Rt, .imm (d.index e)] d.Rn Rm)

/-- The `DEF_ISEL` of the name. -/
def isel (x86_64 : Bool) : Indexed → Sema
  | STP i _ _ => i.isel x86_64
  | LDP i _ _ => i.isel
  | STR i _ _ => i.isel
  | LDR i _ _ => i.isel
  | ST1_ASISDLSEP_I2_I2 d => if d.Q = 1#1 then ST1_PAIR_POSTINDEX 16 else ST1_PAIR_POSTINDEX 8
  | LD1_ASISDLSEP_I1_I1 d =>
      match ArrangementSpecifier d.data_size d.esize with
      | some a => LD1_SINGLE_POSTINDEX a
      | none => fun _ _ => none
  | ST1_ASISDLSOP_I e _ | ST1_ASISDLSOP_R e _ _ _ => ST1_UNIT_POSTINDEX e.bytes

end Indexed

/-! ### The architecture -/

namespace Arm

/-- What an instruction moves between registers and memory: words of `n` bytes one after the
other. -/
inductive Transfer
  | storeX (n : ℕ) (Rts : List (BitVec 5))
  | storeV (n : ℕ) (Rts : List (BitVec 5))
  | storeElem (n index : ℕ) (Rt : BitVec 5)
  | loadX (n : ℕ) (extend : BitVec (n * 8) → BitVec 64) (Rts : List (BitVec 5))
  | loadV (n : ℕ) (Rts : List (BitVec 5))

/-- What the architecture stores of two registers. -/
def transferSTP (d : PairFields) : StorePair → Transfer
  | .STP_32 => .storeX 4 [d.Rt, d.Rt2]
  | .STP_64 => .storeX 8 [d.Rt, d.Rt2]
  | .STP_S => .storeV 4 [d.Rt, d.Rt2]
  | .STP_D => .storeV 8 [d.Rt, d.Rt2]
  | .STP_Q => .storeV 16 [d.Rt, d.Rt2]

/-- What the architecture loads to two registers. -/
def transferLDP (d : PairFields) : LoadPair → Transfer
  | .LDP_32 => .loadX 4 (BitVec.zeroExtend 64) [d.Rt, d.Rt2]
  | .LDP_64 => .loadX 8 (BitVec.zeroExtend 64) [d.Rt, d.Rt2]
  | .LDPSW_64 => .loadX 4 (BitVec.signExtend 64) [d.Rt, d.Rt2]
  | .LDP_S => .loadV 4 [d.Rt, d.Rt2]
  | .LDP_D => .loadV 8 [d.Rt, d.Rt2]
  | .LDP_Q => .loadV 16 [d.Rt, d.Rt2]

/-- What the architecture stores of one register. -/
def transferSTR (d : Imm9Fields) : StoreOne → Transfer
  | .STR_32 => .storeX 4 [d.Rt]
  | .STR_64 => .storeX 8 [d.Rt]
  | .STR_B => .storeV 1 [d.Rt]
  | .STR_H => .storeV 2 [d.Rt]
  | .STR_S => .storeV 4 [d.Rt]
  | .STR_D => .storeV 8 [d.Rt]
  | .STR_Q => .storeV 16 [d.Rt]
  | .STRB_32 => .storeX 1 [d.Rt]
  | .STRH_32 => .storeX 2 [d.Rt]

/-- What the architecture loads to one register. -/
def transferLDR (d : Imm9Fields) : LoadOne → Transfer
  | .LDR_32 => .loadX 4 (BitVec.zeroExtend 64) [d.Rt]
  | .LDR_64 => .loadX 8 (BitVec.zeroExtend 64) [d.Rt]
  | .LDRB_32 => .loadX 1 (BitVec.zeroExtend 64) [d.Rt]
  | .LDRH_32 => .loadX 2 (BitVec.zeroExtend 64) [d.Rt]
  | .LDRSB_32 => .loadX 1 (fun x => (x.signExtend 32).zeroExtend 64) [d.Rt]
  | .LDRSB_64 => .loadX 1 (BitVec.signExtend 64) [d.Rt]
  | .LDRSH_32 => .loadX 2 (fun x => (x.signExtend 32).zeroExtend 64) [d.Rt]
  | .LDRSH_64 => .loadX 2 (BitVec.signExtend 64) [d.Rt]
  | .LDRSW_64 => .loadX 4 (BitVec.signExtend 64) [d.Rt]
  | .LDR_S => .loadV 4 [d.Rt]
  | .LDR_D => .loadV 8 [d.Rt]
  | .LDR_Q => .loadV 16 [d.Rt]

/-- The index of an element, from its bits. -/
def elemIndex (d : StructFields) : StructElem → ℕ
  | .B => d.Q.toNat * 8 + d.S.toNat * 4 + d.size.toNat
  | .H => d.Q.toNat * 4 + d.S.toNat * 2 + d.size.toNat / 2
  | .S => d.Q.toNat * 2 + d.S.toNat
  | .D => d.Q.toNat

/-- The bytes of the accessed part of a vector. -/
def datasizeBytes (d : StructFields) : ℕ := if d.Q = 1#1 then 16 else 8

/-- The access to memory. -/
def transfer : Indexed → Transfer
  | .STP i _ d => transferSTP d i
  | .LDP i _ d => transferLDP d i
  | .STR i _ d => transferSTR d i
  | .LDR i _ d => transferLDR d i
  | .ST1_ASISDLSEP_I2_I2 d => .storeV (datasizeBytes d) [d.Rt, d.Rt + 1#5]
  | .LD1_ASISDLSEP_I1_I1 d => .loadV (datasizeBytes d) [d.Rt]
  | .ST1_ASISDLSOP_I e d | .ST1_ASISDLSOP_R e d _ _ => .storeElem e.bytes (elemIndex d e) d.Rt

/-- Whether the base moves before the access: the accesses to vectors are all post-indexed. -/
def index : Indexed → Index
  | .STP _ m _ | .LDP _ m _ | .STR _ m _ | .LDR _ m _ => m
  | .ST1_ASISDLSEP_I2_I2 _ | .LD1_ASISDLSEP_I1_I1 _ | .ST1_ASISDLSOP_I _ _
  | .ST1_ASISDLSOP_R _ _ _ _ => .POST

/-- The base. -/
def Rn : Indexed → BitVec 5
  | .STP _ _ d | .LDP _ _ d => d.Rn
  | .STR _ _ d | .LDR _ _ d => d.Rn
  | .ST1_ASISDLSEP_I2_I2 d | .LD1_ASISDLSEP_I1_I1 d | .ST1_ASISDLSOP_I _ d
  | .ST1_ASISDLSOP_R _ d _ _ => d.Rn

/-- The bytes of an element. -/
def Transfer.bytes : Transfer → ℕ
  | storeX n _ | storeV n _ | storeElem n _ _ | loadX n _ _ | loadV n _ => n

/-- What is added to the base. -/
def indexOffset (R : RegFile) : Indexed → BitVec 64
  | .STP i _ d => d.imm7.signExtend 64 * BitVec.ofNat 64 (transferSTP d i).bytes
  | .LDP i _ d => d.imm7.signExtend 64 * BitVec.ofNat 64 (transferLDP d i).bytes
  | .STR _ _ d | .LDR _ _ d => d.imm9.signExtend 64
  | .ST1_ASISDLSEP_I2_I2 d => BitVec.ofNat 64 (2 * datasizeBytes d)
  | .LD1_ASISDLSEP_I1_I1 d => BitVec.ofNat 64 (datasizeBytes d)
  | .ST1_ASISDLSOP_I e _ => BitVec.ofNat 64 e.bytes
  | .ST1_ASISDLSOP_R _ _ Rm _ => X R Rm

/-- The program after the access, before the base is updated. -/
def Transfer.exec (addr : BitVec 64) (g : Guest) : Transfer → Guest
  | storeX n Rts => ⟨g.regs, storeWords n g.mem addr (Rts.map fun r => (X g.regs r).setWidth _)⟩
  | storeV n Rts => ⟨g.regs, storeWords n g.mem addr (Rts.map fun r => (V g.regs r).setWidth _)⟩
  | storeElem n index Rt =>
      ⟨g.regs, store n g.mem addr ((V g.regs Rt).extractLsb' (index * (n * 8)) (n * 8))⟩
  | loadX n extend Rts =>
      ⟨(Rts.zip (loadWords n g.mem addr Rts.length)).foldl
        (fun R p => setX R p.1 (extend p.2)) g.regs, g.mem⟩
  | loadV n Rts =>
      ⟨(Rts.zip (loadWords n g.mem addr Rts.length)).foldl (fun R p => setV R p.1 (p.2.setWidth _))
        g.regs, g.mem⟩

/-- The access and the new base. -/
def execIndexed (i : Indexed) (g : Guest) : Guest :=
  let base := base g.regs (Rn i)
  let new := base + indexOffset g.regs i
  let moved := (transfer i).exec (if index i = .PRE then new else base) g
  ⟨setBase moved.regs (Rn i) new, moved.mem⟩

/-- The base is not one of the general registers that are moved. -/
def Transfer.Spares (Rn : BitVec 5) : Transfer → Prop
  | storeX _ Rts | loadX _ _ Rts => Rn = 31#5 ∨ Rn ∉ Rts
  | storeV _ _ | storeElem _ _ _ | loadV _ _ => True

end Arm

end Elfconv.AArch64
