/-
Elfconv/Semantics/Vectors.lean

Vector arrangements, and how an instruction gets at the vector registers.

A decoder names its semantics function by the arrangement and asks for its operands by a register
class of the same width.  The low bits of a register are read as lanes.  A result is stored by
`CastFromInst` to the whole register, so that everything above it is cleared.
-/
import Elfconv.Lib.Lanes
import Elfconv.VirtualRegs.Width

namespace Elfconv.AArch64

open Lanes

variable {n w : ℕ}

/-! ### Arrangements -/

/-- The specifiers `8B`, `16B`, `4H`, `8H`, `2S`, `4S`, `1D` and `2D`. -/
inductive Arrangement
  | B8 | B16 | H4 | H8 | S2 | S4 | D1 | D2
  deriving DecidableEq

/-- Nothing where the lifter ends. -/
def ArrangementSpecifier (total_size element_size : ℕ) : Option Arrangement :=
  if total_size = 128 then
    match element_size with
    | 8 => some .B16
    | 16 => some .H8
    | 32 => some .S4
    | 64 => some .D2
    | _ => none
  else if total_size = 64 then
    match element_size with
    | 8 => some .B8
    | 16 => some .H4
    | 32 => some .S2
    | 64 => some .D1
    | _ => none
  else none

namespace Arrangement

/-- The class that `ArrangementRegClass` gives for the same sizes. -/
def regClass (is_float : Bool) : Arrangement → ERC
  | B8 => .Reg8B
  | B16 => .Reg16B
  | H4 => .Reg4H
  | H8 => .Reg8H
  | S2 => if is_float then .Reg2SF else .Reg2S
  | S4 => if is_float then .Reg4SF else .Reg4S
  | D1 => if is_float then .Reg1DF else .Reg1D
  | D2 => if is_float then .Reg2DF else .Reg2D

/-- How many elements. -/
def lanes : Arrangement → ℕ
  | B8 | H8 => 8
  | B16 => 16
  | H4 | S4 => 4
  | S2 | D2 => 2
  | D1 => 1

/-- How many bits an element has. -/
def esize : Arrangement → ℕ
  | B8 | B16 => 8
  | H4 | H8 => 16
  | S2 | S4 => 32
  | D1 | D2 => 64

theorem lanes_pos (a : Arrangement) : 0 < a.lanes := by cases a <;> decide

theorem esize_pos (a : Arrangement) : 0 < a.esize := by cases a <;> decide

theorem lanes_mul_esize (a : Arrangement) (is_float : Bool) :
    a.lanes * a.esize = ERCSize (a.regClass is_float) := by
  cases a <;> cases is_float <;> rfl

theorem lanes_mul_esize_le (a : Arrangement) : a.lanes * a.esize ≤ 128 :=
  (a.lanes_mul_esize false).trans_le (ERCSize_le _)

end Arrangement

/-- `ArrangementRegClass`; nothing for sizes that no arrangement has. -/
def ArrangementRegClass (total_size element_size : ℕ) (is_float : Bool) : Option ERC :=
  (ArrangementSpecifier total_size element_size).map (Arrangement.regClass is_float)

/-! ### Operands and results -/

/-- The vector registers. -/
abbrev VectorRegs := BitVec 5 → BitVec 128

/-- A decoded instruction on vectors: the arrangements in the name of its semantics function, the
register it writes, those it reads, and its immediates. -/
structure VectorInst where
  specifiers : List Arrangement
  dst : ERC × BitVec 5
  srcs : List (ERC × BitVec 5)
  imms : List (BitVec 64)

/-- The value of a vector type, by its lanes. -/
def vecValue (erc : ERC) (v : Vec n w) : Value := ⟨erc, v.bits.setWidth _⟩

/-- A value as an operand of a vector type. -/
def vecOf (n w : ℕ) (x : Value) : Vec n w := Vec.ofBits n x.bits

namespace VectorInst

variable (i : VectorInst) (V : VectorRegs)

/-- The registers that are read, each by its class. -/
def operands : List Value := i.srcs.map fun p => .low p.1 (V p.2)

/-- The registers after the result is stored. -/
def store (result : Value) : VectorRegs :=
  Function.update V i.dst.2 (castFromInst result .RegV).whole

end VectorInst

theorem whole_vecValue (erc : ERC) (v : Vec n w) (h : n * w ≤ ERCSize erc) :
    (vecValue erc v).whole = v.bits.setWidth 128 :=
  BitVec.setWidth_setWidth fun hlt => absurd h hlt.1.not_ge

theorem whole_castFromInst (x : Value) : (castFromInst x .RegV).whole = x.whole := by
  rw [castFromInst_eq]
  exact BitVec.setWidth_setWidth fun hlt => absurd (ERCSize_le x.erc) hlt.1.not_ge

theorem store_vecValue (i : VectorInst) (V : VectorRegs) {erc : ERC} (v : Vec n w)
    (h : n * w ≤ ERCSize erc) :
    i.store V (vecValue erc v) = Function.update V i.dst.2 (v.bits.setWidth 128) := by
  rw [VectorInst.store, whole_castFromInst, whole_vecValue erc v h]

theorem vecOf_low {erc : ERC} (reg : BitVec 128) (h : n * w ≤ ERCSize erc) :
    vecOf n w (.low erc reg) = Vec.ofBits n reg := by
  funext i
  apply BitVec.eq_of_getLsbD_eq
  intro j hj
  rw [vecOf, Vec.getLsbD_ofBits _ i hj, Vec.getLsbD_ofBits _ i hj, Value.low,
    BitVec.getLsbD_setWidth, decide_eq_true ((Vec.lane_lt i hj).trans_le h), Bool.true_and]

end Elfconv.AArch64
