/-
Elfconv/Semantics/LaneOps.lean

The semantics functions on the lanes of integer vectors.

The macros of `SIMD.cpp` make a loop over the lanes from an operator and instantiate it for each
element size; here each macro is one definition over all sizes, and each instruction its
application to the operator.  After each family stands what its loops compute, in terms of the
lanes of the sources.
-/
import Elfconv.Semantics.Operators
import Elfconv.Lib.Lanes
import Mathlib.Tactic.Ring

namespace Elfconv.AArch64

open CInt Lanes

variable {n w : ℕ}

/-- A vector value-initialised with `= {}`. -/
def zeros (n w : ℕ) : Vec n w := fun _ => 0#w

/-! ### Lane by lane -/

/-- `MAKE_BROADCAST`, and `MAKE_BIN_BROADCAST` of the operators on vectors. -/
def broadcast (binop : BitVec w → BitVec w → Option (BitVec w)) (src1 src2 : Vec n w) :
    Option (Vec n w) :=
  forLoop 0 n 1
    (fun i sum => Vec.assign sum i do binop (← Vec.get src1 i) (← Vec.get src2 i)) (zeros n w)

/-- `MAKE_UN_BROADCAST` -/
def broadcastUn (op : BitVec w → Option (BitVec w)) (src : Vec n w) : Option (Vec n w) :=
  forLoop 0 n 1 (fun i ret => Vec.assign ret i do op (← Vec.get src i)) (zeros n w)

/-- The smaller of two elements without signs. -/
def UMin (lhs rhs : BitVec w) : BitVec w := if lhs.toNat < rhs.toNat then lhs else rhs
/-- The greater of two elements without signs. -/
def UMax (lhs rhs : BitVec w) : BitVec w := if lhs.toNat < rhs.toNat then rhs else lhs

/-- `UMin` and `UMax` at a signed type. -/
def SMin (lhs rhs : BitVec w) : BitVec w := if lhs.toInt < rhs.toInt then lhs else rhs
/-- The greater of two elements with signs. -/
def SMax (lhs rhs : BitVec w) : BitVec w := if lhs.toInt < rhs.toInt then rhs else lhs

/-- The sums of the elements. -/
def ADD_V (src1 src2 : Vec n w) : Option (Vec n w) := broadcast UAdd src1 src2

/-- The differences of the elements. -/
def SUB_V (src1 src2 : Vec n w) : Option (Vec n w) := broadcast USub src1 src2

/-- The smaller elements, without signs. -/
def UMIN_V (src1 src2 : Vec n w) : Option (Vec n w) :=
  broadcast (fun a b => some (UMin a b)) src1 src2

/-- The greater elements, without signs. -/
def UMAX_V (src1 src2 : Vec n w) : Option (Vec n w) :=
  broadcast (fun a b => some (UMax a b)) src1 src2

/-- The smaller elements, with signs. -/
def SMIN_V (src1 src2 : Vec n w) : Option (Vec n w) :=
  broadcast (fun a b => some (SMin a b)) src1 src2

/-- The greater elements, with signs. -/
def SMAX_V (src1 src2 : Vec n w) : Option (Vec n w) :=
  broadcast (fun a b => some (SMax a b)) src1 src2

/-- The loop over the elements applies the function to each pair of them. -/
theorem broadcast_eq {binop : BitVec w → BitVec w → Option (BitVec w)}
    {f : BitVec w → BitVec w → BitVec w} (h : ∀ a b, binop a b = some (f a b))
    (src1 src2 : Vec n w) :
    broadcast binop src1 src2 = some fun i => f (src1 i) (src2 i) := by
  apply forLoop_fill (Nat.sub_zero n) (fun i => f (src1 i) (src2 i)) _ fun k _ => Nat.zero_add k
  intro k
  rw [Nat.zero_add, Vec.get_fin, Vec.get_fin]
  exact h _ _

/-- The loop over the elements of one vector. -/
theorem broadcastUn_eq {op : BitVec w → Option (BitVec w)} {f : BitVec w → BitVec w}
    (h : ∀ a, op a = some (f a)) (src : Vec n w) :
    broadcastUn op src = some fun i => f (src i) := by
  apply forLoop_fill (Nat.sub_zero n) (fun i => f (src i)) _ fun k _ => Nat.zero_add k
  intro k
  rw [Nat.zero_add, Vec.get_fin]
  exact h _

/-! ### Bitwise -/

/-- `L ^ R` of the double words -/
def UXorVI64 (L R : Vec n 64) : Option (Vec n 64) := broadcast UXor L R

/-- `L & R` of the double words -/
def UAndVI64 (L R : Vec n 64) : Option (Vec n 64) := broadcast UAnd L R

/-- `~R` of the double words -/
def UNotVI64 (R : Vec n 64) : Option (Vec n 64) := broadcastUn UNot R

/-- `EOR`: an exclusive or under a mask of ones. -/
def EOR_Vec (src1 src2 : Vec n 64) : Option (Vec n 64) := do
  let operand4 := src1
  let operand1 := src2
  let operand2 := zeros n 64
  let operand3 ← UNotVI64 operand2
  UXorVI64 operand1 (← UAndVI64 (← UXorVI64 operand2 operand4) operand3)

/-- `BIT`: insert where the second source has ones. -/
def BIT_Vec (dst_src src1 src2 : Vec n 64) : Option (Vec n 64) := do
  let operand4 := src1
  let operand1 := dst_src
  let operand3 := src2
  UXorVI64 operand1 (← UAndVI64 (← UXorVI64 operand1 operand4) operand3)

/-- `BIF`: insert where the second source has zeros. -/
def BIF_Vec (dst_src src1 src2 : Vec n 64) : Option (Vec n 64) := do
  let operand4 := src1
  let operand1 := dst_src
  let operand3 ← UNotVI64 src2
  UXorVI64 operand1 (← UAndVI64 (← UXorVI64 operand1 operand4) operand3)

/-- `BSL`: select by the destination. -/
def BSL_Vec (dst_src src1 src2 : Vec n 64) : Option (Vec n 64) := do
  let operand4 := src1
  let operand1 := src2
  let operand3 := dst_src
  UXorVI64 operand1 (← UAndVI64 (← UXorVI64 operand1 operand4) operand3)

/-- The bits of `a` where the mask is set, of `b` elsewhere. -/
def bitSelect (mask a b : BitVec w) : BitVec w := (mask &&& a) ||| (~~~mask &&& b)

/-- The way the source selects bits: by two exclusive ors around an and. -/
theorem xor_and_xor (mask a b : BitVec w) : b ^^^ ((b ^^^ a) &&& mask) = bitSelect mask a b := by
  apply BitVec.eq_of_getLsbD_eq
  intro i hi
  simp only [bitSelect, BitVec.getLsbD_xor, BitVec.getLsbD_and, BitVec.getLsbD_or,
    BitVec.getLsbD_not, hi, decide_true, Bool.true_and]
  cases mask.getLsbD i <;> cases a.getLsbD i <;> cases b.getLsbD i <;> rfl

/-- `EOR` is the exclusive or of its sources. -/
theorem EOR_Vec_eq (src1 src2 : Vec n 64) :
    EOR_Vec src1 src2 = some fun i => src2 i ^^^ src1 i := by
  simp only [EOR_Vec, UXorVI64, UAndVI64, UNotVI64, broadcast_eq UXor_eq, broadcast_eq UAnd_eq,
    broadcastUn_eq UNot_eq, Option.bind_eq_bind, Option.bind_some, zeros]
  apply congrArg some
  funext i
  rw [BitVec.zero_xor, BitVec.not_zero, BitVec.and_allOnes]

/-- `BIT` takes the bits of the first source where the second has ones. -/
theorem BIT_Vec_eq (dst_src src1 src2 : Vec n 64) :
    BIT_Vec dst_src src1 src2 = some fun i => bitSelect (src2 i) (src1 i) (dst_src i) := by
  simp only [BIT_Vec, UXorVI64, UAndVI64, broadcast_eq UXor_eq, broadcast_eq UAnd_eq,
    Option.bind_eq_bind, Option.bind_some, xor_and_xor]

/-- `BIF` takes the bits of the first source where the second has zeros. -/
theorem BIF_Vec_eq (dst_src src1 src2 : Vec n 64) :
    BIF_Vec dst_src src1 src2 = some fun i => bitSelect (~~~src2 i) (src1 i) (dst_src i) := by
  simp only [BIF_Vec, UXorVI64, UAndVI64, UNotVI64, broadcast_eq UXor_eq, broadcast_eq UAnd_eq,
    broadcastUn_eq UNot_eq, Option.bind_eq_bind, Option.bind_some, xor_and_xor]

/-- `BSL` selects by what the destination held. -/
theorem BSL_Vec_eq (dst_src src1 src2 : Vec n 64) :
    BSL_Vec dst_src src1 src2 = some fun i => bitSelect (dst_src i) (src1 i) (src2 i) := by
  simp only [BSL_Vec, UXorVI64, UAndVI64, broadcast_eq UXor_eq, broadcast_eq UAnd_eq,
    Option.bind_eq_bind, Option.bind_some, xor_and_xor]

/-! ### Comparisons -/

/-- A number as a condition. -/
def truth (x : BitVec 64) : Bool := x != 0#64

/-- `MAKE_CMP_BROADCAST` on two vectors. -/
def cmpBroadcast (binop : BitVec w → BitVec w → Option Bool) (src1 src2 : Vec n w) :
    Option (Vec n w) :=
  let zero := 0#w
  let ones := ~~~zero
  broadcast (fun a b => do return Select (← binop a b) ones zero) src1 src2

/-- `MAKE_CMP_BROADCAST` on a vector and an immediate. -/
def cmpBroadcastImm (binop : BitVec w → BitVec w → Option Bool) (src1 : Vec n w)
    (imm : BitVec w) : Option (Vec n w) :=
  let cmp_val := imm
  let zero := 0#w
  let ones := ~~~zero
  broadcastUn (fun a => do return Select (← binop a cmp_val) ones zero) src1

/-- The comparison of `CMTST`. -/
def UCmpTst (lhs rhs : BitVec w) : Option Bool := do return truth (UCmpNeq (← UAnd lhs rhs) 0#w)

/-- An operator of `MAKE_BOOLBINOP` as a condition. -/
def cond (op : BitVec w → BitVec w → BitVec 64) (lhs rhs : BitVec w) : Option Bool :=
  some (truth (op lhs rhs))

/-- `CMEQ` compares as signed types do. -/
def CMPEQ (src1 src2 : Vec n w) : Option (Vec n w) := cmpBroadcast (cond SCmpEq) src1 src2

/-- `CMTST` looks for a common bit. -/
def CMPTST (src1 src2 : Vec n w) : Option (Vec n w) := cmpBroadcast UCmpTst src1 src2

/-- `CMGT` compares with signs. -/
def CMPGT (src1 src2 : Vec n w) : Option (Vec n w) := cmpBroadcast (cond SCmpGt) src1 src2

/-- `CMGE` compares with signs. -/
def CMPGE (src1 src2 : Vec n w) : Option (Vec n w) := cmpBroadcast (cond SCmpGte) src1 src2

/-- `CMHS` compares without signs. -/
def CMPHS (src1 src2 : Vec n w) : Option (Vec n w) := cmpBroadcast (cond UCmpGte) src1 src2

/-- `CMEQ` with an immediate, which the decoder makes zero. -/
def CMPEQ_IMM (src : Vec n w) (imm : BitVec w) : Option (Vec n w) :=
  cmpBroadcastImm (cond SCmpEq) src imm

/-- `CMLT` with an immediate. -/
def CMPLT_IMM (src : Vec n w) (imm : BitVec w) : Option (Vec n w) :=
  cmpBroadcastImm (cond SCmpLt) src imm

/-- `CMLE` with an immediate. -/
def CMPLE_IMM (src : Vec n w) (imm : BitVec w) : Option (Vec n w) :=
  cmpBroadcastImm (cond SCmpLte) src imm

/-- `CMGT` with an immediate. -/
def CMPGT_IMM (src : Vec n w) (imm : BitVec w) : Option (Vec n w) :=
  cmpBroadcastImm (cond SCmpGt) src imm

/-- `CMGE` with an immediate. -/
def CMPGE_IMM (src : Vec n w) (imm : BitVec w) : Option (Vec n w) :=
  cmpBroadcastImm (cond SCmpGte) src imm

/-- The scalar instruction, on both lanes of the register. -/
def CMGE_ASISDMISC_ONLYD (src : Vec 2 64) : Option (Vec 2 64) :=
  let zero := 0#64
  let ones := ~~~zero
  forLoop 0 2 1
    (fun i res => Vec.assign res i do
      return if (← Vec.get src i).toInt ≥ 0 then ones else zero) (zeros 2 64)

/-- All ones or all zeros. -/
def mask (w : ℕ) (b : Bool) : BitVec w := if b then BitVec.allOnes w else 0#w

/-- A comparison as a number is read back as a condition. -/
theorem truth_boolbinop (op : BitVec w → BitVec w → Bool) (a b : BitVec w) :
    truth (boolbinop op a b) = op a b := by
  unfold truth boolbinop
  cases op a b <;> rfl

/-- A comparison leaves ones or zeros in each element. -/
theorem cmpBroadcast_eq {binop : BitVec w → BitVec w → Option Bool}
    {p : BitVec w → BitVec w → Bool} (h : ∀ a b, binop a b = some (p a b))
    (src1 src2 : Vec n w) :
    cmpBroadcast binop src1 src2 = some fun i => mask w (p (src1 i) (src2 i)) := by
  apply broadcast_eq (f := fun a b => mask w (p a b))
  intro a b
  rw [h, BitVec.not_zero]
  rfl

/-- A comparison of each element with one value. -/
theorem cmpBroadcastImm_eq {binop : BitVec w → BitVec w → Option Bool}
    {p : BitVec w → BitVec w → Bool} (h : ∀ a b, binop a b = some (p a b)) (src : Vec n w)
    (imm : BitVec w) :
    cmpBroadcastImm binop src imm = some fun i => mask w (p (src i) imm) := by
  apply broadcastUn_eq (f := fun a => mask w (p a imm))
  intro a
  rw [h, BitVec.not_zero]
  rfl

theorem cond_boolbinop (op : BitVec w → BitVec w → Bool) (a b : BitVec w) :
    cond (boolbinop op) a b = some (op a b) :=
  congrArg some (truth_boolbinop op a b)

/-- `CMTST` asks for a common bit. -/
theorem UCmpTst_eq (a b : BitVec w) : UCmpTst a b = some (a &&& b != 0#w) := by
  rw [UCmpTst, UAnd_eq]
  exact cond_boolbinop (fun a b => a != b) (a &&& b) 0#w

/-- The scalar `CMGE` leaves ones where the source is not negative, in both elements. -/
theorem CMGE_ASISDMISC_ONLYD_eq (src : Vec 2 64) :
    CMGE_ASISDMISC_ONLYD src = some fun i => mask 64 (decide (0 ≤ (src i).toInt)) := by
  apply forLoop_fill (Nat.sub_zero 2) (fun i => mask 64 (decide (0 ≤ (src i).toInt))) _
    fun k _ => Nat.zero_add k
  intro k
  rw [Nat.zero_add, Vec.get_fin, BitVec.not_zero]
  by_cases h : 0 ≤ (src k).toInt <;> simp [mask, h]

end Elfconv.AArch64
