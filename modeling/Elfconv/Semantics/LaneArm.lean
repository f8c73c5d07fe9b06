/-
Elfconv/Semantics/LaneArm.lean

What the architecture says of the integer instructions on vectors, and that they follow it.

The architecture reads the lanes of an arrangement out of the whole registers and clears the bits
above its result.  `followsArm_lanes_iff` says when an instruction writes the same: always, but for
two of them.  `CNT` on 16 bytes loses the counts of the upper eight, and the scalar `CMGE` compares
both halves of the register and so writes all of it.
-/
import Elfconv.Semantics.LaneInst
import Mathlib.Data.List.Fold

namespace Elfconv.AArch64

open CInt Lanes

variable {n w : ℕ}

/-! ### The architecture -/

namespace Arm

/-- The smaller number, as naturals. -/
def umin (a b : BitVec w) : BitVec w := .ofNat w (min a.toNat b.toNat)

/-- The greater number, as naturals. -/
def umax (a b : BitVec w) : BitVec w := .ofNat w (max a.toNat b.toNat)

/-- The smaller number, as integers. -/
def smin (a b : BitVec w) : BitVec w := .ofInt w (min a.toInt b.toInt)

/-- The greater number, as integers. -/
def smax (a b : BitVec w) : BitVec w := .ofInt w (max a.toInt b.toInt)

/-- The arrangement of a size. -/
def arrangement (Q : BitVec 1) (size : BitVec 2) : Arrangement :=
  match size.toNat with
  | 0 => if Q = 1#1 then .B16 else .B8
  | 1 => if Q = 1#1 then .H8 else .H4
  | 2 => if Q = 1#1 then .S4 else .S2
  | _ => if Q = 1#1 then .D2 else .D1

/-- The arrangement of an instruction; nothing for what is reserved.  The reserved sizes of `CNT`
and `REV32` are taken as the decoders take them. -/
def accepted (d : SimdFields) : LaneOp → Option Arrangement
  | .ADD_ASIMDSAME_ONLY | .SUB_ASIMDSAME_ONLY | .ADDP_ASIMDSAME_ONLY
  | .CMEQ_ASIMDSAME_ONLY | .CMGE_ASIMDSAME_ONLY | .CMGT_ASIMDSAME_ONLY | .CMTST_ASIMDSAME_ONLY
  | .CMHS_ASIMDSAME_ONLY
  | .CMEQ_ASIMDMISC_Z | .CMLT_ASIMDMISC_Z | .CMLE_ASIMDMISC_Z | .CMGT_ASIMDMISC_Z
  | .CMGE_ASIMDMISC_Z =>
      if d.size = 3#2 ∧ d.Q = 0#1 then none else some (arrangement d.Q d.size)
  | .UMIN_ASIMDSAME_ONLY | .UMAX_ASIMDSAME_ONLY | .SMIN_ASIMDSAME_ONLY | .SMAX_ASIMDSAME_ONLY
  | .UMINP_ASIMDSAME_ONLY | .UMAXP_ASIMDSAME_ONLY | .SMINP_ASIMDSAME_ONLY | .SMAXP_ASIMDSAME_ONLY =>
      if d.size = 3#2 then none else some (arrangement d.Q d.size)
  | .ADDV_ASIMDALL_ONLY | .UMINV_ASIMDALL_ONLY | .UMAXV_ASIMDALL_ONLY | .SMINV_ASIMDALL_ONLY
  | .SMAXV_ASIMDALL_ONLY =>
      if d.size = 2#2 ∧ d.Q = 0#1 ∨ d.size = 3#2 then none else some (arrangement d.Q d.size)
  | .EOR_ASIMDSAME_ONLY | .BIT_ASIMDSAME_ONLY | .BIF_ASIMDSAME_ONLY | .BSL_ASIMDSAME_ONLY
  | .CNT_ASIMDMISC_R => some (arrangement d.Q 0#2)
  | .REV32_ASIMDMISC_R => some (arrangement d.Q (if d.size = 0#2 then 0#2 else 1#2))
  | .CMGE_ASISDMISC_Z => if d.size = 3#2 then some .D1 else none

/-- The lanes of a register. -/
def lanes (a : Arrangement) (reg : BitVec 128) : Vec a.lanes a.esize := Vec.ofBits a.lanes reg

/-- A vector in the low end of a register, all bits above it clear. -/
def zeroExtended (v : Vec n w) : BitVec 128 := v.bits.setWidth 128

/-- A lane by lane operation. -/
def lanewise (f : ∀ {w : ℕ}, BitVec w → BitVec w → BitVec w) (a : Arrangement)
    (operand1 operand2 : BitVec 128) : BitVec 128 :=
  zeroExtended fun e => f (lanes a operand1 e) (lanes a operand2 e)

/-- A lane by lane comparison with zero. -/
def compareZero (p : ℤ → Bool) (a : Arrangement) (operand : BitVec 128) : BitVec 128 :=
  zeroExtended fun e => mask a.esize (p (lanes a operand e).toInt)

/-- The adjacent lanes of the second operand above the first. -/
def pairwise (f : ∀ {w : ℕ}, BitVec w → BitVec w → BitVec w) (a : Arrangement)
    (operand1 operand2 : BitVec 128) : BitVec 128 :=
  let concat := operand2.setWidth (a.lanes * a.esize) ++ operand1.setWidth (a.lanes * a.esize)
  zeroExtended fun e : Fin a.lanes =>
    f (concat.extractLsb' (a.esize * (2 * e)) a.esize)
      (concat.extractLsb' (a.esize * (2 * e + 1)) a.esize)

/-- The fold over all lanes. -/
def reduce (f : BitVec w → BitVec w → BitVec w) (v : Vec n w) : BitVec w :=
  match List.ofFn v with
  | [] => 0#w
  | x :: xs => xs.foldl f x

/-- The fold of the lanes, in the lowest of them. -/
def reduction (f : ∀ {w : ℕ}, BitVec w → BitVec w → BitVec w) (a : Arrangement)
    (operand : BitVec 128) : BitVec 128 :=
  (reduce f (lanes a operand)).setWidth 128

/-- The low bits of the size of an arrangement. -/
def bitwise (a : Arrangement) (result : BitVec 128) : BitVec 128 :=
  (result.setWidth (a.lanes * a.esize)).setWidth 128

/-- The elements of every group of 32 bits in the other order. -/
def reversed32 (a : Arrangement) (operand : BitVec 128) : BitVec 128 :=
  let elements_per_container := 32 / a.esize
  zeroExtended fun e : Fin a.lanes =>
    operand.extractLsb' (a.esize * mirrored elements_per_container e) a.esize

/-- What an instruction writes to its destination, for the old value of it and the sources. -/
def laneResult (a : Arrangement) (vd vn vm : BitVec 128) : LaneOp → BitVec 128
  | .ADD_ASIMDSAME_ONLY => lanewise (· + ·) a vn vm
  | .SUB_ASIMDSAME_ONLY => lanewise (· - ·) a vn vm
  | .UMIN_ASIMDSAME_ONLY => lanewise umin a vn vm
  | .UMAX_ASIMDSAME_ONLY => lanewise umax a vn vm
  | .SMIN_ASIMDSAME_ONLY => lanewise smin a vn vm
  | .SMAX_ASIMDSAME_ONLY => lanewise smax a vn vm
  | .CMEQ_ASIMDSAME_ONLY => lanewise (fun x y => mask _ (x == y)) a vn vm
  | .CMGE_ASIMDSAME_ONLY => lanewise (fun x y => mask _ (decide (x.toInt ≥ y.toInt))) a vn vm
  | .CMGT_ASIMDSAME_ONLY => lanewise (fun x y => mask _ (decide (x.toInt > y.toInt))) a vn vm
  | .CMTST_ASIMDSAME_ONLY => lanewise (fun x y => mask _ (x &&& y != 0#_)) a vn vm
  | .CMHS_ASIMDSAME_ONLY => lanewise (fun x y => mask _ (decide (x.toNat ≥ y.toNat))) a vn vm
  | .ADDP_ASIMDSAME_ONLY => pairwise (· + ·) a vn vm
  | .UMINP_ASIMDSAME_ONLY => pairwise umin a vn vm
  | .UMAXP_ASIMDSAME_ONLY => pairwise umax a vn vm
  | .SMINP_ASIMDSAME_ONLY => pairwise smin a vn vm
  | .SMAXP_ASIMDSAME_ONLY => pairwise smax a vn vm
  | .CMEQ_ASIMDMISC_Z => compareZero (fun x => x == 0) a vn
  | .CMLT_ASIMDMISC_Z => compareZero (fun x => decide (x < 0)) a vn
  | .CMLE_ASIMDMISC_Z => compareZero (fun x => decide (x ≤ 0)) a vn
  | .CMGT_ASIMDMISC_Z => compareZero (fun x => decide (x > 0)) a vn
  | .CMGE_ASIMDMISC_Z | .CMGE_ASISDMISC_Z => compareZero (fun x => decide (x ≥ 0)) a vn
  | .EOR_ASIMDSAME_ONLY => bitwise a (vn ^^^ vm)
  | .BIT_ASIMDSAME_ONLY => bitwise a (bitSelect vm vn vd)
  | .BIF_ASIMDSAME_ONLY => bitwise a (bitSelect (~~~vm) vn vd)
  | .BSL_ASIMDSAME_ONLY => bitwise a (bitSelect vd vn vm)
  | .ADDV_ASIMDALL_ONLY => reduction (· + ·) a vn
  | .UMINV_ASIMDALL_ONLY => reduction umin a vn
  | .UMAXV_ASIMDALL_ONLY => reduction umax a vn
  | .SMINV_ASIMDALL_ONLY => reduction smin a vn
  | .SMAXV_ASIMDALL_ONLY => reduction smax a vn
  | .CNT_ASIMDMISC_R => zeroExtended fun e => (lanes a vn e).cpop
  | .REV32_ASIMDMISC_R => reversed32 a vn

/-- The registers after an instruction. -/
def execLanes (op : LaneOp) (d : SimdFields) (V : VectorRegs) : Option VectorRegs :=
  (accepted d op).map fun a =>
    Function.update V d.Rd (laneResult a (V d.Rd) (V d.Rn) (V d.Rm) op)

end Arm

/-! ### Operators on lanes -/

/-- The code's minimum is that of natural numbers. -/
theorem UMin_eq (a b : BitVec w) : UMin a b = Arm.umin a b := by
  unfold UMin Arm.umin
  split_ifs with h
  · rw [min_eq_left h.le, BitVec.ofNat_toNat, BitVec.setWidth_eq]
  · rw [min_eq_right (not_lt.mp h), BitVec.ofNat_toNat, BitVec.setWidth_eq]

theorem UMax_eq (a b : BitVec w) : UMax a b = Arm.umax a b := by
  unfold UMax Arm.umax
  split_ifs with h
  · rw [max_eq_right h.le, BitVec.ofNat_toNat, BitVec.setWidth_eq]
  · rw [max_eq_left (not_lt.mp h), BitVec.ofNat_toNat, BitVec.setWidth_eq]

/-- The code's minimum at a signed type is that of integers. -/
theorem SMin_eq (a b : BitVec w) : SMin a b = Arm.smin a b := by
  unfold SMin Arm.smin
  split_ifs with h
  · rw [min_eq_left h.le, BitVec.ofInt_toInt]
  · rw [min_eq_right (not_lt.mp h), BitVec.ofInt_toInt]

theorem SMax_eq (a b : BitVec w) : SMax a b = Arm.smax a b := by
  unfold SMax Arm.smax
  split_ifs with h
  · rw [max_eq_right h.le, BitVec.ofInt_toInt]
  · rw [max_eq_left (not_lt.mp h), BitVec.ofInt_toInt]

theorem toNat_umin (a b : BitVec w) : (Arm.umin a b).toNat = min a.toNat b.toNat := by
  rw [Arm.umin, BitVec.toNat_ofNat, Nat.mod_eq_of_lt (min_lt_of_left_lt a.isLt)]

theorem toNat_umax (a b : BitVec w) : (Arm.umax a b).toNat = max a.toNat b.toNat := by
  rw [Arm.umax, BitVec.toNat_ofNat, Nat.mod_eq_of_lt (max_lt a.isLt b.isLt)]

theorem toInt_smin (a b : BitVec w) : (Arm.smin a b).toInt = min a.toInt b.toInt := by
  rcases min_choice a.toInt b.toInt with h | h <;> rw [Arm.smin, h, BitVec.ofInt_toInt]

theorem toInt_smax (a b : BitVec w) : (Arm.smax a b).toInt = max a.toInt b.toInt := by
  rcases max_choice a.toInt b.toInt with h | h <;> rw [Arm.smax, h, BitVec.ofInt_toInt]

instance : Std.Commutative (@Arm.umin w) := ⟨fun a b => by rw [Arm.umin, Arm.umin, min_comm]⟩
instance : Std.Commutative (@Arm.umax w) := ⟨fun a b => by rw [Arm.umax, Arm.umax, max_comm]⟩
instance : Std.Commutative (@Arm.smin w) := ⟨fun a b => by rw [Arm.smin, Arm.smin, min_comm]⟩
instance : Std.Commutative (@Arm.smax w) := ⟨fun a b => by rw [Arm.smax, Arm.smax, max_comm]⟩

instance : Std.Associative (@Arm.umin w) :=
  ⟨fun a b c => by
    apply BitVec.eq_of_toNat_eq
    rw [toNat_umin, toNat_umin, toNat_umin, toNat_umin, min_assoc]⟩

instance : Std.Associative (@Arm.umax w) :=
  ⟨fun a b c => by
    apply BitVec.eq_of_toNat_eq
    rw [toNat_umax, toNat_umax, toNat_umax, toNat_umax, max_assoc]⟩

instance : Std.Associative (@Arm.smin w) :=
  ⟨fun a b c => by
    apply BitVec.eq_of_toInt_eq
    rw [toInt_smin, toInt_smin, toInt_smin, toInt_smin, min_assoc]⟩

instance : Std.Associative (@Arm.smax w) :=
  ⟨fun a b c => by
    apply BitVec.eq_of_toInt_eq
    rw [toInt_smax, toInt_smax, toInt_smax, toInt_smax, max_assoc]⟩

/-! ### Reductions -/

/-- The fold from a value that the operator leaves alone. -/
theorem reduce_eq_foldr (f : BitVec w → BitVec w → BitVec w) [Std.Commutative f]
    [Std.Associative f] {e : BitVec w} (he : ∀ x, f x e = x) (hn : 0 < n) (v : Vec n w) :
    Arm.reduce f v = (List.ofFn v).foldr f e := by
  have hfirst : ∀ (x : BitVec w) (xs : List (BitVec w)), xs.foldr f x = f x (xs.foldr f e) := by
    intro x xs
    induction xs with
    | nil => exact (he x).symm
    | cons y ys ih =>
      have hcomm : f y (f x (ys.foldr f e)) = f x (f y (ys.foldr f e)) :=
        LeftCommutative.left_comm y x _
      rw [List.foldr_cons, ih, List.foldr_cons, hcomm]
  unfold Arm.reduce
  cases hv : List.ofFn v with
  | nil => exact absurd (List.ofFn_eq_nil_iff.mp hv) hn.ne'
  | cons x xs =>
    show xs.foldl f x = _
    rw [List.foldl_eq_foldr, hfirst, List.foldr_cons]

/-- A loop of `UMINV` and its like is the fold over all lanes. -/
theorem foldLanes_eq_reduce (f : BitVec w → BitVec w → BitVec w) [Std.Commutative f]
    [Std.Associative f] {e : BitVec w} (he : ∀ x, f x e = x) (hn : 0 < n) (v : Vec n w) :
    foldLanes f e v = some (Arm.reduce f v) := by
  rw [foldLanes_eq LeftCommutative.left_comm, reduce_eq_foldr f he hn]

/-- The loop from the greatest number on is the fold of the lanes. -/
theorem UMINV_eq (hn : 0 < n) (v : Vec n w) : UMINV v = some (Arm.reduce Arm.umin v) := by
  have hf : UMin = @Arm.umin w := funext₂ UMin_eq
  rw [UMINV, hf]
  apply foldLanes_eq_reduce _ _ hn
  intro x
  apply BitVec.eq_of_toNat_eq
  rw [toNat_umin, BitVec.toNat_allOnes]
  exact min_eq_left (Nat.le_sub_one_of_lt x.isLt)

theorem UMAXV_eq (hn : 0 < n) (v : Vec n w) : UMAXV v = some (Arm.reduce Arm.umax v) := by
  have hf : UMax = @Arm.umax w := funext₂ UMax_eq
  rw [UMAXV, hf]
  apply foldLanes_eq_reduce _ _ hn
  intro x
  apply BitVec.eq_of_toNat_eq
  rw [toNat_umax]
  exact max_eq_left (Nat.zero_le _)

theorem SMINV_eq (hn : 0 < n) (v : Vec n w) : SMINV v = some (Arm.reduce Arm.smin v) := by
  have hf : SMin = @Arm.smin w := funext₂ SMin_eq
  rw [SMINV, hf]
  apply foldLanes_eq_reduce _ _ hn
  intro x
  apply BitVec.eq_of_toInt_eq
  rw [toInt_smin, BitVec.toInt_intMax]
  exact min_eq_left (Int.le_sub_one_of_lt x.toInt_lt)

theorem SMAXV_eq (hn : 0 < n) (hw : 0 < w) (v : Vec n w) :
    SMAXV v = some (Arm.reduce Arm.smax v) := by
  have hf : SMax = @Arm.smax w := funext₂ SMax_eq
  rw [SMAXV, hf]
  apply foldLanes_eq_reduce _ _ hn
  intro x
  apply BitVec.eq_of_toInt_eq
  rw [toInt_smax, BitVec.toInt_intMin_of_pos hw]
  exact max_eq_left x.le_toInt

/-- The sum by halves is the fold of the lanes, and no partial sum overflows. -/
theorem ADDV_eq (ovf : Overflow) (hn : n = 4 ∨ n = 8 ∨ n = 16) (hw : 0 < w) (hlt : w < 64)
    (v : Vec n w) : ADDV_Reduce ovf v = some (Arm.reduce (· + ·) v) := by
  have hpos : 0 < n := by omega
  rw [ADDV_Reduce_eq ovf hn hw hlt, reduce_eq_foldr _ BitVec.add_zero hpos, ← List.sum_ofFn]
  rfl

/-! ### Pairs -/

/-- The lanes of two operands side by side. -/
theorem extract_concat (vn vm : BitVec 128) {k : ℕ} (hk : k < n + n) :
    (vm.setWidth (n * w) ++ vn.setWidth (n * w)).extractLsb' (w * k) w =
      if hlt : k < n then (Vec.ofBits n vn : Vec n w) ⟨k, hlt⟩
      else (Vec.ofBits n vm : Vec n w) ⟨k - n, by omega⟩ := by
  apply BitVec.eq_of_getLsbD_eq
  intro j hj
  rw [BitVec.getLsbD_extractLsb', decide_eq_true hj, Bool.true_and, BitVec.getLsbD_append]
  by_cases hlt : k < n
  · have hlane := Vec.lane_lt ⟨k, hlt⟩ hj
    rw [dif_pos hlt, Vec.getLsbD_ofBits _ _ hj, if_pos hlane, BitVec.getLsbD_setWidth,
      decide_eq_true hlane, Bool.true_and]
  · have hk' : k - n < n := by omega
    have hlane := Vec.lane_lt ⟨k - n, hk'⟩ hj
    rw [Fin.val_mk] at hlane
    have hplace : w * k = n * w + w * (k - n) := by
      rw [mul_comm n w, ← mul_add, Nat.add_sub_cancel' (not_lt.mp hlt)]
    have hsub : w * k + j - n * w = w * (k - n) + j := by omega
    rw [dif_neg hlt, Vec.getLsbD_ofBits _ _ hj, if_neg (by omega), hsub,
      BitVec.getLsbD_setWidth, decide_eq_true hlane, Bool.true_and]

/-- The two loops of a pairwise operator write the pairs of the concatenation. -/
theorem pairwise_lanes {binop : BitVec w → BitVec w → Option (BitVec w)}
    {f : BitVec w → BitVec w → BitVec w} (h : ∀ a b, binop a b = some (f a b)) {m : ℕ}
    (hn : n = 2 * m) (vn vm : BitVec 128) :
    pairwise binop (Vec.ofBits n vn) (Vec.ofBits n vm) = some fun e : Fin n =>
      f ((vm.setWidth (n * w) ++ vn.setWidth (n * w)).extractLsb' (w * (2 * e)) w)
        ((vm.setWidth (n * w) ++ vn.setWidth (n * w)).extractLsb' (w * (2 * e + 1)) w) := by
  rw [pairwise_eq h hn]
  apply congrArg some
  funext e
  rw [extract_concat vn vm (by omega : 2 * e.val < n + n),
    extract_concat vn vm (by omega : 2 * e.val + 1 < n + n)]
  by_cases he : e.val < m
  · rw [dif_pos he, dif_pos (by omega : 2 * e.val < n), dif_pos (by omega : 2 * e.val + 1 < n)]
  · have hlo : 2 * e.val - n = 2 * (e - m) := by omega
    have hhi : 2 * e.val + 1 - n = 2 * (e - m) + 1 := by omega
    rw [dif_neg he, dif_neg (by omega : ¬ 2 * e.val < n), dif_neg (by omega : ¬ 2 * e.val + 1 < n)]
    simp only [hlo, hhi]

/-! ### Bitwise selections -/

/-- Lanes chosen by a mask are words chosen by the mask. -/
theorem bits_bitSelect (mask a b : BitVec 128) :
    (Vec.bits fun i : Fin n => bitSelect ((Vec.ofBits n mask : Vec n w) i)
      ((Vec.ofBits n a : Vec n w) i) ((Vec.ofBits n b : Vec n w) i)) =
      (bitSelect mask a b).setWidth (n * w) := by
  apply Vec.ext_lanes
  intro i j hj
  rw [Vec.getLsbD_bits _ i hj, BitVec.getLsbD_setWidth, decide_eq_true (Vec.lane_lt i hj),
    Bool.true_and]
  unfold bitSelect
  rw [BitVec.getLsbD_or, BitVec.getLsbD_and, BitVec.getLsbD_and, BitVec.getLsbD_not,
    Vec.getLsbD_ofBits mask i hj, Vec.getLsbD_ofBits a i hj, Vec.getLsbD_ofBits b i hj,
    decide_eq_true hj, Bool.true_and, BitVec.getLsbD_or, BitVec.getLsbD_and, BitVec.getLsbD_and]
  by_cases hlt : w * i + j < 128
  · rw [BitVec.getLsbD_not, decide_eq_true hlt, Bool.true_and]
  · rw [BitVec.getLsbD_of_ge b _ (not_lt.mp hlt), Bool.and_false, Bool.and_false]

/-- The same under the complement of the mask. -/
theorem bits_bitSelect_not (mask a b : BitVec 128) :
    (Vec.bits fun i : Fin n => bitSelect (~~~(Vec.ofBits n mask : Vec n w) i)
      ((Vec.ofBits n a : Vec n w) i) ((Vec.ofBits n b : Vec n w) i)) =
      (bitSelect (~~~mask) a b).setWidth (n * w) := by
  have hswap : ∀ {v : ℕ} (m x y : BitVec v), bitSelect (~~~m) x y = bitSelect m y x := by
    intro v m x y
    rw [bitSelect, BitVec.not_not, BitVec.or_comm]
    rfl
  simp only [hswap]
  exact bits_bitSelect mask b a

/-- The exclusive or of lanes is that of words. -/
theorem bits_eor (a b : BitVec 128) :
    (Vec.bits fun i : Fin n => (Vec.ofBits n a : Vec n w) i ^^^ (Vec.ofBits n b : Vec n w) i) =
      (a ^^^ b).setWidth (n * w) := by
  rw [Vec.bits_xor, Vec.bits_ofBits, Vec.bits_ofBits, BitVec.setWidth_xor]

/-! ### Decoding -/

/-- The instruction that is decoded with an arrangement. -/
def SimdFields.arranged (d : SimdFields) (srcs : List (BitVec 5)) (imms : List (BitVec 64))
    (a : Arrangement) : VectorInst :=
  ⟨[a], (a.regClass false, d.Rd), srcs.map fun r => (a.regClass false, r), imms⟩

/-- The instruction on the whole of registers. -/
def SimdFields.bitwiseArranged (d : SimdFields) (srcs : List (BitVec 5)) (a : Arrangement) :
    VectorInst :=
  let rclass := if a = .B16 then ERC.Reg2D else .Reg1D
  ⟨[a], (rclass, d.Rd), srcs.map fun r => (rclass, r), []⟩

/-- The specifier of the decoder is the arrangement of the fields. -/
theorem ArrangementSpecifier_eq : ∀ (Q : BitVec 1) (size : BitVec 2),
    ArrangementSpecifier (if Q = 1#1 then 128 else 64) (8 <<< size.toNat) =
      some (Arm.arrangement Q size) := by
  decide

section

variable (d : SimdFields)

theorem decodeArranged_eq {elem_size : ℕ} {size : BitVec 2} (h : elem_size = 8 <<< size.toNat)
    (srcs : List (BitVec 5)) (imms : List (BitVec 64)) :
    d.decodeArranged elem_size srcs imms =
      some (some (d.arranged srcs imms (Arm.arrangement d.Q size))) := by
  unfold SimdFields.decodeArranged ArrangementRegClass
  simp only [h, ArrangementSpecifier_eq]
  rfl

theorem TryDecodeADD_eq : d.TryDecodeADD_ASIMDSAME_ONLY =
    some ((if d.size = 3#2 ∧ d.Q = 0#1 then none else some (Arm.arrangement d.Q d.size)).map
      (d.arranged [d.Rn, d.Rm] [])) := by
  unfold SimdFields.TryDecodeADD_ASIMDSAME_ONLY
  by_cases h : d.size = 3#2 ∧ d.Q = 0#1
  · rw [if_pos h, if_pos (And.imp_left Eq.symm h)]
    rfl
  · rw [if_neg h, if_neg (mt (And.imp_left Eq.symm) h)]
    exact decodeArranged_eq d rfl _ _

theorem TryDecodeCMEQ_eq : d.TryDecodeCMEQ_ASIMDSAME_ONLY =
    some ((if d.size = 3#2 ∧ d.Q = 0#1 then none else some (Arm.arrangement d.Q d.size)).map
      (d.arranged [d.Rn, d.Rm] [])) := by
  unfold SimdFields.TryDecodeCMEQ_ASIMDSAME_ONLY
  split_ifs with h
  · rfl
  · exact decodeArranged_eq d rfl _ _

theorem TryDecodeUMAXP_eq : d.TryDecodeUMAXP_ASIMDSAME_ONLY =
    some ((if d.size = 3#2 then none else some (Arm.arrangement d.Q d.size)).map
      (d.arranged [d.Rn, d.Rm] [])) := by
  unfold SimdFields.TryDecodeUMAXP_ASIMDSAME_ONLY
  by_cases h : d.size = 3#2
  · rw [if_pos h, if_pos h.symm]
    rfl
  · rw [if_neg h, if_neg (Ne.symm h)]
    exact decodeArranged_eq d rfl _ _

theorem TryDecodeCMEQ_Z_eq : d.TryDecodeCMEQ_ASIMDMISC_Z =
    some ((if d.size = 3#2 ∧ d.Q = 0#1 then none else some (Arm.arrangement d.Q d.size)).map
      (d.arranged [d.Rn] [0#64])) := by
  unfold SimdFields.TryDecodeCMEQ_ASIMDMISC_Z
  split_ifs with h
  · rfl
  · exact decodeArranged_eq d rfl _ _

theorem TryDecodeADDV_eq : d.TryDecodeADDV_ASIMDALL_ONLY =
    some ((if d.size = 2#2 ∧ d.Q = 0#1 ∨ d.size = 3#2 then none
      else some (Arm.arrangement d.Q d.size)).map (d.arranged [d.Rn] [])) := by
  unfold SimdFields.TryDecodeADDV_ASIMDALL_ONLY
  rw [ite_or]
  split_ifs with h h'
  · rfl
  · rfl
  · exact decodeArranged_eq d rfl _ _

theorem decodeBitwise_eq (srcs : List (BitVec 5)) : d.decodeBitwise srcs =
    some ((some (Arm.arrangement d.Q 0#2)).map (d.bitwiseArranged srcs)) := by
  rcases d with ⟨Q, size, Rd, Rn, Rm⟩
  rcases (by decide : ∀ Q : BitVec 1, Q = 0#1 ∨ Q = 1#1) Q with rfl | rfl <;> rfl

theorem TryDecodeCNT_eq : d.TryDecodeCNT_ASIMDMISC_R =
    some ((some (Arm.arrangement d.Q 0#2)).map (d.arranged [d.Rn] [])) := by
  rcases d with ⟨Q, size, Rd, Rn, Rm⟩
  rcases (by decide : ∀ Q : BitVec 1, Q = 0#1 ∨ Q = 1#1) Q with rfl | rfl <;> rfl

theorem TryDecodeREV32_eq : d.TryDecodeREV32_ASIMDMISC_R =
    some ((some (Arm.arrangement d.Q (if d.size = 0#2 then 0#2 else 1#2))).map
      (d.arranged [d.Rn] [])) := by
  unfold SimdFields.TryDecodeREV32_ASIMDMISC_R
  apply decodeArranged_eq d
  by_cases h : d.size = 0#2
  · rw [if_neg (not_not.mpr h), if_pos h]
    rfl
  · rw [if_pos h, if_neg h]
    rfl

end

/-! ### Execution -/

section

variable {ovf : Overflow} {op : LaneOp} {d : SimdFields} {V : VectorRegs}

/-- An instruction that is decoded and has a function runs it on the operands. -/
theorem exec_of_isel {i : VectorInst} {r : Value} (hdec : op.TryDecode d = some (some i))
    (hcall : op.isel ovf i.specifiers (i.operands V) i.imms = some r) :
    op.exec ovf d V = some (some (i.store V r)) := by
  unfold LaneOp.exec
  rw [hdec]
  show (op.isel ovf i.specifiers (i.operands V) i.imms).bind _ = _
  rw [hcall]
  rfl

/-- Where the decoder and the architecture accept the same and the semantics function gives the
result, the instruction is followed. -/
theorem execLanes_of_call (inst : Arrangement → VectorInst)
    (hdec : op.TryDecode d = some ((Arm.accepted d op).map inst))
    (hdst : ∀ a, (inst a).dst.2 = d.Rd)
    (hcall : ∀ a, Arm.accepted d op = some a →
      ∃ r, op.isel ovf (inst a).specifiers ((inst a).operands V) (inst a).imms = some r ∧
        r.whole = Arm.laneResult a (V d.Rd) (V d.Rn) (V d.Rm) op) :
    op.exec ovf d V = some (Arm.execLanes op d V) := by
  unfold Arm.execLanes
  cases ha : Arm.accepted d op with
  | none =>
    rw [ha] at hdec
    unfold LaneOp.exec
    rw [hdec]
    rfl
  | some a =>
    obtain ⟨r, hr, hwhole⟩ := hcall a ha
    rw [ha] at hdec
    rw [exec_of_isel hdec hr, VectorInst.store, whole_castFromInst, hwhole, hdst a]
    rfl

theorem vecOf_arranged (a : Arrangement) (reg : BitVec 128) :
    vecOf a.lanes a.esize (.low (a.regClass false) reg) = Arm.lanes a reg :=
  vecOf_low reg (a.lanes_mul_esize false).le

theorem whole_arranged (a : Arrangement) (v : Vec a.lanes a.esize) :
    (vecValue (a.regClass false) v).whole = Arm.zeroExtended v :=
  whole_vecValue _ v (a.lanes_mul_esize false).le

/-- An instruction with a function template on two vectors. -/
theorem exec_binary {as : List Arrangement}
    {f : ∀ {n w : ℕ}, Vec n w → Vec n w → Option (Vec n w)}
    (hisel : op.isel ovf = .binary as f)
    (hdec : op.TryDecode d = some ((Arm.accepted d op).map (d.arranged [d.Rn, d.Rm] [])))
    (hmem : ∀ a, Arm.accepted d op = some a → a ∈ as)
    (hf : ∀ a ∈ as, ∀ vd vn vm : BitVec 128, ∃ r, f (Arm.lanes a vn) (Arm.lanes a vm) = some r ∧
      Arm.zeroExtended r = Arm.laneResult a vd vn vm op) :
    op.exec ovf d V = some (Arm.execLanes op d V) := by
  apply execLanes_of_call _ hdec fun _ => rfl
  intro a ha
  obtain ⟨r, hr, hres⟩ := hf a (hmem a ha) (V d.Rd) (V d.Rn) (V d.Rm)
  refine ⟨vecValue (a.regClass false) r, ?_, (whole_arranged a r).trans hres⟩
  rw [hisel]
  show (if a ∈ as then (f (vecOf _ _ (.low _ (V d.Rn))) (vecOf _ _ (.low _ (V d.Rm)))).map _
    else none) = _
  rw [if_pos (hmem a ha), vecOf_arranged, vecOf_arranged, hr, Option.map_some]

/-- An instruction with a comparison with zero. -/
theorem exec_withImm {as : List Arrangement}
    {f : ∀ {n w : ℕ}, Vec n w → BitVec w → Option (Vec n w)}
    (hisel : op.isel ovf = .withImm as f)
    (hdec : op.TryDecode d = some ((Arm.accepted d op).map (d.arranged [d.Rn] [0#64])))
    (hmem : ∀ a, Arm.accepted d op = some a → a ∈ as)
    (hf : ∀ a ∈ as, ∀ vd vn vm : BitVec 128, ∃ r, f (Arm.lanes a vn) 0#a.esize = some r ∧
      Arm.zeroExtended r = Arm.laneResult a vd vn vm op) :
    op.exec ovf d V = some (Arm.execLanes op d V) := by
  apply execLanes_of_call _ hdec fun _ => rfl
  intro a ha
  obtain ⟨r, hr, hres⟩ := hf a (hmem a ha) (V d.Rd) (V d.Rn) (V d.Rm)
  refine ⟨vecValue (a.regClass false) r, ?_, (whole_arranged a r).trans hres⟩
  rw [hisel]
  show (if a ∈ as then (f (vecOf _ _ (.low _ (V d.Rn))) ((0#64).setWidth _)).map _ else none) = _
  rw [if_pos (hmem a ha), vecOf_arranged, BitVec.setWidth_zero, hr, Option.map_some]

/-- An instruction with a reduction. -/
theorem exec_reduction {as : List Arrangement} {f : ∀ {n w : ℕ}, Vec n w → Option (BitVec w)}
    (hisel : op.isel ovf = .reduction as f)
    (hdec : op.TryDecode d = some ((Arm.accepted d op).map (d.arranged [d.Rn] [])))
    (hmem : ∀ a, Arm.accepted d op = some a → a ∈ as)
    (hf : ∀ a ∈ as, ∀ vd vn vm : BitVec 128, ∃ r, f (Arm.lanes a vn) = some r ∧
      r.setWidth 128 = Arm.laneResult a vd vn vm op) :
    op.exec ovf d V = some (Arm.execLanes op d V) := by
  apply execLanes_of_call _ hdec fun _ => rfl
  intro a ha
  obtain ⟨r, hr, hres⟩ := hf a (hmem a ha) (V d.Rd) (V d.Rn) (V d.Rm)
  have hclass : ERCSize (Isel.scalarClass a) = a.esize := by cases a <;> rfl
  refine ⟨⟨Isel.scalarClass a, r.setWidth _⟩, ?_, ?_⟩
  · rw [hisel]
    show (if a ∈ as then (f (vecOf _ _ (.low _ (V d.Rn)))).map _ else none) = _
    rw [if_pos (hmem a ha), vecOf_arranged, hr, Option.map_some]
  · rw [← hres]
    exact BitVec.setWidth_setWidth fun h => absurd h.1 (by rw [hclass]; exact lt_irrefl _)

/-- An instruction with a bitwise function, whose result is the low part of `x`. -/
theorem exec_bitwise {f : ∀ {n : ℕ}, List (Vec n 64) → Option (Vec n 64)}
    {srcs : List (BitVec 5)} {x : BitVec 128} (hisel : op.isel ovf = .bitwise f)
    (hdec : op.TryDecode d = d.decodeBitwise srcs)
    (hacc : Arm.accepted d op = some (Arm.arrangement d.Q 0#2))
    (hf : ∀ n : ℕ, ∃ r : Vec n 64, f (srcs.map fun s => Vec.ofBits n (V s)) = some r ∧
      r.bits = x.setWidth (n * 64))
    (hres : ∀ a, Arm.laneResult a (V d.Rd) (V d.Rn) (V d.Rm) op = Arm.bitwise a x) :
    op.exec ovf d V = some (Arm.execLanes op d V) := by
  obtain ⟨r1, hr1, hx1⟩ := hf 1
  obtain ⟨r2, hr2, hx2⟩ := hf 2
  have hlow1 : (fun s => vecOf 1 64 (.low .Reg1D (V s))) = fun s => Vec.ofBits 1 (V s) :=
    funext fun s => vecOf_low (V s) (by decide : 1 * 64 ≤ ERCSize .Reg1D)
  have hlow2 : (fun s => vecOf 2 64 (.low .Reg2D (V s))) = fun s => Vec.ofBits 2 (V s) :=
    funext fun s => vecOf_low (V s) (by decide : 2 * 64 ≤ ERCSize .Reg2D)
  apply execLanes_of_call (d.bitwiseArranged srcs)
  · rw [hdec, hacc]
    exact decodeBitwise_eq d srcs
  · exact fun _ => rfl
  · intro a ha
    rw [hacc, Option.some.injEq] at ha
    rw [hisel, hres]
    -- one word for `8B`, two for `16B`
    rcases (by decide : ∀ Q : BitVec 1, Q = 0#1 ∨ Q = 1#1) d.Q with hQ | hQ <;> rw [hQ] at ha <;>
      subst ha
    · refine ⟨vecValue .Reg1D r1, ?_, ?_⟩
      · show Option.map _ (f (((srcs.map fun s => (ERC.Reg1D, s)).map _).map _)) = _
        rw [List.map_map, List.map_map]
        show Option.map _ (f (srcs.map fun s => vecOf 1 64 (.low .Reg1D (V s)))) = _
        rw [hlow1, hr1, Option.map_some]
      · rw [whole_vecValue _ r1 (by decide), hx1]
        rfl
    · refine ⟨vecValue .Reg2D r2, ?_, ?_⟩
      · show Option.map _ (f (((srcs.map fun s => (ERC.Reg2D, s)).map _).map _)) = _
        rw [List.map_map, List.map_map]
        show Option.map _ (f (srcs.map fun s => vecOf 2 64 (.low .Reg2D (V s)))) = _
        rw [hlow2, hr2, Option.map_some]
      · rw [whole_vecValue _ r2 (by decide), hx2]
        rfl

/-! ### Instruction by instruction -/

theorem accepted_same {a : Arrangement} (h : (if d.size = 3#2 ∧ d.Q = 0#1 then none
    else some (Arm.arrangement d.Q d.size)) = some a) :
    a ∈ [Arrangement.B8, .B16, .H4, .H8, .S2, .S4, .D2] := by
  split_ifs at h with hres
  cases h
  exact (by decide : ∀ (Q : BitVec 1) (size : BitVec 2), ¬ (size = 3#2 ∧ Q = 0#1) →
    Arm.arrangement Q size ∈ [Arrangement.B8, .B16, .H4, .H8, .S2, .S4, .D2]) _ _ hres

theorem accepted_max {a : Arrangement} (h : (if d.size = 3#2 then none
    else some (Arm.arrangement d.Q d.size)) = some a) :
    a ∈ [Arrangement.B8, .B16, .H4, .H8, .S2, .S4] := by
  split_ifs at h with hres
  cases h
  exact (by decide : ∀ (Q : BitVec 1) (size : BitVec 2), size ≠ 3#2 →
    Arm.arrangement Q size ∈ [Arrangement.B8, .B16, .H4, .H8, .S2, .S4]) _ _ hres

theorem accepted_all {a : Arrangement} (h : (if d.size = 2#2 ∧ d.Q = 0#1 ∨ d.size = 3#2 then none
    else some (Arm.arrangement d.Q d.size)) = some a) :
    a ∈ [Arrangement.B8, .B16, .H4, .H8, .S4] := by
  split_ifs at h with hres
  cases h
  exact (by decide : ∀ (Q : BitVec 1) (size : BitVec 2),
    ¬ (size = 2#2 ∧ Q = 0#1 ∨ size = 3#2) →
    Arm.arrangement Q size ∈ [Arrangement.B8, .B16, .H4, .H8, .S4]) _ _ hres

/-- Lane by lane. -/
theorem exec_lanewise {as : List Arrangement}
    {f : ∀ {n w : ℕ}, Vec n w → Vec n w → Option (Vec n w)}
    {g : ∀ {w : ℕ}, BitVec w → BitVec w → BitVec w} (hisel : op.isel ovf = .binary as f)
    (hdec : op.TryDecode d = some ((Arm.accepted d op).map (d.arranged [d.Rn, d.Rm] [])))
    (hmem : ∀ a, Arm.accepted d op = some a → a ∈ as)
    (hf : ∀ {n w : ℕ} (x y : Vec n w), f x y = some fun i => g (x i) (y i))
    (hres : ∀ a vd vn vm, Arm.laneResult a vd vn vm op = Arm.lanewise g a vn vm) :
    op.exec ovf d V = some (Arm.execLanes op d V) := by
  apply exec_binary hisel hdec hmem
  intro a _ vd vn vm
  exact ⟨_, hf _ _, (hres a vd vn vm).symm⟩

/-- On adjacent lanes; a single lane is not among the arrangements. -/
theorem exec_pairwise {as : List Arrangement}
    {f : ∀ {n w : ℕ}, Vec n w → Vec n w → Option (Vec n w)}
    {binop : ∀ {w : ℕ}, BitVec w → BitVec w → Option (BitVec w)}
    {g : ∀ {w : ℕ}, BitVec w → BitVec w → BitVec w} (hisel : op.isel ovf = .binary as f)
    (hdec : op.TryDecode d = some ((Arm.accepted d op).map (d.arranged [d.Rn, d.Rm] [])))
    (hmem : ∀ a, Arm.accepted d op = some a → a ∈ as) (hD1 : Arrangement.D1 ∉ as)
    (hf : ∀ {n w : ℕ} (x y : Vec n w), f x y = pairwise binop x y)
    (hbinop : ∀ {w : ℕ} (a b : BitVec w), binop a b = some (g a b))
    (hres : ∀ a vd vn vm, Arm.laneResult a vd vn vm op = Arm.pairwise g a vn vm) :
    op.exec ovf d V = some (Arm.execLanes op d V) := by
  apply exec_binary hisel hdec hmem
  intro a ha vd vn vm
  have heven : ∃ m, a.lanes = 2 * m := by
    cases a with
    | D1 => exact absurd ha hD1
    | B8 => exact ⟨4, rfl⟩
    | B16 => exact ⟨8, rfl⟩
    | H4 => exact ⟨2, rfl⟩
    | H8 => exact ⟨4, rfl⟩
    | S2 => exact ⟨1, rfl⟩
    | S4 => exact ⟨2, rfl⟩
    | D2 => exact ⟨1, rfl⟩
  obtain ⟨m, hm⟩ := heven
  exact ⟨_, (hf _ _).trans (pairwise_lanes hbinop hm vn vm), (hres a vd vn vm).symm⟩

/-- The comparisons with zero, from what their functions compute. -/
theorem exec_compareZero {as : List Arrangement}
    {f : ∀ {n w : ℕ}, Vec n w → BitVec w → Option (Vec n w)} {p : ℤ → Bool}
    (hisel : op.isel ovf = .withImm as f)
    (hdec : op.TryDecode d = some ((Arm.accepted d op).map (d.arranged [d.Rn] [0#64])))
    (hmem : ∀ a, Arm.accepted d op = some a → a ∈ as)
    (hf : ∀ {n w : ℕ} (x : Vec n w), f x 0#w = some fun i => mask w (p (x i).toInt))
    (hres : ∀ a vd vn vm, Arm.laneResult a vd vn vm op = Arm.compareZero p a vn) :
    op.exec ovf d V = some (Arm.execLanes op d V) := by
  apply exec_withImm hisel hdec hmem
  intro a _ vd vn vm
  exact ⟨_, hf _, (hres a vd vn vm).symm⟩

/-- The reductions, from what their functions compute. -/
theorem exec_reduce {as : List Arrangement} {f : ∀ {n w : ℕ}, Vec n w → Option (BitVec w)}
    {g : ∀ {w : ℕ}, BitVec w → BitVec w → BitVec w} (hisel : op.isel ovf = .reduction as f)
    (hdec : op.TryDecode d = some ((Arm.accepted d op).map (d.arranged [d.Rn] [])))
    (hmem : ∀ a, Arm.accepted d op = some a → a ∈ as)
    (hf : ∀ a ∈ as, ∀ x : Vec a.lanes a.esize, f x = some (Arm.reduce g x))
    (hres : ∀ a vd vn vm, Arm.laneResult a vd vn vm op = Arm.reduction g a vn) :
    op.exec ovf d V = some (Arm.execLanes op d V) := by
  apply exec_reduction hisel hdec hmem
  intro a ha vd vn vm
  exact ⟨_, hf a ha _, (hres a vd vn vm).symm⟩

theorem cond_SCmpEq (a b : BitVec w) : cond SCmpEq a b = some (a == b) := by
  have heq : (a.toInt == b.toInt) = (a == b) := by
    rw [Bool.eq_iff_iff, beq_iff_eq, beq_iff_eq, BitVec.toInt_inj]
  rw [← heq]
  exact cond_boolbinop (fun a b => a.toInt == b.toInt) a b

theorem mem_all {a : Arrangement} (_ : a ∈ [Arrangement.B8, .B16, .H4, .H8, .S2, .S4, .D2]) :
    a ∈ [Arrangement.B8, .B16, .H4, .H8, .S2, .S4, .D1, .D2] := by
  cases a <;> decide

/-- A comparison with an immediate zero. -/
theorem compareZero_eq (p : ℤ → ℤ → Bool) (x : Vec n w) :
    cmpBroadcastImm (cond (boolbinop fun a b => p a.toInt b.toInt)) x 0#w =
      some fun i => mask w (p (x i).toInt 0) := by
  have h := cmpBroadcastImm_eq (cond_boolbinop fun a b : BitVec w => p a.toInt b.toInt) x 0#w
  rwa [BitVec.toInt_zero] at h

theorem CMPEQ_IMM_eq (x : Vec n w) :
    CMPEQ_IMM x 0#w = some fun i => mask w ((x i).toInt == 0) :=
  compareZero_eq (fun a b => a == b) x

theorem CMPLT_IMM_eq (x : Vec n w) :
    CMPLT_IMM x 0#w = some fun i => mask w (decide ((x i).toInt < 0)) :=
  compareZero_eq (fun a b => decide (a < b)) x

theorem CMPLE_IMM_eq (x : Vec n w) :
    CMPLE_IMM x 0#w = some fun i => mask w (decide ((x i).toInt ≤ 0)) :=
  compareZero_eq (fun a b => decide (a ≤ b)) x

theorem CMPGT_IMM_eq (x : Vec n w) :
    CMPGT_IMM x 0#w = some fun i => mask w (decide ((x i).toInt > 0)) :=
  compareZero_eq (fun a b => decide (a > b)) x

theorem CMPGE_IMM_eq (x : Vec n w) :
    CMPGE_IMM x 0#w = some fun i => mask w (decide ((x i).toInt ≥ 0)) :=
  compareZero_eq (fun a b => decide (a ≥ b)) x

theorem reversed_call {a : Arrangement} {m : ℕ} (hn : a.lanes = 32 / a.esize * m)
    {f : Vec a.lanes a.esize → Option (Vec a.lanes a.esize)} {reg : BitVec 128}
    (hf : f (Arm.lanes a reg) = some fun i => Arm.lanes a reg (mirror hn i)) :
    ∃ r, (f (vecOf a.lanes a.esize (.low (a.regClass false) reg))).map
        (vecValue (a.regClass false)) = some r ∧ r.whole = Arm.reversed32 a reg := by
  rw [vecOf_arranged, hf]
  exact ⟨_, rfl, whole_arranged a _⟩

theorem exec_REV32 : LaneOp.exec ovf .REV32_ASIMDMISC_R d V =
    some (Arm.execLanes .REV32_ASIMDMISC_R d V) := by
  have hdec : LaneOp.TryDecode d .REV32_ASIMDMISC_R =
      some ((Arm.accepted d .REV32_ASIMDMISC_R).map (d.arranged [d.Rn] [])) := TryDecodeREV32_eq d
  apply execLanes_of_call _ hdec fun _ => rfl
  intro a ha
  have hcases : a = .B8 ∨ a = .B16 ∨ a = .H4 ∨ a = .H8 := by
    rw [Arm.accepted, Option.some.injEq] at ha
    subst ha
    exact (by decide : ∀ (Q : BitVec 1) (size : BitVec 2),
      Arm.arrangement Q (if size = 0#2 then 0#2 else 1#2) = .B8 ∨
      Arm.arrangement Q (if size = 0#2 then 0#2 else 1#2) = .B16 ∨
      Arm.arrangement Q (if size = 0#2 then 0#2 else 1#2) = .H4 ∨
      Arm.arrangement Q (if size = 0#2 then 0#2 else 1#2) = .H8) _ _
  rcases hcases with rfl | rfl | rfl | rfl
  · exact reversed_call (a := .B8) (m := 2) rfl (REV32_VectorB_eq _ _)
  · exact reversed_call (a := .B16) (m := 4) rfl (REV32_VectorB_eq _ _)
  · exact reversed_call (a := .H4) (m := 2) rfl (REV32_VectorH_eq _ _)
  · exact reversed_call (a := .H8) (m := 4) rfl (REV32_VectorH_eq _ _)

/-- `ADD` and `SUB` follow the architecture. -/
theorem exec_arithmetic
    (h : op ∈ [LaneOp.ADD_ASIMDSAME_ONLY, .SUB_ASIMDSAME_ONLY]) :
    op.exec ovf d V = some (Arm.execLanes op d V) := by
  simp only [List.mem_cons, List.not_mem_nil, or_false] at h
  rcases h with rfl | rfl
  · exact exec_lanewise (f := ADD_V) (g := (· + ·)) rfl (TryDecodeADD_eq d)
      (fun _ => accepted_same) (broadcast_eq UAdd_eq) fun _ _ _ _ => rfl
  · exact exec_lanewise (f := SUB_V) (g := (· - ·)) rfl (TryDecodeADD_eq d)
      (fun _ => accepted_same) (broadcast_eq USub_eq) fun _ _ _ _ => rfl

/-- The minima and maxima follow the architecture. -/
theorem exec_minMax
    (h : op ∈ [LaneOp.UMIN_ASIMDSAME_ONLY, .UMAX_ASIMDSAME_ONLY, .SMIN_ASIMDSAME_ONLY,
      .SMAX_ASIMDSAME_ONLY]) :
    op.exec ovf d V = some (Arm.execLanes op d V) := by
  simp only [List.mem_cons, List.not_mem_nil, or_false] at h
  rcases h with rfl | rfl | rfl | rfl
  · exact exec_lanewise (f := UMIN_V) (g := Arm.umin) rfl (TryDecodeUMAXP_eq d)
      (fun _ => accepted_max) (broadcast_eq fun a b => congrArg some (UMin_eq a b))
      fun _ _ _ _ => rfl
  · exact exec_lanewise (f := UMAX_V) (g := Arm.umax) rfl (TryDecodeUMAXP_eq d)
      (fun _ => accepted_max) (broadcast_eq fun a b => congrArg some (UMax_eq a b))
      fun _ _ _ _ => rfl
  · exact exec_lanewise (f := SMIN_V) (g := Arm.smin) rfl (TryDecodeUMAXP_eq d)
      (fun _ => accepted_max) (broadcast_eq fun a b => congrArg some (SMin_eq a b))
      fun _ _ _ _ => rfl
  · exact exec_lanewise (f := SMAX_V) (g := Arm.smax) rfl (TryDecodeUMAXP_eq d)
      (fun _ => accepted_max) (broadcast_eq fun a b => congrArg some (SMax_eq a b))
      fun _ _ _ _ => rfl

/-- The operations on pairs follow the architecture. -/
theorem exec_pairs
    (h : op ∈ [LaneOp.ADDP_ASIMDSAME_ONLY, .UMINP_ASIMDSAME_ONLY, .UMAXP_ASIMDSAME_ONLY,
      .SMINP_ASIMDSAME_ONLY, .SMAXP_ASIMDSAME_ONLY]) :
    op.exec ovf d V = some (Arm.execLanes op d V) := by
  simp only [List.mem_cons, List.not_mem_nil, or_false] at h
  rcases h with rfl | rfl | rfl | rfl | rfl
  · exact exec_pairwise (f := ADDP) (g := (· + ·)) rfl (TryDecodeADD_eq d)
      (fun _ => accepted_same) (by decide) (fun _ _ => rfl) UAdd_eq fun _ _ _ _ => rfl
  · exact exec_pairwise (f := UMINP) (g := Arm.umin) rfl (TryDecodeUMAXP_eq d)
      (fun _ => accepted_max) (by decide) (fun _ _ => rfl)
      (fun a b => congrArg some (UMin_eq a b)) fun _ _ _ _ => rfl
  · exact exec_pairwise (f := UMAXP) (g := Arm.umax) rfl (TryDecodeUMAXP_eq d)
      (fun _ => accepted_max) (by decide) (fun _ _ => rfl)
      (fun a b => congrArg some (UMax_eq a b)) fun _ _ _ _ => rfl
  · exact exec_pairwise (f := SMINP) (g := Arm.smin) rfl (TryDecodeUMAXP_eq d)
      (fun _ => accepted_max) (by decide) (fun _ _ => rfl)
      (fun a b => congrArg some (SMin_eq a b)) fun _ _ _ _ => rfl
  · exact exec_pairwise (f := SMAXP) (g := Arm.smax) rfl (TryDecodeUMAXP_eq d)
      (fun _ => accepted_max) (by decide) (fun _ _ => rfl)
      (fun a b => congrArg some (SMax_eq a b)) fun _ _ _ _ => rfl

/-- The comparisons follow the architecture. -/
theorem exec_compare
    (h : op ∈ [LaneOp.CMEQ_ASIMDSAME_ONLY, .CMGE_ASIMDSAME_ONLY, .CMGT_ASIMDSAME_ONLY,
      .CMTST_ASIMDSAME_ONLY, .CMHS_ASIMDSAME_ONLY]) :
    op.exec ovf d V = some (Arm.execLanes op d V) := by
  simp only [List.mem_cons, List.not_mem_nil, or_false] at h
  rcases h with rfl | rfl | rfl | rfl | rfl
  · exact exec_lanewise (f := CMPEQ) (g := fun x y => mask _ (x == y)) rfl (TryDecodeCMEQ_eq d)
      (fun _ => accepted_same) (cmpBroadcast_eq cond_SCmpEq) fun _ _ _ _ => rfl
  · exact exec_lanewise (f := CMPGE) (g := fun x y => mask _ (decide (x.toInt ≥ y.toInt))) rfl
      (TryDecodeCMEQ_eq d)
      (fun _ => accepted_same) (cmpBroadcast_eq (cond_boolbinop _)) fun _ _ _ _ => rfl
  · exact exec_lanewise (f := CMPGT) (g := fun x y => mask _ (decide (x.toInt > y.toInt))) rfl
      (TryDecodeCMEQ_eq d)
      (fun _ => accepted_same) (cmpBroadcast_eq (cond_boolbinop _)) fun _ _ _ _ => rfl
  · exact exec_lanewise (f := CMPTST) (g := fun x y => mask _ (x &&& y != 0#_)) rfl
      (TryDecodeCMEQ_eq d)
      (fun _ => accepted_same) (cmpBroadcast_eq UCmpTst_eq) fun _ _ _ _ => rfl
  · exact exec_lanewise (f := CMPHS) (g := fun x y => mask _ (decide (x.toNat ≥ y.toNat))) rfl
      (TryDecodeCMEQ_eq d)
      (fun _ => accepted_same) (cmpBroadcast_eq (cond_boolbinop _)) fun _ _ _ _ => rfl

/-- The comparisons with zero follow the architecture. -/
theorem exec_zeros
    (h : op ∈ [LaneOp.CMEQ_ASIMDMISC_Z, .CMLT_ASIMDMISC_Z, .CMLE_ASIMDMISC_Z, .CMGT_ASIMDMISC_Z,
      .CMGE_ASIMDMISC_Z]) :
    op.exec ovf d V = some (Arm.execLanes op d V) := by
  simp only [List.mem_cons, List.not_mem_nil, or_false] at h
  rcases h with rfl | rfl | rfl | rfl | rfl
  · exact exec_compareZero (f := CMPEQ_IMM) (p := fun x => x == 0) rfl (TryDecodeCMEQ_Z_eq d)
      (fun _ h => mem_all (accepted_same h)) CMPEQ_IMM_eq fun _ _ _ _ => rfl
  · exact exec_compareZero (f := CMPLT_IMM) (p := fun x => decide (x < 0)) rfl
      (TryDecodeCMEQ_Z_eq d)
      (fun _ h => mem_all (accepted_same h)) CMPLT_IMM_eq fun _ _ _ _ => rfl
  · exact exec_compareZero (f := CMPLE_IMM) (p := fun x => decide (x ≤ 0)) rfl
      (TryDecodeCMEQ_Z_eq d)
      (fun _ h => mem_all (accepted_same h)) CMPLE_IMM_eq fun _ _ _ _ => rfl
  · exact exec_compareZero (f := CMPGT_IMM) (p := fun x => decide (x > 0)) rfl
      (TryDecodeCMEQ_Z_eq d)
      (fun _ h => mem_all (accepted_same h)) CMPGT_IMM_eq fun _ _ _ _ => rfl
  · exact exec_compareZero (f := CMPGE_IMM) (p := fun x => decide (x ≥ 0)) rfl
      (TryDecodeCMEQ_Z_eq d)
      (fun _ h => mem_all (accepted_same h)) CMPGE_IMM_eq fun _ _ _ _ => rfl

/-- The bitwise instructions follow the architecture. -/
theorem exec_selections
    (h : op ∈ [LaneOp.EOR_ASIMDSAME_ONLY, .BIT_ASIMDSAME_ONLY, .BIF_ASIMDSAME_ONLY,
      .BSL_ASIMDSAME_ONLY]) :
    op.exec ovf d V = some (Arm.execLanes op d V) := by
  simp only [List.mem_cons, List.not_mem_nil, or_false] at h
  rcases h with rfl | rfl | rfl | rfl
  · apply exec_bitwise (f := Isel.onTwo EOR_Vec) (x := V d.Rm ^^^ V d.Rn)
    · rfl
    · rfl
    · rfl
    · exact fun n => ⟨_, EOR_Vec_eq _ _, bits_eor _ _⟩
    · intro a
      rw [BitVec.xor_comm]
      rfl
  · apply exec_bitwise (f := Isel.onThree BIT_Vec)
      (x := bitSelect (V d.Rm) (V d.Rn) (V d.Rd))
    · rfl
    · rfl
    · rfl
    · exact fun n => ⟨_, BIT_Vec_eq _ _ _, bits_bitSelect _ _ _⟩
    · exact fun _ => rfl
  · apply exec_bitwise (f := Isel.onThree BIF_Vec)
      (x := bitSelect (~~~V d.Rm) (V d.Rn) (V d.Rd))
    · rfl
    · rfl
    · rfl
    · exact fun n => ⟨_, BIF_Vec_eq _ _ _, bits_bitSelect_not _ _ _⟩
    · exact fun _ => rfl
  · apply exec_bitwise (f := Isel.onThree BSL_Vec)
      (x := bitSelect (V d.Rd) (V d.Rn) (V d.Rm))
    · rfl
    · rfl
    · rfl
    · exact fun n => ⟨_, BSL_Vec_eq _ _ _, bits_bitSelect _ _ _⟩
    · exact fun _ => rfl

/-- The reductions follow the architecture. -/
theorem exec_reductions
    (h : op ∈ [LaneOp.ADDV_ASIMDALL_ONLY, .UMINV_ASIMDALL_ONLY, .UMAXV_ASIMDALL_ONLY,
      .SMINV_ASIMDALL_ONLY, .SMAXV_ASIMDALL_ONLY]) :
    op.exec ovf d V = some (Arm.execLanes op d V) := by
  simp only [List.mem_cons, List.not_mem_nil, or_false] at h
  rcases h with rfl | rfl | rfl | rfl | rfl
  · refine exec_reduce (f := ADDV_Reduce ovf) (g := (· + ·)) rfl (TryDecodeADDV_eq d)
      (fun _ => accepted_all) ?_ fun _ _ _ _ => rfl
    intro a ha x
    have hsizes : (a.lanes = 4 ∨ a.lanes = 8 ∨ a.lanes = 16) ∧ a.esize < 64 := by
      revert ha
      cases a <;> decide
    exact ADDV_eq ovf hsizes.1 a.esize_pos hsizes.2 x
  · exact exec_reduce (f := UMINV) (g := Arm.umin) rfl (TryDecodeADDV_eq d)
      (fun _ => accepted_all) (fun a _ => UMINV_eq a.lanes_pos) fun _ _ _ _ => rfl
  · exact exec_reduce (f := UMAXV) (g := Arm.umax) rfl (TryDecodeADDV_eq d)
      (fun _ => accepted_all) (fun a _ => UMAXV_eq a.lanes_pos) fun _ _ _ _ => rfl
  · exact exec_reduce (f := SMINV) (g := Arm.smin) rfl (TryDecodeADDV_eq d)
      (fun _ => accepted_all) (fun a _ => SMINV_eq a.lanes_pos) fun _ _ _ _ => rfl
  · exact exec_reduce (f := SMAXV) (g := Arm.smax) rfl (TryDecodeADDV_eq d)
      (fun _ => accepted_all) (fun a _ => SMAXV_eq a.lanes_pos a.esize_pos) fun _ _ _ _ => rfl

/-- All instructions but the two that fail follow the architecture on all registers. -/
theorem exec_eq_execLanes (hcnt : op ≠ .CNT_ASIMDMISC_R) (hcmge : op ≠ .CMGE_ASISDMISC_Z) :
    op.exec ovf d V = some (Arm.execLanes op d V) := by
  cases op with
  | ADD_ASIMDSAME_ONLY | SUB_ASIMDSAME_ONLY =>
    exact exec_arithmetic (by decide)
  | UMIN_ASIMDSAME_ONLY | UMAX_ASIMDSAME_ONLY | SMIN_ASIMDSAME_ONLY | SMAX_ASIMDSAME_ONLY =>
    exact exec_minMax (by decide)
  | ADDP_ASIMDSAME_ONLY | UMINP_ASIMDSAME_ONLY | UMAXP_ASIMDSAME_ONLY
  | SMINP_ASIMDSAME_ONLY | SMAXP_ASIMDSAME_ONLY =>
    exact exec_pairs (by decide)
  | CMEQ_ASIMDSAME_ONLY | CMGE_ASIMDSAME_ONLY | CMGT_ASIMDSAME_ONLY | CMTST_ASIMDSAME_ONLY
  | CMHS_ASIMDSAME_ONLY =>
    exact exec_compare (by decide)
  | CMEQ_ASIMDMISC_Z | CMLT_ASIMDMISC_Z | CMLE_ASIMDMISC_Z | CMGT_ASIMDMISC_Z
  | CMGE_ASIMDMISC_Z =>
    exact exec_zeros (by decide)
  | EOR_ASIMDSAME_ONLY | BIT_ASIMDSAME_ONLY | BIF_ASIMDSAME_ONLY | BSL_ASIMDSAME_ONLY =>
    exact exec_selections (by decide)
  | ADDV_ASIMDALL_ONLY | UMINV_ASIMDALL_ONLY | UMAXV_ASIMDALL_ONLY | SMINV_ASIMDALL_ONLY
  | SMAXV_ASIMDALL_ONLY =>
    exact exec_reductions (by decide)
  | REV32_ASIMDMISC_R => exact exec_REV32
  | CNT_ASIMDMISC_R => exact absurd rfl hcnt
  | CMGE_ASISDMISC_Z => exact absurd rfl hcmge

/-! ### The two that fail -/

/-- The upper half of a register, by its bytes. -/
theorem high_half_eq_zero_iff (x : BitVec 128) : x.extractLsb' 64 64 = 0#64 ↔
    ∀ e : Fin 16, 8 ≤ e.val → (Vec.ofBits 16 x : Vec 16 8) e = 0#8 := by
  constructor
  · intro h e he
    apply BitVec.eq_of_getLsbD_eq
    intro j hj
    have hbit := congrArg (fun y => y.getLsbD (8 * (e - 8) + j)) h
    simp only [BitVec.getLsbD_zero] at hbit
    rw [BitVec.getLsbD_extractLsb', decide_eq_true (by omega), Bool.true_and,
      (by omega : 64 + (8 * (e.val - 8) + j) = 8 * e + j)] at hbit
    rw [Vec.getLsbD_ofBits x e hj, hbit, BitVec.getLsbD_zero]
  · intro h
    apply BitVec.eq_of_getLsbD_eq
    intro k hk
    have hbit := congrArg (fun y => y.getLsbD (k % 8))
      (h ⟨8 + k / 8, by omega⟩ (Nat.le_add_right 8 _))
    simp only [BitVec.getLsbD_zero] at hbit
    rw [Vec.getLsbD_ofBits x _ (Nat.mod_lt k (by decide)),
      (by omega : 8 * (8 + k / 8) + k % 8 = 64 + k)] at hbit
    rw [BitVec.getLsbD_extractLsb', decide_eq_true hk, Bool.true_and, hbit, BitVec.getLsbD_zero]

/-- A vector is determined by the register that it fills the low end of. -/
theorem zeroExtended_inj {u v : Vec n w} (h : n * w ≤ 128) :
    Arm.zeroExtended u = Arm.zeroExtended v ↔ u = v :=
  Vec.setWidth_bits_inj h

/-- `CNT` on bytes, with no counts for the upper eight. -/
theorem exec_CNT : LaneOp.exec ovf .CNT_ASIMDMISC_R d V =
    some (some (Function.update V d.Rd
      (Arm.zeroExtended fun e : Fin (Arm.arrangement d.Q 0#2).lanes =>
      if e.val < 8 then (Arm.lanes (Arm.arrangement d.Q 0#2) (V d.Rn) e).cpop else 0#_))) := by
  have hdec : LaneOp.TryDecode d .CNT_ASIMDMISC_R =
      some (some (d.arranged [d.Rn] [] (Arm.arrangement d.Q 0#2))) := TryDecodeCNT_eq d
  rcases (by decide : ∀ Q : BitVec 1, Q = 0#1 ∨ Q = 1#1) d.Q with hQ | hQ <;> rw [hQ] at hdec ⊢
  · have hcall := congrArg (Option.map (vecValue .Reg8B))
      (CNT_SIMD_eq (vecOf 8 8 (.low .Reg8B (V d.Rn))))
    rw [exec_of_isel hdec hcall, store_vecValue _ V _ (by decide),
      vecOf_low _ (by decide : 8 * 8 ≤ ERCSize .Reg8B)]
    rfl
  · have hcall := congrArg (Option.map (vecValue .Reg16B))
      (CNT_SIMD_eq (vecOf 16 8 (.low .Reg16B (V d.Rn))))
    rw [exec_of_isel hdec hcall, store_vecValue _ V _ (by decide),
      vecOf_low _ (by decide : 16 * 8 ≤ ERCSize .Reg16B)]
    rfl

theorem cpop_eq_zero_iff : ∀ x : BitVec 8, x.cpop = 0#8 ↔ x = 0#8 := by
  decide +kernel

/-- `CNT` follows the architecture where there is nothing to count in the upper half. -/
theorem exec_CNT_iff : LaneOp.exec ovf .CNT_ASIMDMISC_R d V =
    some (Arm.execLanes .CNT_ASIMDMISC_R d V) ↔
      (d.Q = 1#1 → (V d.Rn).extractLsb' 64 64 = 0#64) := by
  have harm : Arm.execLanes .CNT_ASIMDMISC_R d V = some (Function.update V d.Rd
      (Arm.zeroExtended fun e => (Arm.lanes (Arm.arrangement d.Q 0#2) (V d.Rn) e).cpop)) := rfl
  rw [exec_CNT, harm, Option.some.injEq, Option.some.injEq,
    (Function.update_injective V d.Rd).eq_iff,
    zeroExtended_inj (Arrangement.lanes_mul_esize_le _), funext_iff]
  rcases (by decide : ∀ Q : BitVec 1, Q = 0#1 ∨ Q = 1#1) d.Q with hQ | hQ <;> rw [hQ]
  · constructor
    · intro _ h
      cases h
    · intro _ e
      exact if_pos e.isLt
  · rw [high_half_eq_zero_iff]
    constructor
    · intro h _ e he
      have hlane := h e
      rw [if_neg (not_lt.mpr he)] at hlane
      exact (cpop_eq_zero_iff _).mp hlane.symm
    · intro h e
      by_cases he : e.val < 8
      · exact if_pos he
      · rw [if_neg he]
        exact ((cpop_eq_zero_iff _).mpr (h rfl e (not_lt.mp he))).symm

/-- The scalar `CMGE` compares both halves of the register. -/
theorem exec_CMGE_scalar (h : d.size = 3#2) : LaneOp.exec ovf .CMGE_ASISDMISC_Z d V =
    some (some (Function.update V d.Rd (Arm.zeroExtended fun i : Fin 2 =>
      mask 64 (decide (0 ≤ ((Vec.ofBits 2 (V d.Rn) : Vec 2 64) i).toInt))))) := by
  have hdec : LaneOp.TryDecode d .CMGE_ASISDMISC_Z =
      some (some ⟨[], (.Reg2D, d.Rd), [(.Reg2D, d.Rn)], []⟩) := if_neg (not_not.mpr h)
  have hcall := congrArg (Option.map (vecValue .Reg2D))
    (CMGE_ASISDMISC_ONLYD_eq (vecOf 2 64 (.low .Reg2D (V d.Rn))))
  rw [exec_of_isel hdec hcall, store_vecValue _ V _ (by decide),
    vecOf_low _ (by decide : 2 * 64 ≤ ERCSize .Reg2D)]
  rfl

/-- One lane of 64 bits is two, the upper one clear. -/
theorem zeroExtended_one (x : BitVec 64) : Arm.zeroExtended (fun _ : Fin 1 => x) =
    Arm.zeroExtended fun i : Fin 2 => if i = 0 then x else 0#64 := by
  apply BitVec.eq_of_getLsbD_eq
  intro k hk
  rw [Arm.zeroExtended, Arm.zeroExtended, BitVec.getLsbD_setWidth, BitVec.getLsbD_setWidth]
  by_cases hlow : k < 64
  · have h1 := Vec.getLsbD_bits (fun _ : Fin 1 => x) 0 hlow
    have h2 := Vec.getLsbD_bits (fun i : Fin 2 => if i = 0 then x else 0#64) 0 hlow
    rw [Fin.val_zero, mul_zero, zero_add] at h1 h2
    rw [h1, h2]
    rfl
  · have h2 := Vec.getLsbD_bits (fun i : Fin 2 => if i = 0 then x else 0#64) 1
      (by omega : k - 64 < 64)
    rw [Fin.val_one, mul_one, (by omega : 64 + (k - 64) = k), if_neg (by decide),
      BitVec.getLsbD_zero] at h2
    rw [h2, BitVec.getLsbD_of_ge _ _ (by omega)]

theorem mask_eq_zero_iff {b : Bool} : mask 64 b = 0#64 ↔ b = false := by
  cases b <;> decide

theorem nonneg_lane_one (x : BitVec 128) :
    decide (0 ≤ ((Vec.ofBits 2 x : Vec 2 64) 1).toInt) = !x.msb := by
  have hmsb : ((Vec.ofBits 2 x : Vec 2 64) 1).msb = x.msb := by
    rw [BitVec.msb_eq_getLsbD_last, BitVec.msb_eq_getLsbD_last, Vec.getLsbD_ofBits x 1 (by decide)]
    rfl
  rw [← hmsb, BitVec.msb_eq_toInt]
  by_cases h : 0 ≤ ((Vec.ofBits 2 x : Vec 2 64) 1).toInt
  · rw [decide_eq_true h, decide_eq_false (not_lt.mpr h)]
    rfl
  · rw [decide_eq_false h, decide_eq_true (not_le.mp h)]
    rfl

/-- It follows the architecture where the upper half is negative, for which it gives a zero. -/
theorem exec_CMGE_scalar_iff : LaneOp.exec ovf .CMGE_ASISDMISC_Z d V =
    some (Arm.execLanes .CMGE_ASISDMISC_Z d V) ↔ (d.size = 3#2 → (V d.Rn).msb = true) := by
  by_cases h : d.size = 3#2
  · have hacc : Arm.accepted d .CMGE_ASISDMISC_Z = some .D1 := if_pos h
    have harm : Arm.execLanes .CMGE_ASISDMISC_Z d V = some (Function.update V d.Rd
        (Arm.zeroExtended fun i : Fin 2 => if i = 0 then
          mask 64 (decide (0 ≤ ((Vec.ofBits 2 (V d.Rn) : Vec 2 64) 0).toInt)) else 0#64)) := by
      unfold Arm.execLanes
      rw [hacc, ← zeroExtended_one]
      show some (Function.update V d.Rd (Arm.zeroExtended fun e : Fin 1 =>
        mask 64 (decide (0 ≤ ((Vec.ofBits 1 (V d.Rn) : Vec 1 64) e).toInt)))) = _
      simp only [Fin.fin_one_eq_zero]
      rfl
    rw [exec_CMGE_scalar h, harm, Option.some.injEq, Option.some.injEq,
      (Function.update_injective V d.Rd).eq_iff, zeroExtended_inj (by decide), funext_iff,
      Fin.forall_fin_two, if_pos rfl, if_neg (by decide), mask_eq_zero_iff, nonneg_lane_one,
      Bool.not_eq_false']
    exact ⟨fun hlanes _ => hlanes.2, fun hneg => ⟨rfl, hneg h⟩⟩
  · have hdec : LaneOp.TryDecode d .CMGE_ASISDMISC_Z = some none := if_pos h
    have hacc : Arm.accepted d .CMGE_ASISDMISC_Z = none := if_neg h
    have hrej : LaneOp.exec ovf .CMGE_ASISDMISC_Z d V = some none := by
      unfold LaneOp.exec
      rw [hdec]
      rfl
    unfold Arm.execLanes
    rw [hrej, hacc]
    exact iff_of_true rfl fun h' => absurd h' h

/-! ### The instructions follow the architecture -/

/-- **The integer instructions on vectors follow the architecture** on given registers, but for
`CNT` on 16 bytes, where the upper half of the source has to be zero, and the scalar `CMGE`, where
it has to be negative. -/
theorem followsArm_lanes_iff (ovf : Overflow) (op : LaneOp) (d : SimdFields) (V : VectorRegs) :
    op.exec ovf d V = some (Arm.execLanes op d V) ↔
      (op = .CNT_ASIMDMISC_R → d.Q = 1#1 → (V d.Rn).extractLsb' 64 64 = 0#64) ∧
      (op = .CMGE_ASISDMISC_Z → d.size = 3#2 → (V d.Rn).msb = true) := by
  by_cases hcnt : op = .CNT_ASIMDMISC_R
  · subst hcnt
    rw [exec_CNT_iff]
    exact ⟨fun h => ⟨fun _ => h, nofun⟩, fun h => h.1 rfl⟩
  · by_cases hcmge : op = .CMGE_ASISDMISC_Z
    · subst hcmge
      rw [exec_CMGE_scalar_iff]
      exact ⟨fun h => ⟨nofun, fun _ => h⟩, fun h => h.2 rfl⟩
    · exact iff_of_true (exec_eq_execLanes hcnt hcmge)
        ⟨fun h => absurd h hcnt, fun h => absurd h hcmge⟩

/-- `CNT V0.16B, V1.16B` counts only the lower eight bytes of all ones. -/
theorem not_followsArm_cnt_16b :
    LaneOp.exec Overflow.undefined .CNT_ASIMDMISC_R ⟨1#1, 0#2, 0#5, 1#5, 0#5⟩
        (fun _ => BitVec.allOnes 128) ≠
      some (Arm.execLanes .CNT_ASIMDMISC_R ⟨1#1, 0#2, 0#5, 1#5, 0#5⟩
        fun _ => BitVec.allOnes 128) := by
  rw [Ne, exec_CNT_iff]
  decide

end

end Elfconv.AArch64
