/-
Elfconv/Semantics/Integer.lean

The integer instructions: sums, products, quotients, shifts by a register and `EXTR`.

A semantics function returns the value of its destination, or nothing where the operators it
expands to leave it undefined.  Beside the functions stand the results that the architecture gives,
in terms of integers.  They agree except in two places, both at 64 bits, where an operator is no
longer widened: the least value divided by `-1`, and a sum of `SMADDL` that overflows in a program
for which that does not wrap.
-/
import Elfconv.Semantics.Operators

namespace Elfconv.AArch64

open CInt

variable {w : ℕ}

/-! ### Semantics functions -/

/-- The two forms of an instruction. -/
inductive Form
  | W
  | X
  deriving DecidableEq

/-- The bits of a form. -/
def Form.size : Form → ℕ
  | W => 32
  | X => 64

/-- `ADD`, of a register, an immediate or a shifted operand. -/
def ADD (src1 src2 : BitVec w) : Option (BitVec w) := do
  return ZExtTo w (← UAdd src1 src2)

/-- `SUB`, of the same operands. -/
def SUB (src1 src2 : BitVec w) : Option (BitVec w) := do
  return ZExtTo w (← USub src1 src2)

/-- `MADD`, of which `MUL` is the alias with a zero register. -/
def MADD (src1 src2 src3 : BitVec w) : Option (BitVec w) := do
  UAdd src3 (← UMul src1 src2)

/-- `MSUB`, of which `MNEG` is the alias with a zero register. -/
def MSUB (src1 src2 src3 : BitVec w) : Option (BitVec w) := do
  USub src3 (← UMul src1 src2)

/-- `UMADDL`: the product has twice the width of its factors. -/
def UMADDL (src1 src2 : BitVec 32) (src3 : BitVec 64) : Option (BitVec 64) := do
  UAdd src3 (← UMul (ZExt src1) (ZExt src2))

/-- `UMSUBL`: the same product is subtracted. -/
def UMSUBL (src1 src2 : BitVec 32) (src3 : BitVec 64) : Option (BitVec 64) := do
  USub src3 (← UMul (ZExt src1) (ZExt src2))

/-- `SMADDL`, with products and sums that C++ leaves undefined where they overflow. -/
def SMADDL (ovf : Overflow) (src1 src2 : BitVec 32) (src3 : BitVec 64) : Option (BitVec 64) := do
  let operand1 : BitVec 64 := SExt src1
  let operand2 : BitVec 64 := SExt src2
  SAdd ovf src3 (← SMul ovf operand1 operand2)

/-- `UMULH`: the upper half of a product of 128 bits. -/
def UMULH (src1 src2 : BitVec 64) : Option (BitVec 64) := do
  let lhs : BitVec 128 := ZExt src1
  let rhs : BitVec 128 := ZExt src2
  let res ← UMul lhs rhs
  return Trunc (← UShr res 64#128)

/-- `SMULH`: the same with signs. -/
def SMULH (ovf : Overflow) (src1 src2 : BitVec 64) : Option (BitVec 64) := do
  let lhs : BitVec 128 := SExt src1
  let rhs : BitVec 128 := SExt src2
  let res ← SMul ovf lhs rhs
  return Trunc (← UShr res 64#128)

/-- `UDIV`, with zero for a division by zero. -/
def UDIV (src1 src2 : BitVec w) : Option (BitVec w) :=
  if src2 = 0#w then some 0#w else UDiv src1 src2

/-- `SDIV`, with zero for a division by zero. -/
def SDIV (src1 src2 : BitVec w) : Option (BitVec w) :=
  if src2 = 0#w then some 0#w else SDiv src1 src2

/-- `LSLV`: the amount is taken by the width. -/
def LSLV (src1 src2 : BitVec w) : Option (BitVec w) := do
  UShl src1 (← URem src2 (BitVec.ofNat w w))

/-- `LSRV`: zeros come in at the top. -/
def LSRV (src1 src2 : BitVec w) : Option (BitVec w) := do
  UShr src1 (← URem src2 (BitVec.ofNat w w))

/-- `ASRV`: copies of the sign come in at the top. -/
def ASRV (src1 src2 : BitVec w) : Option (BitVec w) := do
  SShr src1 (← URem src2 (BitVec.ofNat w w))

/-- `RORV`: what leaves at the bottom comes in at the top. -/
def RORV (src1 src2 : BitVec w) : Option (BitVec w) := do
  Ror src1 (← URem src2 (BitVec.ofNat w w))

/-- `EXTR`: a shift by the whole width is kept apart. -/
def EXTR (src1 src2 lsb : BitVec w) : Option (BitVec w) := do
  if lsb = 0#w then
    return src2
  let operand1 ← UShl src1 (← USub (BitVec.ofNat w w) lsb)
  let operand2 ← UShr src2 lsb
  UOr operand1 operand2

/-! ### The results of the architecture -/

namespace Arm

/-- The sum, modulo the width. -/
def ADD (a b : BitVec w) : BitVec w := BitVec.ofNat w (a.toNat + b.toNat)

/-- The difference, modulo the width. -/
def SUB (a b : BitVec w) : BitVec w := BitVec.ofInt w (a.toNat - b.toNat)

/-- The sum with a product. -/
def MADD (a b c : BitVec w) : BitVec w := BitVec.ofNat w (c.toNat + a.toNat * b.toNat)

/-- The difference from a product. -/
def MSUB (a b c : BitVec w) : BitVec w := BitVec.ofInt w (c.toNat - a.toNat * b.toNat)

/-- The sum with a product of words. -/
def UMADDL (a b : BitVec 32) (c : BitVec 64) : BitVec 64 :=
  BitVec.ofNat 64 (c.toNat + a.toNat * b.toNat)

/-- The difference from a product of words. -/
def UMSUBL (a b : BitVec 32) (c : BitVec 64) : BitVec 64 :=
  BitVec.ofInt 64 (c.toNat - a.toNat * b.toNat)

/-- The sum with a product of signed words. -/
def SMADDL (a b : BitVec 32) (c : BitVec 64) : BitVec 64 :=
  BitVec.ofInt 64 (c.toInt + a.toInt * b.toInt)

/-- The upper half of the product. -/
def UMULH (a b : BitVec 64) : BitVec 64 := BitVec.ofNat 64 (a.toNat * b.toNat / 2 ^ 64)

/-- The upper half of the signed product. -/
def SMULH (a b : BitVec 64) : BitVec 64 := BitVec.ofInt 64 (a.toInt * b.toInt / 2 ^ 64)

/-- A quotient by zero is zero, as it is for natural numbers and integers. -/
def UDIV (a b : BitVec w) : BitVec w := BitVec.ofNat w (a.toNat / b.toNat)

/-- The quotient rounds towards zero. -/
def SDIV (a b : BitVec w) : BitVec w := BitVec.ofInt w (a.toInt.tdiv b.toInt)

/-- A left shift by the amount modulo the width. -/
def LSLV (a s : BitVec w) : BitVec w := a <<< (s.toNat % w)

/-- A right shift by the amount modulo the width. -/
def LSRV (a s : BitVec w) : BitVec w := a >>> (s.toNat % w)

/-- A right shift that keeps the sign. -/
def ASRV (a s : BitVec w) : BitVec w := a.sshiftRight (s.toNat % w)

/-- A rotation to the right. -/
def RORV (a s : BitVec w) : BitVec w := a.rotateRight (s.toNat % w)

/-- The word that starts at bit `lsb` of the two registers side by side. -/
def EXTR (a b : BitVec w) (lsb : ℕ) : BitVec w := (a ++ b).extractLsb' lsb w

end Arm

/-! ### Sums and products -/

theorem ADD_eq (a b : BitVec w) : ADD a b = some (Arm.ADD a b) := by
  simp only [ADD, UAdd_eq, Option.bind_eq_bind, Option.bind_some, Arm.ADD, BitVec.ofNat_add,
    BitVec.ofNat_toNat, BitVec.setWidth_eq]
  exact congrArg some (BitVec.setWidth_eq _)

theorem ofInt_natCast_sub (m n : ℕ) :
    BitVec.ofInt w (m - n) = BitVec.ofNat w m - BitVec.ofNat w n := by
  rw [Int.sub_eq_add_neg, BitVec.ofInt_add, BitVec.ofInt_neg, BitVec.ofInt_natCast,
    BitVec.ofInt_natCast, BitVec.sub_eq_add_neg]

theorem SUB_eq (a b : BitVec w) : SUB a b = some (Arm.SUB a b) := by
  simp only [SUB, USub_eq, Option.bind_eq_bind, Option.bind_some, Arm.SUB, ofInt_natCast_sub,
    BitVec.ofNat_toNat, BitVec.setWidth_eq]
  exact congrArg some (BitVec.setWidth_eq _)

theorem MADD_eq (a b c : BitVec w) : MADD a b c = some (Arm.MADD a b c) := by
  simp only [MADD, UMul_eq, UAdd_eq, Option.bind_eq_bind, Option.bind_some, Arm.MADD,
    BitVec.ofNat_add, BitVec.ofNat_mul, BitVec.ofNat_toNat, BitVec.setWidth_eq]

theorem ofInt_sub_mul (m n k : ℕ) :
    BitVec.ofInt w (m - n * k) = BitVec.ofNat w m - BitVec.ofNat w n * BitVec.ofNat w k := by
  rw [← Int.natCast_mul, ofInt_natCast_sub, BitVec.ofNat_mul]

theorem MSUB_eq (a b c : BitVec w) : MSUB a b c = some (Arm.MSUB a b c) := by
  simp only [MSUB, UMul_eq, USub_eq, Option.bind_eq_bind, Option.bind_some, Arm.MSUB,
    ofInt_sub_mul, BitVec.ofNat_toNat, BitVec.setWidth_eq]

theorem UMADDL_eq (a b : BitVec 32) (c : BitVec 64) :
    UMADDL a b c = some (Arm.UMADDL a b c) := by
  simp only [UMADDL, UMul_eq, UAdd_eq, Option.bind_eq_bind, Option.bind_some, Arm.UMADDL,
    BitVec.ofNat_add, BitVec.ofNat_mul, BitVec.ofNat_toNat, BitVec.setWidth_eq, ZExt]

theorem UMSUBL_eq (a b : BitVec 32) (c : BitVec 64) :
    UMSUBL a b c = some (Arm.UMSUBL a b c) := by
  simp only [UMSUBL, UMul_eq, USub_eq, Option.bind_eq_bind, Option.bind_some, Arm.UMSUBL,
    ofInt_sub_mul, BitVec.ofNat_toNat, BitVec.setWidth_eq, ZExt]

/-- The factors are sign extended, so only the sum can overflow. -/
theorem SMADDL_eq (ovf : Overflow) (a b : BitVec 32) (c : BitVec 64) :
    SMADDL ovf a b c = signed ovf 64 (c.toInt + a.toInt * b.toInt) := by
  have hext : ∀ x : BitVec 32, (SExt x).toInt = x.toInt :=
    fun x => BitVec.toInt_signExtend_of_le (by decide)
  have hprod : Representable 64 ((SExt a).toInt * (SExt b).toInt) := by
    rw [hext, hext]
    exact (representable_toInt a).mul (by decide) (by decide) (representable_toInt b)
  have hmul : SMul ovf (SExt a : BitVec 64) (SExt b) = some (SExt a * SExt b) := SMul_eq hprod
  have hval : (SExt a * SExt b : BitVec 64).toInt = a.toInt * b.toInt := by
    rw [hext, hext] at hprod
    have hofInt : (SExt a * SExt b : BitVec 64) = BitVec.ofInt 64 (a.toInt * b.toInt) := by
      rw [BitVec.ofInt_mul, ← hext a, ← hext b, BitVec.ofInt_toInt, BitVec.ofInt_toInt]
    rw [hofInt, toInt_ofInt (by decide) hprod]
  simp only [SMADDL, hmul, Option.bind_eq_bind, Option.bind_some, SAdd_eq_addS, addS, hval]

/-- The high half of a product of 128 bits. -/
theorem trunc_shift_ofInt (i : ℤ) :
    (BitVec.ofInt 128 i >>> 64).setWidth 64 = BitVec.ofInt 64 (i / 2 ^ 64) := by
  apply BitVec.eq_of_toNat_eq
  rw [BitVec.toNat_setWidth, BitVec.toNat_ushiftRight, BitVec.toNat_ofInt, BitVec.toNat_ofInt,
    Nat.shiftRight_eq_div_pow]
  omega

theorem UMULH_eq (a b : BitVec 64) : UMULH a b = some (Arm.UMULH a b) := by
  have hshift : ∀ p : BitVec 128, UShr p 64#128 = some (p >>> 64) := fun p => UShr_eq p (by decide)
  have hprod : (ZExt a * ZExt b : BitVec 128) = BitVec.ofInt 128 (a.toNat * b.toNat) := by
    rw [BitVec.ofInt_mul, BitVec.ofInt_natCast, BitVec.ofInt_natCast, BitVec.ofNat_toNat,
      BitVec.ofNat_toNat]
    rfl
  simp only [UMULH, UMul_eq, hshift, Option.bind_eq_bind, Option.bind_some, hprod]
  exact congrArg some (trunc_shift_ofInt _)

theorem SMULH_eq (ovf : Overflow) (a b : BitVec 64) :
    SMULH ovf a b = some (Arm.SMULH a b) := by
  have hshift : ∀ p : BitVec 128, UShr p 64#128 = some (p >>> 64) := fun p => UShr_eq p (by decide)
  have hext : ∀ x : BitVec 64, (SExt x).toInt = x.toInt :=
    fun x => BitVec.toInt_signExtend_of_le (by decide)
  have hrep : Representable 128 ((SExt a).toInt * (SExt b).toInt) := by
    rw [hext, hext]
    exact (representable_toInt a).mul (by decide) (by decide) (representable_toInt b)
  have hmul : SMul ovf (SExt a : BitVec 128) (SExt b) = some (SExt a * SExt b) := SMul_eq hrep
  have hprod : (SExt a * SExt b : BitVec 128) = BitVec.ofInt 128 (a.toInt * b.toInt) := by
    rw [BitVec.ofInt_mul, ← hext a, ← hext b, BitVec.ofInt_toInt, BitVec.ofInt_toInt]
  simp only [SMULH, hmul, hshift, Option.bind_eq_bind, Option.bind_some, hprod]
  exact congrArg some (trunc_shift_ofInt _)

/-! ### Quotients -/

theorem UDIV_eq (a b : BitVec w) : UDIV a b = some (Arm.UDIV a b) := by
  unfold UDIV Arm.UDIV
  split
  · next hb => rw [hb, BitVec.toNat_zero, Nat.div_zero]
  · next hb =>
    rw [UDiv_eq a hb]
    apply congrArg some
    apply BitVec.eq_of_toNat_eq
    rw [BitVec.toNat_udiv, BitVec.toNat_ofNat]
    exact (Nat.mod_eq_of_lt ((Nat.div_le_self _ _).trans_lt a.isLt)).symm

/-- A division is done where the quotient is a value of the type that it is done at. -/
theorem SDIV_eq_iff (a b : BitVec w) : SDIV a b = some (Arm.SDIV a b) ↔
    Representable (widened w) (a.toInt.tdiv b.toInt) := by
  unfold SDIV Arm.SDIV
  by_cases hb : b = 0#w
  · have hzero : a.toInt.tdiv b.toInt = 0 := by rw [hb, BitVec.toInt_zero, Int.tdiv_zero]
    rw [if_pos hb, hzero]
    refine iff_of_true rfl ⟨?_, ?_⟩
    · exact neg_nonpos.mpr (by positivity)
    · positivity
  · rw [if_neg hb, SDiv_eq]
    by_cases hrep : Representable (widened w) (a.toInt.tdiv b.toInt) <;> simp [hb, hrep]

/-- At 32 bits the quotient always fits the machine word. -/
theorem representable_quotient_W (a b : BitVec 32) :
    Representable (widened 32) (a.toInt.tdiv b.toInt) := by
  have h := (representable_tdiv (by decide) (a.signExtend 64) (b.signExtend 64)).mpr (by
    rintro ⟨ha, -⟩
    have hval := congrArg BitVec.toInt ha
    rw [BitVec.toInt_signExtend_of_le (by decide), BitVec.toInt_intMin_of_pos (by decide)] at hval
    have := (representable_toInt a).1
    rw [hval] at this
    exact absurd this (by decide))
  rwa [BitVec.toInt_signExtend_of_le (by decide), BitVec.toInt_signExtend_of_le (by decide)] at h

/-! ### Shifts -/

theorem size_le_two_pow (f : Form) : f.size ≤ 2 ^ (f.size - 1) := by
  cases f <;> decide

section

variable (hw : 0 < w) (a s : BitVec w)
include hw

/-- The amount is taken modulo the width. -/
theorem amount_eq : URem s (BitVec.ofNat w w) = some (BitVec.ofNat w (s.toNat % w)) ∧
    (BitVec.ofNat w (s.toNat % w)).toNat = s.toNat % w := by
  have hval : (BitVec.ofNat w (s.toNat % w)).toNat = s.toNat % w :=
    Nat.mod_eq_of_lt ((Nat.mod_lt _ hw).trans Nat.lt_two_pow_self)
  refine ⟨?_, hval⟩
  rw [URem_eq s (width_ne_zero hw)]
  apply congrArg some
  apply BitVec.eq_of_toNat_eq
  rw [hval, BitVec.toNat_umod, toNat_width]

theorem LSLV_eq : LSLV a s = some (Arm.LSLV a s) := by
  obtain ⟨hrem, hval⟩ := amount_eq hw s
  simp only [LSLV, hrem, Option.bind_eq_bind, Option.bind_some]
  rw [UShl_eq a (by rw [hval]; exact Nat.mod_lt _ hw), hval]
  rfl

theorem LSRV_eq : LSRV a s = some (Arm.LSRV a s) := by
  obtain ⟨hrem, hval⟩ := amount_eq hw s
  simp only [LSRV, hrem, Option.bind_eq_bind, Option.bind_some]
  rw [UShr_eq a (by rw [hval]; exact Nat.mod_lt _ hw), hval]
  rfl

theorem ASRV_eq (hpow : w ≤ 2 ^ (w - 1)) : ASRV a s = some (Arm.ASRV a s) := by
  obtain ⟨hrem, hval⟩ := amount_eq hw s
  simp only [ASRV, hrem, Option.bind_eq_bind, Option.bind_some]
  rw [SShr_eq a (by rw [hval]; exact Nat.mod_lt _ hw) hpow, hval]
  rfl

theorem RORV_eq : RORV a s = some (Arm.RORV a s) := by
  obtain ⟨hrem, hval⟩ := amount_eq hw s
  simp only [RORV, hrem, Option.bind_eq_bind, Option.bind_some]
  rw [Ror_eq a _ hw, hval]
  rfl

end

theorem EXTR_eq (a b : BitVec w) {lsb : BitVec w} (h : lsb.toNat < w) :
    EXTR a b lsb = some (Arm.EXTR a b lsb.toNat) := by
  unfold EXTR Arm.EXTR
  by_cases hzero : lsb = 0#w
  · rw [if_pos hzero, hzero]
    exact congrArg some BitVec.extractLsb'_append_eq_right.symm
  · have hpos : 0 < lsb.toNat := by
      rw [Nat.pos_iff_ne_zero]
      exact fun h0 => hzero (BitVec.eq_of_toNat_eq h0)
    have hsub : (BitVec.ofNat w w - lsb).toNat = w - lsb.toNat := by
      rw [BitVec.toNat_sub_of_le (by rw [BitVec.le_def, toNat_width]; exact h.le), toNat_width]
    simp only [if_neg hzero, USub_eq, Option.bind_eq_bind, Option.bind_some, UShr_eq b h,
      UShl_eq a (show (BitVec.ofNat w w - lsb).toNat < w by rw [hsub]; omega), UOr_eq, hsub]
    apply congrArg some
    apply BitVec.eq_of_getLsbD_eq
    intro i hi
    simp only [BitVec.getLsbD_or, BitVec.getLsbD_shiftLeft, BitVec.getLsbD_ushiftRight,
      BitVec.getLsbD_extractLsb', BitVec.getLsbD_append, hi, decide_true, Bool.true_and]
    by_cases hlow : lsb.toNat + i < w
    · -- the bit comes from the second register
      rw [if_pos hlow, decide_eq_true (show i < w - lsb.toNat by omega)]
      rfl
    · rw [if_neg hlow, decide_eq_false (show ¬ i < w - lsb.toNat by omega),
        BitVec.getLsbD_of_ge b _ (by omega), Bool.or_false, Bool.not_false, Bool.true_and]
      congr 1
      omega

/-! ### All instructions -/

/-- An amount below the width, as the decoder of `EXTR` lets it through. -/
structure Lsb (f : Form) where
  val : BitVec f.size
  lt : val.toNat < f.size

/-- An instruction with the values of its operands. -/
inductive IntegerInst
  | ADD (f : Form) (src1 src2 : BitVec f.size)
  | SUB (f : Form) (src1 src2 : BitVec f.size)
  | MADD (f : Form) (src1 src2 src3 : BitVec f.size)
  | MSUB (f : Form) (src1 src2 src3 : BitVec f.size)
  | UMADDL (src1 src2 : BitVec 32) (src3 : BitVec 64)
  | UMSUBL (src1 src2 : BitVec 32) (src3 : BitVec 64)
  | SMADDL (src1 src2 : BitVec 32) (src3 : BitVec 64)
  | UMULH (src1 src2 : BitVec 64)
  | SMULH (src1 src2 : BitVec 64)
  | UDIV (f : Form) (src1 src2 : BitVec f.size)
  | SDIV (f : Form) (src1 src2 : BitVec f.size)
  | LSLV (f : Form) (src1 src2 : BitVec f.size)
  | LSRV (f : Form) (src1 src2 : BitVec f.size)
  | ASRV (f : Form) (src1 src2 : BitVec f.size)
  | RORV (f : Form) (src1 src2 : BitVec f.size)
  | EXTR (f : Form) (src1 src2 : BitVec f.size) (lsb : Lsb f)

namespace IntegerInst

/-- The width of the destination. -/
def size : IntegerInst → ℕ
  | ADD f .. | SUB f .. | MADD f .. | MSUB f .. | UDIV f .. | SDIV f .. | LSLV f .. | LSRV f ..
  | ASRV f .. | RORV f .. | EXTR f .. => f.size
  | UMADDL .. | UMSUBL .. | SMADDL .. | UMULH .. | SMULH .. => 64

/-- What the semantics function returns. -/
def sem (ovf : Overflow) : (i : IntegerInst) → Option (BitVec i.size)
  | ADD _ src1 src2 => AArch64.ADD src1 src2
  | SUB _ src1 src2 => AArch64.SUB src1 src2
  | MADD _ src1 src2 src3 => AArch64.MADD src1 src2 src3
  | MSUB _ src1 src2 src3 => AArch64.MSUB src1 src2 src3
  | UMADDL src1 src2 src3 => AArch64.UMADDL src1 src2 src3
  | UMSUBL src1 src2 src3 => AArch64.UMSUBL src1 src2 src3
  | SMADDL src1 src2 src3 => AArch64.SMADDL ovf src1 src2 src3
  | UMULH src1 src2 => AArch64.UMULH src1 src2
  | SMULH src1 src2 => AArch64.SMULH ovf src1 src2
  | UDIV _ src1 src2 => AArch64.UDIV src1 src2
  | SDIV _ src1 src2 => AArch64.SDIV src1 src2
  | LSLV _ src1 src2 => AArch64.LSLV src1 src2
  | LSRV _ src1 src2 => AArch64.LSRV src1 src2
  | ASRV _ src1 src2 => AArch64.ASRV src1 src2
  | RORV _ src1 src2 => AArch64.RORV src1 src2
  | EXTR _ src1 src2 lsb => AArch64.EXTR src1 src2 lsb.val

/-- The result of the architecture. -/
def arm : (i : IntegerInst) → BitVec i.size
  | ADD _ src1 src2 => Arm.ADD src1 src2
  | SUB _ src1 src2 => Arm.SUB src1 src2
  | MADD _ src1 src2 src3 => Arm.MADD src1 src2 src3
  | MSUB _ src1 src2 src3 => Arm.MSUB src1 src2 src3
  | UMADDL src1 src2 src3 => Arm.UMADDL src1 src2 src3
  | UMSUBL src1 src2 src3 => Arm.UMSUBL src1 src2 src3
  | SMADDL src1 src2 src3 => Arm.SMADDL src1 src2 src3
  | UMULH src1 src2 => Arm.UMULH src1 src2
  | SMULH src1 src2 => Arm.SMULH src1 src2
  | UDIV _ src1 src2 => Arm.UDIV src1 src2
  | SDIV _ src1 src2 => Arm.SDIV src1 src2
  | LSLV _ src1 src2 => Arm.LSLV src1 src2
  | LSRV _ src1 src2 => Arm.LSRV src1 src2
  | ASRV _ src1 src2 => Arm.ASRV src1 src2
  | RORV _ src1 src2 => Arm.RORV src1 src2
  | EXTR _ src1 src2 lsb => Arm.EXTR src1 src2 lsb.val.toNat

/-- The function is defined on the operands and returns the result of the architecture. -/
def Exact (ovf : Overflow) (i : IntegerInst) : Prop := i.sem ovf = some i.arm

/-- The operands are in the range of the operators at 64 bits. -/
def InRange (ovf : Overflow) : IntegerInst → Prop
  | SDIV .X src1 src2 => ¬ (src1 = BitVec.intMin 64 ∧ src2 = -1#64)
  | SMADDL src1 src2 src3 => Representable 64 (src3.toInt + src1.toInt * src2.toInt) ∨
      ovf 64 (src3.toInt + src1.toInt * src2.toInt) =
        some (BitVec.ofInt 64 (src3.toInt + src1.toInt * src2.toInt))
  | _ => True

theorem exact_SDIV_iff (ovf : Overflow) (f : Form) (a b : BitVec f.size) :
    (SDIV f a b).Exact ovf ↔ (SDIV f a b).InRange ovf := by
  cases f with
  | W => exact iff_of_true ((SDIV_eq_iff a b).mpr (representable_quotient_W a b)) trivial
  | X => exact (SDIV_eq_iff a b).trans (representable_tdiv (by decide) a b)

/-- **Integer arithmetic is exact** but for a quotient of 64 bits that is not a value of its type
and for a sum of `SMADDL` that overflows. -/
theorem exact_iff_inRange (ovf : Overflow) (i : IntegerInst) : i.Exact ovf ↔ i.InRange ovf := by
  have hsize : ∀ f : Form, 0 < f.size := by intro f; cases f <;> decide
  cases i with
  | ADD f a b => exact iff_of_true (ADD_eq a b) trivial
  | SUB f a b => exact iff_of_true (SUB_eq a b) trivial
  | MADD f a b c => exact iff_of_true (MADD_eq a b c) trivial
  | MSUB f a b c => exact iff_of_true (MSUB_eq a b c) trivial
  | UMADDL a b c => exact iff_of_true (UMADDL_eq a b c) trivial
  | UMSUBL a b c => exact iff_of_true (UMSUBL_eq a b c) trivial
  | SMADDL a b c =>
    show AArch64.SMADDL ovf a b c = some (Arm.SMADDL a b c) ↔ _
    rw [SMADDL_eq]
    exact signed_eq_ofInt_iff
  | UMULH a b => exact iff_of_true (UMULH_eq a b) trivial
  | SMULH a b => exact iff_of_true (SMULH_eq ovf a b) trivial
  | UDIV f a b => exact iff_of_true (UDIV_eq a b) trivial
  | SDIV f a b => exact exact_SDIV_iff ovf f a b
  | LSLV f a s => exact iff_of_true (LSLV_eq (hsize f) a s) trivial
  | LSRV f a s => exact iff_of_true (LSRV_eq (hsize f) a s) trivial
  | ASRV f a s => exact iff_of_true (ASRV_eq (hsize f) a s (size_le_two_pow f)) trivial
  | RORV f a s => exact iff_of_true (RORV_eq (hsize f) a s) trivial
  | EXTR f a b lsb => exact iff_of_true (EXTR_eq a b lsb.lt) trivial

/-- The least value divided by `-1`: the quotient is undefined even where sums wrap. -/
theorem not_exact_sdiv_intMin :
    ¬ (SDIV .X (BitVec.intMin 64) (-1#64)).Exact Overflow.wraps := by
  intro h
  exact (exact_SDIV_iff _ .X _ _).mp h ⟨rfl, rfl⟩

end IntegerInst

end Elfconv.AArch64
