/-
Elfconv/Semantics/Operators.lean

The operators that the semantics functions are written with.

`MAKE_BINOP` makes the same operator for every integer type: both operands are widened, combined
and narrowed again.  A type of at most 64 bits is widened to the machine word `addr_t`, one of 128
bits is left as it is.  The widening hides an overflow at 32 bits and not at 64, so what each
operator computes is settled here, once for all widths.
-/
import Elfconv.Lib.CInt

namespace Elfconv.AArch64

open CInt

variable {w : ℕ}

/-! ### The macros -/

/-- The width that the operands are widened to: `addr_t`, or the width itself. -/
def widened (w : ℕ) : ℕ := max 64 w

/-- The operands are never narrowed. -/
theorem le_widened (w : ℕ) : w ≤ widened w := le_max_right 64 w

/-- `MAKE_BINOP` for an unsigned type. -/
def binopU (op : BitVec (widened w) → BitVec (widened w) → Option (BitVec (widened w)))
    (L R : BitVec w) : Option (BitVec w) :=
  (op (L.setWidth _) (R.setWidth _)).map (BitVec.setWidth w)

/-- `MAKE_BINOP` for a signed type. -/
def binopS (op : BitVec (widened w) → BitVec (widened w) → Option (BitVec (widened w)))
    (L R : BitVec w) : Option (BitVec w) :=
  (op (L.signExtend _) (R.signExtend _)).map (BitVec.setWidth w)

/-- `MAKE_UOP` for an unsigned type. -/
def uopU (op : BitVec (widened w) → BitVec (widened w)) (R : BitVec w) : Option (BitVec w) :=
  some ((op (R.setWidth _)).setWidth w)

/-- `MAKE_BOOLBINOP`: the operands are compared as they are. -/
def boolbinop (op : BitVec w → BitVec w → Bool) (L R : BitVec w) : BitVec 64 :=
  (BitVec.ofBool (op L R)).setWidth 64

/-! ### The operators -/

/-- `L + R` -/
def UAdd (L R : BitVec w) : Option (BitVec w) := binopU (fun a b => some (a + b)) L R

/-- `L - R` -/
def USub (L R : BitVec w) : Option (BitVec w) := binopU (fun a b => some (a - b)) L R

/-- `L * R` -/
def UMul (L R : BitVec w) : Option (BitVec w) := binopU (fun a b => some (a * b)) L R

/-- `L / R`; nothing where the divisor is zero. -/
def UDiv (L R : BitVec w) : Option (BitVec w) := binopU divU L R

/-- `L % R`; nothing where the divisor is zero. -/
def URem (L R : BitVec w) : Option (BitVec w) := binopU remU L R

/-- `L & R` -/
def UAnd (L R : BitVec w) : Option (BitVec w) := binopU (fun a b => some (a &&& b)) L R

/-- `L | R` -/
def UOr (L R : BitVec w) : Option (BitVec w) := binopU (fun a b => some (a ||| b)) L R

/-- `L ^ R` -/
def UXor (L R : BitVec w) : Option (BitVec w) := binopU (fun a b => some (a ^^^ b)) L R

/-- `L << R`; nothing for a shift by the width or more. -/
def UShl (L R : BitVec w) : Option (BitVec w) := binopU shlU L R

/-- `L >> R`; nothing for a shift by the width or more. -/
def UShr (L R : BitVec w) : Option (BitVec w) := binopU shrU L R

/-- `~R` -/
def UNot (R : BitVec w) : Option (BitVec w) := uopU (fun a => ~~~a) R

/-- `L + R` with signs, whose overflow is a parameter. -/
def SAdd (ovf : Overflow) (L R : BitVec w) : Option (BitVec w) := binopS (addS ovf) L R

/-- `L * R` with signs, whose overflow is a parameter. -/
def SMul (ovf : Overflow) (L R : BitVec w) : Option (BitVec w) := binopS (mulS ovf) L R

/-- `L / R` with signs; nothing for a zero divisor or a quotient out of range. -/
def SDiv (L R : BitVec w) : Option (BitVec w) := binopS divS L R

/-- `L >> R` with signs; nothing for a shift by the width or more. -/
def SShr (L R : BitVec w) : Option (BitVec w) := binopS shrS L R

/-- `L == R` -/
def UCmpEq (L R : BitVec w) : BitVec 64 := boolbinop (fun a b => a == b) L R

/-- `L != R` -/
def UCmpNeq (L R : BitVec w) : BitVec 64 := boolbinop (fun a b => a != b) L R

/-- `L != R` with signs -/
def SCmpNeq (L R : BitVec w) : BitVec 64 := boolbinop (fun a b => a.toInt != b.toInt) L R

/-- `L == R` with signs -/
def SCmpEq (L R : BitVec w) : BitVec 64 := boolbinop (fun a b => a.toInt == b.toInt) L R

/-- `L < R` with signs -/
def SCmpLt (L R : BitVec w) : BitVec 64 := boolbinop (fun a b => decide (a.toInt < b.toInt)) L R

/-- `L <= R` with signs -/
def SCmpLte (L R : BitVec w) : BitVec 64 := boolbinop (fun a b => decide (a.toInt ≤ b.toInt)) L R

/-- `L > R` with signs -/
def SCmpGt (L R : BitVec w) : BitVec 64 := boolbinop (fun a b => decide (a.toInt > b.toInt)) L R

/-- `L >= R` with signs -/
def SCmpGte (L R : BitVec w) : BitVec 64 := boolbinop (fun a b => decide (a.toInt ≥ b.toInt)) L R

/-- `L >= R` -/
def UCmpGte (L R : BitVec w) : BitVec 64 := boolbinop (fun a b => decide (a.toNat ≥ b.toNat)) L R

/-- The type of twice the width. -/
def ZExt (x : BitVec w) : BitVec (2 * w) := x.setWidth (2 * w)

/-- The type of twice the width, with the sign. -/
def SExt (x : BitVec w) : BitVec (2 * w) := x.signExtend (2 * w)

/-- The type of half the width. -/
def Trunc (x : BitVec w) : BitVec (w / 2) := x.setWidth (w / 2)

/-- A type of any width, which is meant to be wider. -/
def ZExtTo (v : ℕ) (x : BitVec w) : BitVec v := x.setWidth v

/-- A type of any width, which is meant to be narrower. -/
def TruncTo (v : ℕ) (x : BitVec w) : BitVec v := x.setWidth v

/-- `Select` is a function, so both of its values are computed. -/
def Select (cond : Bool) (if_true if_false : BitVec w) : BitVec w :=
  if cond then if_true else if_false

/-- `Ror` is a template of its own: it shifts at the width of its operand. -/
def Ror (val amount : BitVec w) : Option (BitVec w) := do
  let width := BitVec.ofNat w w
  let amount ← remU amount width
  if amount = 0#w then
    return val
  let shifted_bits ← shrU val amount
  let rotated_bits ← shlU val (width - amount)
  return shifted_bits ||| rotated_bits

/-! ### What they compute -/

/-- A value comes back from the wider type as it was. -/
theorem setWidth_setWidth_widened (x : BitVec w) : (x.setWidth (widened w)).setWidth w = x := by
  rw [BitVec.setWidth_setWidth_of_le x (le_widened w), BitVec.setWidth_eq]

/-- A value comes back from the wider signed type as it was. -/
theorem setWidth_signExtend_widened (x : BitVec w) :
    (x.signExtend (widened w)).setWidth w = x := by
  apply BitVec.eq_of_getLsbD_eq
  intro i hi
  rw [BitVec.getLsbD_setWidth, BitVec.getLsbD_signExtend]
  simp [hi, hi.trans_le (le_widened w)]

/-- The sum at the wider type is that of the words. -/
@[simp] theorem UAdd_eq (L R : BitVec w) : UAdd L R = some (L + R) := by
  simp only [UAdd, binopU, Option.map_some, BitVec.setWidth_add _ _ (le_widened w),
    setWidth_setWidth_widened]

@[simp] theorem USub_eq (L R : BitVec w) : USub L R = some (L - R) := by
  simp only [USub, binopU, Option.map_some, BitVec.sub_eq_add_neg,
    BitVec.setWidth_add _ _ (le_widened w), BitVec.setWidth_neg_of_le (le_widened w),
    setWidth_setWidth_widened]

@[simp] theorem UMul_eq (L R : BitVec w) : UMul L R = some (L * R) := by
  simp only [UMul, binopU, Option.map_some, BitVec.setWidth_mul _ _ (le_widened w),
    setWidth_setWidth_widened]

@[simp] theorem UAnd_eq (L R : BitVec w) : UAnd L R = some (L &&& R) := by
  simp only [UAnd, binopU, Option.map_some, BitVec.setWidth_and, setWidth_setWidth_widened]

@[simp] theorem UOr_eq (L R : BitVec w) : UOr L R = some (L ||| R) := by
  simp only [UOr, binopU, Option.map_some, BitVec.setWidth_or, setWidth_setWidth_widened]

@[simp] theorem UXor_eq (L R : BitVec w) : UXor L R = some (L ^^^ R) := by
  simp only [UXor, binopU, Option.map_some, BitVec.setWidth_xor, setWidth_setWidth_widened]

/-- The complement at the wider type is that of the word. -/
@[simp] theorem UNot_eq (R : BitVec w) : UNot R = some (~~~R) := by
  apply congrArg some
  apply BitVec.eq_of_getLsbD_eq
  intro i hi
  simp [hi, hi.trans_le (le_widened w)]

theorem setWidth_widened_ne_zero {R : BitVec w} (h : R ≠ 0#w) :
    R.setWidth (widened w) ≠ 0#(widened w) := by
  intro hz
  apply h
  rw [← setWidth_setWidth_widened R, hz]
  exact BitVec.setWidth_zero _ _

theorem toNat_setWidth_widened (x : BitVec w) : (x.setWidth (widened w)).toNat = x.toNat :=
  BitVec.toNat_setWidth_of_le (le_widened w)

/-- The quotient of the words, for a divisor that is not zero. -/
theorem UDiv_eq (L : BitVec w) {R : BitVec w} (h : R ≠ 0#w) : UDiv L R = some (L / R) := by
  simp only [UDiv, binopU, divU_of_ne (setWidth_widened_ne_zero h), Option.map_some]
  apply congrArg some
  apply BitVec.eq_of_toNat_eq
  rw [BitVec.toNat_setWidth, BitVec.toNat_udiv, toNat_setWidth_widened, toNat_setWidth_widened,
    BitVec.toNat_udiv]
  exact Nat.mod_eq_of_lt ((Nat.div_le_self _ _).trans_lt L.isLt)

/-- The remainder of the words, for a divisor that is not zero. -/
theorem URem_eq (L : BitVec w) {R : BitVec w} (h : R ≠ 0#w) : URem L R = some (L % R) := by
  simp only [URem, binopU, remU_of_ne (setWidth_widened_ne_zero h), Option.map_some]
  apply congrArg some
  apply BitVec.eq_of_toNat_eq
  rw [BitVec.toNat_setWidth, BitVec.toNat_umod, toNat_setWidth_widened, toNat_setWidth_widened,
    BitVec.toNat_umod]
  exact Nat.mod_eq_of_lt ((Nat.mod_le _ _).trans_lt L.isLt)

/-- A left shift below the width. -/
theorem UShl_eq (L : BitVec w) {R : BitVec w} (h : R.toNat < w) :
    UShl L R = some (L <<< R.toNat) := by
  have hR : (R.setWidth (widened w)).toNat < widened w := by
    rw [toNat_setWidth_widened]
    exact h.trans_le (le_widened w)
  simp only [UShl, binopU, shlU_of_lt hR, Option.map_some, toNat_setWidth_widened]
  apply congrArg some
  apply BitVec.eq_of_getLsbD_eq
  intro i hi
  simp only [BitVec.getLsbD_setWidth, BitVec.getLsbD_shiftLeft, hi, hi.trans_le (le_widened w),
    (Nat.sub_le i _).trans_lt (hi.trans_le (le_widened w)), decide_true, Bool.true_and]

/-- A right shift below the width. -/
theorem UShr_eq (L : BitVec w) {R : BitVec w} (h : R.toNat < w) :
    UShr L R = some (L >>> R.toNat) := by
  have hR : (R.setWidth (widened w)).toNat < widened w := by
    rw [toNat_setWidth_widened]
    exact h.trans_le (le_widened w)
  simp only [UShr, binopU, shrU_of_lt hR, Option.map_some, toNat_setWidth_widened]
  apply congrArg some
  apply BitVec.eq_of_toNat_eq
  rw [BitVec.toNat_setWidth, BitVec.toNat_ushiftRight, toNat_setWidth_widened,
    BitVec.toNat_ushiftRight]
  exact Nat.mod_eq_of_lt ((Nat.shiftRight_le _ _).trans_lt L.isLt)

theorem toInt_signExtend_widened (x : BitVec w) : (x.signExtend (widened w)).toInt = x.toInt :=
  BitVec.toInt_signExtend_of_le (le_widened w)

theorem setWidth_ofInt_widened (i : ℤ) :
    (BitVec.ofInt (widened w) i).setWidth w = BitVec.ofInt w i := by
  apply BitVec.eq_of_toInt_eq
  rw [BitVec.toInt_setWidth, BitVec.toNat_ofInt, BitVec.toInt_ofInt]
  have hdvd : ((2 ^ w : ℕ) : ℤ) ∣ (2 ^ widened w : ℕ) :=
    Int.natCast_dvd_natCast.mpr (pow_dvd_pow 2 (le_widened w))
  rw [Int.toNat_of_nonneg (Int.emod_nonneg _ (by positivity))]
  rw [← Int.emod_bmod, Int.emod_emod_of_dvd _ hdvd, Int.emod_bmod]

/-- A signed sum that the wider type represents. -/
theorem SAdd_eq {ovf : Overflow} {L R : BitVec w}
    (h : Representable (widened w) (L.toInt + R.toInt)) : SAdd ovf L R = some (L + R) := by
  rw [← toInt_signExtend_widened L, ← toInt_signExtend_widened R] at h
  simp only [SAdd, binopS, addS_of_representable h, Option.map_some,
    BitVec.setWidth_add _ _ (le_widened w), setWidth_signExtend_widened]

/-- A signed product that the wider type represents. -/
theorem SMul_eq {ovf : Overflow} {L R : BitVec w}
    (h : Representable (widened w) (L.toInt * R.toInt)) : SMul ovf L R = some (L * R) := by
  rw [← toInt_signExtend_widened L, ← toInt_signExtend_widened R] at h
  simp only [SMul, binopS, mulS_of_representable h, Option.map_some,
    BitVec.setWidth_mul _ _ (le_widened w), setWidth_signExtend_widened]

/-- From 64 bits on a sum is not widened. -/
theorem SAdd_eq_addS (ovf : Overflow) (L R : BitVec 64) : SAdd ovf L R = addS ovf L R := by
  have hw : widened 64 = 64 := rfl
  unfold SAdd binopS
  rw [hw, BitVec.signExtend_eq, BitVec.signExtend_eq]
  have hid : BitVec.setWidth 64 = (id : BitVec 64 → BitVec 64) := by
    funext x
    exact BitVec.setWidth_eq x
  rw [hid, Option.map_id, id]

/-- A signed quotient is undefined where the divisor is zero or the wider type does not hold it. -/
theorem SDiv_eq (L R : BitVec w) : SDiv L R =
    if R = 0#w ∨ ¬ Representable (widened w) (L.toInt.tdiv R.toInt) then none
    else some (BitVec.ofInt w (L.toInt.tdiv R.toInt)) := by
  have hzero : R.signExtend (widened w) = 0#(widened w) ↔ R = 0#w := by
    rw [← BitVec.toInt_inj, toInt_signExtend_widened, BitVec.toInt_zero, ← BitVec.toInt_zero,
      BitVec.toInt_inj]
  simp only [SDiv, binopS, divS, hzero, toInt_signExtend_widened]
  split
  · rfl
  · rw [Option.map_some, setWidth_ofInt_widened]

/-- A signed shift below the width. -/
theorem SShr_eq (L : BitVec w) {R : BitVec w} (h : R.toNat < w) (hw : w ≤ 2 ^ (w - 1)) :
    SShr L R = some (L.sshiftRight R.toNat) := by
  have hR : (R.signExtend (widened w)).toInt = R.toNat := by
    rw [toInt_signExtend_widened, BitVec.toInt_eq_toNat_of_lt]
    have hpow : 2 ^ w = 2 ^ (w - 1) * 2 := by
      rw [← pow_succ, Nat.sub_add_cancel (Nat.one_le_of_lt h)]
    omega
  simp only [SShr, binopS, shrS, hR]
  rw [if_pos ⟨by omega, by exact_mod_cast h.trans_le (le_widened w)⟩, Option.map_some,
    Int.toNat_natCast, BitVec.sshiftRight_eq, toInt_signExtend_widened, setWidth_ofInt_widened,
    BitVec.sshiftRight_eq]

theorem toNat_width (w : ℕ) : (BitVec.ofNat w w).toNat = w :=
  Nat.mod_eq_of_lt Nat.lt_two_pow_self

theorem width_ne_zero (hw : 0 < w) : BitVec.ofNat w w ≠ 0#w := by
  intro h
  have hwidth := toNat_width w
  rw [h, BitVec.toNat_ofNat, Nat.zero_mod] at hwidth
  omega

/-- The template rotates, by any amount. -/
theorem Ror_eq (val amount : BitVec w) (hw : 0 < w) :
    Ror val amount = some (val.rotateRight amount.toNat) := by
  have hmod : (amount % BitVec.ofNat w w).toNat = amount.toNat % w := by
    rw [BitVec.toNat_umod, toNat_width]
  have hlt : (amount % BitVec.ofNat w w).toNat < w := hmod ▸ Nat.mod_lt _ hw
  rw [← BitVec.rotateRight_mod_eq_rotateRight, ← hmod,
    BitVec.rotateRight_eq_rotateRightAux_of_lt hlt]
  simp only [Ror, remU_of_ne (width_ne_zero hw), Option.bind_eq_bind, Option.bind_some]
  by_cases hzero : amount % BitVec.ofNat w w = 0#w
  · rw [if_pos hzero, hzero]
    simp [BitVec.rotateRightAux]
  · have hpos : 0 < (amount % BitVec.ofNat w w).toNat := by
      rw [Nat.pos_iff_ne_zero]
      exact fun h => hzero (BitVec.eq_of_toNat_eq h)
    have hsub : (BitVec.ofNat w w - amount % BitVec.ofNat w w).toNat =
        w - (amount % BitVec.ofNat w w).toNat := by
      rw [BitVec.toNat_sub_of_le (by rw [BitVec.le_def, toNat_width]; exact hlt.le),
        toNat_width]
    rw [if_neg hzero, shrU_of_lt hlt, shlU_of_lt (by rw [hsub]; omega), hsub]
    rfl

end Elfconv.AArch64
