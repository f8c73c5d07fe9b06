/-
Elfconv/Semantics/Flags.lean

Sums that set the flags.

`AddWithCarryNZCV` adds at twice the width, as unsigned and as signed words.  The carry is set where
the unsigned sum is not the result extended again, the overflow where the signed one is not.  The
operand that is added may be the complement of the operand of the instruction, which is passed
beside it for the intrinsic that marks the overflow flag.
-/
import Elfconv.Lib.Words
import Elfconv.Semantics.Integer

namespace Elfconv.AArch64

open CInt

variable {w : ℕ}

/-! ### Semantics functions -/

/-- `__remill_flag_computation_overflow`: the flag, the operands and the result. -/
abbrev OverflowFlag := (w : ℕ) → Bool → BitVec w → BitVec w → BitVec w → Bool

/-- The intrinsic returns its first argument. -/
def OverflowFlag.ReturnsFirst (flag : OverflowFlag) : Prop :=
  ∀ w r (lhs rhs res : BitVec w), flag w r lhs rhs res = r

/-- A `bool` as a word of 64 bits. -/
def ofBool64 (b : Bool) : BitVec 64 := (BitVec.ofBool b).setWidth 64

/-- `SignFlag`, of the result. -/
def SignFlag (res : BitVec w) : Bool := decide (0 > res.toInt)

/-- `ZeroFlag`, of the result. -/
def ZeroFlag (res : BitVec w) : Bool := 0#w == res

/-- `flag_n << 3 | flag_z << 2 | flag_c << 1 | flag_v` -/
def packNZCV (flag_n flag_z flag_c flag_v : BitVec 64) : BitVec 64 :=
  flag_n <<< 3 ||| flag_z <<< 2 ||| flag_c <<< 1 ||| flag_v

section

variable (ovf : Overflow) (flag : OverflowFlag)

/-- The sums at twice the width tell the carry and the overflow. -/
def AddWithCarryNZCV (lhs rhs actual_rhs carry : BitVec w) : Option (BitVec w × BitVec 64) := do
  let unsigned_result ← UAdd (← UAdd (ZExt lhs) (ZExt rhs)) (ZExt carry)
  let signed_result ← SAdd ovf (← SAdd ovf (SExt lhs) (SExt rhs)) (ZExt carry)
  let result := TruncTo w unsigned_result
  let flag_n := ofBool64 (SignFlag result)
  let flag_z := ofBool64 (ZeroFlag result)
  let flag_c := UCmpNeq (ZExt result) unsigned_result
  let flag_v := ofBool64 (flag w (SCmpNeq (SExt result) signed_result != 0#64) lhs actual_rhs
    result)
  return (result, packNZCV flag_n flag_z flag_c flag_v)

/-- A subtraction adds the complement and one. -/
def SUBS (src1 src2 : BitVec w) : Option (BitVec w × BitVec 64) := do
  AddWithCarryNZCV ovf flag src1 (← UNot src2) src2 1#w

/-- An addition has no carry in. -/
def ADDS (src1 src2 : BitVec w) : Option (BitVec w × BitVec 64) :=
  AddWithCarryNZCV ovf flag src1 src2 src2 0#w

/-- `S((Read(ecv_nzcv) & 0b10) >> 1)` -/
def carryOf (w : ℕ) (ecv_nzcv : BitVec 64) : BitVec w := ((ecv_nzcv &&& 0b10#64) >>> 1).setWidth w

/-- A subtraction with the carry of the flags. -/
def SBC (src1 src2 : BitVec w) (ecv_nzcv : BitVec 64) : Option (BitVec w) := do
  UAdd (← UAdd src1 (← UNot src2)) (carryOf w ecv_nzcv)

/-- The same, with the flags of the result. -/
def SBCS (src1 src2 : BitVec w) (ecv_nzcv : BitVec 64) : Option (BitVec w × BitVec 64) := do
  AddWithCarryNZCV ovf flag src1 (← UNot src2) src2 (carryOf w ecv_nzcv)

/-- An addition with the carry of the flags. -/
def ADC (src1 src2 : BitVec w) (ecv_nzcv : BitVec 64) : Option (BitVec w) := do
  UAdd (← UAdd src1 src2) (carryOf w ecv_nzcv)

end

/-! ### The flags of the architecture -/

/-- The condition flags. -/
structure Flags where
  n : Bool
  z : Bool
  c : Bool
  v : Bool
  deriving DecidableEq

/-- The flags as the semantics functions keep them. -/
def Flags.word (fl : Flags) : BitVec 64 :=
  packNZCV (ofBool64 fl.n) (ofBool64 fl.z) (ofBool64 fl.c) (ofBool64 fl.v)

/-- The flags that an immediate of four bits stands for. -/
def Flags.ofImm (nzcv : BitVec 4) : Flags :=
  ⟨nzcv.getLsbD 3, nzcv.getLsbD 2, nzcv.getLsbD 1, nzcv.getLsbD 0⟩

/-- A sum with carry: the result, and the flags by the unsigned and the signed sum. -/
def Arm.AddWithCarry (x y : BitVec w) (carry : Bool) : BitVec w × Flags :=
  let unsigned_sum := x.toNat + y.toNat + carry.toNat
  let signed_sum := x.toInt + y.toInt + carry.toNat
  let result := BitVec.ofNat w unsigned_sum
  (result, ⟨result.msb, decide (result = 0#w), decide (2 ^ w ≤ unsigned_sum),
    decide (¬ Representable w signed_sum)⟩)

/-! ### The sum -/

/-- The sign of the result. -/
theorem SignFlag_eq (res : BitVec w) : SignFlag res = res.msb := by
  rw [SignFlag, BitVec.msb_eq_toInt]

/-- Whether the result is zero. -/
theorem ZeroFlag_eq (res : BitVec w) : ZeroFlag res = decide (res = 0#w) := by
  unfold ZeroFlag
  by_cases h : res = 0#w
  · rw [h, beq_self_eq_true, decide_eq_true rfl]
  · rw [decide_eq_false h, beq_eq_false_iff_ne]
    exact Ne.symm h

/-- The carry as a word. -/
def ofCarry (w : ℕ) (carry : Bool) : BitVec w := BitVec.ofNat w carry.toNat

theorem toNat_ofCarry (hw : 0 < w) (carry : Bool) : (ofCarry w carry).toNat = carry.toNat := by
  have h2 : 2 ^ 1 ≤ 2 ^ w := Nat.pow_le_pow_right (by decide) hw
  exact Nat.mod_eq_of_lt ((Bool.toNat_lt carry).trans_le h2)

/-- The carry stands in bit one. -/
theorem carryOf_eq (w : ℕ) (ecv_nzcv : BitVec 64) :
    carryOf w ecv_nzcv = ofCarry w (ecv_nzcv.getLsbD 1) := by
  have hmask : ∀ i < 64, (0b10#64).getLsbD (1 + i) = decide (i = 0) := by decide
  have hbit : (ecv_nzcv &&& 0b10#64) >>> 1 = ofBool64 (ecv_nzcv.getLsbD 1) := by
    apply BitVec.eq_of_getLsbD_eq
    intro i hi
    rw [BitVec.getLsbD_ushiftRight, BitVec.getLsbD_and, hmask i hi, ofBool64,
      BitVec.getLsbD_setWidth, BitVec.getLsbD_ofBool]
    by_cases h0 : i = 0 <;> simp [h0]
  rw [carryOf, hbit, ofBool64, ofCarry]
  cases ecv_nzcv.getLsbD 1 with
  | false => exact BitVec.setWidth_zero _ _
  | true =>
    apply BitVec.eq_of_toNat_eq
    rw [BitVec.toNat_setWidth, BitVec.toNat_ofNat]
    rfl

theorem ofNat_add_ofCarry (x y : BitVec w) (carry : Bool) :
    BitVec.ofNat w (x.toNat + y.toNat + carry.toNat) = x + y + ofCarry w carry := by
  rw [BitVec.ofNat_add, BitVec.ofNat_add, BitVec.ofNat_toNat, BitVec.ofNat_toNat,
    BitVec.setWidth_eq, BitVec.setWidth_eq, ofCarry]

section

variable (x y : BitVec w) (carry : Bool)

/-- The unsigned sum at twice the width. -/
theorem toNat_unsigned_result (hw : 2 ≤ w) :
    (ZExt x + ZExt y + ZExt (ofCarry w carry)).toNat = x.toNat + y.toNat + carry.toNat := by
  have hext : ∀ a : BitVec w, (ZExt a).toNat = a.toNat :=
    fun a => BitVec.toNat_setWidth_of_le (Nat.le_mul_of_pos_left w (by decide))
  have hpow : 2 ^ w + 2 ^ w ≤ 2 ^ (2 * w) := by
    rw [← Nat.two_mul, ← pow_succ']
    exact Nat.pow_le_pow_right (by decide) (by omega)
  have hc := Bool.toNat_le carry
  have hx := x.isLt
  have hy := y.isLt
  have hpos : carry.toNat < 2 ^ w := by
    rw [← toNat_ofCarry (by omega : 0 < w) carry]
    exact BitVec.isLt _
  have hsum : (ZExt x + ZExt y).toNat = x.toNat + y.toNat := by
    rw [BitVec.toNat_add, hext, hext, Nat.mod_eq_of_lt (by omega)]
  rw [BitVec.toNat_add, hsum, hext, toNat_ofCarry (by omega), Nat.mod_eq_of_lt (by omega)]

/-- The signed sum at twice the width. -/
theorem signed_result (ovf : Overflow) (hw : 2 ≤ w) :
    SAdd ovf (SExt x) (SExt y) = some (SExt x + SExt y) ∧
      ∃ s, SAdd ovf (SExt x + SExt y) (ZExt (ofCarry w carry)) = some s ∧
        s.toInt = x.toInt + y.toInt + carry.toNat := by
  have hext : ∀ a : BitVec w, (SExt a).toInt = a.toInt :=
    fun a => BitVec.toInt_signExtend_of_le (Nat.le_mul_of_pos_left w (by decide))
  have hcarry : (ZExt (ofCarry w carry)).toInt = carry.toNat := by
    have hnat : (ZExt (ofCarry w carry)).toNat = carry.toNat := by
      rw [ZExt, BitVec.toNat_setWidth_of_le (Nat.le_mul_of_pos_left w (by decide)),
        toNat_ofCarry (by omega)]
    rw [BitVec.toInt_eq_toNat_of_lt, hnat]
    have h2 : 2 ^ 2 ≤ 2 ^ (2 * w) := Nat.pow_le_pow_right (by decide) (by omega)
    have := Bool.toNat_le carry
    omega
  have h₁ : Representable (2 * w) ((SExt x).toInt + (SExt y).toInt) := by
    rw [hext, hext]
    exact ((representable_toInt x).add (by omega) (representable_toInt y)).mono (by omega)
  have hsum : (SExt x + SExt y).toInt = x.toInt + y.toInt := by
    rw [toInt_add_of_representable (by omega) h₁, hext, hext]
  have h₂ : Representable (2 * w) ((SExt x + SExt y).toInt + (ZExt (ofCarry w carry)).toInt) := by
    rw [hsum, hcarry]
    exact ((representable_toInt x).add_carry (by omega) (representable_toInt y) carry).mono
      (by omega)
  refine ⟨SAdd_eq (h₁.mono (le_widened _)), _, SAdd_eq (h₂.mono (le_widened _)), ?_⟩
  rw [toInt_add_of_representable (by omega) h₂, hsum, hcarry]

end

/-- The sum at twice the width tells whether there is a carry. -/
theorem flag_c_eq (hw : 2 ≤ w) (x y : BitVec w) (carry : Bool) :
    UCmpNeq (ZExt (BitVec.ofNat w (x.toNat + y.toNat + carry.toNat)))
        (ZExt x + ZExt y + ZExt (ofCarry w carry)) =
      ofBool64 (decide (2 ^ w ≤ x.toNat + y.toNat + carry.toNat)) := by
  apply congrArg ofBool64
  have hiff : ZExt (BitVec.ofNat w (x.toNat + y.toNat + carry.toNat)) ≠
      ZExt x + ZExt y + ZExt (ofCarry w carry) ↔
      2 ^ w ≤ x.toNat + y.toNat + carry.toNat := by
    rw [Ne, ← BitVec.toNat_inj, toNat_unsigned_result x y carry hw, ZExt,
      BitVec.toNat_setWidth_of_le (Nat.le_mul_of_pos_left w (by decide)), BitVec.toNat_ofNat,
      Nat.mod_eq_iff_lt (Nat.two_pow_pos w).ne', Nat.not_lt]
  rw [Bool.eq_iff_iff, bne_iff_ne, decide_eq_true_iff]
  exact hiff

/-- The signed sum at twice the width tells whether there is an overflow. -/
theorem flag_v_eq (hw : 2 ≤ w) (x y : BitVec w) (carry : Bool) {s : BitVec (2 * w)}
    (hs : s.toInt = x.toInt + y.toInt + carry.toNat) :
    (SCmpNeq (SExt (BitVec.ofNat w (x.toNat + y.toNat + carry.toNat))) s != 0#64) =
      decide (¬ Representable w (x.toInt + y.toInt + carry.toNat)) := by
  have hresult : BitVec.ofNat w (x.toNat + y.toNat + carry.toNat) =
      BitVec.ofInt w (x.toInt + y.toInt + carry.toNat) := by
    rw [ofNat_add_ofCarry, BitVec.ofInt_add, BitVec.ofInt_add, BitVec.ofInt_toInt,
      BitVec.ofInt_toInt, BitVec.ofInt_natCast, ofCarry]
  have hiff : (SExt (BitVec.ofNat w (x.toNat + y.toNat + carry.toNat))).toInt ≠ s.toInt ↔
      ¬ Representable w (x.toInt + y.toInt + carry.toNat) := by
    rw [hresult, hs, SExt, BitVec.toInt_signExtend_of_le (Nat.le_mul_of_pos_left w (by decide)),
      Ne, toInt_ofInt_eq_iff (by omega)]
  have hword : ∀ b : Bool, (ofBool64 b != 0#64) = b := by decide
  refine (hword _).trans ?_
  rw [Bool.eq_iff_iff, bne_iff_ne, decide_eq_true_iff]
  exact hiff

/-- At twice the width the sums do not overflow, and the result extended again differs from them
where the sum is not a word. -/
theorem AddWithCarryNZCV_eq (ovf : Overflow) {flag : OverflowFlag} (hflag : flag.ReturnsFirst)
    (hw : 2 ≤ w) (lhs rhs actual_rhs : BitVec w) (carry : Bool) :
    AddWithCarryNZCV ovf flag lhs rhs actual_rhs (ofCarry w carry) =
      some ((Arm.AddWithCarry lhs rhs carry).1, (Arm.AddWithCarry lhs rhs carry).2.word) := by
  obtain ⟨h₁, s, h₂, hs⟩ := signed_result lhs rhs carry ovf hw
  have hresult : TruncTo w (ZExt lhs + ZExt rhs + ZExt (ofCarry w carry)) =
      BitVec.ofNat w (lhs.toNat + rhs.toNat + carry.toNat) := by
    apply BitVec.eq_of_toNat_eq
    rw [TruncTo, BitVec.toNat_setWidth, toNat_unsigned_result lhs rhs carry hw, BitVec.toNat_ofNat]
  unfold AddWithCarryNZCV
  simp only [UAdd_eq, h₁, h₂, Option.bind_eq_bind, Option.bind_some, hresult, hflag w, SignFlag_eq,
    ZeroFlag_eq, flag_c_eq hw, flag_v_eq hw lhs rhs carry hs]
  rfl

/-- `SUBS` is the addition of the complement with a carry. -/
theorem SUBS_eq (ovf : Overflow) {flag : OverflowFlag} (hflag : flag.ReturnsFirst) (hw : 2 ≤ w)
    (a b : BitVec w) :
    SUBS ovf flag a b =
      some ((Arm.AddWithCarry a (~~~b) true).1, (Arm.AddWithCarry a (~~~b) true).2.word) := by
  rw [SUBS, UNot_eq, Option.bind_eq_bind, Option.bind_some]
  exact AddWithCarryNZCV_eq ovf hflag hw a (~~~b) b true

/-- `ADDS` is the addition without a carry. -/
theorem ADDS_eq (ovf : Overflow) {flag : OverflowFlag} (hflag : flag.ReturnsFirst) (hw : 2 ≤ w)
    (a b : BitVec w) :
    ADDS ovf flag a b =
      some ((Arm.AddWithCarry a b false).1, (Arm.AddWithCarry a b false).2.word) :=
  AddWithCarryNZCV_eq ovf hflag hw a b b false

/-! ### Chains of sums and differences -/

/-- A step of a chain: the operands and the flags that it receives. -/
structure ChainStep (w : ℕ) where
  src1 : BitVec w
  src2 : BitVec w
  ecv_nzcv : BitVec 64

namespace ChainStep

/-- `ADC` adds a column. -/
def addColumn (s : ChainStep w) : Words.Column w :=
  ⟨s.src1, s.src2, s.ecv_nzcv.getLsbD 1⟩

/-- `SBC` adds the complement. -/
def subColumn (s : ChainStep w) : Words.Column w :=
  ⟨s.src1, ~~~s.src2, s.ecv_nzcv.getLsbD 1⟩

end ChainStep

theorem ADC_eq (s : ChainStep w) :
    ADC s.src1 s.src2 s.ecv_nzcv = some s.addColumn.word := by
  rw [ADC, UAdd_eq, Option.bind_eq_bind, Option.bind_some, UAdd_eq, carryOf_eq,
    ← ofNat_add_ofCarry]
  rfl

theorem SBC_eq (s : ChainStep w) :
    SBC s.src1 s.src2 s.ecv_nzcv = some s.subColumn.word := by
  rw [SBC, UNot_eq, Option.bind_eq_bind, Option.bind_some, UAdd_eq, Option.bind_some, UAdd_eq,
    carryOf_eq, ← ofNat_add_ofCarry]
  rfl

/-- `SBCS` leaves the word of `SBC`, and its carry is that of the column. -/
theorem SBCS_eq (ovf : Overflow) {flag : OverflowFlag} (hflag : flag.ReturnsFirst) (hw : 2 ≤ w)
    (s : ChainStep w) : ∃ fl : Flags, SBCS ovf flag s.src1 s.src2 s.ecv_nzcv =
      some (s.subColumn.word, fl.word) ∧ fl.c = s.subColumn.carryOut := by
  refine ⟨(Arm.AddWithCarry s.src1 (~~~s.src2) (s.ecv_nzcv.getLsbD 1)).2, ?_, rfl⟩
  rw [SBCS, UNot_eq, Option.bind_eq_bind, Option.bind_some, carryOf_eq,
    AddWithCarryNZCV_eq ovf hflag hw]
  rfl

/-- **A chain of `ADC`** leaves the sum of the numbers. -/
theorem ADC_chain {carry : Bool} {l : List (ChainStep w)}
    (h : Words.Linked carry (l.map ChainStep.addColumn)) :
    ∃ r, l.mapM (fun s => ADC s.src1 s.src2 s.ecv_nzcv) = some r ∧
      Words.value r = (Words.value (l.map ChainStep.src1) + Words.value (l.map ChainStep.src2) +
        carry.toNat) % 2 ^ (w * l.length) := by
  refine ⟨l.map fun s => s.addColumn.word, ?_, ?_⟩
  · simp only [ADC_eq]
    exact List.mapM_pure
  · have hsum := Words.value_word_eq_mod h
    simp only [List.map_map, List.length_map] at hsum
    exact hsum

/-- **A chain of `SBC`** leaves the difference of the numbers, less the borrow. -/
theorem SBC_chain {carry : Bool} {l : List (ChainStep w)}
    (h : Words.Linked carry (l.map ChainStep.subColumn)) :
    ∃ r, l.mapM (fun s => SBC s.src1 s.src2 s.ecv_nzcv) = some r ∧
      (Words.value r : ℤ) = (Words.value (l.map ChainStep.src1) -
        Words.value (l.map ChainStep.src2) - (1 - carry.toNat)) % 2 ^ (w * l.length) := by
  refine ⟨l.map fun s => s.subColumn.word, ?_, ?_⟩
  · simp only [SBC_eq]
    exact List.mapM_pure
  · have hdiff := Words.value_word_not h (b := l.map ChainStep.src2) (by
      rw [List.map_map, List.map_map]
      rfl)
    simp only [List.map_map, List.length_map] at hdiff
    exact hdiff

end Elfconv.AArch64
