/-
Elfconv/Semantics/Conditions.lean

Conditions on the flags, and the instructions that depend on one.

A condition function reads the word that the flags are kept in.  After a subtraction it tells how
the operands compare.  A conditional compare sets the flags by a comparison where its condition
holds and to an immediate elsewhere, so a compare followed by any number of them is a run over the
word of flags; it stays the word of the flags that the architecture has.
-/
import Elfconv.Semantics.Flags

namespace Elfconv.AArch64

open CInt

variable {w : ℕ}

/-! ### Condition functions -/

/-- The flag `N`, as zero or one. -/
def SR_ECV_NZCV_N (ecv_nzcv : BitVec 64) : BitVec 64 := (ecv_nzcv &&& 0b1000#64) >>> 3

/-- The flag `Z`, as zero or one. -/
def SR_ECV_NZCV_Z (ecv_nzcv : BitVec 64) : BitVec 64 := (ecv_nzcv &&& 0b100#64) >>> 2

/-- The flag `C`, as zero or one. -/
def SR_ECV_NZCV_C (ecv_nzcv : BitVec 64) : BitVec 64 := (ecv_nzcv &&& 0b10#64) >>> 1

/-- The flag `V`, as zero or one. -/
def SR_ECV_NZCV_V (ecv_nzcv : BitVec 64) : BitVec 64 := ecv_nzcv &&& 0b1#64

/-- The operator `!` of C. -/
def lnot (x : BitVec 64) : Bool := x == 0#64

section

variable (ecv_nzcv : BitVec 64)

/-- Signed, not less. -/
def CondGE : BitVec 64 := ofBool64 (SR_ECV_NZCV_N ecv_nzcv == SR_ECV_NZCV_V ecv_nzcv)

/-- Signed, less. -/
def CondLT : BitVec 64 := ofBool64 (SR_ECV_NZCV_N ecv_nzcv != SR_ECV_NZCV_V ecv_nzcv)

/-- Equal. -/
def CondEQ : BitVec 64 := SR_ECV_NZCV_Z ecv_nzcv

/-- Not equal. -/
def CondNE : BitVec 64 := ofBool64 (lnot (SR_ECV_NZCV_Z ecv_nzcv))

/-- Signed, greater. -/
def CondGT : BitVec 64 :=
  ofBool64 (SR_ECV_NZCV_N ecv_nzcv == SR_ECV_NZCV_V ecv_nzcv && lnot (SR_ECV_NZCV_Z ecv_nzcv))

/-- Signed, not greater. -/
def CondLE : BitVec 64 :=
  ofBool64 (SR_ECV_NZCV_N ecv_nzcv != SR_ECV_NZCV_V ecv_nzcv || SR_ECV_NZCV_Z ecv_nzcv != 0#64)

/-- Carry set: unsigned, not less. -/
def CondCS : BitVec 64 := SR_ECV_NZCV_C ecv_nzcv

/-- Carry clear: unsigned, less. -/
def CondCC : BitVec 64 := ofBool64 (lnot (SR_ECV_NZCV_C ecv_nzcv))

/-- Negative. -/
def CondMI : BitVec 64 := SR_ECV_NZCV_N ecv_nzcv

/-- Zero or more. -/
def CondPL : BitVec 64 := ofBool64 (lnot (SR_ECV_NZCV_N ecv_nzcv))

/-- Overflow. -/
def CondVS : BitVec 64 := SR_ECV_NZCV_V ecv_nzcv

/-- No overflow. -/
def CondVC : BitVec 64 := ofBool64 (lnot (SR_ECV_NZCV_V ecv_nzcv))

/-- Unsigned, greater. -/
def CondHI : BitVec 64 :=
  ofBool64 (SR_ECV_NZCV_C ecv_nzcv != 0#64 && lnot (SR_ECV_NZCV_Z ecv_nzcv))

/-- Unsigned, not greater. -/
def CondLS : BitVec 64 :=
  ofBool64 (lnot (SR_ECV_NZCV_C ecv_nzcv) || SR_ECV_NZCV_Z ecv_nzcv != 0#64)

end

/-- The conditions that the templates are instantiated with. -/
inductive Cond
  | GE | GT | LE | LT | EQ | NE | CS | CC | MI | PL | VS | VC | HI | LS
  deriving DecidableEq

/-- The condition function of a condition. -/
def Cond.check : Cond → BitVec 64 → BitVec 64
  | GE => CondGE
  | GT => CondGT
  | LE => CondLE
  | LT => CondLT
  | EQ => CondEQ
  | NE => CondNE
  | CS => CondCS
  | CC => CondCC
  | MI => CondMI
  | PL => CondPL
  | VS => CondVS
  | VC => CondVC
  | HI => CondHI
  | LS => CondLS

/-! ### Semantics functions -/

section

variable (check_cond : BitVec 64 → BitVec 64)

/-- Whether the template parameter, called on the flags, gives true. -/
def checks (ecv_nzcv : BitVec 64) : Bool := check_cond ecv_nzcv != 0#64

/-- The first operand where the condition holds, the second where it does not. -/
def CSEL (src1 src2 : BitVec w) (ecv_nzcv_src : BitVec 64) : Option (BitVec w) :=
  some (if checks check_cond ecv_nzcv_src then src1 else src2)

/-- The second operand is negated. -/
def CSNEG (src1 src2 : BitVec w) (ecv_nzcv_src : BitVec 64) : Option (BitVec w) := do
  return Select (checks check_cond ecv_nzcv_src) src1 (← UAdd (← UNot src2) 1#w)

/-- The second operand is incremented. -/
def CSINC (src1 src2 : BitVec w) (ecv_nzcv_src : BitVec 64) : Option (BitVec w) := do
  return Select (checks check_cond ecv_nzcv_src) src1 (← UAdd src2 1#w)

/-- The second operand is inverted. -/
def CSINV (src1 src2 : BitVec w) (ecv_nzcv_src : BitVec 64) : Option (BitVec w) := do
  return Select (checks check_cond ecv_nzcv_src) src1 (← UNot src2)

/-- The other branch of `CCMP` and of `CCMN`: the flags are those of the immediate. -/
def nzcvImm (nzcv_val : BitVec w) : Option (BitVec 64) := do
  let flag_v := UCmpNeq (← UAnd nzcv_val 1#w) 0#w
  let flag_c := UCmpNeq (← UAnd nzcv_val 2#w) 0#w
  let flag_z := UCmpNeq (← UAnd nzcv_val 4#w) 0#w
  let flag_n := UCmpNeq (← UAnd nzcv_val 8#w) 0#w
  return packNZCV flag_n flag_z flag_c flag_v

variable (ovf : Overflow) (flag : OverflowFlag)

/-- The flags of the difference where the condition holds. -/
def CCMP (src1 src2 nzcv : BitVec w) (ecv_nzcv_src : BitVec 64) : Option (BitVec 64) := do
  if checks check_cond ecv_nzcv_src then
    let (_, flag_nzcv) ← AddWithCarryNZCV ovf flag src1 (← UNot src2) src2 1#w
    return flag_nzcv
  else
    nzcvImm nzcv

/-- The flags of the sum where the condition holds. -/
def CCMN (src1 src2 nzcv : BitVec w) (ecv_nzcv_src : BitVec 64) : Option (BitVec 64) := do
  if checks check_cond ecv_nzcv_src then
    let (_, flag_nzcv) ← AddWithCarryNZCV ovf flag src1 src2 src2 0#w
    return flag_nzcv
  else
    nzcvImm nzcv

end

/-! ### Conditions of the architecture -/

/-- The flags meet the condition. -/
def Cond.holds (fl : Flags) : Cond → Bool
  | GE => fl.n == fl.v
  | GT => fl.n == fl.v && !fl.z
  | LE => !(fl.n == fl.v && !fl.z)
  | LT => !(fl.n == fl.v)
  | EQ => fl.z
  | NE => !fl.z
  | CS => fl.c
  | CC => !fl.c
  | MI => fl.n
  | PL => !fl.n
  | VS => fl.v
  | VC => !fl.v
  | HI => fl.c && !fl.z
  | LS => !(fl.c && !fl.z)

/-- The operands of a comparison stand in the relation. -/
def Cond.Compares (a b : BitVec w) : Cond → Prop
  | GE => b.toInt ≤ a.toInt
  | GT => b.toInt < a.toInt
  | LE => a.toInt ≤ b.toInt
  | LT => a.toInt < b.toInt
  | EQ => a = b
  | NE => a ≠ b
  | CS => b.toNat ≤ a.toNat
  | CC => a.toNat < b.toNat
  | MI => (a - b).toInt < 0
  | PL => 0 ≤ (a - b).toInt
  | VS => ¬ Representable w (a.toInt - b.toInt)
  | VC => Representable w (a.toInt - b.toInt)
  | HI => b.toNat < a.toNat
  | LS => a.toNat ≤ b.toNat

theorem checks_word (c : Cond) (fl : Flags) : checks c.check fl.word = c.holds fl := by
  obtain ⟨n, z, cf, v⟩ := fl
  revert n z cf v
  cases c <;> decide

/-! ### Comparisons -/

section

variable (hw : 0 < w) (a b : BitVec w)

/-- The flags of a subtraction. -/
def subFlags : Flags := (Arm.AddWithCarry a (~~~b) true).2

theorem AddWithCarry_not : (Arm.AddWithCarry a (~~~b) true).1 = a - b := by
  show BitVec.ofNat w (a.toNat + (~~~b).toNat + true.toNat) = a - b
  rw [ofNat_add_ofCarry, BitVec.add_assoc, BitVec.sub_eq_add_neg, BitVec.neg_eq_not_add]
  rfl

theorem subFlags_z : (subFlags a b).z = true ↔ a = b := by
  have hz : (subFlags a b).z = decide (a - b = 0#w) := by
    rw [← AddWithCarry_not]
    rfl
  rw [hz, decide_eq_true_iff, BitVec.sub_eq_iff_eq_add, BitVec.zero_add]

theorem subFlags_c : (subFlags a b).c = true ↔ b.toNat ≤ a.toNat := by
  have hc : (subFlags a b).c = decide (2 ^ w ≤ a.toNat + (~~~b).toNat + 1) := rfl
  have hb := b.isLt
  rw [hc, decide_eq_true_iff, BitVec.toNat_not]
  omega

theorem subFlags_n : (subFlags a b).n = true ↔ (a - b).toInt < 0 := by
  have hn : (subFlags a b).n = (a - b).msb := by
    rw [← AddWithCarry_not]
    rfl
  rw [hn, BitVec.msb_eq_toInt, decide_eq_true_iff]

include hw

theorem subFlags_v : (subFlags a b).v = true ↔ ¬ Representable w (a.toInt - b.toInt) := by
  have hv : (subFlags a b).v =
      decide (¬ Representable w (a.toInt + (~~~b).toInt + (true.toNat : ℤ))) := rfl
  have hsum : a.toInt + (~~~b).toInt + (true.toNat : ℤ) = a.toInt - b.toInt := by
    rw [toInt_not hw, Bool.toNat_true]
    omega
  rw [hv, hsum, decide_eq_true_iff]

/-- The sign of the result is that of the difference unless it overflows. -/
theorem subFlags_nv : (subFlags a b).n = (subFlags a b).v ↔ b.toInt ≤ a.toInt := by
  have hdiff : a - b = BitVec.ofInt w (a.toInt - b.toInt) := by
    rw [Int.sub_eq_add_neg, BitVec.ofInt_add, BitVec.ofInt_neg, BitVec.ofInt_toInt,
      BitVec.ofInt_toInt, BitVec.sub_eq_add_neg]
  have hrange : Representable (w + 1) (a.toInt - b.toInt) := by
    have h := (representable_toInt a).add_carry hw (representable_toInt (~~~b)) true
    rw [toInt_not hw, Bool.toNat_true] at h
    convert h using 1
    omega
  have hsign := ofInt_neg_iff hw hrange
  rw [← hdiff, sub_neg] at hsign
  rw [Bool.eq_iff_iff, subFlags_n, subFlags_v hw, hsign, ← not_lt]
  tauto

/-- **After a subtraction the conditions tell how the operands compare.** -/
theorem holds_subFlags (c : Cond) : c.holds (subFlags a b) = true ↔ c.Compares a b := by
  have hnv : ((subFlags a b).n == (subFlags a b).v) = true ↔ b.toInt ≤ a.toInt := by
    rw [beq_iff_eq, subFlags_nv hw]
  have hInt : a = b ↔ a.toInt = b.toInt := BitVec.toInt_inj.symm
  have hNat : a = b ↔ a.toNat = b.toNat := BitVec.toNat_inj.symm
  -- the signed comparisons read `N` against `V`, the unsigned ones the carry
  cases c with
  | EQ => exact subFlags_z a b
  | NE => rw [Cond.holds, Bool.not_eq_true', ← Bool.not_eq_true, subFlags_z, Cond.Compares]
  | CS => exact subFlags_c a b
  | CC =>
    rw [Cond.holds, Bool.not_eq_true', ← Bool.not_eq_true, subFlags_c, Cond.Compares, not_le]
  | MI => exact subFlags_n a b
  | PL =>
    rw [Cond.holds, Bool.not_eq_true', ← Bool.not_eq_true, subFlags_n, Cond.Compares, not_lt]
  | VS => exact subFlags_v hw a b
  | VC =>
    rw [Cond.holds, Bool.not_eq_true', ← Bool.not_eq_true, subFlags_v hw, Cond.Compares, not_not]
  | HI =>
    rw [Cond.holds, Bool.and_eq_true, Bool.not_eq_true', ← Bool.not_eq_true, subFlags_z, subFlags_c,
      Cond.Compares, hNat]
    omega
  | LS =>
    rw [Cond.holds, Bool.not_eq_true', ← Bool.not_eq_true, Bool.and_eq_true, Bool.not_eq_true',
      ← Bool.not_eq_true, subFlags_z, subFlags_c, Cond.Compares, hNat]
    omega
  | GE => exact hnv
  | LT => rw [Cond.holds, Bool.not_eq_true', ← Bool.not_eq_true, hnv, Cond.Compares, not_le]
  | GT =>
    rw [Cond.holds, Bool.and_eq_true, Bool.not_eq_true', ← Bool.not_eq_true, hnv, subFlags_z,
      Cond.Compares, hInt]
    omega
  | LE =>
    rw [Cond.holds, Bool.not_eq_true', ← Bool.not_eq_true, Bool.and_eq_true, Bool.not_eq_true',
      ← Bool.not_eq_true, hnv, subFlags_z, Cond.Compares, hInt]
    omega

end

/-! ### Conditional selection -/

section

variable (c : Cond) (fl : Flags) (src1 src2 : BitVec w)

theorem CSEL_eq :
    CSEL c.check src1 src2 fl.word = some (if c.holds fl then src1 else src2) := by
  rw [CSEL, checks_word]

theorem CSNEG_eq :
    CSNEG c.check src1 src2 fl.word = some (if c.holds fl then src1 else -src2) := by
  rw [CSNEG, UNot_eq, Option.bind_eq_bind, Option.bind_some, UAdd_eq, Option.bind_some, checks_word,
    ← BitVec.neg_eq_not_add]
  rfl

theorem CSINC_eq :
    CSINC c.check src1 src2 fl.word = some (if c.holds fl then src1 else src2 + 1#w) := by
  rw [CSINC, UAdd_eq, Option.bind_eq_bind, Option.bind_some, checks_word]
  rfl

theorem CSINV_eq :
    CSINV c.check src1 src2 fl.word = some (if c.holds fl then src1 else ~~~src2) := by
  rw [CSINV, UNot_eq, Option.bind_eq_bind, Option.bind_some, checks_word]
  rfl

end

/-! ### Conditional compares -/

/-- The immediate is a field of four bits. -/
theorem nzcvImm_eq (f : Form) (nzcv : BitVec 4) :
    nzcvImm (nzcv.setWidth f.size) = some (Flags.ofImm nzcv).word := by
  simp only [nzcvImm, UAnd_eq, Option.bind_eq_bind, Option.bind_some]
  apply congrArg some
  revert nzcv
  cases f <;> decide

/-- `CMP` is `SUBS` without its result, `CMN` is `ADDS`. -/
inductive CompareKind
  | CMP
  | CMN

/-- A compare with the values of its operands. -/
structure Comparison where
  form : Form
  kind : CompareKind
  src1 : BitVec form.size
  src2 : BitVec form.size

/-- A conditional compare. -/
structure CondComparison extends Comparison where
  cond : Cond
  nzcv : BitVec 4

section

variable (ovf : Overflow) (flag : OverflowFlag)

/-- The flags that the semantics functions give a compare. -/
def Comparison.sem (c : Comparison) : Option (BitVec 64) :=
  match c.kind with
  | .CMP => (SUBS ovf flag c.src1 c.src2).map Prod.snd
  | .CMN => (ADDS ovf flag c.src1 c.src2).map Prod.snd

/-- The flags that the semantics functions give a conditional compare after others. -/
def CondComparison.sem (ecv_nzcv : BitVec 64) (c : CondComparison) : Option (BitVec 64) :=
  match c.kind with
  | .CMP => CCMP c.cond.check ovf flag c.src1 c.src2 (c.nzcv.setWidth _) ecv_nzcv
  | .CMN => CCMN c.cond.check ovf flag c.src1 c.src2 (c.nzcv.setWidth _) ecv_nzcv

/-- A compare and the conditional compares after it. -/
def runChain (first : Comparison) (l : List CondComparison) : Option (BitVec 64) := do
  l.foldlM (CondComparison.sem ovf flag) (← first.sem ovf flag)

end

/-- The flags that the architecture gives a compare. -/
def Comparison.flags (c : Comparison) : Flags :=
  match c.kind with
  | .CMP => (Arm.AddWithCarry c.src1 (~~~c.src2) true).2
  | .CMN => (Arm.AddWithCarry c.src1 c.src2 false).2

/-- A conditional compare keeps nothing of the flags that it tests. -/
def CondComparison.step (fl : Flags) (c : CondComparison) : Flags :=
  if c.cond.holds fl then c.flags else Flags.ofImm c.nzcv

/-- The flags after a compare and the conditional compares that follow it. -/
def armChain (first : Comparison) (l : List CondComparison) : Flags :=
  l.foldl CondComparison.step first.flags

theorem two_le_size (f : Form) : 2 ≤ f.size := by
  cases f <;> decide

section

variable (ovf : Overflow) {flag : OverflowFlag} (hflag : flag.ReturnsFirst)
include hflag

theorem Comparison.sem_eq (c : Comparison) : c.sem ovf flag = some c.flags.word := by
  obtain ⟨f, kind, a, b⟩ := c
  cases kind with
  | CMP =>
    show (SUBS ovf flag a b).map Prod.snd = _
    rw [SUBS_eq ovf hflag (two_le_size f), Option.map_some]
    rfl
  | CMN =>
    show (ADDS ovf flag a b).map Prod.snd = _
    rw [ADDS_eq ovf hflag (two_le_size f), Option.map_some]
    rfl

/-- One conditional compare, from the word of any flags. -/
theorem CondComparison.sem_word (fl : Flags) (c : CondComparison) :
    c.sem ovf flag fl.word = some (c.step fl).word := by
  obtain ⟨⟨f, kind, a, b⟩, cond, nzcv⟩ := c
  cases kind with
  | CMP =>
    show CCMP cond.check ovf flag a b (nzcv.setWidth _) fl.word = _
    unfold CCMP CondComparison.step
    rw [checks_word]
    -- the flags of the comparison, or the immediate where the condition fails
    cases cond.holds fl with
    | true =>
      rw [if_pos rfl, if_pos rfl, UNot_eq, Option.bind_eq_bind, Option.bind_some]
      show Option.bind (AddWithCarryNZCV ovf flag a (~~~b) b (ofCarry f.size true)) _ = _
      rw [AddWithCarryNZCV_eq ovf hflag (two_le_size f)]
      rfl
    | false => exact nzcvImm_eq f nzcv
  | CMN =>
    show CCMN cond.check ovf flag a b (nzcv.setWidth _) fl.word = _
    unfold CCMN CondComparison.step
    rw [checks_word]
    cases cond.holds fl with
    | true =>
      rw [if_pos rfl, if_pos rfl]
      show Option.bind (AddWithCarryNZCV ovf flag a b b (ofCarry f.size false)) _ = _
      rw [AddWithCarryNZCV_eq ovf hflag (two_le_size f)]
      rfl
    | false => exact nzcvImm_eq f nzcv

theorem foldlM_sem (l : List CondComparison) (fl : Flags) :
    l.foldlM (CondComparison.sem ovf flag) fl.word =
      some (l.foldl CondComparison.step fl).word := by
  induction l generalizing fl with
  | nil => rfl
  | cons c l ih =>
    rw [List.foldlM_cons, CondComparison.sem_word ovf hflag, Option.bind_eq_bind, Option.bind_some,
      List.foldl_cons]
    exact ih _

theorem runChain_eq (first : Comparison) (l : List CondComparison) :
    runChain ovf flag first l = some (armChain first l).word := by
  rw [runChain, Comparison.sem_eq ovf hflag, Option.bind_eq_bind, Option.bind_some]
  exact foldlM_sem ovf hflag l _

end

/-! ### Flags and conditions together -/

/-- The flags are those of the architecture, and what is made of them. -/
structure FlagsAgree (ovf : Overflow) (flag : OverflowFlag) : Prop where
  /-- The result and the flags of a sum with carry. -/
  addWithCarry : ∀ (f : Form) (x y actual_rhs : BitVec f.size) (carry : Bool),
    AddWithCarryNZCV ovf flag x y actual_rhs (ofCarry f.size carry) =
      some ((Arm.AddWithCarry x y carry).1, (Arm.AddWithCarry x y carry).2.word)
  /-- The conditions after a subtraction. -/
  conditions : ∀ (f : Form) (a b : BitVec f.size), ∃ nzcv,
    SUBS ovf flag a b = some (a - b, nzcv) ∧
      ∀ c : Cond, c.check nzcv ≠ 0#64 ↔ c.Compares a b
  /-- Sums of several words. -/
  sums : ∀ (f : Form) (carry : Bool) (l : List (ChainStep f.size)),
    Words.Linked carry (l.map ChainStep.addColumn) →
      ∃ r, l.mapM (fun s => ADC s.src1 s.src2 s.ecv_nzcv) = some r ∧
        Words.value r = (Words.value (l.map ChainStep.src1) + Words.value (l.map ChainStep.src2) +
          carry.toNat) % 2 ^ (f.size * l.length)
  /-- Differences of several words. -/
  differences : ∀ (f : Form) (carry : Bool) (l : List (ChainStep f.size)),
    Words.Linked carry (l.map ChainStep.subColumn) →
      ∃ r, l.mapM (fun s => SBC s.src1 s.src2 s.ecv_nzcv) = some r ∧
        (Words.value r : ℤ) = (Words.value (l.map ChainStep.src1) -
          Words.value (l.map ChainStep.src2) - (1 - carry.toNat)) % 2 ^ (f.size * l.length)
  /-- `SBCS` leaves the word of `SBC`, and hands on the carry. -/
  carries : ∀ (f : Form) (s : ChainStep f.size), ∃ word, ∃ fl : Flags,
    SBC s.src1 s.src2 s.ecv_nzcv = some word ∧
      SBCS ovf flag s.src1 s.src2 s.ecv_nzcv = some (word, fl.word) ∧
        fl.c = s.subColumn.carryOut
  /-- A compare, any number of conditional compares, and the selections after them. -/
  chains : ∀ (first : Comparison) (l : List CondComparison), ∃ nzcv,
    runChain ovf flag first l = some nzcv ∧ nzcv = (armChain first l).word ∧
      ∀ (f : Form) (c : Cond) (src1 src2 : BitVec f.size),
        CSEL c.check src1 src2 nzcv =
          some (if c.holds (armChain first l) then src1 else src2) ∧
        CSINC c.check src1 src2 nzcv =
          some (if c.holds (armChain first l) then src1 else src2 + 1#f.size) ∧
        CSINV c.check src1 src2 nzcv =
          some (if c.holds (armChain first l) then src1 else ~~~src2) ∧
        CSNEG c.check src1 src2 nzcv =
          some (if c.holds (armChain first l) then src1 else -src2)

/-- **Flags and conditions agree with comparisons.** -/
theorem flags_agree (ovf : Overflow) {flag : OverflowFlag} (hflag : flag.ReturnsFirst) :
    FlagsAgree ovf flag where
  addWithCarry f x y z carry := AddWithCarryNZCV_eq ovf hflag (two_le_size f) x y z carry
  conditions f a b := by
    have hpos : 0 < f.size := (Nat.zero_lt_two).trans_le (two_le_size f)
    refine ⟨(subFlags a b).word, ?_, ?_⟩
    · rw [SUBS_eq ovf hflag (two_le_size f), AddWithCarry_not]
      rfl
    · intro c
      rw [← holds_subFlags hpos, ← checks_word, checks, bne_iff_ne]
  sums f carry l h := ADC_chain h
  differences f carry l h := SBC_chain h
  carries f s := by
    obtain ⟨fl, hrun, hc⟩ := SBCS_eq ovf hflag (two_le_size f) s
    exact ⟨_, fl, SBC_eq s, hrun, hc⟩
  chains first l := by
    refine ⟨_, runChain_eq ovf hflag first l, rfl, ?_⟩
    intro f c src1 src2
    exact ⟨CSEL_eq c _ src1 src2, CSINC_eq c _ src1 src2, CSINV_eq c _ src1 src2,
      CSNEG_eq c _ src1 src2⟩

/-- The intrinsic that is its first argument. -/
theorem flags_agree_first : FlagsAgree Overflow.undefined fun _ r _ _ _ => r :=
  flags_agree Overflow.undefined fun _ _ _ _ _ => rfl

end Elfconv.AArch64
