/-
Elfconv/Lib/CInt.lean

The integer operators of C on words of any width.

A word is read as unsigned or as signed by the operator, not by its type.  An operator gives
`none` where the language leaves the expression undefined: a division by zero, a signed quotient
that is not a value of the type, a shift by the width or more.  What a signed sum or product gives
that is not a value of the type depends on how the program is compiled, so it is a parameter, the
`Overflow`.
-/
import Mathlib.Algebra.Order.Ring.Abs
import Mathlib.Data.BitVec
import Mathlib.Tactic.Linarith
import Mathlib.Tactic.Positivity

namespace CInt

variable {v w : ℕ}

/-! ### Values of a signed type -/

/-- The integer is a value of the signed type of `w` bits. -/
def Representable (w : ℕ) (i : ℤ) : Prop := -2 ^ (w - 1) ≤ i ∧ i < 2 ^ (w - 1)

instance (w : ℕ) (i : ℤ) : Decidable (Representable w i) :=
  inferInstanceAs (Decidable (_ ∧ _))

theorem representable_toInt (a : BitVec w) : Representable w a.toInt :=
  ⟨BitVec.le_toInt a, BitVec.toInt_lt⟩

/-- A number that fits is kept. -/
theorem toInt_ofInt {i : ℤ} (hw : 0 < w) (h : Representable w i) : (BitVec.ofInt w i).toInt = i :=
  BitVec.toInt_ofInt_eq_self hw h.1 h.2

/-- A number is kept if and only if it fits. -/
theorem toInt_ofInt_eq_iff {i : ℤ} (hw : 0 < w) :
    (BitVec.ofInt w i).toInt = i ↔ Representable w i := by
  constructor
  · intro h
    rw [← h]
    exact representable_toInt _
  · exact toInt_ofInt hw

/-- A sum that fits does not wrap around. -/
theorem toInt_add_of_representable {a b : BitVec w} (hw : 0 < w)
    (h : Representable w (a.toInt + b.toInt)) : (a + b).toInt = a.toInt + b.toInt := by
  have hofInt : a + b = BitVec.ofInt w (a.toInt + b.toInt) := by
    rw [BitVec.ofInt_add, BitVec.ofInt_toInt, BitVec.ofInt_toInt]
  rw [hofInt, toInt_ofInt hw h]

/-- What fits a width fits a greater one. -/
theorem Representable.mono {i : ℤ} (h : Representable v i) (hvw : v ≤ w) : Representable w i := by
  have hpow : (2 : ℤ) ^ (v - 1) ≤ 2 ^ (w - 1) :=
    pow_le_pow_right₀ (by decide) (Nat.sub_le_sub_right hvw 1)
  exact ⟨(neg_le_neg hpow).trans h.1, h.2.trans_le hpow⟩

/-- One more bit is enough for a sum. -/
theorem Representable.add {i j : ℤ} (hw : 0 < w) (hi : Representable w i)
    (hj : Representable w j) : Representable (w + 1) (i + j) := by
  obtain ⟨n, rfl⟩ := Nat.exists_eq_add_of_lt hw
  simp only [Representable, Nat.zero_add, Nat.add_sub_cancel, pow_succ] at *
  constructor <;> linarith [hi.1, hi.2, hj.1, hj.2]

/-- One more bit is enough for a sum with a carry. -/
theorem Representable.add_carry {i j : ℤ} (hw : 0 < w) (hi : Representable w i)
    (hj : Representable w j) (carry : Bool) : Representable (w + 1) (i + j + carry.toNat) := by
  obtain ⟨n, rfl⟩ := Nat.exists_eq_add_of_lt hw
  have hc : (carry.toNat : ℤ) ≤ 1 := by exact_mod_cast Bool.toNat_le carry
  simp only [Representable, Nat.zero_add, Nat.add_sub_cancel, pow_succ] at *
  constructor <;> omega

/-- A product has as many bits as its factors together. -/
theorem Representable.mul {i j : ℤ} (hv : 0 < v) (hw : 0 < w) (hi : Representable v i)
    (hj : Representable w j) : Representable (v + w) (i * j) := by
  have habs : |i * j| ≤ 2 ^ (v - 1) * 2 ^ (w - 1) := by
    rw [abs_mul]
    exact mul_le_mul (abs_le.mpr ⟨hi.1, hi.2.le⟩) (abs_le.mpr ⟨hj.1, hj.2.le⟩) (abs_nonneg j)
      (by positivity)
  have hlt : (2 : ℤ) ^ (v - 1) * 2 ^ (w - 1) < 2 ^ (v + w - 1) := by
    rw [← pow_add]
    exact pow_lt_pow_right₀ (by decide) (by omega)
  obtain ⟨h₁, h₂⟩ := abs_le.mp habs
  exact ⟨by linarith, by linarith⟩

/-- A quotient is a value of the type unless the least value is divided by `-1`. -/
theorem representable_tdiv (hw : 0 < w) (a b : BitVec w) :
    Representable w (a.toInt.tdiv b.toInt) ↔ ¬ (a = BitVec.intMin w ∧ b = -1#w) := by
  constructor
  · rintro h ⟨rfl, rfl⟩
    have hmin : (BitVec.intMin w).toInt.tdiv (-1#w).toInt = 2 ^ (w - 1) := by
      rw [BitVec.toInt_intMin_of_pos hw, BitVec.neg_one_eq_allOnes, BitVec.toInt_allOnes, if_pos hw,
        Int.tdiv_neg, Int.tdiv_one, neg_neg]
    rw [hmin] at h
    exact lt_irrefl _ h.2
  · intro h
    rw [not_and_or] at h
    rw [← BitVec.toInt_sdiv_of_ne_or_ne a b h]
    exact representable_toInt _

/-- The complement of a signed number. -/
theorem toInt_not (hw : 0 < w) (a : BitVec w) : (~~~a).toInt = -a.toInt - 1 := by
  have hofInt : ~~~a = BitVec.ofInt w (-a.toInt - 1) := by
    rw [Int.sub_eq_add_neg, BitVec.ofInt_add, BitVec.ofInt_neg, BitVec.ofInt_neg,
      BitVec.ofInt_toInt, BitVec.not_eq_neg_add, BitVec.sub_eq_add_neg]
    rfl
  obtain ⟨h₁, h₂⟩ := representable_toInt a
  rw [hofInt, toInt_ofInt hw ⟨by omega, by omega⟩]

/-- The sign of an integer of one bit more, taken from the word, is wrong where the word does not
have its value. -/
theorem ofInt_neg_iff {i : ℤ} (hw : 0 < w) (h : Representable (w + 1) i) :
    (BitVec.ofInt w i).toInt < 0 ↔ (i < 0 ↔ Representable w i) := by
  have hpow : (2 : ℤ) ^ w = 2 * 2 ^ (w - 1) := by
    rw [← pow_succ', Nat.sub_add_cancel hw]
  have hmove : ∀ j, (BitVec.ofInt w (j + 2 ^ w)).toInt = (BitVec.ofInt w j).toInt := by
    intro j
    rw [BitVec.toInt_ofInt, BitVec.toInt_ofInt]
    exact_mod_cast Int.add_bmod_right j (2 ^ w)
  obtain ⟨h₁, h₂⟩ := h
  rw [Nat.add_sub_cancel, hpow] at h₁ h₂
  -- an integer that does not fit is off by one power of two, in the direction of its sign
  by_cases hrep : Representable w i
  · rw [toInt_ofInt hw hrep]
    exact (iff_true_right hrep).symm
  · by_cases hneg : i < 0
    · have hlow : Representable w (i + 2 ^ w) := by
        unfold Representable at *
        omega
      have hval := hmove i
      rw [toInt_ofInt hw hlow] at hval
      rw [← hval]
      exact iff_of_false (by omega) (fun hiff => hrep (hiff.mp hneg))
    · have hhigh : Representable w (i - 2 ^ w) := by
        unfold Representable at *
        omega
      have hval := hmove (i - 2 ^ w)
      rw [Int.sub_add_cancel, toInt_ofInt hw hhigh] at hval
      rw [hval]
      exact iff_of_true (by omega) (iff_of_false hneg hrep)

/-! ### Operators -/

/-- What a signed operation gives whose result is not a value of its type. -/
abbrev Overflow := (w : ℕ) → ℤ → Option (BitVec w)

/-- The program is compiled so that signed operations wrap. -/
def Overflow.wraps : Overflow := fun w i => some (BitVec.ofInt w i)

/-- Nothing is said of a signed operation that overflows. -/
def Overflow.undefined : Overflow := fun _ _ => none

/-- The result of a signed operation. -/
def signed (ovf : Overflow) (w : ℕ) (i : ℤ) : Option (BitVec w) :=
  if Representable w i then some (BitVec.ofInt w i) else ovf w i

/-- `+` on signed numbers. -/
def addS (ovf : Overflow) (a b : BitVec w) : Option (BitVec w) :=
  signed ovf w (a.toInt + b.toInt)

/-- `*` on signed numbers. -/
def mulS (ovf : Overflow) (a b : BitVec w) : Option (BitVec w) :=
  signed ovf w (a.toInt * b.toInt)

/-- `/` on unsigned numbers; undefined for zero. -/
def divU (a b : BitVec w) : Option (BitVec w) :=
  if b = 0#w then none else some (a / b)

/-- `%` on unsigned numbers; undefined for zero. -/
def remU (a b : BitVec w) : Option (BitVec w) :=
  if b = 0#w then none else some (a % b)

/-- `/` on signed numbers; undefined for zero and for a quotient that does not fit. -/
def divS (a b : BitVec w) : Option (BitVec w) :=
  if b = 0#w ∨ ¬ Representable w (a.toInt.tdiv b.toInt) then none
  else some (BitVec.ofInt w (a.toInt.tdiv b.toInt))

/-- `<<` on unsigned numbers; undefined from the width on. -/
def shlU (a s : BitVec w) : Option (BitVec w) :=
  if s.toNat < w then some (a <<< s.toNat) else none

/-- `>>` on unsigned numbers; undefined from the width on. -/
def shrU (a s : BitVec w) : Option (BitVec w) :=
  if s.toNat < w then some (a >>> s.toNat) else none

/-- A signed word is shifted with its sign. -/
def shrS (a s : BitVec w) : Option (BitVec w) :=
  if 0 ≤ s.toInt ∧ s.toInt < w then some (a.sshiftRight s.toInt.toNat) else none

/-- What a shift by the width or more gives. -/
abbrev Overshift := (w : ℕ) → BitVec w → BitVec w → Option (BitVec w)

/-- Nothing is said of such a shift. -/
def Overshift.undefined : Overshift := fun _ _ _ => none

/-- The host takes the amount modulo the width. -/
def Overshift.wraps : Overshift := fun w a s => some (a <<< (s.toNat % w))

/-- A shift on a host that is known. -/
def shlBy (big : Overshift) (a s : BitVec w) : Option (BitVec w) :=
  if s.toNat < w then some (a <<< s.toNat) else big w a s

/-- A result that fits is what it should be, whatever overflow does. -/
theorem signed_of_representable {ovf : Overflow} {i : ℤ} (h : Representable w i) :
    signed ovf w i = some (BitVec.ofInt w i) := if_pos h

/-- A result is taken modulo `2 ^ w` when it fits, or when overflow does so. -/
theorem signed_eq_ofInt_iff {ovf : Overflow} {i : ℤ} :
    signed ovf w i = some (BitVec.ofInt w i) ↔
      Representable w i ∨ ovf w i = some (BitVec.ofInt w i) := by
  unfold signed
  by_cases h : Representable w i <;> simp [h]

/-- A signed sum that fits. -/
theorem addS_of_representable {ovf : Overflow} {a b : BitVec w}
    (h : Representable w (a.toInt + b.toInt)) : addS ovf a b = some (a + b) := by
  rw [addS, signed_of_representable h, BitVec.ofInt_add, BitVec.ofInt_toInt, BitVec.ofInt_toInt]

/-- A signed product that fits. -/
theorem mulS_of_representable {ovf : Overflow} {a b : BitVec w}
    (h : Representable w (a.toInt * b.toInt)) : mulS ovf a b = some (a * b) := by
  rw [mulS, signed_of_representable h, BitVec.ofInt_mul, BitVec.ofInt_toInt, BitVec.ofInt_toInt]

theorem divU_of_ne {a b : BitVec w} (h : b ≠ 0#w) : divU a b = some (a / b) := if_neg h

theorem remU_of_ne {a b : BitVec w} (h : b ≠ 0#w) : remU a b = some (a % b) := if_neg h

theorem shlU_of_lt {a s : BitVec w} (h : s.toNat < w) : shlU a s = some (a <<< s.toNat) := if_pos h

theorem shrU_of_lt {a s : BitVec w} (h : s.toNat < w) : shrU a s = some (a >>> s.toNat) := if_pos h

end CInt
