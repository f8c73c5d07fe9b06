/-
Elfconv/Lib/Words.lean

Numbers of several words, the least significant first, and their sums word by word.

A column of a sum has two words and a carry that comes in.  It leaves a word and a carry.  In a list
of columns each of which receives the carry of the one before, the words that are left make up the
sum, up to the carry of the last column.  A difference is the sum with the complement.
-/
import Mathlib.Data.BitVec
import Mathlib.Tactic.Linarith
import Mathlib.Tactic.Ring

namespace Words

variable {w : ℕ}

/-! ### Values -/

/-- The number that the words stand for. -/
def value : List (BitVec w) → ℕ
  | [] => 0
  | x :: l => x.toNat + 2 ^ w * value l

/-- The value of a list of words fits all of them. -/
theorem value_lt (l : List (BitVec w)) : value l < 2 ^ (w * l.length) := by
  induction l with
  | nil => exact Nat.one_pos
  | cons x l ih =>
    have hx : x.toNat + 1 ≤ 2 ^ w := x.isLt
    calc x.toNat + 2 ^ w * value l
        < 2 ^ w * (value l + 1) := by linarith
      _ ≤ 2 ^ w * 2 ^ (w * l.length) := Nat.mul_le_mul_left _ ih
      _ = 2 ^ (w * (x :: l).length) := by
        rw [← pow_add, List.length_cons, mul_add, mul_one, add_comm]

/-- A number and its complement. -/
theorem value_add_value_not (l : List (BitVec w)) :
    value l + value (l.map fun x => ~~~x) + 1 = 2 ^ (w * l.length) := by
  induction l with
  | nil => rfl
  | cons x l ih =>
    have hx : x.toNat + (~~~x).toNat + 1 = 2 ^ w := by
      rw [BitVec.toNat_not]
      have := x.isLt
      omega
    calc value (x :: l) + value ((x :: l).map fun x => ~~~x) + 1
        = x.toNat + (~~~x).toNat + 1 + 2 ^ w * (value l + value (l.map fun x => ~~~x)) := by
          simp only [value, List.map_cons]
          ring
      _ = 2 ^ w * (value l + value (l.map fun x => ~~~x) + 1) := by rw [hx]; ring
      _ = 2 ^ (w * (x :: l).length) := by
          rw [ih, ← pow_add, List.length_cons, mul_add, mul_one, add_comm]

/-! ### Columns -/

/-- Two words to add and the carry that comes in. -/
structure Column (w : ℕ) where
  lhs : BitVec w
  rhs : BitVec w
  carry : Bool

namespace Column

/-- What a column adds. -/
def total (c : Column w) : ℕ := c.lhs.toNat + c.rhs.toNat + c.carry.toNat

/-- The word that is left. -/
def word (c : Column w) : BitVec w := BitVec.ofNat w c.total

/-- The carry out of a column. -/
def carryOut (c : Column w) : Bool := decide (2 ^ w ≤ c.total)

theorem total_lt (c : Column w) : c.total < 2 ^ w + 2 ^ w := by
  have hl : c.lhs.toNat + 1 ≤ 2 ^ w := c.lhs.isLt
  have hr : c.rhs.toNat + 1 ≤ 2 ^ w := c.rhs.isLt
  have hc : c.carry.toNat ≤ 1 := Bool.toNat_le c.carry
  unfold total
  omega

/-- A column is its word and its carry. -/
theorem word_add_carryOut (c : Column w) :
    c.word.toNat + 2 ^ w * c.carryOut.toNat = c.total := by
  have hlt := c.total_lt
  rw [word, carryOut, BitVec.toNat_ofNat]
  by_cases h : 2 ^ w ≤ c.total
  · rw [decide_eq_true h, Bool.toNat_true, mul_one, Nat.mod_eq_sub_mod h,
      Nat.mod_eq_of_lt (by omega), Nat.sub_add_cancel h]
  · rw [decide_eq_false h, Bool.toNat_false, mul_zero, Nat.mod_eq_of_lt (by omega), add_zero]

end Column

/-- The first column receives `carry`, each other one the carry of the one before. -/
def Linked : Bool → List (Column w) → Prop
  | _, [] => True
  | carry, c :: l => c.carry = carry ∧ Linked c.carryOut l

/-- The carry of the last column. -/
def lastCarry : Bool → List (Column w) → Bool
  | carry, [] => carry
  | _, c :: l => lastCarry c.carryOut l

/-- **The words that the columns leave** make up the sum. -/
theorem value_word {carry : Bool} {l : List (Column w)} (h : Linked carry l) :
    value (l.map Column.word) + 2 ^ (w * l.length) * (lastCarry carry l).toNat =
      value (l.map Column.lhs) + value (l.map Column.rhs) + carry.toNat := by
  induction l generalizing carry with
  | nil => simp [value, lastCarry]
  | cons c l ih =>
    obtain ⟨rfl, hl⟩ := h
    have hpow : 2 ^ (w * (c :: l).length) = 2 ^ w * 2 ^ (w * l.length) := by
      rw [← pow_add, List.length_cons, mul_add, mul_one, add_comm]
    calc value ((c :: l).map Column.word) +
          2 ^ (w * (c :: l).length) * (lastCarry c.carry (c :: l)).toNat
        = c.word.toNat + 2 ^ w * (value (l.map Column.word) +
            2 ^ (w * l.length) * (lastCarry c.carryOut l).toNat) := by
          rw [hpow]
          simp only [List.map_cons, value, lastCarry]
          ring
      _ = c.word.toNat + 2 ^ w * c.carryOut.toNat +
            2 ^ w * (value (l.map Column.lhs) + value (l.map Column.rhs)) := by
          rw [ih hl]
          ring
      _ = value ((c :: l).map Column.lhs) + value ((c :: l).map Column.rhs) + c.carry.toNat := by
          rw [c.word_add_carryOut]
          simp only [Column.total, List.map_cons, value]
          ring

/-- Linked columns add up, modulo all words. -/
theorem value_word_eq_mod {carry : Bool} {l : List (Column w)} (h : Linked carry l) :
    value (l.map Column.word) =
      (value (l.map Column.lhs) + value (l.map Column.rhs) + carry.toNat) %
        2 ^ (w * l.length) := by
  have hlt := value_lt (l.map Column.word)
  rw [List.length_map] at hlt
  rw [← value_word h, Nat.add_mul_mod_self_left, Nat.mod_eq_of_lt hlt]

/-- With the complement of a second number the columns leave the difference; no carry is a
borrow. -/
theorem value_word_not {carry : Bool} {l : List (Column w)} (h : Linked carry l)
    {b : List (BitVec w)} (hb : l.map Column.rhs = b.map fun x => ~~~x) :
    (value (l.map Column.word) : ℤ) =
      (value (l.map Column.lhs) - value b - (1 - carry.toNat)) % 2 ^ (w * l.length) := by
  have hlen : b.length = l.length := by
    have := congrArg List.length hb
    simpa using this.symm
  have hnot := value_add_value_not b
  rw [← hb, hlen] at hnot
  have hsum : (value (l.map Column.lhs) + value (l.map Column.rhs) + carry.toNat : ℤ) =
      value (l.map Column.lhs) - value b - (1 - carry.toNat) + 2 ^ (w * l.length) := by
    have : (value b + value (l.map Column.rhs) + 1 : ℤ) = 2 ^ (w * l.length) := by
      exact_mod_cast hnot
    linarith
  rw [value_word_eq_mod h]
  push_cast
  rw [hsum, Int.add_emod_right]

end Words
