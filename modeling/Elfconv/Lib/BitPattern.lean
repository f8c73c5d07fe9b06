/-
Elfconv/Lib/BitPattern.lean

Loops that build a word of a pattern of bits.

A run of ones is shifted in from below, an element is rotated by one bit at a time within its size,
and copies of an element are put side by side.  Each loop is the iteration of one step, and its
result is given bit by bit.
-/
import Mathlib.Data.BitVec
import Mathlib.Logic.Function.Iterate

namespace BitPattern

variable {w : ℕ}

/-! ### Runs of ones -/

/-- A one is shifted in at the bottom. -/
def pushOne (x : BitVec w) : BitVec w := x <<< 1 ||| 1#w

/-- The bits of `pushOne`: a one, and the others moved up. -/
theorem getLsbD_pushOne (x : BitVec w) {i : ℕ} (hi : i < w) :
    (pushOne x).getLsbD i = (decide (i = 0) || x.getLsbD (i - 1)) := by
  have hone : (1#w).getLsbD i = decide (i = 0) := by
    rw [BitVec.getLsbD_one]
    by_cases h : i = 0 <;> simp [h]
    omega
  rw [pushOne, BitVec.getLsbD_or, BitVec.getLsbD_shiftLeft, hone]
  by_cases h : i = 0 <;> simp [h, hi]

/-- Pushing `n` ones leaves ones below `n`. -/
theorem getLsbD_iterate_pushOne (n : ℕ) {i : ℕ} (hi : i < w) :
    ((pushOne (w := w))^[n] 0#w).getLsbD i = decide (i < n) := by
  induction n generalizing i with
  | zero => simp
  | succ n ih =>
    rw [Function.iterate_succ_apply', getLsbD_pushOne _ hi, ih (by omega)]
    by_cases h : i = 0
    · simp [h]
    · simp only [h, decide_false, Bool.false_or, decide_eq_decide]
      omega

/-! ### Rotation of an element -/

/-- No bit is set from the size on. -/
def Within (size : ℕ) (x : BitVec w) : Prop := ∀ i, size ≤ i → x.getLsbD i = false

/-- The low `size` bits are rotated to the right by one. -/
def rotateOne (size : ℕ) (x : BitVec w) : BitVec w := (x &&& 1#w) <<< (size - 1) ||| x >>> 1

/-- One step takes each bit from the next place, the last one from the first. -/
theorem getLsbD_rotateOne {size : ℕ} (hpos : 0 < size) {x : BitVec w}
    (hx : Within size x) {i : ℕ} (hi : i < w) :
    (rotateOne size x).getLsbD i = (decide (i < size) && x.getLsbD ((i + 1) % size)) := by
  have hlow : (x &&& 1#w).getLsbD (i - (size - 1)) =
      (decide (i ≤ size - 1) && x.getLsbD 0) := by
    rw [BitVec.getLsbD_and, BitVec.getLsbD_one]
    by_cases h : i ≤ size - 1
    · have h0 : i - (size - 1) = 0 := by omega
      simp [h0, h]
      omega
    · have h1 : 1 ≤ i - (size - 1) := by omega
      have h2 : i - (size - 1) ≠ 0 := by omega
      simp [h, h2]
  rw [rotateOne, BitVec.getLsbD_or, BitVec.getLsbD_shiftLeft, BitVec.getLsbD_ushiftRight, hlow]
  rcases Nat.lt_trichotomy i (size - 1) with h | rfl | h
  · have hmod : (i + 1) % size = i + 1 := Nat.mod_eq_of_lt (by omega)
    rw [hmod, decide_eq_true h, decide_eq_true (by omega : i < size), Nat.add_comm 1 i]
    simp
  · have hmod : (size - 1 + 1) % size = 0 := by rw [Nat.sub_add_cancel hpos, Nat.mod_self]
    have hend : x.getLsbD (1 + (size - 1)) = false := hx _ (by omega)
    rw [hmod, hend, decide_eq_true (by omega : size - 1 < size)]
    simp [hi]
  · have hend : x.getLsbD (1 + i) = false := hx _ (by omega)
    rw [hend, decide_eq_false (by omega : ¬ i ≤ size - 1), decide_eq_false (by omega : ¬ i < size)]
    simp

/-- A rotation stays within its bits. -/
theorem within_rotateOne {size : ℕ} (hpos : 0 < size) {x : BitVec w}
    (hx : Within size x) : Within size (rotateOne size x) := by
  intro i hi
  by_cases hw : i < w
  · rw [getLsbD_rotateOne hpos hx hw, decide_eq_false (by omega), Bool.false_and]
  · exact BitVec.getLsbD_of_ge _ _ (by omega)

/-- The bits after `n` rotations by one are those `n` further on, around the end. -/
theorem getLsbD_iterate_rotateOne {size : ℕ} (hpos : 0 < size) (hsize : size ≤ w) (n : ℕ)
    {x : BitVec w} (hx : Within size x) (i : ℕ) :
    ((rotateOne size)^[n] x).getLsbD i = (decide (i < size) && x.getLsbD ((i + n) % size)) := by
  induction n generalizing x with
  | zero =>
    by_cases h : i < size
    · simp [h, Nat.mod_eq_of_lt h]
    · simp [h, hx i (by omega)]
  | succ n ih =>
    rw [Function.iterate_succ_apply, ih (within_rotateOne hpos hx)]
    by_cases h : i < size
    · have hmod : (i + n) % size < size := Nat.mod_lt _ hpos
      rw [getLsbD_rotateOne hpos hx (hmod.trans_le hsize), decide_eq_true hmod,
        Nat.mod_add_mod, Bool.true_and, Nat.add_assoc]
    · simp [h]

/-- A rotation to the right takes each bit from a place further up, around the end. -/
theorem getLsbD_rotateRight_mod (x : BitVec w) (r : ℕ) {i : ℕ} (hi : i < w) :
    (x.rotateRight r).getLsbD i = x.getLsbD ((i + r) % w) := by
  have hr : r % w < w := Nat.mod_lt _ (by omega)
  rw [BitVec.getLsbD_rotateRight, ← Nat.add_mod_mod]
  generalize r % w = k at *
  by_cases h : i < w - k
  · rw [decide_eq_true h, Nat.mod_eq_of_lt (by omega : i + k < w), Nat.add_comm]
    rfl
  · have hback : i - (w - k) = i + k - w := by omega
    rw [decide_eq_false h, decide_eq_true hi, Nat.mod_eq_sub_mod (by omega : w ≤ i + k),
      Nat.mod_eq_of_lt (by omega : i + k - w < w), hback]
    rfl

/-- A rotation by zero changes nothing. -/
theorem rotateRight_zero (x : BitVec w) : x.rotateRight 0 = x := by
  apply BitVec.eq_of_getLsbD_eq
  intro i hi
  rw [getLsbD_rotateRight_mod x 0 hi, Nat.add_zero, Nat.mod_eq_of_lt hi]

/-! ### Copies of an element -/

/-- A copy of the bits is put below what is there. -/
def putBelow (size : ℕ) (x acc : BitVec w) : BitVec w := acc <<< size ||| x

/-- Putting `n` copies below each other repeats the bits with the period `size`. -/
theorem getLsbD_iterate_putBelow {size : ℕ} {x : BitVec w} (hx : Within size x) (n : ℕ) {i : ℕ}
    (hi : i < w) : ((putBelow size x)^[n] 0#w).getLsbD i =
      (decide (i < n * size) && x.getLsbD (i % size)) := by
  induction n generalizing i with
  | zero => simp
  | succ n ih =>
    rw [Function.iterate_succ_apply', putBelow, BitVec.getLsbD_or, BitVec.getLsbD_shiftLeft,
      ih (by omega), Nat.succ_mul]
    by_cases h : i < size
    · have hlt : i < n * size + size := by omega
      simp [h, hlt, Nat.mod_eq_of_lt h]
    · have hmod : (i - size) % size = i % size := by
        rw [← Nat.mod_eq_sub_mod (by omega)]
      have hiff : i - size < n * size ↔ i < n * size + size := by omega
      simp only [hx i (by omega), h, hi, hmod, hiff, decide_true, decide_false, Bool.not_false,
        Bool.true_and, Bool.or_false]

end BitPattern
