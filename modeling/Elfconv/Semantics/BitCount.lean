/-
Elfconv/Semantics/BitCount.lean

The bit count of `CNT`, which counts in all bytes of a word at once.

The additions and the subtraction are taken on the whole vector as one number.  They stay within the
bytes, so that each step is a step on every byte.  The three masks are constants of 64 bits, which
are zero in the upper half of a vector of 16 bytes: there the counts are lost.
-/
import Elfconv.Semantics.LaneOps

namespace Elfconv.AArch64

open Lanes

variable {n : ℕ}

/-- `MAKE_CNT`, where `n` is the number of bytes. -/
def CNT_SIMD (src : Vec n 8) : Option (Vec n 8) :=
  let d0 := src.bits
  let cnt : BitVec (n * 8) := d0 - (d0 >>> 1 &&& (0x5555555555555555#64).setWidth _)
  let cnt := (cnt &&& (0x3333333333333333#64).setWidth _) +
    (cnt >>> 2 &&& (0x3333333333333333#64).setWidth _)
  let cnt := (cnt + cnt >>> 4) &&& (0x0f0f0f0f0f0f0f0f#64).setWidth _
  forLoop 0 n 1
    (fun i res => Vec.set res i ((cnt >>> (i * 8) &&& (0xff#32).setWidth (n * 8)).setWidth 8))
      (zeros n 8)

/-! ### Masks -/

/-- A byte in the eight lowest lanes. -/
def lowBytes (n : ℕ) (c : BitVec 8) : Vec n 8 := fun i => if i.val < 8 then c else 0#8

theorem lowBytes_cases (c : BitVec 8) (i : Fin n) :
    lowBytes n c i = c ∧ i.val < 8 ∨ lowBytes n c i = 0#8 ∧ 8 ≤ i.val := by
  by_cases h : i.val < 8
  · exact Or.inl ⟨if_pos h, h⟩
  · exact Or.inr ⟨if_neg h, Nat.le_of_not_lt h⟩

/-- A constant of 64 bits as a mask on a vector. -/
theorem setWidth_const (n : ℕ) (c : BitVec 8) :
    (Vec.bits (fun _ : Fin 8 => c)).setWidth (n * 8) = (lowBytes n c).bits := by
  apply Vec.ext_lanes
  intro i j hj
  rw [Vec.getLsbD_bits _ i hj, BitVec.getLsbD_setWidth, decide_eq_true (Vec.lane_lt i hj),
    Bool.true_and]
  rcases lowBytes_cases c i with ⟨hc, hi⟩ | ⟨hc, hi⟩
  · rw [hc]
    exact Vec.getLsbD_bits (fun _ => c) ⟨i, hi⟩ hj
  · rw [hc, BitVec.getLsbD_zero]
    exact BitVec.getLsbD_of_ge _ _ (by omega)

/-- A mask that keeps nothing of what a shift brings in from the lane above. -/
theorem bits_ushiftRight_and {w : ℕ} (a m : Vec n w) {s : ℕ} (hs : s ≤ w)
    (hm : ∀ i, ∀ x : BitVec w, x <<< (w - s) &&& m i = 0#w) :
    a.bits >>> s &&& m.bits = Vec.bits fun i => a i >>> s &&& m i := by
  rw [Vec.bits_ushiftRight a hs, ← Vec.bits_and]
  apply congrArg Vec.bits
  funext i
  rw [BitVec.and_or_distrib_right, hm, BitVec.or_zero]

/-! ### The steps on one byte -/

/-- The bits of each pair are counted by a subtraction. -/
def pairCounts (m a : BitVec 8) : BitVec 8 := a - (a >>> 1 &&& m)

/-- Two pairs are added. -/
def nibbleCounts (m c : BitVec 8) : BitVec 8 := (c &&& m) + (c >>> 2 &&& m)

/-- Two nibbles are added. -/
def byteCount (m c : BitVec 8) : BitVec 8 := c + c >>> 4 &&& m

theorem byteCount_eq : ∀ a,
    byteCount 0x0f#8 (nibbleCounts 0x33#8 (pairCounts 0x55#8 a)) = a.cpop := by
  decide +kernel

/-- Both halves of a byte are at most 4. -/
def Small (c : BitVec 8) : Prop := c.toNat ≤ 68 ∧ (c <<< 4).toNat ≤ 64

instance (c : BitVec 8) : Decidable (Small c) := inferInstanceAs (Decidable (_ ∧ _))

theorem small_nibbleCounts : ∀ a, Small (nibbleCounts 0x33#8 (pairCounts 0x55#8 a)) := by
  decide +kernel

/-- What the byte above brings in is above the count. -/
theorem byteCount_or (c x : BitVec 8) :
    c + (c >>> 4 ||| x <<< 4) &&& 0x0f#8 = byteCount 0x0f#8 c := by
  have hlow : ∀ y : BitVec 8, y &&& 0x0f#8 = (y.setWidth 4).setWidth 8 := by decide
  have hx : (x <<< 4).setWidth 4 = 0#4 :=
    (by decide : ∀ x : BitVec 8, (x <<< 4).setWidth 4 = 0#4) x
  rw [byteCount, hlow, hlow, BitVec.setWidth_add _ _ (by decide), BitVec.setWidth_or, hx,
    BitVec.or_zero, ← BitVec.setWidth_add _ _ (by decide)]

/-! ### The steps on the whole word -/

variable (v : Vec n 8)

theorem bits_pairCounts :
    v.bits - (v.bits >>> 1 &&& (0x5555555555555555#64).setWidth _) =
      Vec.bits fun i => pairCounts (lowBytes n 0x55#8 i) (v i) := by
  have hmask : (0x5555555555555555#64).setWidth (n * 8) = (lowBytes n 0x55#8).bits :=
    setWidth_const n 0x55#8
  rw [hmask, bits_ushiftRight_and v _ (by decide), ← Vec.bits_sub]
  · rfl
  · intro i
    rcases lowBytes_cases 0x55#8 i with ⟨h, -⟩ | ⟨h, -⟩ <;> rw [h]
    · exact (by decide : ∀ a : BitVec 8, a >>> 1 &&& 0x55#8 ≤ a) (v i)
    · rw [BitVec.and_zero]
      exact Nat.zero_le _
  · intro i x
    rcases lowBytes_cases 0x55#8 i with ⟨h, -⟩ | ⟨h, -⟩ <;> rw [h]
    · exact (by decide : ∀ x : BitVec 8, x <<< (8 - 1) &&& 0x55#8 = 0#8) x
    · exact BitVec.and_zero

theorem bits_nibbleCounts :
    (v.bits &&& (0x3333333333333333#64).setWidth _) +
        (v.bits >>> 2 &&& (0x3333333333333333#64).setWidth _) =
      Vec.bits fun i => nibbleCounts (lowBytes n 0x33#8 i) (v i) := by
  have hmask : (0x3333333333333333#64).setWidth (n * 8) = (lowBytes n 0x33#8).bits :=
    setWidth_const n 0x33#8
  rw [hmask, bits_ushiftRight_and v _ (by decide), ← Vec.bits_and, ← Vec.bits_add]
  · rfl
  · intro i
    rcases lowBytes_cases 0x33#8 i with ⟨h, -⟩ | ⟨h, -⟩ <;> rw [h]
    · exact (by decide : ∀ a : BitVec 8,
        (a &&& 0x33#8).toNat + (a >>> 2 &&& 0x33#8).toNat < 2 ^ 8) (v i)
    · rw [BitVec.and_zero, BitVec.and_zero]
      decide
  · intro i x
    rcases lowBytes_cases 0x33#8 i with ⟨h, -⟩ | ⟨h, -⟩ <;> rw [h]
    · exact (by decide : ∀ x : BitVec 8, x <<< (8 - 2) &&& 0x33#8 = 0#8) x
    · exact BitVec.and_zero

/-- Here the mask comes after the sum, which needs the bytes to be small. -/
theorem bits_byteCount (hv : ∀ i, Small (v i)) :
    (v.bits + v.bits >>> 4) &&& (0x0f0f0f0f0f0f0f0f#64).setWidth _ =
      Vec.bits fun i => byteCount (lowBytes n 0x0f#8 i) (v i) := by
  have hmask : (0x0f0f0f0f0f0f0f0f#64).setWidth (n * 8) = (lowBytes n 0x0f#8).bits :=
    setWidth_const n 0x0f#8
  have hnext : ∀ i, Small (Vec.next v i) := by
    intro i
    unfold Vec.next
    by_cases hi : i.val + 1 < n
    · rw [Vec.get_of_lt v hi]
      exact hv _
    · rw [Vec.get_of_le v (by omega)]
      exact (by decide : Small 0#8)
  -- no sum of two nibbles carries into the next byte
  have hcarry : ∀ i, (v i >>> 4 ||| Vec.next v i <<< (8 - 4)).toNat < 2 ^ 7 := by
    intro i
    rw [BitVec.toNat_or]
    apply Nat.or_lt_two_pow
    · rw [BitVec.toNat_ushiftRight, Nat.shiftRight_eq_div_pow]
      exact (Nat.div_le_self _ _).trans_lt ((hv i).1.trans_lt (by decide))
    · exact (hnext i).2.trans_lt (by decide)
  rw [hmask, Vec.bits_ushiftRight v (by decide : 4 ≤ 8), ← Vec.bits_add, ← Vec.bits_and]
  · apply congrArg Vec.bits
    funext i
    rcases lowBytes_cases 0x0f#8 i with ⟨h, -⟩ | ⟨h, -⟩ <;> rw [h]
    · exact byteCount_or (v i) (Vec.next v i)
    · rw [BitVec.and_zero, byteCount, BitVec.and_zero]
  · intro i
    have hsmall := (hv i).1
    have hlt := hcarry i
    omega

theorem byte_bits (k : Fin n) :
    (v.bits >>> (k.val * 8) &&& (0xff#32).setWidth (n * 8)).setWidth 8 = v k := by
  apply BitVec.eq_of_getLsbD_eq
  intro j hj
  have hplace : k.val * 8 + j = 8 * k + j := by rw [mul_comm]
  have hmask : (0xff#32).getLsbD j = true :=
    (by decide : ∀ j < 8, (0xff#32).getLsbD j = true) j hj
  have hwidth : j < n * 8 := (Nat.le_add_left j (8 * k)).trans_lt (Vec.lane_lt k hj)
  rw [BitVec.getLsbD_setWidth, decide_eq_true hj, Bool.true_and, BitVec.getLsbD_and,
    BitVec.getLsbD_ushiftRight, hplace, Vec.getLsbD_bits v k hj, BitVec.getLsbD_setWidth, hmask,
    decide_eq_true hwidth, Bool.true_and, Bool.and_true]

/-- The count of each of the eight low bytes, and nothing for those above. -/
theorem CNT_SIMD_eq : CNT_SIMD v = some fun i => if i.val < 8 then (v i).cpop else 0#8 := by
  let counts : Vec n 8 := fun i => byteCount (lowBytes n 0x0f#8 i)
    (nibbleCounts (lowBytes n 0x33#8 i) (pairCounts (lowBytes n 0x55#8 i) (v i)))
  have hsmall : ∀ i : Fin n,
      Small (nibbleCounts (lowBytes n 0x33#8 i) (pairCounts (lowBytes n 0x55#8 i) (v i))) := by
    intro i
    -- the masks have 64 bits, so they clear the bytes above the eighth
    by_cases hi : i.val < 8
    · simp only [lowBytes, if_pos hi]
      exact small_nibbleCounts (v i)
    · simp only [lowBytes, if_neg hi, nibbleCounts, BitVec.and_zero]
      decide
  have hcounts : counts = fun i : Fin n => if i.val < 8 then (v i).cpop else 0#8 := by
    funext i
    by_cases hi : i.val < 8
    · simp only [counts, lowBytes, if_pos hi]
      exact byteCount_eq (v i)
    · simp only [counts, lowBytes, if_neg hi]
      exact BitVec.and_zero
  unfold CNT_SIMD
  simp only [bits_pairCounts, bits_nibbleCounts, bits_byteCount _ hsmall]
  rw [← hcounts]
  show forLoop 0 n 1 (fun i res => Vec.assign res i (some _)) _ = _
  apply forLoop_fill (Nat.sub_zero n) counts _ fun k _ => Nat.zero_add k
  intro k
  rw [Nat.zero_add]
  exact congrArg some (byte_bits counts k)

end Elfconv.AArch64
