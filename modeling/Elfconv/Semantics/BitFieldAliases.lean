/-
Elfconv/Semantics/BitFieldAliases.lean

What the bit-field moves are used for: shifts by an immediate, extraction and insertion of a field.

With `immr` not above `imms` the field is taken from `immr` on and put at the bottom; else the low
bits are put further up.  The masks are read off in the two cases, and the aliases from them: first
what the architecture says, then what decoder, lifter and semantics function come to.
-/
import Elfconv.Semantics.BitField

namespace Elfconv.AArch64

open BitPattern CInt

/-- The fields of a bit-field move that is not reserved. -/
def bitFieldOf (f : Form) (immr imms : ℕ) : MaskFields :=
  ⟨match f with | .W => 0#1 | .X => 1#1, BitVec.ofNat 6 immr, BitVec.ofNat 6 imms⟩

section

variable {f : Form} {R S : ℕ} (hR : R < f.size) (hS : S < f.size)

theorem toNat_ofNat_field {n : ℕ} (h : n < f.size) : (BitVec.ofNat 6 n).toNat = n := by
  have hle : f.size ≤ 2 ^ 6 := by cases f <;> decide
  exact Nat.mod_eq_of_lt (h.trans_le hle)

include hS in
theorem esize_bitFieldOf : (bitFieldOf f R S).esize = f.size := by
  cases f with
  | W =>
    have hlog : ∀ imms : BitVec 6, imms.toNat < 32 → Nat.log2 (0#1 ++ ~~~imms).toNat = 5 := by
      decide +kernel
    have hlen : (bitFieldOf .W R S).len = 5 := hlog _ ((toNat_ofNat_field hS).trans_lt hS)
    rw [MaskFields.esize, hlen]
    rfl
  | X =>
    have hlen : (bitFieldOf .X R S).len = 6 := (len_eq_six_iff _).mpr rfl
    rw [MaskFields.esize, hlen]
    rfl

include hS in
theorem S_bitFieldOf : (bitFieldOf f R S).S = S := by
  rw [MaskFields.S, esize_bitFieldOf hS]
  show (BitVec.ofNat 6 S).toNat % f.size = S
  rw [toNat_ofNat_field hS, Nat.mod_eq_of_lt hS]

include hR hS in
theorem R_bitFieldOf : (bitFieldOf f R S).R = R := by
  rw [MaskFields.R, esize_bitFieldOf hS]
  show (BitVec.ofNat 6 R).toNat % f.size = R
  rw [toNat_ofNat_field hR, Nat.mod_eq_of_lt hR]

include hR hS

theorem not_reserved_bitFieldOf {i : MaskInst} (hi : i = .UBFM ∨ i = .SBFM ∨ i = .BFM) :
    Arm.reserved f (bitFieldOf f R S) i = false := by
  have hres : ¬ (bitFieldOf f R S).Reserved f.size false := by
    have hesize := esize_bitFieldOf (R := R) hS
    rintro (h | h | h)
    · rw [MaskFields.esize, Nat.lt_one_iff.mp h] at hesize
      cases f <;> cases hesize
    · rw [hesize] at h
      exact lt_irrefl _ h
    · exact absurd h.1 Bool.false_ne_true
  have hlow : ∀ x : BitVec 6, x.toNat < 32 → x.getLsbD 5 = false := by decide
  have hfields : rejectsBitField f (bitFieldOf f R S) = false := by
    rw [rejectsBitField_eq]
    cases f with
    | W =>
      show (0#1 != 0#1 || ((BitVec.ofNat 6 R).getLsbD 5 || (BitVec.ofNat 6 S).getLsbD 5)) = false
      rw [hlow _ ((toNat_ofNat_field hR).trans_lt hR), hlow _ ((toNat_ofNat_field hS).trans_lt hS)]
      rfl
    | X => rfl
  rw [reserved_bitField hi, hfields, decide_eq_false hres]
  rfl

theorem diff_of_le (h : R ≤ S) : (bitFieldOf f R S).diff = S - R := by
  rw [MaskFields.diff, S_bitFieldOf hS, R_bitFieldOf hR hS, esize_bitFieldOf hS,
    Int.emod_eq_of_lt (by omega) (by omega)]
  omega

theorem diff_of_lt (h : S < R) : (bitFieldOf f R S).diff = f.size - R + S := by
  rw [MaskFields.diff, S_bitFieldOf hS, R_bitFieldOf hR hS, esize_bitFieldOf hS,
    ← Int.add_emod_right, Int.emod_eq_of_lt (by omega) (by omega)]
  omega

omit hR in
theorem getLsbD_tmask_of {i : ℕ} (hi : i < f.size) :
    ((bitFieldOf f R S).tmask f.size).getLsbD i = decide (i ≤ (bitFieldOf f R S).diff) := by
  have hesize := esize_bitFieldOf (R := R) hS
  rw [MaskFields.getLsbD_tmask _ (dvd_of_eq hesize), hesize, Nat.mod_eq_of_lt hi,
    decide_eq_true hi, Bool.true_and]

theorem getLsbD_wmask_of {i : ℕ} (hi : i < f.size) :
    ((bitFieldOf f R S).wmask f.size).getLsbD i = decide ((i + R) % f.size ≤ S) := by
  have hesize := esize_bitFieldOf (R := R) hS
  rw [MaskFields.getLsbD_wmask _ (dvd_of_eq hesize), hesize, Nat.mod_eq_of_lt hi,
    decide_eq_true hi, Bool.true_and, S_bitFieldOf hS, R_bitFieldOf hR hS]

/-- A bit of the rotated source, where both masks have it. -/
theorem getLsbD_moved (src : BitVec f.size) {i : ℕ} (hi : i < f.size) :
    (src.rotateRight R &&& (bitFieldOf f R S).wmask f.size &&&
        (bitFieldOf f R S).tmask f.size).getLsbD i =
      if R ≤ S then decide (i ≤ S - R) && src.getLsbD (R + i)
      else decide (f.size - R ≤ i ∧ i ≤ f.size - R + S) && src.getLsbD (i - (f.size - R)) := by
  rw [BitVec.getLsbD_and, BitVec.getLsbD_and, getLsbD_rotateRight_mod _ _ hi,
    getLsbD_tmask_of hS hi, getLsbD_wmask_of hR hS hi]
  -- a field that is moved down, or one that is moved up past the rotation
  by_cases h : R ≤ S
  · rw [if_pos h, diff_of_le hR hS h]
    by_cases hlow : i ≤ S - R
    · have hmod : (i + R) % f.size = R + i := by rw [Nat.mod_eq_of_lt (by omega), Nat.add_comm]
      rw [hmod, decide_eq_true hlow, decide_eq_true (by omega), Bool.and_true, Bool.and_true,
        Bool.true_and]
    · rw [decide_eq_false hlow, Bool.and_false, Bool.false_and]
  · rw [if_neg h, diff_of_lt hR hS (by omega)]
    by_cases hup : f.size - R ≤ i
    · have hmod : (i + R) % f.size = i - (f.size - R) := by
        rw [Nat.mod_eq_sub_mod (by omega), Nat.mod_eq_of_lt (by omega)]
        omega
      rw [hmod]
      by_cases hin : i ≤ f.size - R + S
      · rw [decide_eq_true hin, decide_eq_true (by omega), decide_eq_true ⟨hup, hin⟩,
          Bool.and_true, Bool.and_true, Bool.true_and]
      · rw [decide_eq_false hin, Bool.and_false, decide_eq_false (fun hc => hin hc.2),
          Bool.false_and]
    · have hmod : (i + R) % f.size = i + R := Nat.mod_eq_of_lt (by omega)
      rw [hmod, decide_eq_false (by omega : ¬ i + R ≤ S), Bool.and_false, Bool.false_and,
        decide_eq_false (fun hc => hup hc.1), Bool.false_and]

/-! ### The three moves -/

variable (rd rn : BitVec f.size) {i : ℕ} (hi : i < f.size)
include hi

theorem getLsbD_UBFM :
    (Arm.result f (bitFieldOf f R S) rd rn .UBFM).value.getLsbD i =
      if R ≤ S then decide (i ≤ S - R) && rn.getLsbD (R + i)
      else decide (f.size - R ≤ i ∧ i ≤ f.size - R + S) && rn.getLsbD (i - (f.size - R)) := by
  show (rn.rotateRight (BitVec.ofNat 6 R).toNat &&& (bitFieldOf f R S).wmask f.size &&&
    (bitFieldOf f R S).tmask f.size).getLsbD i = _
  rw [toNat_ofNat_field hR, getLsbD_moved hR hS rn hi]

/-- Above the field stands its sign. -/
theorem getLsbD_SBFM :
    (Arm.result f (bitFieldOf f R S) rd rn .SBFM).value.getLsbD i =
      if R ≤ S then (if i ≤ S - R then rn.getLsbD (R + i) else rn.getLsbD S)
      else if i ≤ f.size - R + S then
        decide (f.size - R ≤ i) && rn.getLsbD (i - (f.size - R))
      else rn.getLsbD S := by
  show ((if rn.getLsbD (BitVec.ofNat 6 S).toNat then BitVec.allOnes f.size else 0#f.size) &&&
    ~~~(bitFieldOf f R S).tmask f.size ||| rn.rotateRight (BitVec.ofNat 6 R).toNat &&&
      (bitFieldOf f R S).wmask f.size &&& (bitFieldOf f R S).tmask f.size).getLsbD i = _
  have htop : ∀ b : Bool, (if b then BitVec.allOnes f.size else 0#f.size).getLsbD i = b := by
    intro b
    cases b with
    | true => rw [if_pos rfl, BitVec.getLsbD_allOnes, decide_eq_true hi]
    | false => rw [if_neg Bool.false_ne_true, BitVec.getLsbD_zero]
  rw [BitVec.getLsbD_or, toNat_ofNat_field hR, toNat_ofNat_field hS, getLsbD_moved hR hS rn hi,
    BitVec.getLsbD_and, htop, BitVec.getLsbD_not, decide_eq_true hi, getLsbD_tmask_of hS hi]
  by_cases h : R ≤ S
  · rw [diff_of_le hR hS h, if_pos h, if_pos h]
    by_cases hlow : i ≤ S - R <;> simp [hlow]
  · rw [diff_of_lt hR hS (by omega), if_neg h, if_neg h]
    by_cases hin : i ≤ f.size - R + S <;> simp [hin]

/-- Around the field the destination is kept. -/
theorem getLsbD_BFM :
    (Arm.result f (bitFieldOf f R S) rd rn .BFM).value.getLsbD i =
      if R ≤ S then (if i ≤ S - R then rn.getLsbD (R + i) else rd.getLsbD i)
      else if f.size - R ≤ i ∧ i ≤ f.size - R + S then rn.getLsbD (i - (f.size - R))
      else rd.getLsbD i := by
  have hmoved := getLsbD_moved hR hS rn hi
  rw [BitVec.getLsbD_and, BitVec.getLsbD_and] at hmoved
  show (rd &&& ~~~(bitFieldOf f R S).tmask f.size ||| (rd &&& ~~~(bitFieldOf f R S).wmask f.size |||
    rn.rotateRight (BitVec.ofNat 6 R).toNat &&& (bitFieldOf f R S).wmask f.size) &&&
      (bitFieldOf f R S).tmask f.size).getLsbD i = _
  simp only [BitVec.getLsbD_or, BitVec.getLsbD_and, BitVec.getLsbD_not, decide_eq_true hi,
    Bool.true_and, toNat_ofNat_field hR]
  -- an extract keeps what is above the field, an insert what is on both sides of it
  by_cases h : R ≤ S
  · rw [if_pos h] at hmoved ⊢
    rw [getLsbD_tmask_of hS hi, diff_of_le hR hS h] at hmoved ⊢
    by_cases hlow : i ≤ S - R
    · have hw : ((bitFieldOf f R S).wmask f.size).getLsbD i = true := by
        rw [getLsbD_wmask_of hR hS hi, Nat.mod_eq_of_lt (by omega)]
        exact decide_eq_true (by omega)
      rw [hw] at hmoved ⊢
      rw [if_pos hlow]
      simpa [hlow] using hmoved
    · simp [hlow]
  · rw [if_neg h] at hmoved ⊢
    rw [getLsbD_tmask_of hS hi, diff_of_lt hR hS (by omega)] at hmoved ⊢
    by_cases hin : i ≤ f.size - R + S
    · by_cases hup : f.size - R ≤ i
      · have hw : ((bitFieldOf f R S).wmask f.size).getLsbD i = true := by
          rw [getLsbD_wmask_of hR hS hi, Nat.mod_eq_sub_mod (by omega),
            Nat.mod_eq_of_lt (by omega)]
          exact decide_eq_true (by omega)
        rw [hw] at hmoved ⊢
        rw [if_pos ⟨hup, hin⟩]
        simpa [hup, hin] using hmoved
      · have hw : ((bitFieldOf f R S).wmask f.size).getLsbD i = false := by
          rw [getLsbD_wmask_of hR hS hi, Nat.mod_eq_of_lt (by omega)]
          exact decide_eq_false (by omega)
        rw [hw, if_neg (fun hc => hup hc.1)]
        simp [hin]
    · rw [if_neg (fun hc => hin hc.2)]
      simp [hin]

end

/-! ### The aliases of the architecture -/

section

variable {f : Form} {lsb width : ℕ} (hpos : 0 < width) (hfit : lsb + width ≤ f.size)
  (rd rn : BitVec f.size)
include hpos hfit

/-- `UBFX`, and `UXTB` and `UXTH` from bit 0. -/
theorem result_UBFX : (Arm.result f (bitFieldOf f lsb (lsb + width - 1)) rd rn .UBFM).value =
    (rn.extractLsb' lsb width).setWidth f.size := by
  apply BitVec.eq_of_getLsbD_eq
  intro i hi
  rw [getLsbD_UBFM (by omega) (by omega) rd rn hi, if_pos (by omega), BitVec.getLsbD_setWidth,
    decide_eq_true hi, Bool.true_and, BitVec.getLsbD_extractLsb']
  have hiff : i ≤ lsb + width - 1 - lsb ↔ i < width := by omega
  rw [decide_eq_decide.mpr hiff]

/-- `SBFX`, and `SXTB`, `SXTH` and `SXTW` from bit 0. -/
theorem result_SBFX : (Arm.result f (bitFieldOf f lsb (lsb + width - 1)) rd rn .SBFM).value =
    (rn.extractLsb' lsb width).signExtend f.size := by
  apply BitVec.eq_of_getLsbD_eq
  intro i hi
  have hmsb : (rn.extractLsb' lsb width).msb = rn.getLsbD (lsb + width - 1) := by
    rw [BitVec.msb_eq_getLsbD_last, BitVec.getLsbD_extractLsb', decide_eq_true (by omega),
      Bool.true_and]
    congr 1
    omega
  rw [getLsbD_SBFM (by omega) (by omega) rd rn hi, if_pos (by omega), BitVec.getLsbD_signExtend,
    decide_eq_true hi, Bool.true_and, hmsb, BitVec.getLsbD_extractLsb']
  by_cases hlow : i < width
  · rw [if_pos (by omega), if_pos hlow, decide_eq_true hlow, Bool.true_and]
  · rw [if_neg (by omega), if_neg hlow]

/-- `BFXIL` -/
theorem result_BFXIL {i : ℕ} (hi : i < f.size) :
    (Arm.result f (bitFieldOf f lsb (lsb + width - 1)) rd rn .BFM).value.getLsbD i =
      if i < width then rn.getLsbD (lsb + i) else rd.getLsbD i := by
  rw [getLsbD_BFM (by omega) (by omega) rd rn hi, if_pos (by omega)]
  by_cases hlow : i < width
  · rw [if_pos (by omega), if_pos hlow]
  · rw [if_neg (by omega), if_neg hlow]

variable (hlsb : 0 < lsb)
include hlsb

/-- `UBFIZ` -/
theorem result_UBFIZ : (Arm.result f (bitFieldOf f (f.size - lsb) (width - 1)) rd rn .UBFM).value =
    (rn.setWidth width).setWidth f.size <<< lsb := by
  apply BitVec.eq_of_getLsbD_eq
  intro i hi
  rw [getLsbD_UBFM (by omega) (by omega) rd rn hi, if_neg (by omega), BitVec.getLsbD_shiftLeft,
    decide_eq_true hi, Bool.true_and, BitVec.getLsbD_setWidth, BitVec.getLsbD_setWidth,
    decide_eq_true (by omega : i - lsb < f.size), Bool.true_and, Nat.sub_sub_self (by omega)]
  by_cases hup : lsb ≤ i
  · have hiff : (lsb ≤ i ∧ i ≤ lsb + (width - 1)) ↔ i - lsb < width := by omega
    rw [decide_eq_decide.mpr hiff, decide_eq_false (by omega : ¬ i < lsb), Bool.not_false,
      Bool.true_and]
  · rw [decide_eq_false (fun hc => hup hc.1), decide_eq_true (by omega), Bool.false_and]
    rfl

/-- `SBFIZ` -/
theorem result_SBFIZ : (Arm.result f (bitFieldOf f (f.size - lsb) (width - 1)) rd rn .SBFM).value =
    (rn.setWidth width).signExtend f.size <<< lsb := by
  apply BitVec.eq_of_getLsbD_eq
  intro i hi
  have hmsb : (rn.setWidth width).msb = rn.getLsbD (width - 1) := by
    rw [BitVec.msb_eq_getLsbD_last, BitVec.getLsbD_setWidth, decide_eq_true (by omega),
      Bool.true_and]
  rw [getLsbD_SBFM (by omega) (by omega) rd rn hi, if_neg (by omega), BitVec.getLsbD_shiftLeft,
    decide_eq_true hi, Bool.true_and, BitVec.getLsbD_signExtend,
    decide_eq_true (by omega : i - lsb < f.size), Bool.true_and, BitVec.getLsbD_setWidth, hmsb,
    Nat.sub_sub_self (by omega)]
  by_cases hup : lsb ≤ i
  · rw [decide_eq_true hup, decide_eq_false (by omega), Bool.true_and, Bool.not_false,
      Bool.true_and]
    by_cases hin : i - lsb < width
    · rw [if_pos (by omega), if_pos hin, decide_eq_true hin, Bool.true_and]
    · rw [if_neg (by omega), if_neg hin]
  · rw [if_pos (by omega), decide_eq_false hup, decide_eq_true (by omega), Bool.false_and]
    rfl

/-- `BFI` -/
theorem result_BFI {i : ℕ} (hi : i < f.size) :
    (Arm.result f (bitFieldOf f (f.size - lsb) (width - 1)) rd rn .BFM).value.getLsbD i =
      if lsb ≤ i ∧ i < lsb + width then rn.getLsbD (i - lsb) else rd.getLsbD i := by
  rw [getLsbD_BFM (by omega) (by omega) rd rn hi, if_neg (by omega), Nat.sub_sub_self (by omega)]
  by_cases hin : lsb ≤ i ∧ i < lsb + width
  · rw [if_pos (by omega), if_pos hin]
  · rw [if_neg (by omega), if_neg hin]

end

section

variable {f : Form} {s : ℕ} (hs : s < f.size) (rd rn : BitVec f.size)
include hs

theorem result_LSR : (Arm.result f (bitFieldOf f s (f.size - 1)) rd rn .UBFM).value = rn >>> s := by
  have hfield :=
    result_UBFX (by omega : 0 < f.size - s) (by omega : s + (f.size - s) ≤ f.size) rd rn
  rw [Nat.add_sub_cancel' hs.le] at hfield
  rw [hfield]
  apply BitVec.eq_of_getLsbD_eq
  intro i hi
  rw [BitVec.getLsbD_setWidth, BitVec.getLsbD_extractLsb', BitVec.getLsbD_ushiftRight,
    decide_eq_true hi, Bool.true_and]
  by_cases hin : i < f.size - s
  · rw [decide_eq_true hin, Bool.true_and]
  · rw [decide_eq_false hin, Bool.false_and, BitVec.getLsbD_of_ge _ _ (by omega)]

theorem result_ASR : (Arm.result f (bitFieldOf f s (f.size - 1)) rd rn .SBFM).value =
    rn.sshiftRight s := by
  apply BitVec.eq_of_getLsbD_eq
  intro i hi
  rw [getLsbD_SBFM hs (by omega) rd rn hi, if_pos (by omega), BitVec.getLsbD_sshiftRight,
    decide_eq_false (by omega), Bool.not_false, Bool.true_and, BitVec.msb_eq_getLsbD_last]
  by_cases hin : s + i < f.size
  · rw [if_pos (by omega), if_pos hin]
  · rw [if_neg (by omega), if_neg hin]

theorem result_LSL (hpos : 0 < s) :
    (Arm.result f (bitFieldOf f (f.size - s) (f.size - 1 - s)) rd rn .UBFM).value = rn <<< s := by
  have hfield := result_UBFIZ (by omega : 0 < f.size - s) (by omega : s + (f.size - s) ≤ f.size) rd
    rn hpos
  rw [show f.size - s - 1 = f.size - 1 - s by omega] at hfield
  rw [hfield]
  apply BitVec.eq_of_getLsbD_eq
  intro i hi
  rw [BitVec.getLsbD_shiftLeft, BitVec.getLsbD_shiftLeft, BitVec.getLsbD_setWidth,
    BitVec.getLsbD_setWidth, decide_eq_true (by omega : i - s < f.size), Bool.true_and]
  by_cases hup : s ≤ i
  · rw [decide_eq_true (by omega : i - s < f.size - s), Bool.true_and]
  · rw [decide_eq_true (by omega : i < s)]
    simp

end

/-! ### The aliases of the lifter -/

section

variable {big : Overshift} (hbig : big 64 0#64 64#64 = some 0#64) {f : Form} (Rd Rn : BitVec 5)
  (R : RegFile)
include hbig

/-- With its fields in range a bit-field move is not reserved.  Only `UBFM` is at odds with the zero
register, and not where it starts at bit 0. -/
theorem sem_bitFieldOf {immr imms : ℕ} (himmr : immr < f.size) (himms : imms < f.size)
    {i : MaskInst} (hi : i = .UBFM ∨ i = .SBFM ∨ i = .BFM)
    (hrot : i = .UBFM → Rn ≠ 31#5 ∨ immr = 0) :
    i.sem big f (bitFieldOf f immr imms) Rd Rn R =
      some (some ⟨(Arm.result f (bitFieldOf f immr imms) ((Arm.X R Rd).setWidth f.size)
        ((Arm.X R Rn).setWidth f.size) i).value, none⟩) := by
  have hzero : ¬ i.RotatesZero (bitFieldOf f immr imms) Rn := by
    rintro ⟨hU, hn, hne⟩
    rcases hrot hU with hn' | rfl
    · exact hn' hn
    · exact hne rfl
  have hres := not_reserved_bitFieldOf himmr himms hi
  rw [sem_eq Rd Rn R (masksFollow_of_zero hbig f _), if_neg (Bool.eq_false_iff.mp hres),
    if_neg hzero]
  rcases hi with rfl | rfl | rfl <;> rfl

section

variable {lsb width : ℕ} (hpos : 0 < width) (hfit : lsb + width ≤ f.size)
include hpos hfit

theorem UBFX_sem (hn : Rn ≠ 31#5 ∨ lsb = 0) :
    MaskInst.UBFM.sem big f (bitFieldOf f lsb (lsb + width - 1)) Rd Rn R =
      some (some
        ⟨(((Arm.X R Rn).setWidth f.size).extractLsb' lsb width).setWidth f.size, none⟩) := by
  rw [sem_bitFieldOf hbig Rd Rn R (by omega) (by omega) (.inl rfl) fun _ => hn,
    result_UBFX hpos hfit]

theorem SBFX_sem :
    MaskInst.SBFM.sem big f (bitFieldOf f lsb (lsb + width - 1)) Rd Rn R =
      some (some ⟨(((Arm.X R Rn).setWidth f.size).extractLsb' lsb width).signExtend f.size,
        none⟩) := by
  rw [sem_bitFieldOf hbig Rd Rn R (by omega) (by omega) (.inr (.inl rfl)) (nomatch ·),
    result_SBFX hpos hfit]

theorem BFXIL_sem :
    ∃ v, MaskInst.BFM.sem big f (bitFieldOf f lsb (lsb + width - 1)) Rd Rn R =
        some (some ⟨v, none⟩) ∧
      ∀ i < f.size, v.getLsbD i =
        if i < width then ((Arm.X R Rn).setWidth f.size).getLsbD (lsb + i)
        else ((Arm.X R Rd).setWidth f.size).getLsbD i :=
  ⟨_, sem_bitFieldOf hbig Rd Rn R (by omega) (by omega) (.inr (.inr rfl)) (nomatch ·),
    fun _ hi => result_BFXIL hpos hfit _ _ hi⟩

variable (hlsb : 0 < lsb)
include hlsb

theorem UBFIZ_sem (hn : Rn ≠ 31#5) :
    MaskInst.UBFM.sem big f (bitFieldOf f (f.size - lsb) (width - 1)) Rd Rn R =
      some (some ⟨(((Arm.X R Rn).setWidth f.size).setWidth width).setWidth f.size <<< lsb,
        none⟩) := by
  rw [sem_bitFieldOf hbig Rd Rn R (by omega) (by omega) (.inl rfl) fun _ => .inl hn,
    result_UBFIZ hpos hfit _ _ hlsb]

theorem SBFIZ_sem :
    MaskInst.SBFM.sem big f (bitFieldOf f (f.size - lsb) (width - 1)) Rd Rn R =
      some (some ⟨(((Arm.X R Rn).setWidth f.size).setWidth width).signExtend f.size <<< lsb,
        none⟩) := by
  rw [sem_bitFieldOf hbig Rd Rn R (by omega) (by omega) (.inr (.inl rfl)) (nomatch ·),
    result_SBFIZ hpos hfit _ _ hlsb]

theorem BFI_sem :
    ∃ v, MaskInst.BFM.sem big f (bitFieldOf f (f.size - lsb) (width - 1)) Rd Rn R =
        some (some ⟨v, none⟩) ∧
      ∀ i < f.size, v.getLsbD i =
        if lsb ≤ i ∧ i < lsb + width then ((Arm.X R Rn).setWidth f.size).getLsbD (i - lsb)
        else ((Arm.X R Rd).setWidth f.size).getLsbD i :=
  ⟨_, sem_bitFieldOf hbig Rd Rn R (by omega) (by omega) (.inr (.inr rfl)) (nomatch ·),
    fun _ hi => result_BFI hpos hfit _ _ hlsb hi⟩

end

variable {s : ℕ} (hs : s < f.size)
include hs

theorem LSR_sem (hn : Rn ≠ 31#5 ∨ s = 0) :
    MaskInst.UBFM.sem big f (bitFieldOf f s (f.size - 1)) Rd Rn R =
      some (some ⟨(Arm.X R Rn).setWidth f.size >>> s, none⟩) := by
  rw [sem_bitFieldOf hbig Rd Rn R hs (by omega) (.inl rfl) fun _ => hn, result_LSR hs]

theorem ASR_sem :
    MaskInst.SBFM.sem big f (bitFieldOf f s (f.size - 1)) Rd Rn R =
      some (some ⟨((Arm.X R Rn).setWidth f.size).sshiftRight s, none⟩) := by
  rw [sem_bitFieldOf hbig Rd Rn R hs (by omega) (.inr (.inl rfl)) (nomatch ·),
    result_ASR hs]

theorem LSL_sem (hpos : 0 < s) (hn : Rn ≠ 31#5) :
    MaskInst.UBFM.sem big f (bitFieldOf f (f.size - s) (f.size - 1 - s)) Rd Rn R =
      some (some ⟨(Arm.X R Rn).setWidth f.size <<< s, none⟩) := by
  rw [sem_bitFieldOf hbig Rd Rn R (by omega) (by omega) (.inl rfl) fun _ => .inl hn,
    result_LSL hs _ _ hpos]

end

end Elfconv.AArch64
