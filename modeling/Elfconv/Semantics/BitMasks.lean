/-
Elfconv/Semantics/BitMasks.lean

The masks of bit-field moves and of logical immediates.

`DecodeBitMasks` makes an element of a run of ones, rotated for `wmask`, and copies of it to the
width of the data.  The loops are those of `Elfconv/Lib/BitPattern.lean`.  Where the element is a
whole word of 64 bits, `Replicate` shifts a zero by 64, which C++ does not define: what is left of
that shift is put into both masks.
-/
import Elfconv.Lib.BitPattern
import Elfconv.Semantics.Integer

namespace Elfconv.AArch64

open CInt BitPattern

/-! ### The decoder -/

/-- `63 - __builtin_clzll(val)` -/
def MostSignificantSetBit (val : BitVec 64) : Option (BitVec 64) :=
  if val ≠ 0#64 then some (63#64 - val.clz) else none

/-- `1ULL` -/
def kOne : BitVec 64 := 1#64

/-- `Ones`: as many ones as the number says, one more in every turn of the loop. -/
def Ones (val : BitVec 64) : BitVec 64 :=
  (fun out : BitVec 64 => out <<< 1 ||| kOne)^[val.toNat] 0#64

/-- `ROR`: one place to the right in every turn of the loop. -/
def ROR (val val_size rotate_amount : BitVec 64) : BitVec 64 :=
  (fun val : BitVec 64 => (val &&& kOne) <<< (val_size - kOne).toNat ||| val >>> 1)^[
    rotate_amount.toNat] val

/-- The loop runs while `i` is below `goal_size`, in steps of `val_size`. -/
def Replicate (big : Overshift) (val val_size goal_size : BitVec 64) : Option (BitVec 64) :=
  (List.range ((goal_size.toNat + val_size.toNat - 1) / val_size.toNat)).foldlM
    (fun replicated_val _ => do return (← shlBy big replicated_val val_size) ||| val) 0#64

/-- Nothing where the shift of `Replicate` leaves the result undefined; else the masks, or that the
combination is rejected. -/
def DecodeBitMasks (big : Overshift) (N imms immr : BitVec 64) (is_immediate : Bool)
    (data_size : BitVec 64) : Option (Option (BitVec 64 × BitVec 64)) := do
  let some len := MostSignificantSetBit (N <<< 6 ||| (~~~imms &&& 0x3f#64)) | return none
  if len < 1#64 then
    return none
  let esize := kOne <<< len.toNat
  if esize > data_size then
    return none
  let levels := Ones len
  let R := immr &&& levels
  let S := imms &&& levels
  -- an immediate of all ones is reserved
  if is_immediate && S == levels then
    return none
  let diff := (S - R) &&& 0x3F#64
  let d := diff &&& levels
  let welem := Ones (S + kOne)
  let telem := Ones (d + kOne)
  -- `wmask` is rotated by `R`, `tmask` is not
  let wmask ← Replicate big (ROR welem esize R) esize data_size
  let tmask ← Replicate big telem esize data_size
  return some (wmask, tmask)

/-! ### The masks of the architecture -/

/-- The fields that the masks are made from. -/
structure MaskFields where
  N : BitVec 1
  immr : BitVec 6
  imms : BitVec 6

namespace MaskFields

variable (d : MaskFields)

/-- `HighestSetBit(N:NOT(imms))` -/
def len : ℕ := Nat.log2 (d.N ++ ~~~d.imms).toNat

/-- The bits of the element that is repeated. -/
def esize : ℕ := 2 ^ d.len

/-- The ones of the element but one. -/
def S : ℕ := d.imms.toNat % d.esize

/-- The rotation of the element. -/
def R : ℕ := d.immr.toNat % d.esize

/-- The low bits of `S - R`. -/
def diff : ℕ := (((d.S : ℤ) - d.R) % d.esize).toNat

/-- The element of the write mask, before it is rotated. -/
def welem : BitVec d.esize := (BitVec.allOnes (d.S + 1)).setWidth d.esize

/-- The element of the top mask. -/
def telem : BitVec d.esize := (BitVec.allOnes (d.diff + 1)).setWidth d.esize

/-- The write mask. -/
def wmask (M : ℕ) : BitVec M := ((d.welem.rotateRight d.R).replicate (M / d.esize)).setWidth M

/-- The top mask. -/
def tmask (M : ℕ) : BitVec M := (d.telem.replicate (M / d.esize)).setWidth M

/-- The combinations that the architecture reserves at a width. -/
def Reserved (M : ℕ) (immediate : Bool) : Prop :=
  d.len < 1 ∨ M < d.esize ∨ (immediate = true ∧ d.S + 1 = d.esize)

instance (M : ℕ) (immediate : Bool) : Decidable (d.Reserved M immediate) :=
  inferInstanceAs (Decidable (_ ∨ _ ∨ _))

end MaskFields

/-! ### The loops -/

theorem getLsbD_Ones (val : BitVec 64) {i : ℕ} (hi : i < 64) :
    (Ones val).getLsbD i = decide (i < val.toNat) :=
  getLsbD_iterate_pushOne val.toNat hi

theorem Ones_eq (val : BitVec 64) : Ones val = BitVec.ofNat 64 (2 ^ val.toNat - 1) := by
  apply BitVec.eq_of_getLsbD_eq
  intro i hi
  rw [getLsbD_Ones val hi, BitVec.getLsbD_ofNat, Nat.testBit_two_pow_sub_one, decide_eq_true hi,
    Bool.true_and]

theorem getLsbD_ROR {val val_size : BitVec 64} (rotate_amount : BitVec 64)
    (hpos : 0 < val_size.toNat) (hsize : val_size.toNat ≤ 64) (hval : Within val_size.toNat val)
    (i : ℕ) : (ROR val val_size rotate_amount).getLsbD i =
      (decide (i < val_size.toNat) &&
        val.getLsbD ((i + rotate_amount.toNat) % val_size.toNat)) := by
  have hsub : (val_size - kOne).toNat = val_size.toNat - 1 :=
    BitVec.toNat_sub_of_le (by rw [BitVec.le_def]; exact hpos)
  rw [← getLsbD_iterate_rotateOne hpos hsize _ hval]
  unfold ROR
  rw [hsub]
  rfl

/-- Elements that are smaller than a word are copied as they should be. -/
theorem Replicate_of_lt (big : Overshift) {val val_size goal_size : BitVec 64}
    (hsize : val_size.toNat < 64) :
    Replicate big val val_size goal_size =
      some ((putBelow val_size.toNat val)^[
        (goal_size.toNat + val_size.toNat - 1) / val_size.toNat] 0#64) := by
  have hstep : ∀ (n : ℕ) (acc : BitVec 64), (List.range n).foldlM
      (fun replicated_val _ => do return (← shlBy big replicated_val val_size) ||| val) acc =
        some ((putBelow val_size.toNat val)^[n] acc) := by
    intro n
    induction n with
    | zero => intro acc; rfl
    | succ n ih =>
      intro acc
      rw [List.range_succ, List.foldlM_append, ih, Function.iterate_succ_apply']
      simp [shlBy, hsize, putBelow]
  exact hstep _ _

/-- A word of 64 bits is copied once, over what a zero shifted by 64 leaves. -/
theorem Replicate_word (big : Overshift) (val : BitVec 64) :
    Replicate big val 64#64 64#64 = (big 64 0#64 64#64).map fun z => z ||| val := by
  have hrange : List.range (((64#64).toNat + (64#64).toNat - 1) / (64#64).toNat) = [0] := by
    decide
  unfold Replicate
  rw [hrange, List.foldlM_cons]
  have hshift : shlBy big 0#64 64#64 = big 64 0#64 64#64 := if_neg (by decide)
  rw [hshift]
  cases big 64 0#64 64#64 <;> rfl

/-! ### The masks bit by bit -/

namespace MaskFields

variable (d : MaskFields)

theorem len_le : d.len ≤ 6 := by
  by_cases h : (d.N ++ ~~~d.imms).toNat = 0
  · rw [len, h]
    decide
  · exact Nat.le_of_lt_succ ((Nat.log2_lt h).mpr (d.N ++ ~~~d.imms).isLt)

theorem esize_pos : 0 < d.esize := Nat.two_pow_pos _

theorem S_lt : d.S < d.esize := Nat.mod_lt _ d.esize_pos

theorem R_lt : d.R < d.esize := Nat.mod_lt _ d.esize_pos

theorem diff_lt : d.diff < d.esize := by
  have hpos : (0 : ℤ) < d.esize := by exact_mod_cast d.esize_pos
  have h₁ := Int.emod_nonneg ((d.S : ℤ) - d.R) hpos.ne'
  have h₂ := Int.emod_lt_of_pos ((d.S : ℤ) - d.R) hpos
  unfold diff
  omega

/-- The element divides the width of the data, where it is not wider. -/
theorem esize_dvd {f : Form} (h : d.esize ≤ f.size) : d.esize ∣ f.size := by
  obtain ⟨n, hn⟩ : ∃ n, f.size = 2 ^ n := by
    cases f
    · exact ⟨5, rfl⟩
    · exact ⟨6, rfl⟩
  rw [hn] at h ⊢
  exact pow_dvd_pow 2 ((Nat.pow_le_pow_iff_right (by decide)).mp h)

theorem getLsbD_wmask {M : ℕ} (hM : d.esize ∣ M) (i : ℕ) : (d.wmask M).getLsbD i =
    (decide (i < M) && decide ((i % d.esize + d.R) % d.esize ≤ d.S)) := by
  have hmod : i % d.esize < d.esize := Nat.mod_lt _ d.esize_pos
  have hrot : (i % d.esize + d.R) % d.esize < d.esize := Nat.mod_lt _ d.esize_pos
  rw [wmask, BitVec.getLsbD_setWidth, BitVec.getLsbD_replicate, Nat.mul_div_cancel' hM,
    getLsbD_rotateRight_mod _ _ hmod, welem, BitVec.getLsbD_setWidth, decide_eq_true hrot,
    BitVec.getLsbD_allOnes]
  simp only [Nat.lt_succ_iff, Bool.true_and, ← Bool.and_assoc, Bool.and_self]

theorem getLsbD_tmask {M : ℕ} (hM : d.esize ∣ M) (i : ℕ) : (d.tmask M).getLsbD i =
    (decide (i < M) && decide (i % d.esize ≤ d.diff)) := by
  have hmod : i % d.esize < d.esize := Nat.mod_lt _ d.esize_pos
  rw [tmask, BitVec.getLsbD_setWidth, BitVec.getLsbD_replicate, Nat.mul_div_cancel' hM, telem,
    BitVec.getLsbD_setWidth, decide_eq_true hmod, BitVec.getLsbD_allOnes]
  simp only [Nat.lt_succ_iff, Bool.true_and, ← Bool.and_assoc, Bool.and_self]

/-! ### The words of the decoder -/

theorem MostSignificantSetBit_eq : ∀ (N : BitVec 1) (imms : BitVec 6),
    MostSignificantSetBit (N.setWidth 64 <<< 6 ||| (~~~(imms.setWidth 64) &&& 0x3f#64)) =
      if (N ++ ~~~imms).toNat = 0 then none
      else some (BitVec.ofNat 64 (Nat.log2 (N ++ ~~~imms).toNat)) := by
  decide +kernel

/-- The word of the length of the element. -/
def lenWord : BitVec 64 := BitVec.ofNat 64 d.len

theorem toNat_lenWord : d.lenWord.toNat = d.len :=
  Nat.mod_eq_of_lt (d.len_le.trans_lt (by decide))

theorem toNat_esizeWord : (kOne <<< d.lenWord.toNat).toNat = d.esize := by
  have hlt : 2 ^ d.len < 2 ^ 64 := Nat.pow_lt_pow_right (by decide) (d.len_le.trans_lt (by decide))
  rw [toNat_lenWord, BitVec.toNat_shiftLeft, Nat.shiftLeft_eq]
  show 1 * 2 ^ d.len % 2 ^ 64 = 2 ^ d.len
  rw [Nat.one_mul, Nat.mod_eq_of_lt hlt]

/-- The low bits of a field. -/
theorem toNat_and_levels (x : BitVec 6) :
    (x.setWidth 64 &&& Ones d.lenWord).toNat = x.toNat % d.esize := by
  have hlt : 2 ^ d.len - 1 < 2 ^ 64 :=
    (Nat.sub_le _ _).trans_lt (Nat.pow_lt_pow_right (by decide) (d.len_le.trans_lt (by decide)))
  rw [BitVec.toNat_and, Ones_eq, toNat_lenWord, BitVec.toNat_ofNat, Nat.mod_eq_of_lt hlt,
    BitVec.toNat_setWidth_of_le (by decide), Nat.and_two_pow_sub_one_eq_mod]
  rfl

theorem toNat_levels : (Ones d.lenWord).toNat = d.esize - 1 := by
  have hlt : 2 ^ d.len - 1 < 2 ^ 64 :=
    (Nat.sub_le _ _).trans_lt (Nat.pow_lt_pow_right (by decide) (d.len_le.trans_lt (by decide)))
  rw [Ones_eq, toNat_lenWord, BitVec.toNat_ofNat, Nat.mod_eq_of_lt hlt]
  rfl

/-- `S` of the decoder. -/
def SWord : BitVec 64 := d.imms.setWidth 64 &&& Ones d.lenWord

/-- `R` of the decoder. -/
def RWord : BitVec 64 := d.immr.setWidth 64 &&& Ones d.lenWord

/-- `d` of the decoder. -/
def dWord : BitVec 64 := ((d.SWord - d.RWord) &&& 0x3F#64) &&& Ones d.lenWord

theorem toNat_SWord : d.SWord.toNat = d.S := d.toNat_and_levels d.imms

theorem toNat_RWord : d.RWord.toNat = d.R := d.toNat_and_levels d.immr

/-- The subtraction of six bits wraps around in the element. -/
theorem toNat_dWord : d.dWord.toNat = d.diff := by
  have hlevels : (Ones d.lenWord).toNat = 2 ^ d.len - 1 := d.toNat_levels
  have hmask : (0x3F#64).toNat = 2 ^ 6 - 1 := rfl
  have hdvd : 2 ^ d.len ∣ 2 ^ 6 := pow_dvd_pow 2 d.len_le
  have hdvd' : 2 ^ d.len ∣ 2 ^ 64 := hdvd.trans (by decide)
  have hand : d.dWord.toNat = (2 ^ 64 - d.R + d.S) % d.esize := by
    rw [dWord, BitVec.toNat_and, BitVec.toNat_and, hlevels, hmask, Nat.and_two_pow_sub_one_eq_mod,
      Nat.and_two_pow_sub_one_eq_mod, BitVec.toNat_sub, toNat_SWord, toNat_RWord,
      Nat.mod_mod_of_dvd _ hdvd, Nat.mod_mod_of_dvd _ hdvd']
    rfl
  have hR : d.R < 2 ^ 64 := d.R_lt.trans_le (Nat.le_of_dvd (by decide) hdvd')
  obtain ⟨q, hq⟩ : d.esize ∣ 2 ^ 64 := hdvd'
  have hcast : ((2 ^ 64 - d.R + d.S : ℕ) : ℤ) = ((d.S : ℤ) - d.R) + d.esize * q := by
    have hq' : ((d.esize * q : ℕ) : ℤ) = 2 ^ 64 := by rw [← hq]; rfl
    push_cast at hq'
    omega
  have hmod : (((2 ^ 64 - d.R + d.S) % d.esize : ℕ) : ℤ) = ((d.S : ℤ) - d.R) % d.esize := by
    rw [Int.natCast_mod, hcast, Int.add_mul_emod_self_left]
  rw [hand, diff, ← hmod, Int.toNat_natCast]

/-- What the loops of the decoder make of the element. -/
theorem copies_eq (big : Overshift) {f : Form} (hM : d.esize ≤ f.size) {elem : BitVec 64}
    (helem : Within d.esize elem) {mask : BitVec f.size}
    (hmask : ∀ i, mask.getLsbD i = (decide (i < f.size) && elem.getLsbD (i % d.esize))) :
    Replicate big elem (kOne <<< d.lenWord.toNat) (BitVec.ofNat 64 f.size) =
      if d.esize < 64 then some (mask.setWidth 64)
      else (big 64 0#64 64#64).map fun z => z ||| mask.setWidth 64 := by
  have hsize := d.toNat_esizeWord
  have hfsize : (BitVec.ofNat 64 f.size).toNat = f.size := by cases f <;> rfl
  have hle : f.size ≤ 64 := by cases f <;> decide
  have hpos := d.esize_pos
  -- an element of the whole word makes the loop shift by 64
  by_cases hlt : d.esize < 64
  · have hcount : (f.size + d.esize - 1) / d.esize * d.esize = f.size := by
      obtain ⟨n, hn⟩ := d.esize_dvd hM
      have hdiv : (f.size + d.esize - 1) / d.esize = n := by
        rw [hn, Nat.add_sub_assoc hpos, Nat.mul_add_div hpos, Nat.div_eq_of_lt (by omega),
          Nat.add_zero]
      rw [hdiv, hn, Nat.mul_comm]
    rw [if_pos hlt, Replicate_of_lt big (by rw [hsize]; exact hlt), hsize, hfsize]
    apply congrArg some
    apply BitVec.eq_of_getLsbD_eq
    intro i hi
    rw [getLsbD_iterate_putBelow helem _ hi, hcount, BitVec.getLsbD_setWidth, decide_eq_true hi,
      Bool.true_and, hmask]
  · have hesize : d.esize = 64 := by omega
    have hword : kOne <<< d.lenWord.toNat = 64#64 :=
      BitVec.eq_of_toNat_eq (hsize.trans hesize)
    have hf : f.size = 64 := by omega
    have helem' : mask.setWidth 64 = elem := by
      apply BitVec.eq_of_getLsbD_eq
      intro i hi
      rw [BitVec.getLsbD_setWidth, hmask, hesize, Nat.mod_eq_of_lt hi, hf, decide_eq_true hi,
        Bool.true_and, Bool.true_and]
    rw [if_neg hlt, hword, helem', hf]
    exact Replicate_word big elem

theorem within_Ones {val : BitVec 64} (hval : val.toNat ≤ d.esize) : Within d.esize (Ones val) := by
  intro i hi
  by_cases h64 : i < 64
  · rw [getLsbD_Ones val h64, decide_eq_false (by omega)]
  · exact BitVec.getLsbD_of_ge _ _ (by omega)

theorem toNat_add_kOne {x : BitVec 64} (h : x.toNat < d.esize) :
    (x + kOne).toNat = x.toNat + 1 := by
  have hle : d.esize ≤ 2 ^ 6 := Nat.pow_le_pow_right (by decide) d.len_le
  rw [BitVec.toNat_add]
  exact Nat.mod_eq_of_lt (by show x.toNat + 1 < 2 ^ 64; omega)

/-- The tests of the decoder, and its loops after them. -/
theorem DecodeBitMasks_eq_loops (big : Overshift) (f : Form) (immediate : Bool) :
    DecodeBitMasks big (d.N.setWidth 64) (d.imms.setWidth 64) (d.immr.setWidth 64) immediate
        (BitVec.ofNat 64 f.size) =
      if d.Reserved f.size immediate then some none
      else do
        let esize := kOne <<< d.lenWord.toNat
        let wmask ← Replicate big (ROR (Ones (d.SWord + kOne)) esize d.RWord) esize
          (BitVec.ofNat 64 f.size)
        let tmask ← Replicate big (Ones (d.dWord + kOne)) esize (BitVec.ofNat 64 f.size)
        return some (wmask, tmask) := by
  have hfsize : (BitVec.ofNat 64 f.size).toNat = f.size := by cases f <;> rfl
  unfold DecodeBitMasks
  rw [MostSignificantSetBit_eq]
  by_cases hzero : (d.N ++ ~~~d.imms).toNat = 0
  · have hlen : d.len = 0 := by
      rw [len, hzero]
      rfl
    have hres : d.Reserved f.size immediate := Or.inl (by omega)
    rw [if_pos hzero, if_pos hres]
    rfl
  · rw [if_neg hzero]
    show (if d.lenWord < 1#64 then some none
      else if kOne <<< d.lenWord.toNat > BitVec.ofNat 64 f.size then some none
      else if immediate && d.SWord == Ones d.lenWord then some none else _) = _
    -- the three tests of the source, on numbers
    have h₁ : d.lenWord < 1#64 ↔ d.len < 1 := by
      rw [BitVec.lt_def, toNat_lenWord]
      rfl
    have h₂ : kOne <<< d.lenWord.toNat > BitVec.ofNat 64 f.size ↔ f.size < d.esize := by
      rw [gt_iff_lt, BitVec.lt_def, toNat_esizeWord, hfsize]
    have h₃ : (immediate && d.SWord == Ones d.lenWord) = true ↔
        immediate = true ∧ d.S + 1 = d.esize := by
      have hpos := d.esize_pos
      rw [Bool.and_eq_true, beq_iff_eq, ← BitVec.toNat_inj, toNat_SWord, toNat_levels]
      exact and_congr_right fun _ => by omega
    simp only [h₁, h₂, h₃]
    by_cases c₁ : d.len < 1
    · have hres : d.Reserved f.size immediate := Or.inl c₁
      rw [if_pos c₁, if_pos hres]
    · by_cases c₂ : f.size < d.esize
      · have hres : d.Reserved f.size immediate := Or.inr (Or.inl c₂)
        rw [if_neg c₁, if_pos c₂, if_pos hres]
      · by_cases c₃ : immediate = true ∧ d.S + 1 = d.esize
        · have hres : d.Reserved f.size immediate := Or.inr (Or.inr c₃)
          rw [if_neg c₁, if_neg c₂, if_pos c₃, if_pos hres]
        · have hres : ¬ d.Reserved f.size immediate := by
            rintro (h | h | h)
            · exact c₁ h
            · exact c₂ h
            · exact c₃ h
          rw [if_neg c₁, if_neg c₂, if_neg c₃, if_neg hres]
          rfl

theorem mask_eq_wmask {f : Form} (hM : d.esize ≤ f.size) {elem ones : BitVec 64}
    (helem : ∀ i, elem.getLsbD i =
      (decide (i < d.esize) && ones.getLsbD ((i + d.R) % d.esize)))
    {val : BitVec 64} (hones : ones = Ones val) (hval : val.toNat = d.S + 1) (i : ℕ) :
    (d.wmask f.size).getLsbD i = (decide (i < f.size) && elem.getLsbD (i % d.esize)) := by
  have hpos := d.esize_pos
  have hle : d.esize ≤ 2 ^ 6 := Nat.pow_le_pow_right (by decide) d.len_le
  have hrot : (i % d.esize + d.R) % d.esize < 64 := (Nat.mod_lt _ hpos).trans_le hle
  rw [d.getLsbD_wmask (d.esize_dvd hM), helem, decide_eq_true (Nat.mod_lt i hpos), Bool.true_and,
    hones, getLsbD_Ones val hrot, hval]
  simp only [Nat.lt_succ_iff]

theorem mask_eq_tmask {f : Form} (hM : d.esize ≤ f.size) {val : BitVec 64}
    (hval : val.toNat = d.diff + 1) (i : ℕ) :
    (d.tmask f.size).getLsbD i = (decide (i < f.size) && (Ones val).getLsbD (i % d.esize)) := by
  have hle : d.esize ≤ 2 ^ 6 := Nat.pow_le_pow_right (by decide) d.len_le
  rw [d.getLsbD_tmask (d.esize_dvd hM), getLsbD_Ones val ((Nat.mod_lt i d.esize_pos).trans_le hle),
    hval]
  simp only [Nat.lt_succ_iff]

/-- **The decoder makes the masks of the architecture**, over what the shift of a zero leaves where
the element is a whole word, and rejects what is reserved. -/
theorem DecodeBitMasks_eq (big : Overshift) (f : Form) (immediate : Bool) :
    DecodeBitMasks big (d.N.setWidth 64) (d.imms.setWidth 64) (d.immr.setWidth 64) immediate
        (BitVec.ofNat 64 f.size) =
      if d.Reserved f.size immediate then some none
      else if d.esize < 64 then
        some (some ((d.wmask f.size).setWidth 64, (d.tmask f.size).setWidth 64))
      else (big 64 0#64 64#64).map fun z =>
        some (z ||| (d.wmask f.size).setWidth 64, z ||| (d.tmask f.size).setWidth 64) := by
  rw [DecodeBitMasks_eq_loops]
  by_cases hres : d.Reserved f.size immediate
  · rw [if_pos hres, if_pos hres]
  · have hM : d.esize ≤ f.size := by
      by_contra hlt
      exact hres (Or.inr (Or.inl (by omega)))
    have hle : d.esize ≤ 2 ^ 6 := Nat.pow_le_pow_right (by decide) d.len_le
    have hsize := d.toNat_esizeWord
    have hS : (d.SWord + kOne).toNat = d.S + 1 := by
      rw [d.toNat_add_kOne (by rw [toNat_SWord]; exact d.S_lt), toNat_SWord]
    have hd : (d.dWord + kOne).toNat = d.diff + 1 := by
      rw [d.toNat_add_kOne (by rw [toNat_dWord]; exact d.diff_lt), toNat_dWord]
    have hwelem : Within d.esize (Ones (d.SWord + kOne)) :=
      d.within_Ones (by rw [hS]; exact d.S_lt)
    have htelem : Within d.esize (Ones (d.dWord + kOne)) :=
      d.within_Ones (by rw [hd]; exact d.diff_lt)
    -- the first element is rotated before it is copied, the second is not
    have hror : ∀ i, (ROR (Ones (d.SWord + kOne)) (kOne <<< d.lenWord.toNat) d.RWord).getLsbD i =
        (decide (i < d.esize) && (Ones (d.SWord + kOne)).getLsbD ((i + d.R) % d.esize)) := by
      intro i
      rw [getLsbD_ROR d.RWord (by rw [hsize]; exact d.esize_pos) (by rw [hsize]; exact hle)
        (by rw [hsize]; exact hwelem), hsize, toNat_RWord]
    have hwmask := d.copies_eq big hM
      (fun i hi => by rw [hror, decide_eq_false (Nat.not_lt.mpr hi), Bool.false_and])
      (d.mask_eq_wmask hM hror rfl hS)
    have htmask := d.copies_eq big hM htelem (d.mask_eq_tmask hM hd)
    rw [if_neg hres, if_neg hres]
    show (do
      let wmask ← Replicate big (ROR (Ones (d.SWord + kOne)) (kOne <<< d.lenWord.toNat) d.RWord)
        (kOne <<< d.lenWord.toNat) (BitVec.ofNat 64 f.size)
      let tmask ← Replicate big (Ones (d.dWord + kOne)) (kOne <<< d.lenWord.toNat)
        (BitVec.ofNat 64 f.size)
      return some (wmask, tmask)) = _
    rw [hwmask, htmask]
    by_cases hlt : d.esize < 64
    · rw [if_pos hlt, if_pos hlt, if_pos hlt]
      rfl
    · rw [if_neg hlt, if_neg hlt, if_neg hlt]
      cases big 64 0#64 64#64 <;> rfl

end MaskFields

end Elfconv.AArch64
