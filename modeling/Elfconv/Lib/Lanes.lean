/-
Elfconv/Lib/Lanes.lean

Vectors of words, the loops that fill them, and the words they are laid out in.

A vector is a function from its lanes, and an access outside of it has no value.  A loop over lanes
is a fold in `Option`; `forLoop_spec` is its rule, with an invariant that counts the iterations, and
`forLoop_scatter` is the case of a loop that stores one lane each time.  `Vec.bits` puts the lanes
side by side: operations on the whole word are operations on the lanes as long as no lane carries
into the next.
-/
import Mathlib.Data.BitVec
import Mathlib.Algebra.BigOperators.Fin

namespace Lanes

variable {n w m : ℕ} {S : Type*}

/-! ### Vectors -/

/-- `n` elements of `w` bits. -/
abbrev Vec (n w : ℕ) : Type := Fin n → BitVec w

namespace Vec

/-- The element at a run-time index. -/
def get (v : Vec n w) (i : ℕ) : Option (BitVec w) :=
  if h : i < n then some (v ⟨i, h⟩) else none

/-- The vector with the element at a run-time index replaced. -/
def set (v : Vec n w) (i : ℕ) (x : BitVec w) : Option (Vec n w) :=
  if h : i < n then some (Function.update v ⟨i, h⟩ x) else none

/-- The assignment `v[i] = x`, of an expression that may have no value. -/
def assign (v : Vec n w) (i : ℕ) (x : Option (BitVec w)) : Option (Vec n w) := x.bind (set v i)

theorem get_of_lt (v : Vec n w) {i : ℕ} (h : i < n) : get v i = some (v ⟨i, h⟩) := dif_pos h

theorem get_of_le (v : Vec n w) {i : ℕ} (h : n ≤ i) : get v i = none := dif_neg h.not_gt

@[simp] theorem get_fin (v : Vec n w) (i : Fin n) : get v i = some (v i) := get_of_lt v i.isLt

theorem set_of_lt (v : Vec n w) {i : ℕ} (h : i < n) (x : BitVec w) :
    set v i x = some (Function.update v ⟨i, h⟩ x) := dif_pos h

/-- An element after one was replaced. -/
theorem get_update (v : Vec n w) (i : Fin n) (x : BitVec w) (j : ℕ) :
    get (Function.update v i x) j = if j = i then some x else get v j := by
  unfold get
  by_cases hj : j < n
  · by_cases hij : j = i
    · have hfin : (⟨j, hj⟩ : Fin n) = i := Fin.ext hij
      rw [dif_pos hj, if_pos hij, hfin, Function.update_self]
    · have hfin : (⟨j, hj⟩ : Fin n) ≠ i := fun h => hij (congrArg Fin.val h)
      rw [dif_pos hj, if_neg hij, Function.update_of_ne hfin, dif_pos hj]
  · have hij : j ≠ i := fun h => hj (h ▸ i.isLt)
    rw [dif_neg hj, if_neg hij, dif_neg hj]

/-- Vectors with the same elements are equal. -/
theorem ext_get {a b : Vec n w} (h : ∀ i < n, get a i = get b i) : a = b := by
  funext i
  have hi := h i i.isLt
  rwa [get_fin, get_fin, Option.some.injEq] at hi

end Vec

/-! ### Loops -/

/-- `for (i = start; i < max; i += step)`, with a body that may have no value. -/
def forLoop (start max step : ℕ) (body : ℕ → S → Option S) (s : S) : Option S :=
  (List.range' start ((max - start + step - 1) / step) step).foldlM (fun s i => body i s) s

/-- An invariant over the number of iterations that the body keeps holds at the end. -/
theorem forLoop_spec {start max step count : ℕ} (hcount : (max - start + step - 1) / step = count)
    {body : ℕ → S → Option S} (P : ℕ → S → Prop) {s : S} (h0 : P 0 s)
    (hstep : ∀ k < count, ∀ s, P k s → ∃ s', body (start + step * k) s = some s' ∧ P (k + 1) s') :
    ∃ s', forLoop start max step body s = some s' ∧ P count s' := by
  unfold forLoop
  rw [hcount]
  clear hcount
  induction count with
  | zero => exact ⟨s, rfl, h0⟩
  | succ k ih =>
    obtain ⟨t, ht, hP⟩ := ih fun j hj => hstep j (by omega)
    obtain ⟨s', hs', hP'⟩ := hstep k (by omega) t hP
    refine ⟨s', ?_, hP'⟩
    rw [List.range'_concat, List.foldlM_append, ht, Option.bind_eq_bind, Option.bind_some,
      List.foldlM_cons, hs']
    rfl

/-- A loop whose first iteration has no value. -/
theorem forLoop_none {start max : ℕ} (h : start < max) {body : ℕ → S → Option S} {s : S}
    (hbody : body start s = none) : forLoop start max 1 body s = none := by
  obtain ⟨k, hk⟩ : ∃ k, (max - start + 1 - 1) / 1 = k + 1 := ⟨max - start - 1, by omega⟩
  rw [forLoop, hk, List.range'_succ, List.foldlM_cons, hbody]
  rfl

/-- A loop that stores `f k` at the place `p` of its `k`-th index, each place at most once. -/
theorem forLoop_scatter {start max count : ℕ} (hcount : max - start = count) {p : ℕ → ℕ}
    {e : ℕ → Option (BitVec w)} (f : ℕ → BitVec w) (v : Vec n w)
    (hlt : ∀ k < count, p (start + k) < n)
    (hinj : ∀ j k, j < k → k < count → p (start + j) ≠ p (start + k))
    (he : ∀ k < count, e (start + k) = some (f k)) :
    ∃ r, forLoop start max 1 (fun i v => Vec.assign v (p i) (e i)) v = some r ∧
      (∀ k < count, Vec.get r (p (start + k)) = some (f k)) ∧
      ∀ j, (∀ k < count, p (start + k) ≠ j) → Vec.get r j = Vec.get v j := by
  apply forLoop_spec (by omega : (max - start + 1 - 1) / 1 = count)
    (fun k r => (∀ l < k, Vec.get r (p (start + l)) = some (f l)) ∧
      ∀ j, (∀ l < k, p (start + l) ≠ j) → Vec.get r j = Vec.get v j)
  · exact ⟨fun l hl => absurd hl (Nat.not_lt_zero l), fun j _ => rfl⟩
  · rintro k hk r ⟨hdone, hrest⟩
    rw [one_mul, he k hk, Vec.assign, Option.bind_some, Vec.set_of_lt r (hlt k hk)]
    refine ⟨_, rfl, ?_, ?_⟩
    · intro l hl
      rw [Vec.get_update]
      rcases Nat.lt_succ_iff_lt_or_eq.mp hl with h | rfl
      · rw [if_neg (hinj l k h hk), hdone l h]
      · rw [if_pos rfl]
    · intro j hj
      rw [Vec.get_update, if_neg (hj k (by omega)).symm]
      exact hrest j fun l hl => hj l (by omega)

/-- A loop that fills a vector from its first lane on. -/
theorem forLoop_fill {start max : ℕ} (hcount : max - start = n) {p : ℕ → ℕ}
    {e : ℕ → Option (BitVec w)} (f : Vec n w) (v : Vec n w)
    (hp : ∀ k < n, p (start + k) = k) (he : ∀ k : Fin n, e (start + k) = some (f k)) :
    forLoop start max 1 (fun i v => Vec.assign v (p i) (e i)) v = some f := by
  obtain ⟨r, hr, hlanes, -⟩ := forLoop_scatter hcount
    (fun k => if h : k < n then f ⟨k, h⟩ else 0#w) v
    (fun k hk => (hp k hk).symm ▸ hk)
    (fun j k hjk hk => by rw [hp j (by omega), hp k hk]; omega)
    (fun k hk => by rw [dif_pos hk]; exact he ⟨k, hk⟩)
  rw [hr, Option.some.injEq]
  apply Vec.ext_get
  intro k hk
  have hlane := hlanes k hk
  rw [hp k hk, dif_pos hk] at hlane
  rw [hlane, Vec.get_of_lt f hk]

/-- The loop that computes each lane from its old value. -/
theorem forLoop_lanes (f : Fin n → BitVec w → BitVec w) {body : ℕ → Vec n w → Option (BitVec w)}
    (hbody : ∀ (e : Fin n) (v : Vec n w), body e v = some (f e (v e))) (v : Vec n w) :
    forLoop 0 n 1 (fun i v => Vec.assign v i (body i v)) v = some fun e => f e (v e) := by
  have hloop : ∃ r, forLoop 0 n 1 (fun i v => Vec.assign v i (body i v)) v = some r ∧
      ∀ e : Fin n, r e = if e.val < n then f e (v e) else v e := by
    apply forLoop_spec (by omega : (n - 0 + 1 - 1) / 1 = n)
      (fun k (r : Vec n w) => ∀ e : Fin n, r e = if e.val < k then f e (v e) else v e)
    · exact fun e => (if_neg (Nat.not_lt_zero e)).symm
    · intro k hk r hr
      have hlane : body (0 + 1 * k) r = some (f ⟨k, hk⟩ (r ⟨k, hk⟩)) := by
        rw [one_mul, Nat.zero_add]
        exact hbody ⟨k, hk⟩ r
      rw [hlane, Vec.assign, Option.bind_some, one_mul, Nat.zero_add, Vec.set_of_lt r hk]
      refine ⟨_, rfl, fun e => ?_⟩
      by_cases he : e = ⟨k, hk⟩
      · subst he
        rw [Function.update_self, hr, if_neg (lt_irrefl k), if_pos (Nat.lt_succ_self k)]
      · have hne : e.val ≠ k := fun h => he (Fin.ext h)
        rw [Function.update_of_ne he, hr]
        by_cases hlt : e.val < k
        · rw [if_pos hlt, if_pos (by omega)]
        · rw [if_neg hlt, if_neg (by omega)]
  obtain ⟨r, hr, hdone⟩ := hloop
  rw [hr, Option.some.injEq]
  funext e
  rw [hdone e, if_pos e.isLt]

/-! ### Words of lanes -/

/-- A slice of a slice. -/
theorem extract_extract (x : BitVec m) {start len i k : ℕ} (h : i + k ≤ len) :
    (x.extractLsb' start len).extractLsb' i k = x.extractLsb' (start + i) k := by
  apply BitVec.eq_of_getLsbD_eq
  intro j hj
  rw [BitVec.getLsbD_extractLsb', BitVec.getLsbD_extractLsb', BitVec.getLsbD_extractLsb',
    decide_eq_true (by omega : i + j < len), Bool.true_and, add_assoc]

namespace Vec

/-- The lanes of a word, from its low end. -/
def ofBits (n : ℕ) (x : BitVec m) : Vec n w := fun i => x.extractLsb' (w * i) w

/-- The word of the lanes, the first one lowest. -/
def bits (v : Vec n w) : BitVec (n * w) :=
  (List.finRange n).foldr (fun i x => (v i).setWidth (n * w) <<< (w * i) ||| x) 0#(n * w)

/-- The bits of a lane lie in the vector. -/
theorem lane_lt (i : Fin n) {j : ℕ} (hj : j < w) : w * i + j < n * w := by
  have h : w * (i + 1) ≤ w * n := Nat.mul_le_mul_left w i.isLt
  rw [mul_add, mul_one] at h
  rw [mul_comm n w]
  omega

/-- Every bit of a word of lanes is a bit of a lane. -/
theorem exists_lane {k : ℕ} (hk : k < n * w) : ∃ (i : Fin n) (j : ℕ), j < w ∧ k = w * i + j := by
  have hw : 0 < w := Nat.pos_of_ne_zero fun h => by simp [h] at hk
  exact ⟨⟨k / w, Nat.div_lt_of_lt_mul (mul_comm n w ▸ hk)⟩, k % w, Nat.mod_lt k hw,
    (Nat.div_add_mod k w).symm⟩

/-- A bit of a union is a bit of one of its parts. -/
theorem getLsbD_foldr_or (f : Fin n → BitVec m) (k : ℕ) (l : List (Fin n)) :
    (l.foldr (fun i x => f i ||| x) 0#m).getLsbD k = l.any fun i => (f i).getLsbD k := by
  induction l with
  | nil => simp
  | cons i l ih => rw [List.foldr_cons, BitVec.getLsbD_or, ih, List.any_cons]

/-- The bits of a lane, read from the whole. -/
theorem getLsbD_bits (v : Vec n w) (i : Fin n) {j : ℕ} (hj : j < w) :
    (bits v).getLsbD (w * i + j) = (v i).getLsbD j := by
  have hlane : ∀ l : Fin n, ((v l).setWidth (n * w) <<< (w * l)).getLsbD (w * i + j) =
      (decide (l = i) && (v i).getLsbD j) := by
    intro l
    rw [BitVec.getLsbD_shiftLeft, decide_eq_true (lane_lt i hj), Bool.true_and,
      BitVec.getLsbD_setWidth, decide_eq_true ((Nat.sub_le _ _).trans_lt (lane_lt i hj)),
      Bool.true_and]
    rcases Nat.lt_trichotomy l i with h | h | h
    · -- the place is beyond the end of a lane below
      have hle : w * (l + 1) ≤ w * i := Nat.mul_le_mul_left w h
      rw [mul_add, mul_one] at hle
      rw [BitVec.getLsbD_of_ge _ _ (by omega), decide_eq_false (Fin.ne_of_val_ne (by omega))]
      simp
    · obtain rfl := Fin.ext h
      simp
    · have hle : w * (i + 1) ≤ w * l := Nat.mul_le_mul_left w h
      rw [mul_add, mul_one] at hle
      rw [decide_eq_true (by omega : w * i.val + j < w * l.val),
        decide_eq_false (Fin.ne_of_val_ne (by omega))]
      simp
  rw [bits, getLsbD_foldr_or]
  simp only [hlane]
  rw [Bool.eq_iff_iff, List.any_eq_true]
  simp [List.mem_finRange]

/-- Words of lanes are equal when their bits are, lane by lane. -/
theorem ext_lanes {x y : BitVec (n * w)}
    (h : ∀ (i : Fin n) (j : ℕ), j < w → x.getLsbD (w * i + j) = y.getLsbD (w * i + j)) : x = y := by
  apply BitVec.eq_of_getLsbD_eq
  intro k hk
  obtain ⟨i, j, hj, rfl⟩ := exists_lane hk
  exact h i j hj

/-- The bits of the whole, read from a lane. -/
theorem getLsbD_ofBits (x : BitVec m) (i : Fin n) {j : ℕ} (hj : j < w) :
    ((ofBits n x : Vec n w) i).getLsbD j = x.getLsbD (w * i + j) := by
  rw [ofBits, BitVec.getLsbD_extractLsb', decide_eq_true hj, Bool.true_and]

theorem get_ofBits (x : BitVec m) {i : ℕ} (h : i < n) :
    get (ofBits n x : Vec n w) i = some (x.extractLsb' (w * i) w) := get_of_lt _ h

/-- Cut into lanes and put together again. -/
theorem bits_ofBits (x : BitVec m) : (ofBits n x : Vec n w).bits = x.setWidth (n * w) := by
  apply ext_lanes
  intro i j hj
  rw [getLsbD_bits _ i hj, getLsbD_ofBits x i hj, BitVec.getLsbD_setWidth,
    decide_eq_true (lane_lt i hj), Bool.true_and]

/-- The lanes of a word that holds a vector in its low end. -/
theorem ofBits_setWidth (v : Vec n w) (h : n * w ≤ m) : ofBits n (v.bits.setWidth m) = v := by
  funext i
  apply BitVec.eq_of_getLsbD_eq
  intro j hj
  rw [getLsbD_ofBits _ i hj, BitVec.getLsbD_setWidth, getLsbD_bits v i hj,
    decide_eq_true ((lane_lt i hj).trans_le h), Bool.true_and]

/-- Vectors with the same bits are equal, in a word that holds them. -/
theorem setWidth_bits_inj {u v : Vec n w} (h : n * w ≤ m) :
    u.bits.setWidth m = v.bits.setWidth m ↔ u = v := by
  constructor
  · intro heq
    rw [← ofBits_setWidth u h, heq, ofBits_setWidth v h]
  · rintro rfl
    rfl

/-! ### Bitwise operations -/

theorem bits_and (a b : Vec n w) : (bits fun i => a i &&& b i) = a.bits &&& b.bits := by
  apply ext_lanes
  intro i j hj
  rw [BitVec.getLsbD_and, getLsbD_bits _ i hj, getLsbD_bits _ i hj, getLsbD_bits _ i hj,
    BitVec.getLsbD_and]

theorem bits_xor (a b : Vec n w) : (bits fun i => a i ^^^ b i) = a.bits ^^^ b.bits := by
  apply ext_lanes
  intro i j hj
  rw [BitVec.getLsbD_xor, getLsbD_bits _ i hj, getLsbD_bits _ i hj, getLsbD_bits _ i hj,
    BitVec.getLsbD_xor]

/-- The lane above, or zero for the last one. -/
def next (a : Vec n w) (i : Fin n) : BitVec w := (get a (i + 1)).getD 0#w

/-- A shift of the word moves the low bits of each lane into the lane below. -/
theorem bits_ushiftRight (a : Vec n w) {s : ℕ} (hs : s ≤ w) :
    a.bits >>> s = bits fun i => a i >>> s ||| next a i <<< (w - s) := by
  apply ext_lanes
  intro i j hj
  rw [BitVec.getLsbD_ushiftRight, getLsbD_bits _ i hj, BitVec.getLsbD_or,
    BitVec.getLsbD_ushiftRight, BitVec.getLsbD_shiftLeft, decide_eq_true hj, Bool.true_and]
  by_cases hin : s + j < w
  · have hplace : s + (w * i + j) = w * i + (s + j) := by omega
    rw [hplace, getLsbD_bits a i hin, decide_eq_true (by omega : j < w - s)]
    simp
  · have hplace : s + (w * i + j) = w * (i + 1) + (s + j - w) := by
      rw [mul_add, mul_one]
      omega
    have hhigh : (a i).getLsbD (s + j) = false := BitVec.getLsbD_of_ge _ _ (by omega)
    rw [hhigh, decide_eq_false (by omega : ¬ j < w - s), hplace, Bool.false_or, Bool.not_false,
      Bool.true_and, (by omega : j - (w - s) = s + j - w), next]
    by_cases hi : i.val + 1 < n
    · rw [get_of_lt a hi]
      exact getLsbD_bits a ⟨i + 1, hi⟩ (by omega)
    · have hout : n * w ≤ w * (i.val + 1) + (s + j - w) := by
        have hle : w * n ≤ w * (i.val + 1) := Nat.mul_le_mul_left w (by omega)
        exact (mul_comm n w).le.trans (hle.trans (Nat.le_add_right _ _))
      rw [get_of_le a (by omega), BitVec.getLsbD_of_ge _ _ hout]
      simp

/-! ### Sums -/

/-- The word as a number with the lanes as digits. -/
theorem toNat_bits (v : Vec n w) : v.bits.toNat = ∑ i : Fin n, (v i).toNat * 2 ^ (w * i) := by
  induction n with
  | zero =>
    have hlt : v.bits.toNat < 1 := v.bits.isLt.trans_eq (by rw [zero_mul, pow_zero])
    rw [Finset.univ_eq_empty, Finset.sum_empty]
    exact Nat.lt_one_iff.mp hlt
  | succ n ih =>
    have hsplit : v.bits = ((v (Fin.last n) ++ bits fun i => v i.castSucc).cast
        (by rw [add_one_mul, add_comm]) : BitVec ((n + 1) * w)) := by
      apply ext_lanes
      intro i j hj
      rw [getLsbD_bits v i hj, BitVec.getLsbD_cast, BitVec.getLsbD_append]
      induction i using Fin.lastCases with
      | last =>
        have hplace : w * (Fin.last n).val = n * w := by rw [Fin.val_last, mul_comm]
        rw [hplace, if_neg (by omega), Nat.add_sub_cancel_left]
      | cast i =>
        rw [Fin.val_castSucc, if_pos (lane_lt i hj), getLsbD_bits _ i hj]
    rw [Fin.sum_univ_castSucc, hsplit, BitVec.toNat_cast, BitVec.toNat_append,
      ← Nat.shiftLeft_add_eq_or_of_lt (BitVec.isLt _), ih, Nat.shiftLeft_eq, add_comm,
      Fin.val_last, mul_comm n w]
    rfl

/-- Sums of lanes that do not overflow are the sum of the words. -/
theorem bits_add {a b : Vec n w} (h : ∀ i, (a i).toNat + (b i).toNat < 2 ^ w) :
    (bits fun i => a i + b i) = a.bits + b.bits := by
  have hsum : (bits fun i => a i + b i).toNat = a.bits.toNat + b.bits.toNat := by
    rw [toNat_bits, toNat_bits, toNat_bits, ← Finset.sum_add_distrib]
    apply Finset.sum_congr rfl
    intro i _
    rw [BitVec.toNat_add_of_lt (h i), add_mul]
  apply BitVec.eq_of_toNat_eq
  rw [BitVec.toNat_add_of_lt (hsum ▸ BitVec.isLt _), hsum]

/-- Differences of lanes that do not borrow are the difference of the words. -/
theorem bits_sub {a b : Vec n w} (h : ∀ i, b i ≤ a i) :
    (bits fun i => a i - b i) = a.bits - b.bits := by
  have hadd : (bits fun i => a i - b i + b i) = (bits fun i => a i - b i) + b.bits := by
    apply bits_add
    intro i
    have hle : (b i).toNat ≤ (a i).toNat := h i
    rw [BitVec.toNat_sub_of_le (h i), Nat.sub_add_cancel hle]
    exact (a i).isLt
  simp only [BitVec.sub_add_cancel] at hadd
  rw [hadd, BitVec.add_sub_cancel]

end Vec

end Lanes
