/-
Elfconv/Semantics/LaneFolds.lean

The semantics functions that mix the lanes of a vector: pairwise operators, reductions and
reversals.  A loop that stores several lanes, or moves a second index along, has its invariant over
the iterations; the tree of a reduction is the sum over a range of lanes.
-/
import Elfconv.Semantics.LaneOps

namespace Elfconv.AArch64

open CInt Lanes

variable {n w : ℕ}

/-! ### Pairwise operators -/

/-- One loop of `MAKE_PAIRWAISE_BROADCAST`, on the vector filled so far and the place `j`. -/
def pairLoop (binop : BitVec w → BitVec w → Option (BitVec w)) (vec : Vec n w) :
    Vec n w × ℕ → Option (Vec n w × ℕ) :=
  forLoop 0 n 2 fun i s => do
    let x ← binop (← Vec.get vec i) (← Vec.get vec (i + 1))
    return (← Vec.set s.1 s.2 x, s.2 + 1)

/-- `MAKE_PAIRWAISE_BROADCAST` -/
def pairwise (binop : BitVec w → BitVec w → Option (BitVec w)) (src1 src2 : Vec n w) :
    Option (Vec n w) := do
  let s ← pairLoop binop src1 (zeros n w, 0)
  let s ← pairLoop binop src2 s
  return s.1

/-- The sums of pairs. -/
def ADDP (src1 src2 : Vec n w) : Option (Vec n w) := pairwise UAdd src1 src2

/-- The greater of each pair, without signs. -/
def UMAXP (src1 src2 : Vec n w) : Option (Vec n w) :=
  pairwise (fun a b => some (UMax a b)) src1 src2

/-- The greater of each pair, with signs. -/
def SMAXP (src1 src2 : Vec n w) : Option (Vec n w) :=
  pairwise (fun a b => some (SMax a b)) src1 src2

/-- The smaller of each pair, without signs. -/
def UMINP (src1 src2 : Vec n w) : Option (Vec n w) :=
  pairwise (fun a b => some (UMin a b)) src1 src2

/-- The smaller of each pair, with signs. -/
def SMINP (src1 src2 : Vec n w) : Option (Vec n w) :=
  pairwise (fun a b => some (SMin a b)) src1 src2

/-- What a loop leaves: the pairs of `vec` from the place `j` on, and the rest as it was. -/
theorem pairLoop_spec {binop : BitVec w → BitVec w → Option (BitVec w)}
    {f : BitVec w → BitVec w → BitVec w} (h : ∀ a b, binop a b = some (f a b)) {m : ℕ}
    (hn : n = 2 * m) (vec : Vec n w) (r : Vec n w) {j : ℕ} (hj : j + m ≤ n) :
    ∃ r', pairLoop binop vec (r, j) = some (r', j + m) ∧
      (∀ k (hk : k < m), Vec.get r' (j + k) =
        some (f (vec ⟨2 * k, by omega⟩) (vec ⟨2 * k + 1, by omega⟩))) ∧
      ∀ l, l < j ∨ j + m ≤ l → Vec.get r' l = Vec.get r l := by
  have hspec : ∃ s', pairLoop binop vec (r, j) = some s' ∧ s'.2 = j + m ∧
      (∀ l (hl : l < m) (hlm : l < m), Vec.get s'.1 (j + l) =
        some (f (vec ⟨2 * l, by omega⟩) (vec ⟨2 * l + 1, by omega⟩))) ∧
      ∀ l, l < j ∨ j + m ≤ l → Vec.get s'.1 l = Vec.get r l := by
    apply forLoop_spec (by omega : (n - 0 + 2 - 1) / 2 = m)
      -- after `k` turns the first `k` pairs are folded and the other lanes untouched
      (fun k (s : Vec n w × ℕ) => s.2 = j + k ∧
        (∀ l (hl : l < k) (hlm : l < m), Vec.get s.1 (j + l) =
          some (f (vec ⟨2 * l, by omega⟩) (vec ⟨2 * l + 1, by omega⟩))) ∧
        ∀ l, l < j ∨ j + k ≤ l → Vec.get s.1 l = Vec.get r l)
    · exact ⟨rfl, fun l hl => absurd hl (Nat.not_lt_zero l), fun l _ => rfl⟩
    · rintro k hk ⟨s, j'⟩ ⟨rfl, hdone, hrest⟩
      rw [Nat.zero_add, Vec.get_of_lt vec (by omega : 2 * k < n),
        Vec.get_of_lt vec (by omega : 2 * k + 1 < n)]
      show ∃ s', (binop _ _).bind _ = some s' ∧ _
      rw [h, Option.bind_some]
      show ∃ s', (Vec.set s (j + k) _).bind _ = some s' ∧ _
      rw [Vec.set_of_lt s (by omega : j + k < n)]
      refine ⟨_, rfl, rfl, ?_, ?_⟩
      · intro l hl hlm
        rw [Vec.get_update]
        rcases Nat.lt_succ_iff_lt_or_eq.mp hl with hlt | rfl
        · rw [if_neg (by simp only; omega), hdone l hlt hlm]
        · rw [if_pos rfl]
      · intro l hl
        rw [Vec.get_update, if_neg (by simp only; omega)]
        exact hrest l (by omega)
  obtain ⟨⟨r', j'⟩, hloop, rfl, hdone, hrest⟩ := hspec
  exact ⟨r', hloop, fun k hk => hdone k hk hk, hrest⟩

/-- The pairs of the first source, then those of the second. -/
theorem pairwise_eq {binop : BitVec w → BitVec w → Option (BitVec w)}
    {f : BitVec w → BitVec w → BitVec w} (h : ∀ a b, binop a b = some (f a b)) {m : ℕ}
    (hn : n = 2 * m) (src1 src2 : Vec n w) :
    pairwise binop src1 src2 = some fun i : Fin n =>
      if hi : i.val < m then f (src1 ⟨2 * i, by omega⟩) (src1 ⟨2 * i + 1, by omega⟩)
      else f (src2 ⟨2 * (i - m), by omega⟩) (src2 ⟨2 * (i - m) + 1, by omega⟩) := by
  obtain ⟨r, hr, hlow, -⟩ := pairLoop_spec h hn src1 (zeros n w) (j := 0) (by omega)
  obtain ⟨r', hr', hhigh, hkeep⟩ := pairLoop_spec h hn src2 r (j := 0 + m) (by omega)
  unfold pairwise
  rw [hr, Option.bind_eq_bind, Option.bind_some, hr', Option.bind_some]
  apply congrArg some
  funext i
  apply Option.some.inj
  show some (r' i) = _
  rw [← Vec.get_fin r' i]
  by_cases him : i.val < m
  · have hlane := hlow i him
    rw [Nat.zero_add] at hlane
    rw [hkeep i (by omega), hlane, dif_pos him]
  · have hlane := hhigh (i - m) (by omega)
    rw [(by omega : 0 + m + (i.val - m) = i)] at hlane
    rw [hlane, dif_neg him]

/-! ### Reductions -/

section

variable (vec : Vec n w) (binop : BitVec w → BitVec w → Option (BitVec w))

/-- Two lanes from `base` on. -/
def Reduce2 (base : ℕ) : Option (BitVec w) := do
  binop (← Vec.get vec (base + 0)) (← Vec.get vec (base + 1))

/-- Four lanes, by their halves. -/
def Reduce4 (base : ℕ) : Option (BitVec w) := do
  let lo ← Reduce2 vec binop (base + 0)
  let hi ← Reduce2 vec binop (base + 2)
  binop lo hi

/-- Eight lanes, by their halves. -/
def Reduce8 (base : ℕ) : Option (BitVec w) := do
  let lo ← Reduce4 vec binop (base + 0)
  let hi ← Reduce4 vec binop (base + 4)
  binop lo hi

/-- Sixteen lanes, by their halves. -/
def Reduce16 (base : ℕ) : Option (BitVec w) := do
  let lo ← Reduce8 vec binop (base + 0)
  let hi ← Reduce8 vec binop (base + 8)
  binop lo hi

/-- The other numbers of lanes are unreachable. -/
def Reduce : Option (BitVec w) :=
  match n with
  | 2 => Reduce2 vec binop 0
  | 4 => Reduce4 vec binop 0
  | 8 => Reduce8 vec binop 0
  | 16 => Reduce16 vec binop 0
  | _ => none

end

/-- `ADDV`, with sums of a signed type. -/
def ADDV_Reduce (ovf : Overflow) (src : Vec n w) : Option (BitVec w) := Reduce src (SAdd ovf)

/-- The loop of `UMINV` and its like, from the value `init` on. -/
def foldLanes (binop : BitVec w → BitVec w → BitVec w) (init : BitVec w) (vec : Vec n w) :
    Option (BitVec w) :=
  forLoop 0 n 1 (fun i val => do return binop (← Vec.get vec i) val) init

/-- `UMINV`, from the greatest number on. -/
def UMINV (src : Vec n w) : Option (BitVec w) := foldLanes UMin (BitVec.allOnes w) src

/-- `SMINV`, from the greatest number on. -/
def SMINV (src : Vec n w) : Option (BitVec w) := foldLanes SMin (BitVec.intMax w) src

/-- `UMAXV`, from zero on. -/
def UMAXV (src : Vec n w) : Option (BitVec w) := foldLanes UMax 0#w src

/-- `SMAXV`, from the smallest number on. -/
def SMAXV (src : Vec n w) : Option (BitVec w) := foldLanes SMax (BitVec.intMin w) src

/-- The sum of `k` lanes from `base` on. -/
def laneSum (vec : Vec n w) (base k : ℕ) : BitVec w :=
  ∑ j ∈ Finset.range k, (Vec.get vec (base + j)).getD 0#w

theorem laneSum_add (vec : Vec n w) (base k l : ℕ) :
    laneSum vec base (k + l) = laneSum vec (base + 0) k + laneSum vec (base + k) l := by
  rw [laneSum, Finset.sum_range_add, add_zero]
  simp only [← add_assoc]
  rfl

section

variable {binop : BitVec w → BitVec w → Option (BitVec w)} (h : ∀ a b, binop a b = some (a + b))
  (vec : Vec n w)

include h

theorem Reduce2_eq (base : ℕ) (hb : base + 2 ≤ n) :
    Reduce2 vec binop base = some (laneSum vec base 2) := by
  rw [Reduce2, Vec.get_of_lt vec (by omega : base + 0 < n),
    Vec.get_of_lt vec (by omega : base + 1 < n), laneSum, Finset.sum_range_succ,
    Finset.sum_range_one, Vec.get_of_lt vec (by omega : base + 0 < n),
    Vec.get_of_lt vec (by omega : base + 1 < n)]
  exact h _ _

theorem Reduce4_eq (base : ℕ) (hb : base + 4 ≤ n) :
    Reduce4 vec binop base = some (laneSum vec base 4) := by
  rw [Reduce4, Reduce2_eq h vec (base + 0) (by omega),
    Reduce2_eq h vec (base + 2) (by omega), laneSum_add vec base 2 2]
  exact h _ _

theorem Reduce8_eq (base : ℕ) (hb : base + 8 ≤ n) :
    Reduce8 vec binop base = some (laneSum vec base 8) := by
  rw [Reduce8, Reduce4_eq h vec (base + 0) (by omega),
    Reduce4_eq h vec (base + 4) (by omega), laneSum_add vec base 4 4]
  exact h _ _

theorem Reduce16_eq (base : ℕ) (hb : base + 16 ≤ n) :
    Reduce16 vec binop base = some (laneSum vec base 16) := by
  rw [Reduce16, Reduce8_eq h vec (base + 0) (by omega),
    Reduce8_eq h vec (base + 8) (by omega), laneSum_add vec base 8 8]
  exact h _ _

end

theorem laneSum_all (vec : Vec n w) : laneSum vec 0 n = ∑ i, vec i := by
  rw [laneSum, Finset.sum_range]
  apply Finset.sum_congr rfl
  intro i _
  rw [zero_add, Vec.get_fin]
  rfl

/-- The tree of sums is the sum of all lanes. -/
theorem ADDV_Reduce_eq (ovf : Overflow) (hn : n = 4 ∨ n = 8 ∨ n = 16) (hw : 0 < w) (hlt : w < 64)
    (src : Vec n w) : ADDV_Reduce ovf src = some (∑ i, src i) := by
  have hadd : ∀ a b : BitVec w, SAdd ovf a b = some (a + b) := by
    intro a b
    apply SAdd_eq
    apply ((representable_toInt a).add hw (representable_toInt b)).mono
    exact hlt.trans_le (le_max_left 64 w)
  rw [← laneSum_all]
  rcases hn with rfl | rfl | rfl
  · exact Reduce4_eq hadd src 0 le_rfl
  · exact Reduce8_eq hadd src 0 le_rfl
  · exact Reduce16_eq hadd src 0 le_rfl

/-- Where the order does not matter, the loop is the fold over all lanes. -/
theorem foldLanes_eq {binop : BitVec w → BitVec w → BitVec w}
    (hcomm : ∀ a b c, binop a (binop b c) = binop b (binop a c)) (init : BitVec w)
    (vec : Vec n w) : foldLanes binop init vec = some ((List.ofFn vec).foldr binop init) := by
  have hspec : ∃ r, foldLanes binop init vec = some r ∧
      r = ((List.ofFn vec).take n).foldl (fun val x => binop x val) init := by
    apply forLoop_spec (by omega : (n - 0 + 1 - 1) / 1 = n)
      (fun k val => val = ((List.ofFn vec).take k).foldl (fun val x => binop x val) init)
    · rfl
    · rintro k hk val rfl
      have hget : (List.ofFn vec)[k]? = some (vec ⟨k, hk⟩) := by
        rw [List.getElem?_ofFn, dif_pos hk]
      rw [one_mul, Nat.zero_add, Vec.get_of_lt vec hk, List.take_add_one, hget]
      refine ⟨_, rfl, ?_⟩
      rw [Option.toList_some, List.foldl_append]
      rfl
  obtain ⟨r, hr, rfl⟩ := hspec
  have hperm : (List.ofFn vec).reverse.foldr binop init = (List.ofFn vec).foldr binop init :=
    haveI : LeftCommutative binop := ⟨hcomm⟩
    (List.reverse_perm _).foldr_eq init
  rw [hr, ← hperm, List.foldr_reverse, List.take_of_length_le (List.length_ofFn).le]

/-! ### Reversals -/

/-- The bytes of a word change their places. -/
def REV32_VectorB (src : Vec n 8) : Option (Vec n 8) :=
  forLoop 0 n 4
    (fun i res => do
      let res ← Vec.set res i (← Vec.get src (i + 3))
      let res ← Vec.set res (i + 1) (← Vec.get src (i + 2))
      let res ← Vec.set res (i + 2) (← Vec.get src (i + 1))
      Vec.set res (i + 3) (← Vec.get src i))
    (zeros n 8)

/-- The half-words of a word change their places. -/
def REV32_VectorH (src : Vec n 16) : Option (Vec n 16) :=
  forLoop 0 n 2
    (fun i res => do
      let res ← Vec.set res i (← Vec.get src (i + 1))
      Vec.set res (i + 1) (← Vec.get src i))
    (zeros n 16)

/-- The lane at the mirrored place of its group of `c`. -/
def mirrored (c i : ℕ) : ℕ := c * (i / c) + (c - 1 - i % c)

theorem mirrored_eq {c k j : ℕ} (hj : j < c) : mirrored c (c * k + j) = c * k + (c - 1 - j) := by
  have hdiv : (c * k + j) / c = k := by
    rw [Nat.mul_add_div (by omega), Nat.div_eq_of_lt hj, add_zero]
  have hmod : (c * k + j) % c = j := by
    rw [Nat.mul_add_mod, Nat.mod_eq_of_lt hj]
  rw [mirrored, hdiv, hmod]

/-- Every place is in a group. -/
theorem exists_group {c : ℕ} (hc : 0 < c) (l : ℕ) : ∃ k j, j < c ∧ l = c * k + j :=
  ⟨l / c, l % c, Nat.mod_lt l hc, (Nat.div_add_mod l c).symm⟩

theorem mirrored_lt {c m i : ℕ} (hi : i < c * m) : mirrored c i < c * m := by
  have hc : 0 < c := Nat.pos_of_ne_zero fun h => by simp [h] at hi
  obtain ⟨k, j, hj, rfl⟩ := exists_group hc i
  have hk : k < m := Nat.lt_of_mul_lt_mul_left (by omega : c * k < c * m)
  have hle : c * (k + 1) ≤ c * m := Nat.mul_le_mul_left c hk
  rw [Nat.mul_succ] at hle
  rw [mirrored_eq hj]
  omega

/-- The lane at the mirrored place, of a vector of whole groups. -/
def mirror {c m : ℕ} (hn : n = c * m) (i : Fin n) : Fin n :=
  ⟨mirrored c i, (mirrored_lt (i.isLt.trans_eq hn)).trans_eq hn.symm⟩

theorem REV32_VectorB_eq {m : ℕ} (hn : n = 4 * m) (src : Vec n 8) :
    REV32_VectorB src = some fun i => src (mirror hn i) := by
  have hspec : ∃ r, REV32_VectorB src = some r ∧
      ∀ l < 4 * m, Vec.get r l = Vec.get src (mirrored 4 l) := by
    apply forLoop_spec (by omega : (n - 0 + 4 - 1) / 4 = m)
      (fun k r => ∀ l < 4 * k, Vec.get r l = Vec.get src (mirrored 4 l))
    · exact fun l hl => absurd hl (Nat.not_lt_zero l)
    · intro k hk r hr
      have h0 : 4 * k < n := by omega
      have h1 : 4 * k + 1 < n := by omega
      have h2 : 4 * k + 2 < n := by omega
      have h3 : 4 * k + 3 < n := by omega
      rw [Nat.zero_add]
      simp only [Option.bind_eq_bind, Option.bind_some, Vec.get_of_lt src h0,
        Vec.get_of_lt src h1, Vec.get_of_lt src h2, Vec.get_of_lt src h3, Vec.set_of_lt _ h0,
        Vec.set_of_lt _ h1, Vec.set_of_lt _ h2, Vec.set_of_lt _ h3]
      refine ⟨_, rfl, ?_⟩
      intro l hl
      rw [Vec.get_update, Vec.get_update, Vec.get_update, Vec.get_update]
      -- the lanes just stored, the last one first, then those of the rounds before
      split_ifs with hl3 hl2 hl1 hl0
      · rw [hl3, mirrored_eq (by decide : 3 < 4)]
        exact (Vec.get_of_lt src h0).symm
      · rw [hl2, mirrored_eq (by decide : 2 < 4)]
        exact (Vec.get_of_lt src h1).symm
      · rw [hl1, mirrored_eq (by decide : 1 < 4)]
        exact (Vec.get_of_lt src h2).symm
      · have hplace : mirrored 4 (4 * k) = 4 * k + 3 := mirrored_eq (j := 0) (by decide)
        rw [hl0, Fin.val_mk, hplace]
        exact (Vec.get_of_lt src h3).symm
      · simp only at hl0 hl1 hl2 hl3
        exact hr l (by omega)
  obtain ⟨r, hr, hlanes⟩ := hspec
  rw [hr]
  apply congrArg some
  funext i
  apply Option.some.inj
  rw [← Vec.get_fin src, ← Vec.get_fin r]
  exact hlanes i (i.isLt.trans_eq hn)

theorem REV32_VectorH_eq {m : ℕ} (hn : n = 2 * m) (src : Vec n 16) :
    REV32_VectorH src = some fun i => src (mirror hn i) := by
  have hspec : ∃ r, REV32_VectorH src = some r ∧
      ∀ l < 2 * m, Vec.get r l = Vec.get src (mirrored 2 l) := by
    apply forLoop_spec (by omega : (n - 0 + 2 - 1) / 2 = m)
      (fun k r => ∀ l < 2 * k, Vec.get r l = Vec.get src (mirrored 2 l))
    · exact fun l hl => absurd hl (Nat.not_lt_zero l)
    · intro k hk r hr
      have h0 : 2 * k < n := by omega
      have h1 : 2 * k + 1 < n := by omega
      rw [Nat.zero_add]
      simp only [Option.bind_eq_bind, Option.bind_some, Vec.get_of_lt src h0,
        Vec.get_of_lt src h1, Vec.set_of_lt _ h0, Vec.set_of_lt _ h1]
      refine ⟨_, rfl, ?_⟩
      intro l hl
      rw [Vec.get_update, Vec.get_update]
      split_ifs with hl1 hl0
      · rw [hl1, mirrored_eq (by decide : 1 < 2)]
        exact (Vec.get_of_lt src h0).symm
      · have hplace : mirrored 2 (2 * k) = 2 * k + 1 := mirrored_eq (j := 0) (by decide)
        rw [hl0, Fin.val_mk, hplace]
        exact (Vec.get_of_lt src h1).symm
      · simp only at hl0 hl1
        exact hr l (by omega)
  obtain ⟨r, hr, hlanes⟩ := hspec
  rw [hr]
  apply congrArg some
  funext i
  apply Option.some.inj
  rw [← Vec.get_fin src, ← Vec.get_fin r]
  exact hlanes i (i.isLt.trans_eq hn)

end Elfconv.AArch64
