/-
Elfconv/Lib/Encoding.lean

Words that are made of fields, and decoders that look at fixed bits.

`pack` lays out bit vectors one above the other, the lowest first.  What is between two positions is
read back from the field that it lies in, and a word is known when it is known between all
positions.

A `Pattern` fixes the bits under a mask.  Two patterns conflict when they fix a bit in different
ways: no word matches both, so of several decoders that are tried in turn the one whose pattern
conflicts with all before it is the one that accepts.
-/
import Mathlib.Tactic.Common
import Mathlib.Data.BitVec

namespace Encoding

variable {n w k pos : ℕ}

/-! ### Fields -/

/-- The bits of a field. -/
structure Bits where
  width : ℕ
  value : BitVec width

/-- A field with its width. -/
def bits (b : BitVec n) : Bits := ⟨n, b⟩

/-- The word of the fields, the lowest first. -/
def pack (w : ℕ) : List Bits → BitVec w
  | [] => 0#w
  | b :: above => pack w above <<< b.width ||| b.value.setWidth w

/-- A bit of a word lies in its lowest field or in those above. -/
theorem getLsbD_pack_cons (b : BitVec n) (l : List Bits) (i : ℕ) :
    (pack w (bits b :: l)).getLsbD i =
      (decide (i < w) && if i < n then b.getLsbD i else (pack w l).getLsbD (i - n)) := by
  simp only [pack, bits, BitVec.getLsbD_or, BitVec.getLsbD_shiftLeft, BitVec.getLsbD_setWidth]
  by_cases hi : i < n
  · simp [hi]
  · rw [BitVec.getLsbD_of_ge b i (by omega)]
    simp [hi]

/-- Bits of the lowest field. -/
theorem extract_pack_low (b : BitVec n) (l : List Bits) (h : pos + k ≤ n) (hw : n ≤ w) :
    (pack w (bits b :: l)).extractLsb' pos k = b.extractLsb' pos k := by
  apply BitVec.eq_of_getLsbD_eq
  intro i hi
  rw [BitVec.getLsbD_extractLsb', BitVec.getLsbD_extractLsb', getLsbD_pack_cons,
    decide_eq_true (by omega : pos + i < w), if_pos (by omega), Bool.true_and]

/-- Bits of the fields above. -/
theorem extract_pack_high (b : BitVec n) (l : List Bits) (h : n ≤ pos) (hw : pos + k ≤ w) :
    (pack w (bits b :: l)).extractLsb' pos k = (pack w l).extractLsb' (pos - n) k := by
  apply BitVec.eq_of_getLsbD_eq
  intro i hi
  rw [BitVec.getLsbD_extractLsb', BitVec.getLsbD_extractLsb', getLsbD_pack_cons,
    decide_eq_true (by omega : pos + i < w), if_neg (by omega), Bool.true_and,
    (by omega : pos + i - n = pos - n + i)]

/-- The positions between two numbers are all in one of the pieces. -/
def covers (w : ℕ) (pieces : List (ℕ × ℕ)) : Bool :=
  (List.range w).all fun i => pieces.any fun p => p.1 ≤ i && i < p.1 + p.2

/-- A word is known by its pieces. -/
theorem ext_of_covers {x y : BitVec w} (pieces : List (ℕ × ℕ)) (hcovers : covers w pieces = true)
    (h : ∀ p ∈ pieces, x.extractLsb' p.1 p.2 = y.extractLsb' p.1 p.2) : x = y := by
  apply BitVec.eq_of_getLsbD_eq
  intro i hi
  have hany := List.all_eq_true.mp hcovers i (List.mem_range.mpr hi)
  obtain ⟨p, hp, hin⟩ := List.any_eq_true.mp hany
  rw [Bool.and_eq_true, decide_eq_true_iff, decide_eq_true_iff] at hin
  have hbit := congrArg (fun b => b.getLsbD (i - p.1)) (h p hp)
  simp only [BitVec.getLsbD_extractLsb', decide_eq_true (by omega : i - p.1 < p.2),
    Bool.true_and, (by omega : p.1 + (i - p.1) = i)] at hbit
  exact hbit

/-! ### Patterns -/

/-- The words whose bits under `mask` are those of `value`. -/
structure Pattern (w : ℕ) where
  mask : BitVec w
  value : BitVec w

namespace Pattern

variable (p q : Pattern w)

/-- The bits under the mask are those of the pattern. -/
def Matches (x : BitVec w) : Prop := x &&& p.mask = p.value

instance (x : BitVec w) : Decidable (p.Matches x) := inferInstanceAs (Decidable (_ = _))

/-- A bit is fixed in different ways. -/
def conflicts : Bool := p.value &&& q.mask != q.value &&& p.mask

variable {p q}

/-- Patterns that conflict share no word. -/
theorem not_matches_of_conflicts (h : p.conflicts q = true) {x : BitVec w} (hq : q.Matches x) :
    ¬ p.Matches x := by
  intro hp
  have hboth : p.value &&& q.mask = q.value &&& p.mask := by
    rw [← show x &&& p.mask = p.value from hp, ← show x &&& q.mask = q.value from hq,
      BitVec.and_assoc, BitVec.and_assoc, BitVec.and_comm p.mask]
  rw [conflicts, hboth, bne_self_eq_false] at h
  exact Bool.false_ne_true h

/-- Words that match a pattern agree where it fixes all bits. -/
theorem extract_of_matches {mask value x : BitVec w} (h : (⟨mask, value⟩ : Pattern w).Matches x)
    (hmask : mask.extractLsb' pos k = BitVec.allOnes k) :
    x.extractLsb' pos k = value.extractLsb' pos k := by
  rw [← show x &&& mask = value from h, BitVec.extractLsb'_and, hmask, BitVec.and_allOnes]

/-- A word matches when its pieces do. -/
theorem matches_of_pieces (pieces : List (ℕ × ℕ)) (hcovers : covers w pieces = true)
    {x : BitVec w} (h : ∀ r ∈ pieces, x.extractLsb' r.1 r.2 &&& p.mask.extractLsb' r.1 r.2 =
      p.value.extractLsb' r.1 r.2) : p.Matches x := by
  refine ext_of_covers pieces hcovers fun r hr => ?_
  rw [BitVec.extractLsb'_and]
  exact h r hr

end Pattern

/-! ### Decoders in turn -/

/-- A decoder: it accepts the words that match, and fills in the rest. -/
structure Extractor (w : ℕ) (α : Type) where
  pattern : Pattern w
  fill : BitVec w → α

variable {α : Type} {l : List (Extractor w α)} {e : Extractor w α} {x : BitVec w} {a : α}

/-- The decoder on a word. -/
def Extractor.run (e : Extractor w α) (x : BitVec w) : Option α :=
  if e.pattern.Matches x then some (e.fill x) else none

/-- The first of the decoders that accepts. -/
def firstOf (l : List (Extractor w α)) (x : BitVec w) : Option α := l.findSome? fun e => e.run x

/-- A decoder that conflicts with all before it is the one that accepts. -/
theorem firstOf_of_mem {p : Extractor w α → Prop}
    (hconflicts : l.Pairwise fun e' e => p e → e'.pattern.conflicts e.pattern = true)
    (he : e ∈ l) (hp : p e) (hx : e.pattern.Matches x) : firstOf l x = some (e.fill x) := by
  induction l with
  | nil => cases he
  | cons e' l ih =>
    rw [List.pairwise_cons] at hconflicts
    unfold firstOf
    rw [List.findSome?_cons]
    rcases List.mem_cons.mp he with rfl | hmem
    · rw [Extractor.run, if_pos hx]
    · rw [Extractor.run, if_neg (Pattern.not_matches_of_conflicts (hconflicts.1 e hmem hp) hx)]
      exact ih hconflicts.2 hmem

/-- What is accepted matches a pattern. -/
theorem exists_of_firstOf (h : firstOf l x = some a) :
    ∃ e ∈ l, e.pattern.Matches x ∧ e.fill x = a := by
  obtain ⟨e, he, hrun⟩ := List.exists_of_findSome?_eq_some h
  unfold Extractor.run at hrun
  split at hrun
  · rename_i hmatches
    exact ⟨e, he, hmatches, Option.some.inj hrun⟩
  · cases hrun

end Encoding
