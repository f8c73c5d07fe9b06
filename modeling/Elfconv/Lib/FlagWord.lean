/-
Elfconv/Lib/FlagWord.lean

Words of flags, and their translation in place.

A flag is a set of bits.  A translation goes through a list of pairs: where the word has the
source flag, its bits are cleared and those of the target are set.  Sources and targets live in
the same word, so a target may look like the source of a later pair.  `NeverRetested` says that
this does not happen; then the result is what was asked for and what no pair speaks of
(`rewriteAll_eq`).
-/
import Mathlib.Data.BitVec
import Mathlib.Tactic.Common

namespace FlagWord

variable {n : Nat}

/-! ### Flags -/

/-- The word has all the bits of the flag. -/
def Has (f s : BitVec n) : Prop := f &&& s = s

instance (f s : BitVec n) : Decidable (Has f s) := inferInstanceAs (Decidable (f &&& s = s))

/-- The words have no bit in common. -/
def Apart (f s : BitVec n) : Prop := f &&& s = 0#n

instance (f s : BitVec n) : Decidable (Apart f s) := inferInstanceAs (Decidable (f &&& s = 0#n))

variable {f g s t : BitVec n}

/-- A word has the flags when it has each of their bits. -/
theorem has_iff : Has f s ↔ ∀ i, s.getLsbD i = true → f.getLsbD i = true := by
  constructor
  · intro h i hs
    rw [← h, BitVec.getLsbD_and, Bool.and_eq_true] at hs
    exact hs.1
  · intro h
    apply BitVec.eq_of_getLsbD_eq
    intro i _
    rw [BitVec.getLsbD_and]
    exact Bool.and_eq_right_iff_imp.mpr (h i)

/-- Two words are apart when they share no bit. -/
theorem apart_iff : Apart f s ↔ ∀ i, f.getLsbD i = true → s.getLsbD i = false := by
  constructor
  · intro h i hf
    have hi := congrArg (BitVec.getLsbD · i) h
    rw [BitVec.getLsbD_and, hf, Bool.true_and] at hi
    exact hi.trans BitVec.getLsbD_zero
  · intro h
    apply BitVec.eq_of_getLsbD_eq
    intro i _
    rw [BitVec.getLsbD_and, BitVec.getLsbD_zero, Bool.and_eq_false_imp]
    exact h i

@[simp] theorem has_zero : Has f 0#n := BitVec.and_zero

theorem Has.refl (f : BitVec n) : Has f f := BitVec.and_self

/-- Flags that two words have are in their common bits. -/
theorem Has.and (h : Has f s) (h' : Has g s) : Has (f &&& g) s := by
  unfold Has
  rw [BitVec.and_assoc, h', h]

/-- Two sets of flags are there when each is. -/
theorem has_or_right : Has f (s ||| t) ↔ Has f s ∧ Has f t := by
  simp only [has_iff, BitVec.getLsbD_or, Bool.or_eq_true, or_imp, forall_and]

/-- Setting more bits keeps the flags. -/
theorem has_or_of_left (h : Has f s) : Has (f ||| g) s := by
  rw [has_iff] at *
  intro i hi
  rw [BitVec.getLsbD_or, h i hi, Bool.true_or]

theorem has_or_of_right (h : Has g s) : Has (f ||| g) s := by
  rw [BitVec.or_comm]
  exact has_or_of_left h

/-- Flags that are there change nothing when they are set. -/
theorem Has.or_eq (h : Has f s) : s ||| f = f := by
  apply BitVec.eq_of_getLsbD_eq
  intro i _
  rw [BitVec.getLsbD_or]
  exact Bool.or_eq_right_iff_imp.mpr (has_iff.mp h i)

/-- A word is a part of it, within a mask, when the rest adds nothing there. -/
theorem or_and_eq_iff (h : Has t s) : (f ||| s) &&& t = s ↔ Has s (f &&& t) := by
  have hs : (f ||| s) &&& t = f &&& t ||| s := by
    rw [BitVec.and_or_distrib_right, BitVec.and_comm s, show t &&& s = s from h]
  rw [hs]
  constructor
  · intro heq
    rw [← heq]
    exact has_or_of_left (.refl _)
  · exact fun hadd => hadd.or_eq

/-- A union is apart when its parts are. -/
theorem apart_or_left : Apart (f ||| g) s ↔ Apart f s ∧ Apart g s := by
  simp only [apart_iff, BitVec.getLsbD_or, Bool.or_eq_true, or_imp, forall_and]

theorem apart_comm : Apart f s ↔ Apart s f := by
  unfold Apart
  rw [BitVec.and_comm]

/-! ### Translation -/

/-- A flag and the one that it is replaced by. -/
structure Rewrite (n : Nat) where
  source : BitVec n
  target : BitVec n

/-- The source bits are taken out and the target bits put in, when the source is there. -/
def Rewrite.apply (r : Rewrite n) (f : BitVec n) : BitVec n :=
  if Has f r.source then f &&& ~~~r.source ||| r.target else f

/-- The pairs are tried in turn on the one word. -/
def rewriteAll (l : List (Rewrite n)) (f : BitVec n) : BitVec n :=
  l.foldl (fun f r => r.apply f) f

/-- No bit that an earlier pair has set is tested: `f` is the word, `placed` are the bits that
have been set. -/
def NeverRetested : List (Rewrite n) → BitVec n → BitVec n → Prop
  | [], _, _ => True
  | r :: l, f, placed => Apart placed r.source ∧
      NeverRetested l (r.apply f) (if Has f r.source then placed ||| r.target else placed)

/-- The targets of the pairs whose source the word has. -/
def asked : List (Rewrite n) → BitVec n → BitVec n
  | [], _ => 0#n
  | r :: l, f => (if Has f r.source then r.target else 0#n) ||| asked l f

/-- The sources that the word has. -/
def found : List (Rewrite n) → BitVec n → BitVec n
  | [], _ => 0#n
  | r :: l, f => (if Has f r.source then r.source else 0#n) ||| found l f

/-- The targets that are asked for have no bit of the source of a later pair, and neither has
`placed`. -/
def TargetsApart (f : BitVec n) : BitVec n → List (Rewrite n) → Prop
  | _, [] => True
  | placed, r :: l => Apart placed r.source ∧
      TargetsApart f (if Has f r.source then placed ||| r.target else placed) l

/-- The sources have no bit in common. -/
def SourcesApart (l : List (Rewrite n)) : Prop :=
  l.Pairwise fun r r' => Apart r.source r'.source

/-- The word after some of the pairs: `cleared` is what has been found of `f`. -/
theorem has_running {cleared placed : BitVec n} (hc : Apart cleared s) (hp : Apart placed s) :
    Has (f &&& ~~~cleared ||| placed) s ↔ Has f s := by
  rw [apart_comm, apart_iff] at hc hp
  simp only [has_iff]
  refine forall_congr' fun i => imp_congr_right fun hi => ?_
  have hlt : i < n := BitVec.lt_of_getLsbD hi
  rw [BitVec.getLsbD_or, BitVec.getLsbD_and, BitVec.getLsbD_not, hc i hi, hp i hi]
  simp [hlt]

/-- One pair on the word after some of the pairs. -/
theorem apply_running {r : Rewrite n} {cleared placed : BitVec n} (hc : Apart cleared r.source)
    (hp : Apart placed r.source) :
    r.apply (f &&& ~~~cleared ||| placed) =
      f &&& ~~~(cleared ||| if Has f r.source then r.source else 0#n) |||
        (if Has f r.source then placed ||| r.target else placed) := by
  unfold Rewrite.apply
  by_cases h : Has f r.source
  · rw [if_pos ((has_running hc hp).mpr h), if_pos h, if_pos h]
    apply BitVec.eq_of_getLsbD_eq
    intro i hi
    rw [apart_iff] at hp
    simp only [BitVec.getLsbD_or, BitVec.getLsbD_and, BitVec.getLsbD_not, hi, decide_true,
      Bool.true_and]
    have hpi := hp i
    cases hplaced : placed.getLsbD i with
    | false => simp [Bool.and_assoc]
    | true => simp [hpi hplaced]
  · rw [if_neg (mt (has_running hc hp).mp h), if_neg h, if_neg h, BitVec.or_zero]

section Running

variable {l : List (Rewrite n)} {cleared placed : BitVec n}

variable (f cleared placed) in
/-- Whether a pair meets a bit that was placed, after some of the pairs. -/
theorem neverRetested_running (hl : SourcesApart l) (hc : ∀ r ∈ l, Apart cleared r.source) :
    NeverRetested l (f &&& ~~~cleared ||| placed) placed ↔ TargetsApart f placed l := by
  induction l generalizing cleared placed with
  | nil => exact Iff.rfl
  | cons r l ih =>
      rw [SourcesApart, List.pairwise_cons] at hl
      refine and_congr_right fun hp => ?_
      have hr := hc r List.mem_cons_self
      rw [apply_running hr hp]
      simp only [has_running hr hp]
      apply ih _ _ hl.2
      intro r' hr'
      rw [apart_or_left]
      refine ⟨hc r' (List.mem_cons_of_mem _ hr'), ?_⟩
      split
      · exact hl.1 r' hr'
      · exact BitVec.zero_and

variable (f cleared) in
/-- What the remaining pairs make of the word. -/
theorem rewriteAll_running (hl : SourcesApart l) (hc : ∀ r ∈ l, Apart cleared r.source)
    (h : TargetsApart f placed l) :
    rewriteAll l (f &&& ~~~cleared ||| placed) =
      f &&& ~~~(cleared ||| found l f) ||| (placed ||| asked l f) := by
  induction l generalizing cleared placed with
  | nil => simp [rewriteAll, found, asked]
  | cons r l ih =>
      rw [SourcesApart, List.pairwise_cons] at hl
      have hr := hc r List.mem_cons_self
      show rewriteAll l (r.apply _) = _
      rw [apply_running hr h.1, ih _ hl.2 ?_ h.2, found, asked, BitVec.or_assoc]
      · split
        · rw [BitVec.or_assoc]
        · rw [BitVec.zero_or, BitVec.zero_or]
      · intro r' hr'
        rw [apart_or_left]
        refine ⟨hc r' (List.mem_cons_of_mem _ hr'), ?_⟩
        split
        · exact hl.1 r' hr'
        · exact BitVec.zero_and

end Running

variable {l : List (Rewrite n)}

/-- Whether a pair meets a bit that was placed, from the start. -/
theorem neverRetested_iff (hl : SourcesApart l) : NeverRetested l f 0#n ↔ TargetsApart f 0#n l := by
  have h := neverRetested_running f 0#n 0#n hl fun _ _ =>
    BitVec.zero_and
  simpa using h

/-- **What is asked for takes the place of what was found.** -/
theorem rewriteAll_eq (hl : SourcesApart l) (h : NeverRetested l f 0#n) :
    rewriteAll l f = f &&& ~~~found l f ||| asked l f := by
  have hrun := rewriteAll_running f 0#n hl
    (fun _ _ => BitVec.zero_and) ((neverRetested_iff hl).mp h)
  simpa using hrun

end FlagWord
