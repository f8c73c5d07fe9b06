/-
Elfconv/Lib/Reaching.lean

Code over registers, and a run that forgets some of them at the start of each block.

An instruction loads registers and stores others; `operands` are the values that a list of
instructions loads.  The forgetful run takes the blocks of a path one by one.  At the start of
each it keeps the registers of a list, and all others get the value back that they had at
first; what is kept at the start of the first block is undefined.

`loadsSame_iff` says when this makes no difference on any path.  A register that was stored on
the way to a block and is loaded from there on before it is stored again has to be kept
(`Faithful.kept`), and no block may load a register that was kept all the way from the first
block on without a store (`Faithful.defined`).
-/
import Mathlib.Logic.Relation
import Mathlib.Data.List.Chain
import Mathlib.Tactic.Common

namespace Reaching

universe u v w

/-- The registers that an instruction loads and stores. -/
structure Code (ι : Type u) (R : Type v) where
  loads : ι → List R
  stores : ι → List R

variable {ι : Type u} {R : Type v} {V : Type w} [DecidableEq R] (c : Code ι R)

/-! ### Straight-line code -/

section Straight

variable (sem : ι → List V → R → V)

/-- The registers after an instruction; `sem` is what it leaves in those it stores. -/
def exec (i : ι) (regs : R → V) : R → V := fun r =>
  if r ∈ c.stores i then sem i ((c.loads i).map regs) r else regs r

/-- A list of instructions, one after another. -/
def execAll (l : List ι) (regs : R → V) : R → V := l.foldl (fun regs i => exec c sem i regs) regs

/-- The values that the instructions load. -/
def operands : List ι → (R → V) → List (List V)
  | [], _ => []
  | i :: l, regs => (c.loads i).map regs :: operands l (exec c sem i regs)

/-- The register is stored by an instruction of the list. -/
def Stored (l : List ι) (r : R) : Prop := ∃ i ∈ l, r ∈ c.stores i

/-- The register is loaded before it is stored. -/
def Exposed : List ι → R → Prop
  | [], _ => False
  | i :: l, r => r ∈ c.loads i ∨ r ∉ c.stores i ∧ Exposed l r

variable {c sem} {l l' : List ι} {regs regs' : R → V} {r : R}

omit [DecidableEq R] in
/-- A list stores what its first instruction or the rest stores. -/
theorem stored_cons {i : ι} : Stored c (i :: l) r ↔ r ∈ c.stores i ∨ Stored c l r := by
  simp only [Stored, List.mem_cons, exists_eq_or_imp]

/-- The operands of two lists, the second from where the first ends. -/
theorem operands_append :
    operands c sem (l ++ l') regs =
      operands c sem l regs ++ operands c sem l' (execAll c sem l regs) := by
  induction l generalizing regs with
  | nil => rfl
  | cons i l ih => exact congrArg (_ :: ·) ih

theorem length_operands : (operands c sem l regs).length = l.length := by
  induction l generalizing regs with
  | nil => rfl
  | cons i l ih => exact congrArg (· + 1) ih

/-- A register that is not stored is unchanged. -/
theorem execAll_of_not_stored (h : ¬ Stored c l r) : execAll c sem l regs r = regs r := by
  induction l generalizing regs with
  | nil => rfl
  | cons i l ih =>
      rw [stored_cons, not_or] at h
      show execAll c sem l (exec c sem i regs) r = _
      rw [ih h.2]
      exact if_neg h.1

/-- **Registers that agree where they are loaded give the same operands**, and the same values
wherever something is stored. -/
theorem operands_congr (h : ∀ r, Exposed c l r → regs r = regs' r) :
    operands c sem l regs = operands c sem l regs' ∧
      ∀ r, Stored c l r → execAll c sem l regs r = execAll c sem l regs' r := by
  -- over the instructions: behind the first, the values agree where they are loaded next
  induction l generalizing regs regs' with
  | nil => exact ⟨rfl, fun r ⟨i, hi, _⟩ => absurd hi List.not_mem_nil⟩
  | cons i l ih =>
      have hloads : (c.loads i).map regs = (c.loads i).map regs' :=
        List.map_congr_left fun r hr => h r (.inl hr)
      have hexec : ∀ r, r ∈ c.stores i → exec c sem i regs r = exec c sem i regs' r := by
        intro r hr
        simp only [exec, if_pos hr, hloads]
      have hnext : ∀ r, Exposed c l r → exec c sem i regs r = exec c sem i regs' r := by
        intro r hr
        by_cases hs : r ∈ c.stores i
        · exact hexec r hs
        · simp only [exec, if_neg hs]
          exact h r (.inr ⟨hs, hr⟩)
      obtain ⟨hops, hstored⟩ := ih hnext
      refine ⟨?_, fun r hr => ?_⟩
      · show _ :: operands c sem l _ = _ :: operands c sem l _
        rw [hloads, hops]
      · show execAll c sem l (exec c sem i regs) r = execAll c sem l (exec c sem i regs') r
        by_cases hl : Stored c l r
        · exact hstored r hl
        · rw [execAll_of_not_stored hl, execAll_of_not_stored hl]
          exact hexec r ((stored_cons.mp hr).resolve_right hl)

variable (sem) in
/-- Two values of a register that is loaded show in the operands. -/
theorem operands_ne (hr : Exposed c l r) (h : regs r ≠ regs' r) :
    operands c sem l regs ≠ operands c sem l regs' := by
  intro heq
  induction l generalizing regs regs' with
  | nil => exact hr
  | cons i l ih =>
      obtain ⟨hhead, htail⟩ := List.cons.inj heq
      rcases hr with hr | ⟨hs, hr⟩
      · exact h (List.map_inj_left.mp hhead r hr)
      · apply ih hr _ htail
        simp only [exec, if_neg hs]
        exact h

end Straight

/-! ### Paths -/

variable {β : Type u} (body : β → List ι) (edge : β → β → Prop) (entry : β)

/-- The register is loaded from the block on, before it is stored. -/
inductive Live (r : R) : β → Prop
  | here {b : β} : Exposed c (body b) r → Live r b
  | later {b b' : β} : ¬ Stored c (body b) r → edge b b' → Live r b' → Live r b

/-- The register is stored on some way to the block. -/
def Arrives (r : R) (b : β) : Prop :=
  ∃ p, Relation.ReflTransGen edge entry p ∧ Stored c (body p) r ∧ Relation.TransGen edge p b

section Kept

variable (keeps : β → R → Prop)

/-- The register is kept from the first block on, and not stored on the way. -/
inductive Undefined (r : R) : β → Prop
  | entry : keeps entry r → Undefined r entry
  | edge {p b : β} : Undefined r p → ¬ Stored c (body p) r → edge p b → keeps b r → Undefined r b

/-- What arrives at a block and is live there is kept, and nothing undefined is loaded. -/
structure Faithful : Prop where
  kept : ∀ r b, Arrives c body edge entry r b → Live c body edge r b → keeps b r
  defined : ∀ r b, Undefined c body edge entry keeps r b → ¬ Exposed c (body b) r

end Kept

variable (keep : β → List R)

/-- The start of a block. -/
def enter (first : R → V) (kept : List R) (regs : R → V) : R → V := fun r =>
  if r ∈ kept then regs r else first r

section Run

variable (sem : ι → List V → R → V) (first : R → V)

/-- The values that the forgetful run loads on a path. -/
def forgetful : List β → (R → V) → List (List V)
  | [], _ => []
  | b :: path, regs =>
      operands c sem (body b) (enter first (keep b) regs) ++
        forgetful path (execAll c sem (body b) (enter first (keep b) regs))

end Run

/-- On every path from the first block the forgetful run loads what a run that forgets
nothing loads. -/
def LoadsSame : Prop :=
  ∀ path : List β, List.IsChain edge (entry :: path) → ∀ (V : Type) (sem : ι → List V → R → V)
    (first undefined : R → V),
    forgetful c body keep sem first (entry :: path) undefined =
      operands c sem ((entry :: path).flatMap body) first

section

variable {c body edge entry keep} {sem : ι → List V → R → V} {first regs regs' : R → V} {r : R}
  {b b' : β} {path : List β}

omit [DecidableEq R] in
/-- What arrives at a block arrives at the next one. -/
theorem Arrives.step (h : Arrives c body edge entry r b) (hedge : edge b b') :
    Arrives c body edge entry r b' := by
  obtain ⟨p, hp, hs, hpb⟩ := h
  exact ⟨p, hp, hs, hpb.tail hedge⟩

/-! ### Keeping is enough -/

/-- What holds of the registers of the two runs at the start of a block. -/
structure Agree (c : Code ι R) (body : β → List ι) (edge : β → β → Prop) (entry : β)
    (keep : β → List R) (first regs regs' : R → V) (b : β) : Prop where
  reach : Relation.ReflTransGen edge entry b
  live : ∀ r, Live c body edge r b →
    enter first (keep b) regs r = regs' r ∨ Undefined c body edge entry (fun b r => r ∈ keep b) r b
  old : ∀ r, ¬ Arrives c body edge entry r b → regs' r = first r

variable (hf : Faithful c body edge entry fun b r => r ∈ keep b)

include hf

/-- Where the runs agree, a load that comes before a store reads the same. -/
theorem Agree.exposed (h : Agree c body edge entry keep first regs regs' b)
    (hr : Exposed c (body b) r) : enter first (keep b) regs r = regs' r :=
  (h.live r (.here hr)).resolve_right fun hu => hf.defined r b hu hr

/-- **The runs agree at the start of the next block.** -/
theorem Agree.next (h : Agree c body edge entry keep first regs regs' b) (hedge : edge b b') :
    Agree c body edge entry keep first
      (execAll c sem (body b) (enter first (keep b) regs)) (execAll c sem (body b) regs') b' := by
  have hold : ∀ r, ¬ Arrives c body edge entry r b' →
      execAll c sem (body b) regs' r = first r := by
    intro r hr
    have hs : ¬ Stored c (body b) r := fun hs => hr ⟨b, h.reach, hs, .single hedge⟩
    rw [execAll_of_not_stored hs]
    apply h.old
    exact fun ha => hr (ha.step hedge)
  refine ⟨h.reach.tail hedge, fun r hr => ?_, hold⟩
  by_cases hk : r ∈ keep b'
  · simp only [enter, if_pos hk]
    by_cases hs : Stored c (body b) r
    · exact .inl ((operands_congr fun r hr => h.exposed hf hr).2 r hs)
    · rw [execAll_of_not_stored hs, execAll_of_not_stored hs]
      rcases h.live r (.later hs hedge hr) with heq | hu
      · exact .inl heq
      · exact .inr (.edge hu hs hedge hk)
  · -- it was not stored, so the first value is still there
    left
    simp only [enter, if_neg hk]
    exact (hold r fun ha => hk (hf.kept r b' ha hr)).symm

/-- Where the runs agree, they go on with the same operands, by induction on the path. -/
theorem forgetful_of_agree (h : Agree c body edge entry keep first regs regs' b)
    (hpath : List.IsChain edge (b :: path)) :
    forgetful c body keep sem first (b :: path) regs =
      operands c sem ((b :: path).flatMap body) regs' := by
  induction path generalizing b regs regs' with
  | nil =>
      rw [List.flatMap_singleton, ← (operands_congr fun r hr => h.exposed hf hr).1]
      exact List.append_nil _
  | cons b' path ih =>
      rw [List.isChain_cons_cons] at hpath
      rw [List.flatMap_cons, operands_append, ← ih (h.next hf hpath.1) hpath.2,
        ← (operands_congr fun r hr => h.exposed hf hr).1]
      rfl

omit hf

/-- The runs agree at the entry. -/
theorem agree_start (undefined : R → V) :
    Agree c body edge entry keep first undefined first entry := by
  refine ⟨.refl, fun r _ => ?_, fun _ _ => rfl⟩
  by_cases hk : r ∈ keep entry
  · exact .inr (.entry hk)
  · exact .inl (if_neg hk)

/-! ### Keeping is needed -/

section Needed

/-- Every store leaves `true`. -/
def marks : ι → List Bool → R → Bool := fun _ _ _ => true

/-- Marks stay, and stores make marks. -/
theorem execAll_marks {regs : R → Bool} {l : List ι} (h : regs r = true ∨ Stored c l r) :
    execAll c marks l regs r = true := by
  induction l generalizing regs with
  | nil =>
      rcases h with h | ⟨i, hi, -⟩
      · exact h
      · exact absurd hi List.not_mem_nil
  | cons i l ih =>
      show execAll c marks l (exec c marks i regs) r = true
      apply ih
      by_cases hi : r ∈ c.stores i
      · exact .inl (if_pos hi)
      · rw [stored_cons, or_iff_right hi] at h
        exact h.imp_left fun hr => (if_neg hi).trans hr

/-- The two runs load different values from here on. -/
def Differ (c : Code ι R) (body : β → List ι) (edge : β → β → Prop) (keep : β → List R)
    (regs regs' : R → Bool) (b : β) : Prop :=
  ∃ path, List.IsChain edge (b :: path) ∧
    forgetful c body keep marks (fun _ => false) (b :: path) regs ≠
      operands c marks ((b :: path).flatMap body) regs'

variable {regs regs' : R → Bool}

/-- Registers that differ where they are loaded give different operands. -/
theorem Differ.of_exposed (hr : Exposed c (body b) r)
    (h : enter (fun _ => false) (keep b) regs r ≠ regs' r) :
    Differ c body edge keep regs regs' b := by
  refine ⟨[], List.isChain_singleton b, fun heq => ?_⟩
  have hne := operands_ne marks hr h
  apply hne
  rw [List.flatMap_singleton] at heq
  exact (List.append_nil _).symm.trans heq

/-- A difference on the rest of a path is one on the path. -/
theorem Differ.of_next (hedge : edge b b')
    (h : Differ c body edge keep
      (execAll c marks (body b) (enter (fun _ => false) (keep b) regs))
      (execAll c marks (body b) regs') b') :
    Differ c body edge keep regs regs' b := by
  obtain ⟨path, hpath, hne⟩ := h
  refine ⟨b' :: path, List.isChain_cons_cons.mpr ⟨hedge, hpath⟩, fun heq => hne ?_⟩
  rw [List.flatMap_cons, operands_append] at heq
  have hlength : (operands c marks (body b) (enter (fun _ => false) (keep b) regs)).length =
      (operands c marks (body b) regs').length := by
    rw [length_operands, length_operands]
  exact (List.append_inj heq hlength).2

/-- A stored value that was forgotten is missed where the register is loaded. -/
theorem Live.differ (hr : Live c body edge r b)
    (h : enter (fun _ => false) (keep b) regs r = false) (h' : regs' r = true) :
    Differ c body edge keep regs regs' b := by
  induction hr generalizing regs regs' with
  | here hr =>
      apply Differ.of_exposed hr
      rw [h, h']
      exact Bool.false_ne_true
  | @later b b' hs hedge _ ih =>
      apply Differ.of_next hedge
      apply ih
      · simp only [enter]
        split
        · rw [execAll_of_not_stored hs]
          exact h
        · rfl
      · rw [execAll_of_not_stored hs]
        exact h'

/-- The runs of a way to a block; what is `true` stays so in the run that forgets nothing. -/
theorem Differ.of_reach {a : β} (h : Relation.ReflTransGen edge a b) (regs regs' : R → Bool) :
    ∃ regs₁ regs₁', (∀ r, regs' r = true → regs₁' r = true) ∧
      (Differ c body edge keep regs₁ regs₁' b → Differ c body edge keep regs regs' a) := by
  induction h using Relation.ReflTransGen.head_induction_on generalizing regs regs' with
  | refl => exact ⟨regs, regs', fun _ => id, id⟩
  | head hedge _ ih =>
      obtain ⟨regs₁, regs₁', htrue, hdiffer⟩ := ih _ _
      exact ⟨regs₁, regs₁', fun r hr => htrue r (execAll_marks (.inl hr)),
        fun hd => Differ.of_next hedge (hdiffer hd)⟩

variable (keep) in
/-- Along the way on which a store arrives, the runs can be told apart from the entry on. -/
theorem Arrives.exists_regs (h : Arrives c body edge entry r b) (regs regs' : R → Bool) :
    ∃ regs₁ regs₁', regs₁' r = true ∧
      (Differ c body edge keep regs₁ regs₁' b → Differ c body edge keep regs regs' entry) := by
  obtain ⟨p, hp, hs, hpb⟩ := h
  obtain ⟨regs₁, regs₁', -, hto⟩ := Differ.of_reach hp regs regs'
  obtain ⟨p', hedge, hfrom⟩ := Relation.TransGen.head'_iff.mp hpb
  obtain ⟨regs₂, regs₂', htrue, hdiffer⟩ := Differ.of_reach hfrom
    (execAll c marks (body p) (enter (fun _ => false) (keep p) regs₁))
    (execAll c marks (body p) regs₁')
  exact ⟨regs₂, regs₂', htrue r (execAll_marks (.inr hs)),
    fun hd => hto (Differ.of_next hedge (hdiffer hd))⟩

/-- Along a way without a store, an undefined value is kept from the entry on. -/
theorem Undefined.exists_regs (h : Undefined c body edge entry (fun b r => r ∈ keep b) r b) :
    ∃ regs₁ regs₁', enter (fun _ => false) (keep b) regs₁ r = true ∧ regs₁' r = false ∧
      (Differ c body edge keep regs₁ regs₁' b →
        Differ c body edge keep (fun _ => true) (fun _ => false) entry) := by
  induction h with
  | entry hk => exact ⟨fun _ => true, fun _ => false, if_pos hk, rfl, id⟩
  | edge _ hs hedge hk ih =>
      obtain ⟨regs₁, regs₁', htrue, hfalse, hdiffer⟩ := ih
      refine ⟨_, _, ?_, ?_, fun hd => hdiffer (Differ.of_next hedge hd)⟩
      · simp only [enter, if_pos hk]
        rw [execAll_of_not_stored hs]
        exact htrue
      · rw [execAll_of_not_stored hs]
        exact hfalse

end Needed

/-- **Forgetting makes no difference exactly when what arrives is kept where it is live.** -/
theorem loadsSame_iff : LoadsSame c body edge entry keep ↔
    Faithful c body edge entry fun b r => r ∈ keep b := by
  constructor
  · intro hsame
    have hnot : ¬ Differ c body edge keep (fun _ => true) (fun _ => false) entry := by
      rintro ⟨path, hpath, hne⟩
      exact hne (hsame path hpath Bool marks _ _)
    refine ⟨fun r b ha hl => ?_, fun r b hu hr => ?_⟩
    · by_contra hk
      obtain ⟨regs, regs', htrue, hdiffer⟩ := ha.exists_regs keep (fun _ => true) fun _ => false
      apply hnot
      apply hdiffer
      exact hl.differ (if_neg hk) htrue
    · obtain ⟨regs, regs', htrue, hfalse, hdiffer⟩ := hu.exists_regs
      apply hnot
      apply hdiffer
      apply Differ.of_exposed hr
      rw [htrue, hfalse]
      exact Bool.false_ne_true.symm
  · intro hf path hpath V sem first undefined
    exact forgetful_of_agree hf (agree_start undefined) hpath

end

end Reaching
