/-
Elfconv/Lib/PostOrder.lean

Why a post-order walk with a stack ends.

The walk takes a node from the stack.  A finished node is dropped; a node whose successors
are all finished is finished; any other node goes back, below its unfinished successors.
Each of the three makes `measure` smaller when the edges have no cycle: the number of
unfinished nodes, and among equals the way down from the top of the stack, its `height`,
or the finished nodes on it.
-/
import Mathlib.Data.Finset.Card
import Mathlib.Data.Fintype.EquivFin
import Mathlib.Data.Prod.Lex
import Mathlib.Data.Set.Card
import Mathlib.Logic.Relation

namespace PostOrder

universe u

variable {α : Type u} [Fintype α] [DecidableEq α] {E : α → α → Prop} {fins : Finset α}
  {t : α} {stack rest : List α}

/-- The nodes behind a node. -/
noncomputable def height (E : α → α → Prop) (a : α) : Nat := {b | Relation.TransGen E a b}.ncard

omit [DecidableEq α] in
/-- Along an edge the height decreases. -/
theorem height_lt (hacyclic : ∀ a, ¬ Relation.TransGen E a a) {a b : α} (hab : E a b) :
    height E b < height E a := by
  refine Set.ncard_lt_ncard ⟨fun x hx => Relation.TransGen.head hab hx, fun hsub => ?_⟩
    (Set.toFinite _)
  exact hacyclic b (hsub (Relation.TransGen.single hab))

omit [DecidableEq α] in
/-- At most all nodes are behind a node. -/
theorem height_le (E : α → α → Prop) (a : α) : height E a ≤ Fintype.card α := by
  unfold height
  rw [← Nat.card_eq_fintype_card, ← Set.ncard_univ]
  exact Set.ncard_le_ncard (Set.subset_univ _) (Set.toFinite _)

/-- What is left to do before a node is finished: the way down from the top of the stack,
or the finished nodes on it. -/
noncomputable def pending (E : α → α → Prop) (fins : Finset α) : List α → Nat
  | [] => 0
  | a :: stack => if a ∈ fins then Fintype.card α + 1 + stack.length else height E a

/-- What is left to finish, and how much is on the stack. -/
noncomputable def measure (E : α → α → Prop) (fins : Finset α) (stack : List α) : Nat × Nat :=
  (Fintype.card α - fins.card, pending E fins stack)

/-- Fewer nodes to finish, or as many and less on the stack. -/
def Smaller (a b : Nat × Nat) : Prop := Prod.Lex (· < ·) (· < ·) a b

/-- The measure of the search cannot decrease forever. -/
theorem smaller_wf : WellFounded Smaller := WellFounded.prod_lex Nat.lt_wfRel.wf Nat.lt_wfRel.wf

/-- A node that is finished already is dropped from the stack. -/
theorem smaller_drop (ht : t ∈ fins) :
    Smaller (measure E fins rest) (measure E fins (t :: rest)) := by
  refine .right _ ?_
  rw [pending, if_pos ht]
  -- the next node is finished as well, or lower than any number of nodes
  rcases rest with - | ⟨a, rest⟩
  · exact Nat.succ_pos _
  · have hle := height_le E a
    simp only [pending, List.length_cons]
    split <;> omega

/-- A node is finished. -/
theorem smaller_finish (ht : t ∉ fins) (stack' : List α) :
    Smaller (measure E (insert t fins) stack') (measure E fins stack) := by
  refine .left _ _ ?_
  have hcard : (insert t fins).card ≤ Fintype.card α := Finset.card_le_univ _
  rw [Finset.card_insert_of_notMem ht] at hcard ⊢
  omega

/-- Some successor is not finished, and the one on top is lower than the node. -/
theorem smaller_push (hacyclic : ∀ a, ¬ Relation.TransGen E a a) (ht : t ∉ fins)
    {succs : List α} (hsuccs : ∀ a ∈ succs, E t a ∧ a ∉ fins) (hne : succs ≠ []) :
    Smaller (measure E fins (succs ++ t :: rest)) (measure E fins (t :: rest)) := by
  refine .right _ ?_
  rcases succs with - | ⟨a, succs⟩
  · exact absurd rfl hne
  · obtain ⟨hta, hfin⟩ := hsuccs a List.mem_cons_self
    rw [List.cons_append, pending, pending, if_neg hfin, if_neg ht]
    exact height_lt hacyclic hta

end PostOrder
