/-
Elfconv/VirtualRegs/Loops.lean

The bags that `RemoveLoop` leaves are the strongly connected components of the function.

`Components` is the purpose of loop removal in the terms of the function alone: which
blocks share a bag, which bags are parents and children of each other, how many there are
and what registers they hold.  `removeLoop_components` is the result for every function
all of whose blocks are reachable and for every order of the bags by address.
-/
import Elfconv.VirtualRegs.Preceding

namespace Elfconv

open Component

variable {β : Type} [Fintype β] [DecidableEq β] {f : BlockGraph β} {g : BagGraph β} {a b : β}

/-- Bag `a` has `b` among its children. -/
def BagGraph.Child (g : BagGraph β) (a b : β) : Prop :=
  g.GetTrueBag a = a ∧ b ∈ (g.node a).children

/-- The bags are the components of the function. -/
structure Components (f : BlockGraph β) (g : BagGraph β) : Prop where
  same_bag : ∀ a b, g.GetTrueBag a = g.GetTrueBag b ↔ Mutual f.Edge a b
  acyclic : ∀ b, ¬ Relation.TransGen g.Child b b
  converse : ∀ a b, g.GetTrueBag a = a → g.GetTrueBag b = b →
    (a ∈ (g.node b).parents ↔ b ∈ (g.node a).children)
  children : ∀ b, g.GetTrueBag b = b → ∀ c ∈ (g.node b).children, g.GetTrueBag c = c ∧ c ≠ b
  parents : ∀ b, g.GetTrueBag b = b → ∀ p ∈ (g.node b).parents, g.GetTrueBag p = p ∧ p ≠ b
  edges : ∀ a b, g.GetTrueBag a = a → g.GetTrueBag b = b → a ≠ b →
    (b ∈ (g.node a).children ↔ ∃ u v, g.GetTrueBag u = a ∧ g.GetTrueBag v = b ∧ f.Edge u v)
  bag_num : g.bag_num = (Finset.univ.image g.GetTrueBag).card
  own_ld : ∀ b, g.GetTrueBag b = b → ∀ er,
    Widest (fun erc => ∃ x, g.GetTrueBag x = b ∧ f.bb_ld_r_mp x er = some erc)
      ((g.node b).own_ld_rmp er)
  own_str : ∀ b, g.GetTrueBag b = b → ∀ er,
    Widest (fun erc => ∃ x, g.GetTrueBag x = b ∧ f.bb_str_r_mp x er = some erc)
      ((g.node b).own_str_rmp er)

/-- The children are the edges of the graph of the bags. -/
theorem BagDag.child_iff (h : BagDag f g) : g.Child a b ↔ g.Edge f a b := by
  constructor
  · rintro ⟨ha, hb⟩
    exact (h.children a ha b).mp hb
  · intro hab
    have ha := (h.edge_true hab).1
    exact ⟨ha, (h.children a ha b).mpr hab⟩

theorem LoopFree.components (h : LoopFree f g) : Components f g := by
  have hchild : g.Child = g.Edge f := by
    funext a b
    exact propext h.child_iff
  refine ⟨h.true_eq_iff, ?_, fun a b ha hb => ?_, fun b hb c hc => ?_, fun b hb p hp => ?_,
    fun a b ha hb hne => ?_, ?_, h.own_ld, h.own_str⟩
  · rw [hchild]
    exact h.acyclic
  · rw [h.parents b hb, h.children a ha]
  · have hedge := (h.children b hb c).mp hc
    exact ⟨(h.edge_true hedge).2, hedge.1.symm⟩
  · have hedge := (h.parents b hb p).mp hp
    exact ⟨(h.edge_true hedge).1, hedge.1⟩
  · rw [h.children a ha]
    exact and_iff_right hne
  · -- the true bags are the images of the blocks
    rw [h.bag_num]
    congr 1
    ext b
    simp only [Finset.mem_filter, Finset.mem_univ, true_and, Finset.mem_image]
    constructor
    · exact fun hb => ⟨b, hb⟩
    · rintro ⟨x, rfl⟩
      exact h.getTrueBag_idem x

/-- **Loop removal ends without a failing check, with the components of the function as
bags.** -/
theorem removeLoop_components (f : BlockGraph β) (order : PtrOrder β) (uninit : β → Bool)
    (hreach : ∀ b, Reach f.Edge f.entry b) :
    ∃ g, Machine.Halts (RemoveLoop.step order) (RemoveLoop.start f order uninit) (some g) ∧
      Components f g := by
  obtain ⟨g, hg, hfree⟩ := RemoveLoop.removeLoop_halts f order uninit hreach
  exact ⟨g, hg, hfree.components⟩

/-! ### An endless loop -/

/-- The entry leads to a loop of two blocks without an exit, which read `X1` and `X0`. -/
def endlessLoop : BlockGraph (Fin 3) where
  entry := 0
  bb_parents := fun
    | 0 => ∅
    | 1 => {0, 2}
    | 2 => {1}
  bb_ld_r_mp := fun
    | 0, _ => none
    | 1, er => if er = ⟨.General, 1⟩ then some .RegX else none
    | 2, er => if er = ⟨.General, 0⟩ then some .RegX else none
  bb_str_r_mp := fun _ _ => none

theorem endlessLoop_edge (a b : Fin 3) :
    endlessLoop.Edge a b ↔ (a = 0 ∧ b = 1) ∨ (a = 1 ∧ b = 2) ∨ (a = 2 ∧ b = 1) := by
  unfold BlockGraph.Edge endlessLoop
  revert a b
  decide

theorem endlessLoop_reach (b : Fin 3) : Reach endlessLoop.Edge endlessLoop.entry b := by
  have h₁ : endlessLoop.Edge 0 1 := (endlessLoop_edge 0 1).mpr (by decide)
  have h₂ : endlessLoop.Edge 1 2 := (endlessLoop_edge 1 2).mpr (by decide)
  match b with
  | 0 => exact .refl
  | 1 => exact .single h₁
  | 2 => exact (Relation.ReflTransGen.single h₁).tail h₂

/-- Every edge leads into the loop, so it is not left. -/
theorem endlessLoop_target {u v : Fin 3} (huv : endlessLoop.Edge u v) : v = 1 ∨ v = 2 := by
  rw [endlessLoop_edge] at huv
  omega

theorem endlessLoop_mutual (x : Fin 3) : Mutual endlessLoop.Edge x 1 ↔ x = 1 ∨ x = 2 := by
  constructor
  · rintro ⟨-, hback⟩
    induction hback with
    | refl => exact .inl rfl
    | tail _ hstep _ => exact endlessLoop_target hstep
  · have h₁ : endlessLoop.Edge 1 2 := (endlessLoop_edge 1 2).mpr (by decide)
    have h₂ : endlessLoop.Edge 2 1 := (endlessLoop_edge 2 1).mpr (by decide)
    rintro (rfl | rfl)
    · exact .refl 1
    · exact ⟨.single h₂, .single h₁⟩

/-- The blocks by number. -/
def byNumber : PtrOrder (Fin 3) := ⟨[0, 1, 2], by decide, by decide⟩

theorem removeLoop_components_endless :
    ∃ g, Machine.Halts (RemoveLoop.step byNumber)
        (RemoveLoop.start endlessLoop byNumber fun _ => false) (some g) ∧
      Components endlessLoop g :=
  removeLoop_components endlessLoop byNumber (fun _ => false) endlessLoop_reach

end Elfconv
