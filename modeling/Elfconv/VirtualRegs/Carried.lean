/-
Elfconv/VirtualRegs/Carried.lean

Which registers a block derives, in the terms of the function.

`contains_iff` reads `drvd_rmp` back to the blocks and their edges: a register is derived when
it is `Carried` to the block.  The analysis has three blind spots.  It looks for accesses only
strictly before the block, so what a loop stores is not carried inside the loop unless the loop
loads it too.  A block that only branches to itself is not a loop.  And of a loop without an
exit only the loads of one block are seen from outside, a block at which the loop is entered
(`Heads`).  Where it is entered at several, the search may come to any of them first.
-/
import Elfconv.VirtualRegs.DrvdClass
import Elfconv.VirtualRegs.LoopEntries
import Elfconv.VirtualRegs.LoopMarks

namespace Elfconv

open Component

variable {β : Type} [Fintype β] [DecidableEq β] {f : BlockGraph β} {g : BagGraph β}
  {order : PtrOrder β} {uninit : β → Bool} {a b : β} {er : EcvReg}

/-! ### Terms of the function -/

namespace BlockGraph

/-- A load of the register is entered for the block. -/
def Loads (f : BlockGraph β) (b : β) (er : EcvReg) : Prop := (f.bb_ld_r_mp b).contains er = true

/-- A store of the register is entered for the block. -/
def Stores (f : BlockGraph β) (b : β) (er : EcvReg) : Prop := (f.bb_str_r_mp b).contains er = true

/-- An edge leads out of the component of the block. -/
def HasExit (f : BlockGraph β) (b : β) : Prop :=
  ∃ u v, Mutual f.Edge u b ∧ f.Edge u v ∧ ¬ Mutual f.Edge v b

/-- The register is accessed strictly before the block. -/
def AccessedBefore (f : BlockGraph β) (b : β) (er : EcvReg) : Prop :=
  ∃ a, f.StrictlyBefore a b ∧ (f.Loads a er ∨ f.Stores a er)

/-- A block of each component at which it is entered. -/
structure Heads (f : BlockGraph β) (head : β → β) : Prop where
  component : ∀ b, Mutual f.Edge (head b) b
  same : ∀ a b, Mutual f.Edge a b → head a = head b
  entered : ∀ b, f.Entered (head b)

/-- Every loop without an exit is entered at one block. -/
def EnteredOnce (f : BlockGraph β) : Prop :=
  ∀ a b, Mutual f.Edge a b → ¬ f.HasExit a → f.Entered a → f.Entered b → a = b

/-- The register is loaded from the block on, by a component with an exit or by the head of one
without. -/
def SeenLater (f : BlockGraph β) (head : β → β) (b : β) (er : EcvReg) : Prop :=
  ∃ r, Reach f.Edge b r ∧ f.Loads r er ∧ (f.HasExit r ∨ head r = r)

/-- The register is handed to the block: it may be an argument and was stored before, the loop
of the block loads it, or it was accessed before and is loaded later. -/
def Carried (f : BlockGraph β) (uninit : β → Bool) (head : β → β) (b : β) (er : EcvReg) : Prop :=
  (er.CheckPassedArgsRegs = true ∧ ∃ a, f.StrictlyBefore a b ∧ f.Stores a er) ∨
    ((f.InLoop b ∨ uninit b = true) ∧ ∃ a, Mutual f.Edge a b ∧ f.Loads a er) ∨
    f.AccessedBefore b er ∧ f.SeenLater head b er

omit [Fintype β] [DecidableEq β] in
/-- Where there is no choice, all heads carry the same. -/
theorem EnteredOnce.carried_eq {head head' : β → β} (h : f.EnteredOnce) (hh : f.Heads head)
    (hh' : f.Heads head') : f.Carried uninit head = f.Carried uninit head' := by
  have hsame : ∀ r, ¬ f.HasExit r → head r = head' r := by
    intro r hr
    apply h _ _ ((hh.component r).trans (hh'.component r).symm) _ (hh.entered r) (hh'.entered r)
    rintro ⟨u, v, hu, huv, hv⟩
    exact hr ⟨u, v, hu.trans (hh.component r), huv, fun hvr => hv (hvr.trans (hh.component r).symm)⟩
  have hseen : ∀ b er, f.SeenLater head b er ↔ f.SeenLater head' b er := by
    intro b er
    refine exists_congr fun r => and_congr_right fun _ => and_congr_right fun _ => ?_
    by_cases hr : f.HasExit r
    · simp only [hr, true_or]
    · rw [hsame r hr]
  funext b er
  simp only [Carried, hseen]

end BlockGraph

/-! ### The maps of a bag -/

omit [Fintype β] [DecidableEq β] in
theorem exists_erc {mp : β → EcvRegMap} {P : β → Prop} :
    (∃ erc a, P a ∧ mp a er = some erc) ↔ ∃ a, P a ∧ (mp a).contains er = true := by
  constructor
  · rintro ⟨erc, a, ha, h⟩
    exact ⟨a, ha, Option.isSome_iff_exists.mpr ⟨erc, h⟩⟩
  · rintro ⟨a, ha, h⟩
    obtain ⟨erc, h⟩ := Option.isSome_iff_exists.mp h
    exact ⟨erc, a, ha, h⟩

/-- A bag with children is a component that is left by an edge. -/
theorem BagDag.hasExit_iff (h : BagDag f g) (b : β) :
    (g.node (g.GetTrueBag b)).children ≠ ∅ ↔ f.HasExit b := by
  rw [h.nonempty_iff (h.getTrueBag_idem b)]
  constructor
  · rintro ⟨c, hne, u, v, hu, rfl, huv⟩
    refine ⟨u, v, (h.true_eq_iff u b).mp hu, huv, fun hv => hne ?_⟩
    exact ((h.true_eq_iff v b).mpr hv).symm
  · rintro ⟨u, v, hu, huv, hv⟩
    have hu := (h.true_eq_iff u b).mpr hu
    refine ⟨g.GetTrueBag v, fun heq => hv ?_, u, v, hu, rfl, huv⟩
    exact (h.true_eq_iff v b).mp heq.symm

theorem LoopFree.own_ld_iff (h : LoopFree f g) (b : β) :
    (∃ erc, (g.node (g.GetTrueBag b)).own_ld_rmp er = some erc) ↔
      ∃ a, Mutual f.Edge a b ∧ f.Loads a er := by
  rw [← Option.isSome_iff_exists, (h.own_ld _ (h.getTrueBag_idem b) er).isSome_iff]
  simp only [BagGraph.ClassIn, h.true_eq_iff]
  exact exists_erc

omit [Fintype β] [DecidableEq β] in
theorem HasExit.of_mutual (hb : f.HasExit b) (hab : Mutual f.Edge b a) : f.HasExit a := by
  obtain ⟨u, v, hu, huv, hv⟩ := hb
  exact ⟨u, v, hu.trans hab, huv, fun h => hv (h.trans hab.symm)⟩

/-- What is shown from a bag on, by blocks. -/
theorem LoopFree.shownAfter_iff (h : LoopFree f g) (b : β) :
    (∃ erc, ShownAfter g (g.GetTrueBag b) er erc) ↔ f.SeenLater g.GetTrueBag b er := by
  have hdag := h.toBagDag
  have hpath : ∀ r, Relation.ReflTransGen g.Child (g.GetTrueBag b) (g.GetTrueBag r) ↔
      Reach f.Edge b r := by
    intro r
    rw [hdag.child_eq]
    constructor
    · intro hbr
      have hreach := reach_of_between h.component hbr
      exact ((h.component b).1.trans hreach).trans (h.component r).2
    · exact fun hbr => reach_between hbr
  constructor
  -- a bag shows the loads of the block that gives it its name, and with children all of its own
  · rintro ⟨erc, d, hbd, hshown⟩
    have hd : g.GetTrueBag d = d := hdag.child_true (h.getTrueBag_idem b) hbd
    rw [← hd, hpath] at hbd
    rcases hshown with hsucs | ⟨hchildren, hown⟩
    · rw [h.sucs_ld] at hsucs
      exact ⟨d, hbd, Option.isSome_iff_exists.mpr ⟨erc, hsucs⟩, .inr hd⟩
    · rw [← hd, hdag.hasExit_iff] at hchildren
      rw [← hd] at hown
      obtain ⟨r, hr, hload⟩ := (h.own_ld_iff d).mp ⟨erc, hown⟩
      exact ⟨r, hbd.trans hr.2, hload, .inl (HasExit.of_mutual hchildren hr.symm)⟩
  · rintro ⟨r, hbr, hload, hexit | hrep⟩
    · obtain ⟨erc, hown⟩ := (h.own_ld_iff r).mpr ⟨r, .refl r, hload⟩
      exact ⟨erc, _, (hpath r).mpr hbr, .inr ⟨(hdag.hasExit_iff r).mpr hexit, hown⟩⟩
    · obtain ⟨erc, herc⟩ := Option.isSome_iff_exists.mp hload
      refine ⟨erc, g.GetTrueBag r, (hpath r).mpr hbr, .inl ?_⟩
      rw [hrep, h.sucs_ld]
      exact herc

/-- The classes of a derived register, by the maps before the traversals. -/
theorem Traversed.derive_widest {g₀ g₁ g₂ : BagGraph β} (ht : Traversed f order g₀ g₁ g₂)
    (h : LoopFree f g₀) (b : β) (er : EcvReg) :
    Widest (fun erc =>
      (er.CheckPassedArgsRegs = true ∧ ∃ a, f.StrictlyBefore a b ∧ f.bb_str_r_mp a er = some erc) ∨
        ((g₀.node (g₀.GetTrueBag b)).is_loop = true ∧
          (g₀.node (g₀.GetTrueBag b)).own_ld_rmp er = some erc) ∨
        ((g₂.node (g₀.GetTrueBag b)).sucs_ld_rmp.contains er = true ∧
          ((∃ a, f.StrictlyBefore a b ∧ f.bb_ld_r_mp a er = some erc) ∨
            ∃ a, f.StrictlyBefore a b ∧ f.bb_str_r_mp a er = some erc)))
      ((g₂.node (g₀.GetTrueBag b)).derive er) := by
  have hidem := h.getTrueBag_idem b
  have hld := h.widest_before (fun b hb => h.own_ld b hb er) (ht.pres.ld _ hidem er)
  have hstr := h.widest_before (fun b hb => h.own_str b hb er) (ht.pres.str _ hidem er)
  rw [← ht.frame (·.own_ld_rmp) (fun _ _ _ => rfl) fun _ _ => rfl,
    ← ht.frame (·.is_loop) (fun _ _ _ => rfl) fun _ _ => rfl]
  exact PhiRegsBBBagNode.derive_widest hld hstr (widest_self _)

theorem Traversed.getTrueBag {g₀ g₁ g₂ : BagGraph β} (ht : Traversed f order g₀ g₁ g₂) :
    g₂.GetTrueBag = g₀.GetTrueBag := by
  have hconv : g₂.converted_bag = g₀.converted_bag :=
    funext (ht.frame (·.converted_bag) (fun _ _ _ => rfl) fun _ _ => rfl)
  unfold BagGraph.GetTrueBag
  rw [hconv]

/-- What a bag derives, when it is known which bags are loops. -/
theorem Traversed.contains_iff {g₀ g₁ g₂ : BagGraph β} (ht : Traversed f order g₀ g₁ g₂)
    (h : LoopFree f g₀) (b : β) (er : EcvReg)
    (hloop : (g₀.node (g₀.GetTrueBag b)).is_loop = true ↔ f.InLoop b ∨ uninit b = true) :
    ((g₂.node (g₀.GetTrueBag b)).derive).contains er = true ↔
      f.Carried uninit g₀.GetTrueBag b er := by
  have hsucs : (g₂.node (g₀.GetTrueBag b)).sucs_ld_rmp.contains er = true ↔
      f.SeenLater g₀.GetTrueBag b er :=
    (ht.sucs _ (h.getTrueBag_idem b) er).isSome_iff.trans (h.shownAfter_iff b)
  refine (ht.derive_widest h b er).isSome_iff.trans ?_
  simp only [exists_or, exists_and_left, exists_erc, hloop, hsucs, h.own_ld_iff]
  unfold BlockGraph.Carried BlockGraph.AccessedBefore
  simp only [and_or_left, exists_or]
  apply or_congr Iff.rfl
  apply or_congr Iff.rfl
  rw [← and_or_left, and_comm]
  exact Iff.rfl

/-- What the analysis went through. -/
theorem Analyzed.traversed (h : Analyzed f order uninit g) (hreach : ∀ b, Reach f.Edge f.entry b) :
    ∃ g₀ g₁ g₂ : BagGraph β,
      Machine.Halts (RemoveLoop.step order) (RemoveLoop.start f order uninit) (some g₀) ∧
      LoopFree f g₀ ∧ Traversed f order g₀ g₁ g₂ ∧ g = g₂.deriveAll ∧
      g.GetTrueBag = g₀.GetTrueBag := by
  obtain ⟨g₀, g₁, g₂, hremove, hpre, hsuc, hg⟩ := h
  have hfree := RemoveLoop.loopFree_of_halts hreach hremove
  obtain ⟨g₁', g₂', ht⟩ := traversals_halt order hfree hreach
  obtain rfl := Option.some.inj (Machine.halts_unique hpre ht.preceding)
  obtain rfl := Option.some.inj (Machine.halts_unique hsuc ht.succeeding)
  refine ⟨g₀, g₁, g₂, hremove, hfree, ht, hg, ?_⟩
  rw [← ht.getTrueBag, hg]
  rfl

/-- The bags are those of heads. -/
theorem Analyzed.heads (h : Analyzed f order uninit g) (hreach : ∀ b, Reach f.Edge f.entry b) :
    f.Heads g.GetTrueBag := by
  obtain ⟨g₀, g₁, g₂, hremove, hfree, -, -, htrue⟩ := h.traversed hreach
  rw [htrue]
  exact ⟨fun b => (hfree.component b).symm, fun a b => (hfree.true_eq_iff a b).mpr,
    RemoveLoop.entered_getTrueBag hreach hremove⟩

/-- **A bag derives the registers that are carried to its blocks.** -/
theorem Analyzed.contains_iff (h : Analyzed f order uninit g)
    (hreach : ∀ b, Reach f.Edge f.entry b) (b : β) (er : EcvReg) :
    (g.drvd_rmp b).contains er = true ↔ f.Carried uninit g.GetTrueBag b er := by
  obtain ⟨g₀, g₁, g₂, hremove, hfree, ht, hg, htrue⟩ := h.traversed hreach
  have hdrvd : g.drvd_rmp b = (g₂.node (g₀.GetTrueBag b)).derive := by
    rw [hg, drvd_rmp_deriveAll, ht.getTrueBag]
  rw [hdrvd, htrue]
  exact ht.contains_iff hfree b er (RemoveLoop.is_loop_iff hreach hremove b)

end Elfconv
