/-
Elfconv/VirtualRegs/DrvdClass.lean

The class by which a bag derives a register.

`derive` records for a register the widest class of the writes before the bag, of the reads
in a loop and of all accesses before the bag.  The value that the caller left in a register
counts for nothing there: it has no class.  When a narrow read stands before a bag and a
wider one behind it, the bag hands on the narrow part of that value.  `neverNarrows_iff`
says for every function when this does not happen.
-/
import Elfconv.VirtualRegs.ClosedForm

namespace Elfconv

open Component

/-! ### The derived class -/

theorem PhiRegsBBBagNode.pre_erc_widest {β : Type} {n : PhiRegsBBBagNode β} {er : EcvReg}
    {L S : ERC → Prop} (hld : Widest L (n.pres_ld_rmp er)) (hstr : Widest S (n.pres_str_rmp er)) :
    Widest (fun erc => L erc ∨ S erc) (n.pre_erc er) := by
  unfold pre_erc
  rcases hl : n.pres_ld_rmp er with - | erc₁ <;> rcases hs : n.pres_str_rmp er with - | erc₂ <;>
    rw [hl] at hld <;> rw [hs] at hstr
  · exact fun erc => not_or.mpr ⟨hld erc, hstr erc⟩
  · exact ⟨.inr hstr.1, fun erc herc => herc.elim (fun e => absurd e (hld erc)) (hstr.2 erc)⟩
  · exact ⟨.inl hld.1, fun erc herc => herc.elim (hld.2 erc) fun e => absurd e (hstr erc)⟩
  · by_cases hle : ERCSize erc₁ ≤ ERCSize erc₂
    · simp only [if_pos hle]
      refine ⟨.inr hstr.1, fun c hc => hc.elim (fun e => ?_) (hstr.2 c)⟩
      exact Nat.le_trans (hld.2 c e) hle
    · simp only [if_neg hle]
      refine ⟨.inl hld.1, fun c hc => hc.elim (hld.2 c) fun e => ?_⟩
      exact Nat.le_trans (hstr.2 c e) (Nat.le_of_lt (Nat.lt_of_not_le hle))

/-- An entry that is only there under a condition. -/
theorem widest_ite {P : ERC → Prop} {o : Option ERC} (h : Widest P o) (b : Bool) :
    Widest (fun erc => b = true ∧ P erc) (if b then o else none) := by
  cases b with
  | false => exact fun erc herc => Bool.false_ne_true herc.1
  | true => exact h.congr fun erc => (and_iff_right rfl).symm

/-- **The class of a derived register is the widest of the classes it is taken from.** -/
theorem PhiRegsBBBagNode.derive_widest {β : Type} {n : PhiRegsBBBagNode β} {er : EcvReg}
    {L S O : ERC → Prop} (hld : Widest L (n.pres_ld_rmp er)) (hstr : Widest S (n.pres_str_rmp er))
    (hown : Widest O (n.own_ld_rmp er)) :
    Widest (fun erc => (er.CheckPassedArgsRegs = true ∧ S erc) ∨ (n.is_loop = true ∧ O erc) ∨
      (n.sucs_ld_rmp.contains er = true ∧ (L erc ∨ S erc))) (n.derive er) := by
  have hargs := widest_ite hstr er.CheckPassedArgsRegs
  have hpre := widest_ite (pre_erc_widest hld hstr) (n.sucs_ld_rmp.contains er)
  unfold derive
  cases hloop : n.is_loop with
  | false =>
      refine (hargs.merge hpre).congr fun erc => ?_
      simp only [Bool.false_eq_true, false_and, false_or]
  | true =>
      refine ((hargs.merge hown).merge hpre).congr fun erc => ?_
      simp only [true_and, or_assoc]

/-! ### Terms of the function -/

variable {β : Type} [Fintype β] [DecidableEq β] {f : BlockGraph β} {g : BagGraph β} {a b : β}
  {er : EcvReg} {erc : ERC}

namespace BlockGraph

/-- Block `a` is strictly before block `b`: there is no way back. -/
def StrictlyBefore (f : BlockGraph β) (a b : β) : Prop :=
  Reach f.Edge a b ∧ ¬ Reach f.Edge b a

/-- The register is read by the class from the block on, before any write on the way. -/
inductive ReadFrom (f : BlockGraph β) (er : EcvReg) (erc : ERC) : β → Prop
  | here {b : β} : f.bb_ld_r_mp b er = some erc → ReadFrom f er erc b
  | later {b c : β} : f.bb_str_r_mp b er = none → f.Edge b c → ReadFrom f er erc c →
      ReadFrom f er erc b

/-- The value that the register has at the entry arrives at the block. -/
inductive Unwritten (f : BlockGraph β) (er : EcvReg) : β → Prop
  | entry : Unwritten f er f.entry
  | edge {p b : β} : Unwritten f er p → f.bb_str_r_mp p er = none → f.Edge p b →
      Unwritten f er b

/-- The result of a write by the class arrives at the block. -/
inductive WrittenBy (f : BlockGraph β) (er : EcvReg) (erc : ERC) : β → Prop
  | write {p b : β} : f.bb_str_r_mp p er = some erc → f.Edge p b → WrittenBy f er erc b
  | edge {p b : β} : WrittenBy f er erc p → f.bb_str_r_mp p er = none → f.Edge p b →
      WrittenBy f er erc b

omit [Fintype β] [DecidableEq β] in
theorem ReadFrom.reach (h : f.ReadFrom er erc a) :
    ∃ r, Reach f.Edge a r ∧ f.bb_ld_r_mp r er = some erc := by
  induction h with
  | here hr => exact ⟨_, .refl, hr⟩
  | later _ hedge _ ih =>
      obtain ⟨r, hcr, hr⟩ := ih
      exact ⟨r, hcr.head hedge, hr⟩

end BlockGraph

theorem BagDag.before_iff (h : BagDag f g) :
    g.Before f (g.GetTrueBag a) (g.GetTrueBag b) ↔ f.StrictlyBefore a b := by
  have hrep := h.component
  constructor
  · intro hab
    have hreach := h.reach_of_before hab
    refine ⟨((hrep a).1.trans hreach).trans (hrep b).2, fun hba => ?_⟩
    have hback : Reach (g.Edge f) (g.GetTrueBag b) (g.GetTrueBag a) := reach_between hba
    exact h.acyclic _ (hab.trans_left hback)
  · rintro ⟨hab, hnot⟩
    have hpath : Reach (g.Edge f) (g.GetTrueBag a) (g.GetTrueBag b) := reach_between hab
    rcases Relation.reflTransGen_iff_eq_or_transGen.mp hpath with heq | hbefore
    · exact absurd ((h.true_eq_iff b a).mp heq).1 hnot
    · exact hbefore

/-- The classes in the strict ancestors of a bag, by blocks. -/
theorem BagDag.widest_before (h : BagDag f g) {mp : β → EcvRegMap}
    {own : PhiRegsBBBagNode β → EcvRegMap} {o : Option ERC}
    (hown : ∀ b, g.GetTrueBag b = b → Widest (g.ClassIn b mp er) (own (g.node b) er))
    (ho : Widest (fun erc => ∃ a, Relation.TransGen g.Child a (g.GetTrueBag b) ∧
      own (g.node a) er = some erc) o) :
    Widest (fun erc => ∃ a, f.StrictlyBefore a b ∧ mp a er = some erc) o := by
  have htrue : ∀ a, Relation.TransGen g.Child a (g.GetTrueBag b) → g.GetTrueBag a = a := by
    intro a ha
    obtain ⟨c, hac, -⟩ := Relation.TransGen.head'_iff.mp ha
    exact hac.1
  refine (ho.flatten (R := fun a => g.ClassIn a mp er)
    (fun a ha => hown a (htrue a ha))).congr fun erc => ?_
  rw [h.child_eq]
  constructor
  · rintro ⟨_, hab, x, rfl, hx⟩
    exact ⟨x, h.before_iff.mp hab, hx⟩
  · rintro ⟨x, hxb, hx⟩
    exact ⟨_, h.before_iff.mpr hxb, x, rfl, hx⟩

/-! ### Correct maps -/

/-- A graph of bags with correct own, preceding and succeeding maps. -/
structure CorrectMaps (f : BlockGraph β) (g : BagGraph β) : Prop extends BagDag f g where
  own_ld : ∀ b, g.GetTrueBag b = b → ∀ er,
    Widest (g.ClassIn b f.bb_ld_r_mp er) ((g.node b).own_ld_rmp er)
  own_str : ∀ b, g.GetTrueBag b = b → ∀ er,
    Widest (g.ClassIn b f.bb_str_r_mp er) ((g.node b).own_str_rmp er)
  preceded : Preceded g g
  succeeded : Succeeded g g

omit [DecidableEq β] in
theorem drvd_rmp_deriveAll (g : BagGraph β) (b : β) :
    g.deriveAll.drvd_rmp b = (g.node (g.GetTrueBag b)).derive := rfl

/-- The class recorded for a register in a bag is as wide as every class by which it is
read from the bag on before a write, or all values that arrive at the bag come from writes
by this or narrower classes. -/
def NeverNarrows (f : BlockGraph β) (g : BagGraph β) : Prop :=
  ∀ b er erc, g.deriveAll.drvd_rmp b er = some erc →
    (∀ x c, Mutual f.Edge x b → f.ReadFrom er c x → ERCSize c ≤ ERCSize erc) ∨
      ∀ x, Mutual f.Edge x b → ¬ f.Unwritten er x ∧
        ∀ c, f.WrittenBy er c x → ERCSize c ≤ ERCSize erc

/-- The accesses to a register that a bag knows of: all accesses before it, and in a loop
the reads of its own. -/
def Known (f : BlockGraph β) (g : BagGraph β) (b : β) (er : EcvReg) (erc : ERC) : Prop :=
  (∃ a, f.StrictlyBefore a b ∧
      (f.bb_ld_r_mp a er = some erc ∨ f.bb_str_r_mp a er = some erc)) ∨
    (g.node (g.GetTrueBag b)).is_loop = true ∧
      ∃ a, Mutual f.Edge a b ∧ f.bb_ld_r_mp a er = some erc

/-- Some access that the bag knows of is as wide. -/
def KnownAsWide (f : BlockGraph β) (g : BagGraph β) (b : β) (er : EcvReg) (c : ERC) : Prop :=
  ∃ erc, Known f g b er erc ∧ ERCSize c ≤ ERCSize erc

namespace CorrectMaps

theorem widest_own (h : CorrectMaps f g) (b : β) (er : EcvReg) :
    Widest (fun erc => ∃ a, Mutual f.Edge a b ∧ f.bb_ld_r_mp a er = some erc)
      ((g.node (g.GetTrueBag b)).own_ld_rmp er) := by
  refine (h.own_ld _ (h.getTrueBag_idem b) er).congr fun erc => ?_
  simp only [BagGraph.ClassIn, h.true_eq_iff]

/-- A read from the bag on is a succeeding register. -/
theorem sucs_of_read (h : CorrectMaps f g) {x : β} (hx : Mutual f.Edge x b)
    (hread : f.ReadFrom er erc x) :
    (g.node (g.GetTrueBag b)).sucs_ld_rmp.contains er = true := by
  obtain ⟨r, hxr, hr⟩ := hread.reach
  have hbag : g.GetTrueBag x = g.GetTrueBag b := (h.true_eq_iff x b).mpr hx
  have hpath : Relation.ReflTransGen g.Child (g.GetTrueBag b) (g.GetTrueBag r) := by
    rw [h.child_eq, ← hbag]
    exact reach_between hxr
  have hown : ((g.node (g.GetTrueBag r)).own_ld_rmp er).isSome = true :=
    (h.widest_own r er).isSome_iff.mpr ⟨erc, r, .refl r, hr⟩
  obtain ⟨erc', hown⟩ := Option.isSome_iff_exists.mp hown
  exact (h.succeeded _ (h.getTrueBag_idem b) er).isSome_iff.mpr ⟨erc', _, hpath, hown⟩

/-- What a bag derives for a later read is the widest access that it knows of. -/
theorem derive_widest (h : CorrectMaps f g)
    (hsucs : (g.node (g.GetTrueBag b)).sucs_ld_rmp.contains er = true) :
    Widest (Known f g b er) ((g.node (g.GetTrueBag b)).derive er) := by
  have hb := h.getTrueBag_idem b
  have hld := h.widest_before (fun b hb => h.own_ld b hb er) (h.preceded.ld _ hb er)
  have hstr := h.widest_before (fun b hb => h.own_str b hb er) (h.preceded.str _ hb er)
  refine (PhiRegsBBBagNode.derive_widest hld hstr (h.widest_own b er)).congr fun erc => ?_
  rw [hsucs]
  unfold Known
  constructor
  · rintro (⟨-, a, hab, ha⟩ | hloop | ⟨-, ⟨a, hab, ha⟩ | ⟨a, hab, ha⟩⟩)
    · exact .inl ⟨a, hab, .inr ha⟩
    · exact .inr hloop
    · exact .inl ⟨a, hab, .inl ha⟩
    · exact .inl ⟨a, hab, .inr ha⟩
  · rintro (⟨a, hab, ha | ha⟩ | hloop)
    · exact .inr (.inr ⟨rfl, .inl ⟨a, hab, ha⟩⟩)
    · exact .inr (.inr ⟨rfl, .inr ⟨a, hab, ha⟩⟩)
    · exact .inr (.inl hloop)

/-- A register that a block writes is derived as wide in the blocks behind that read it. -/
theorem derive_as_wide (h : CorrectMaps f g) (hab : f.StrictlyBefore a b)
    (hstr : f.bb_str_r_mp a er = some erc) {c : ERC} (hread : f.ReadFrom er c b) :
    ∃ erc', g.deriveAll.drvd_rmp b er = some erc' ∧ ERCSize erc ≤ ERCSize erc' := by
  have hknown : Known f g b er erc := .inl ⟨a, hab, .inr hstr⟩
  have hwidest := h.derive_widest (h.sucs_of_read (.refl b) hread)
  rw [drvd_rmp_deriveAll]
  rcases hdrvd : (g.node (g.GetTrueBag b)).derive er with - | erc'
  · rw [hdrvd] at hwidest
    exact absurd hknown (hwidest erc)
  · rw [hdrvd] at hwidest
    exact ⟨erc', rfl, hwidest.2 erc hknown⟩

end CorrectMaps

/-- The traversals leave correct maps when the bags without children start with all their
own loads. -/
theorem Traversed.correctMaps {order : PtrOrder β} {g₀ g₁ : BagGraph β}
    (ht : Traversed f order g₀ g₁ g) (h : LoopFree f g₀) (hloads : ChildlessLoads g₀) :
    CorrectMaps f g := by
  have hsuc := ht.succeeded h hloads
  -- the traversals leave the graph of the bags and their own registers as they are
  obtain ⟨htrue, hdag⟩ := h.toBagDag.of_frame
    (ht.frame (·.converted_bag) (fun _ _ _ => rfl) fun _ _ => rfl)
    (ht.frame (·.children) (fun _ _ _ => rfl) fun _ _ => rfl)
    (ht.frame (·.parents) (fun _ _ _ => rfl) fun _ _ => rfl) ht.bag_num
  have hld := ht.frame (·.own_ld_rmp) (fun _ _ _ => rfl) fun _ _ => rfl
  have hstr := ht.frame (·.own_str_rmp) (fun _ _ _ => rfl) fun _ _ => rfl
  have hclass : g.ClassIn = g₀.ClassIn := by
    unfold BagGraph.ClassIn
    rw [htrue]
  have hchild : g.Child = g₀.Child := by
    rw [hdag.child_eq, h.toBagDag.child_eq, BagGraph.Edge, BagGraph.Edge, htrue]
  refine ⟨hdag, fun b hb er => ?_, fun b hb er => ?_, ⟨fun b hb er => ?_, fun b hb er => ?_⟩,
    fun b hb er => ?_⟩
  · rw [htrue] at hb
    rw [hld, hclass]
    exact h.own_ld b hb er
  · rw [htrue] at hb
    rw [hstr, hclass]
    exact h.own_str b hb er
  · rw [htrue] at hb
    simp only [hchild, hld]
    exact ht.pres.ld b hb er
  · rw [htrue] at hb
    simp only [hchild, hstr]
    exact ht.pres.str b hb er
  · rw [htrue] at hb
    simp only [hchild, hld]
    exact hsuc b hb er

/-- A function without loops has bags with correct maps. -/
theorem exists_correctMaps (order : PtrOrder β) (uninit : β → Bool)
    (hreach : ∀ b, Reach f.Edge f.entry b) (hacyclic : ∀ a b, Mutual f.Edge a b → a = b) :
    ∃ g, CorrectMaps f g := by
  obtain ⟨g₀, -, h⟩ := RemoveLoop.removeLoop_halts f order uninit hreach
  obtain ⟨g₁, g, ht⟩ := traversals_halt order h hreach
  refine ⟨g, ht.correctMaps h fun b hb _ => ?_⟩
  have hone : ∀ x, g₀.GetTrueBag x = b ↔ x = b := by
    intro x
    constructor
    · intro hx
      exact hacyclic x b ((h.true_eq_iff x b).mp (hx.trans hb.symm))
    · rintro rfl
      exact hb
  funext er
  rw [h.sucs_ld]
  refine widest_unique ((h.own_ld b hb er).congr fun erc => ?_)
  simp only [BagGraph.ClassIn, hone, exists_eq_left]

/-! ### The exact condition -/

/-- Where a bag knows of an access to a register, some such access is as wide as every read
from the bag on before a write, unless the value that the register has at the entry does
not arrive at the bag and no result that does is wider than the accesses it knows of. -/
def WideAccessFirst (f : BlockGraph β) (g : BagGraph β) : Prop :=
  ∀ b er, (∃ erc, Known f g b er erc) →
    (∀ x c, Mutual f.Edge x b → f.ReadFrom er c x → KnownAsWide f g b er c) ∨
      ∀ x, Mutual f.Edge x b → ¬ f.Unwritten er x ∧
        ∀ c, f.WrittenBy er c x → KnownAsWide f g b er c

/-- **The recorded classes narrow no later read exactly when wide accesses come first.** -/
theorem neverNarrows_iff (h : CorrectMaps f g) : NeverNarrows f g ↔ WideAccessFirst f g := by
  unfold NeverNarrows WideAccessFirst
  simp only [drvd_rmp_deriveAll]
  refine forall_congr' fun b => forall_congr' fun er => ?_
  by_cases hread : ∃ x c, Mutual f.Edge x b ∧ f.ReadFrom er c x
  · obtain ⟨x, c, hx, hc⟩ := hread
    have hwidest := h.derive_widest (h.sucs_of_read hx hc)
    cases hdrvd : (g.node (g.GetTrueBag b)).derive er with
    | none =>
        rw [hdrvd] at hwidest
        refine iff_of_true (fun erc herc => nomatch herc) ?_
        rintro ⟨erc, herc⟩
        exact absurd herc (hwidest erc)
    | some erc =>
        rw [hdrvd] at hwidest
        -- as wide as the recorded class, as wide as some access
        have hwide : ∀ c, KnownAsWide f g b er c ↔ ERCSize c ≤ ERCSize erc := by
          intro c
          constructor
          · rintro ⟨erc', hknown, hle⟩
            exact Nat.le_trans hle (hwidest.2 erc' hknown)
          · exact fun hle => ⟨erc, hwidest.1, hle⟩
        simp only [hwide]
        constructor
        · exact fun hall _ => hall erc rfl
        · intro hcond erc' herc'
          cases herc'
          exact hcond ⟨erc, hwidest.1⟩
  · -- nothing is read later
    have hnone : ∀ {p : ERC → Prop} (x : β) (c : ERC), Mutual f.Edge x b → f.ReadFrom er c x →
        p c := fun x c hx hc => absurd ⟨x, c, hx, hc⟩ hread
    exact iff_of_true (fun _ _ => .inl hnone) fun _ => .inl hnone

/-- A function that reads `W0` in its second block and `X0` in its last. -/
def narrowFirst : BlockGraph (Fin 4) where
  entry := 0
  bb_parents := fun
    | 0 => ∅
    | 1 => {0}
    | 2 => {1}
    | 3 => {2}
  bb_ld_r_mp := fun
    | 1, er => if er = ⟨.General, 0⟩ then some .RegW else none
    | 3, er => if er = ⟨.General, 0⟩ then some .RegX else none
    | _, _ => none
  bb_str_r_mp := fun _ _ => none

theorem narrowFirst_edge (a b : Fin 4) : narrowFirst.Edge a b ↔ a.val + 1 = b.val := by
  unfold BlockGraph.Edge narrowFirst
  revert a b
  decide

theorem narrowFirst_le {a b : Fin 4} (h : Reach narrowFirst.Edge a b) : a ≤ b := by
  induction h with
  | refl => exact Nat.le_refl _
  | tail _ hstep ih =>
      rw [narrowFirst_edge] at hstep
      omega

theorem narrowFirst_correctMaps : ∃ g, CorrectMaps narrowFirst g := by
  have hedge : ∀ a b : Fin 4, a.val + 1 = b.val → narrowFirst.Edge a b :=
    fun a b => (narrowFirst_edge a b).mpr
  refine exists_correctMaps ⟨[0, 1, 2, 3], by decide, by decide⟩ (fun _ => false) (fun b => ?_)
    fun a b h => le_antisymm (narrowFirst_le h.1) (narrowFirst_le h.2)
  have h₁ := Relation.ReflTransGen.single (hedge 0 1 rfl)
  have h₂ := h₁.tail (hedge 1 2 rfl)
  match b with
  | 0 => exact .refl
  | 1 => exact h₁
  | 2 => exact h₂
  | 3 => exact h₂.tail (hedge 2 3 rfl)

theorem neverNarrows_iff_narrowFirst :
    ∃ g, CorrectMaps narrowFirst g ∧
      (NeverNarrows narrowFirst g ↔ WideAccessFirst narrowFirst g) := by
  obtain ⟨g, h⟩ := narrowFirst_correctMaps
  exact ⟨g, h, neverNarrows_iff h⟩

/-- The third block hands on `W0`, and the last one reads `X0`. -/
theorem narrows : ¬ ∀ g, CorrectMaps narrowFirst g → NeverNarrows narrowFirst g := by
  intro hall
  obtain ⟨g, h⟩ := narrowFirst_correctMaps
  have hread : narrowFirst.ReadFrom ⟨.General, 0⟩ .RegX 2 :=
    .later rfl ((narrowFirst_edge 2 3).mpr rfl) (.here rfl)
  have hunwritten : narrowFirst.Unwritten ⟨.General, 0⟩ 2 :=
    .edge (.edge .entry rfl ((narrowFirst_edge 0 1).mpr rfl)) rfl
      ((narrowFirst_edge 1 2).mpr rfl)
  have hbefore : narrowFirst.StrictlyBefore 1 2 := by
    refine ⟨.single ((narrowFirst_edge 1 2).mpr rfl), fun hback => ?_⟩
    exact absurd (narrowFirst_le hback) (by decide)
  have hwidest := h.derive_widest (h.sucs_of_read (.refl 2) hread)
  -- the one access that the third block knows of is the read of `W0`
  have hknown : ∀ erc, Known narrowFirst g 2 ⟨.General, 0⟩ erc → erc = .RegW := by
    rintro erc (⟨a, ⟨hle, hnot⟩, ha | ha⟩ | ⟨-, a, ⟨hle, hle'⟩, ha⟩)
    · have hle := narrowFirst_le hle
      match a with
      | 0 => cases ha
      | 1 => exact (Option.some.inj ha).symm
      | 2 => cases ha
      | 3 => exact absurd hle (by decide)
    · cases ha
    · have heq := le_antisymm (narrowFirst_le hle) (narrowFirst_le hle')
      subst heq
      cases ha
  cases hdrvd : (g.node (g.GetTrueBag 2)).derive ⟨.General, 0⟩ with
  | none =>
      rw [hdrvd] at hwidest
      exact hwidest .RegW (.inl ⟨1, hbefore, .inl rfl⟩)
  | some erc =>
      rw [hdrvd] at hwidest
      have herc := hknown erc hwidest.1
      subst herc
      rcases hall g h 2 _ _ hdrvd with hle | hvalues
      · exact absurd (hle 2 .RegX (.refl 2) hread) (by decide)
      · exact (hvalues 2 (.refl 2)).1 hunwritten

end Elfconv
