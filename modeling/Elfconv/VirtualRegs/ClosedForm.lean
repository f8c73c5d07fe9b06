/-
Elfconv/VirtualRegs/ClosedForm.lean

The preceding and succeeding registers of the bags in closed form.

`Preceded` and `Succeeded` say what the two traversals are for, on the graph of the bags:
the registers of a bag are those in the own maps of its strict ancestors, and those in its
own map and the own maps of its descendants.  The first holds always.  The second fails for
a bag without children, whose own loads are never merged into its succeeding ones; it
starts with the loads of the block it is named after (`closedForm_iff`).
-/
import Elfconv.VirtualRegs.Loops
import Elfconv.VirtualRegs.Succeeding

namespace Elfconv

open Component

variable {β : Type} [Fintype β] [DecidableEq β] {f : BlockGraph β} {order : PtrOrder β}

/-! ### Visits -/

/-- The bag that an iteration finishes. -/
def Preceding.visited (s : PrecedingState β) : Option β :=
  match s.bag_queue with
  | [] => none
  | t_bg :: _ =>
      if t_bg ∉ s.fins ∧
          (s.graph.node t_bg).parents.card = (s.fin_pars_nummp.insertZero t_bg).count t_bg then
        some t_bg
      else none

/-- The bag that a turn finishes. -/
def Succeeding.visited (s : SucceedingState β) : Option β :=
  match s.bag_stack with
  | [] => none
  | t_bg :: _ =>
      if t_bg ∉ s.fins ∧
          (s.graph.node t_bg).children.card = (s.fin_chn_nummp.insertZero t_bg).count t_bg then
        some t_bg
      else none

omit [Fintype β] in
theorem Preceding.adds {s s' : PrecedingState β} (h : step order s = .inl s') :
    Machine.Adds (visited s) s.fins s'.fins := by
  unfold step at h
  unfold visited
  rcases hs : s.bag_queue with - | ⟨t_bg, rest⟩
  · rw [hs] at h
    cases h
  · simp only [hs] at h ⊢
    by_cases hfin : t_bg ∈ s.fins
    · rw [if_pos hfin] at h
      cases h
      rw [if_neg fun e => e.1 hfin]
      exact rfl
    · rw [if_neg hfin] at h
      split at h
      · rename_i hready
        cases h
        rw [if_pos ⟨hfin, hready⟩]
        exact ⟨hfin, rfl⟩
      · rename_i hready
        cases h
        rw [if_neg fun e => hready e.2]
        exact rfl

theorem Succeeding.adds {s s' : SucceedingState β} (h : step order s = .inl s') :
    Machine.Adds (visited s) s.fins s'.fins := by
  unfold step at h
  unfold visited
  rcases hs : s.bag_stack with - | ⟨t_bg, rest⟩
  · rw [hs] at h
    cases h
  · simp only [hs] at h ⊢
    by_cases hfin : t_bg ∈ s.fins
    · rw [if_pos hfin] at h
      cases h
      rw [if_neg fun e => e.1 hfin]
      exact rfl
    · rw [if_neg hfin] at h
      split at h
      · rename_i hready
        cases h
        rw [if_pos ⟨hfin, hready⟩]
        exact ⟨hfin, rfl⟩
      · rename_i hready
        cases h
        rw [if_neg fun e => hready e.2]
        exact rfl

/-- The true bags, each once. -/
def VisitsAll (g₀ : BagGraph β) (l : List β) : Prop :=
  l.Nodup ∧ ∀ b, b ∈ l ↔ g₀.GetTrueBag b = b

/-! ### The closed form -/

/-- The preceding registers are those in the own maps of the strict ancestors. -/
structure Preceded (g₀ g : BagGraph β) : Prop where
  ld : ∀ b, g₀.GetTrueBag b = b → ∀ er,
    Widest (fun erc => ∃ a, Relation.TransGen g₀.Child a b ∧
      (g₀.node a).own_ld_rmp er = some erc) ((g.node b).pres_ld_rmp er)
  str : ∀ b, g₀.GetTrueBag b = b → ∀ er,
    Widest (fun erc => ∃ a, Relation.TransGen g₀.Child a b ∧
      (g₀.node a).own_str_rmp er = some erc) ((g.node b).pres_str_rmp er)

/-- The succeeding registers are those in the own maps of the bag and its descendants. -/
def Succeeded (g₀ g : BagGraph β) : Prop :=
  ∀ b, g₀.GetTrueBag b = b → ∀ er,
    Widest (fun erc => ∃ d, Relation.ReflTransGen g₀.Child b d ∧
      (g₀.node d).own_ld_rmp er = some erc) ((g.node b).sucs_ld_rmp er)

/-- Both traversals end, fail no check and visit every bag once, and the maps they leave
have their closed form. -/
def ClosedForm (f : BlockGraph β) (order : PtrOrder β) (g₀ : BagGraph β) : Prop :=
  ∃ g₁ g₂ l₁ l₂,
    Machine.Visits (Preceding.step order) Preceding.visited
      (Preceding.start g₀ (g₀.GetTrueBag f.entry)) (some g₁) l₁ ∧
    Machine.Visits (Succeeding.step order) Succeeding.visited
      (Succeeding.start g₁ (g₁.GetTrueBag f.entry)) (some g₂) l₂ ∧
    VisitsAll g₀ l₁ ∧ VisitsAll g₀ l₂ ∧ Preceded g₀ g₂ ∧ Succeeded g₀ g₂

/-! ### The traversals -/

variable {g₀ g₁ g : BagGraph β}

theorem visitsAll_of_fins {l : List β} {fin : Finset β} (hnodup : l.Nodup)
    (hfin : fin = Finset.univ.filter fun b => g₀.GetTrueBag b = b)
    (hmem : ∀ b, b ∈ fin ↔ b ∈ (∅ : Finset β) ∨ b ∈ l) : VisitsAll g₀ l := by
  refine ⟨hnodup, fun b => ?_⟩
  have hfilter : b ∈ fin ↔ g₀.GetTrueBag b = b := by
    rw [hfin, Finset.mem_filter, and_iff_right (Finset.mem_univ b)]
  exact ((or_iff_right (Finset.notMem_empty b)).symm.trans (hmem b).symm).trans hfilter

theorem Preceding.visits (order : PtrOrder β) (h : LoopFree f g₀)
    (hreach : ∀ b, Reach f.Edge f.entry b)
    (hg : Machine.Halts (Preceding.step order) (Preceding.start g₀ (g₀.GetTrueBag f.entry))
      (some g)) :
    ∃ l, Machine.Visits (Preceding.step order) Preceding.visited
      (Preceding.start g₀ (g₀.GetTrueBag f.entry)) (some g) l ∧ VisitsAll g₀ l := by
  obtain ⟨l, hl, hnodup, -, fin, hfin, hmem⟩ := Machine.visits_of_halts
    (I := PrecedingInv f g₀) (Q := (· = Finset.univ.filter fun b => g₀.GetTrueBag b = b))
    (fun s s' hi hstep => by
      rcases step_spec h order hi with ⟨-, he⟩ | ⟨s'', he, hi', -⟩
      · rw [he] at hstep
        cases hstep
      · have hadds := Preceding.adds hstep
        rw [he] at hstep
        cases hstep
        exact ⟨hi', hadds⟩)
    (fun s r hi hstep => by
      rcases step_spec h order hi with ⟨hs, -⟩ | ⟨s'', he, -, -⟩
      · exact hi.fins_eq h.toBagDag hs
      · rw [he] at hstep
        cases hstep)
    (precedingInv_start h hreach) hg
  exact ⟨l, hl, visitsAll_of_fins hnodup hfin hmem⟩

theorem Succeeding.visits (order : PtrOrder β) (h : BagDag f g₀)
    (hreach : ∀ b, Reach f.Edge f.entry b)
    (hg : Machine.Halts (Succeeding.step order) (Succeeding.start g₀ (g₀.GetTrueBag f.entry))
      (some g)) :
    ∃ l, Machine.Visits (Succeeding.step order) Succeeding.visited
      (Succeeding.start g₀ (g₀.GetTrueBag f.entry)) (some g) l ∧ VisitsAll g₀ l := by
  obtain ⟨l, hl, hnodup, -, fin, hfin, hmem⟩ := Machine.visits_of_halts
    (I := SucceedingInv f g₀) (Q := (· = Finset.univ.filter fun b => g₀.GetTrueBag b = b))
    (fun s s' hi hstep => by
      rcases step_spec h order hi with ⟨-, he⟩ | ⟨s'', he, hi', -⟩
      · rw [he] at hstep
        cases hstep
      · have hadds := Succeeding.adds hstep
        rw [he] at hstep
        cases hstep
        exact ⟨hi', hadds⟩)
    (fun s r hi hstep => by
      rcases step_spec h order hi with ⟨hs, -⟩ | ⟨s'', he, -, -⟩
      · exact hi.fins_eq hreach hs
      · rw [he] at hstep
        cases hstep)
    (succeedingInv_start h) hg
  exact ⟨l, hl, visitsAll_of_fins hnodup hfin hmem⟩

/-- The graph of the bags does not change with the registers. -/
theorem BagDag.of_frame (h : BagDag f g₀)
    (hconv : ∀ b, (g.node b).converted_bag = (g₀.node b).converted_bag)
    (hchildren : ∀ b, (g.node b).children = (g₀.node b).children)
    (hparents : ∀ b, (g.node b).parents = (g₀.node b).parents)
    (hnum : g.bag_num = g₀.bag_num) : g.GetTrueBag = g₀.GetTrueBag ∧ BagDag f g := by
  have htrue : g.GetTrueBag = g₀.GetTrueBag := by
    unfold BagGraph.GetTrueBag
    rw [show g.converted_bag = g₀.converted_bag from funext hconv]
  refine ⟨htrue, ?_, ?_, ?_, ?_, ?_⟩
  · rw [htrue]
    exact h.true_eq_iff
  · rw [htrue]
    exact h.getTrueBag_idem
  · simp only [htrue, hchildren]
    exact h.children
  · simp only [htrue, hparents]
    exact h.parents
  · rw [htrue, hnum]
    exact h.bag_num

/-- The classes of the loads shown from a bag on, in the maps before the traversals. -/
def ShownAfter (g₀ : BagGraph β) (b : β) (er : EcvReg) (erc : ERC) : Prop :=
  ∃ d, Relation.ReflTransGen g₀.Child b d ∧
    ((g₀.node d).sucs_ld_rmp er = some erc ∨
      (g₀.node d).children ≠ ∅ ∧ (g₀.node d).own_ld_rmp er = some erc)

theorem BagDag.child_eq (h : BagDag f g₀) : g₀.Child = g₀.Edge f := by
  funext a b
  exact propext h.child_iff

theorem BagDag.child_true (h : BagDag f g₀) {b d : β} (hb : g₀.GetTrueBag b = b)
    (hbd : Relation.ReflTransGen g₀.Child b d) : g₀.GetTrueBag d = d := by
  rcases Relation.ReflTransGen.cases_tail hbd with rfl | ⟨c, -, hcd⟩
  · exact hb
  · exact (h.edge_true (h.child_iff.mp hcd)).2

theorem BagDag.nonempty_iff (h : BagDag f g₀) {d : β} (hd : g₀.GetTrueBag d = d) :
    (g₀.node d).children ≠ ∅ ↔ ∃ c, g₀.Edge f d c := by
  rw [← Finset.nonempty_iff_ne_empty]
  exact exists_congr fun c => h.children d hd c

theorem BagDag.shownAfter_iff (h : BagDag f g₀) {b : β} (hb : g₀.GetTrueBag b = b)
    {er : EcvReg} {erc : ERC} :
    Succeeding.ClassAfter g₀ f b er erc ↔ ShownAfter g₀ b er erc := by
  unfold Succeeding.ClassAfter ShownAfter Succeeding.Shown
  rw [h.child_eq]
  refine exists_congr fun d => and_congr_right fun hbd => ?_
  have hd : g₀.GetTrueBag d = d := h.child_true hb (h.child_eq ▸ hbd)
  rw [h.nonempty_iff hd]

/-- Both traversals, on the bags that loop removal leaves. -/
structure Traversed (f : BlockGraph β) (order : PtrOrder β) (g₀ g₁ g₂ : BagGraph β) : Prop where
  preceding : Machine.Halts (Preceding.step order)
    (Preceding.start g₀ (g₀.GetTrueBag f.entry)) (some g₁)
  succeeding : Machine.Halts (Succeeding.step order)
    (Succeeding.start g₁ (g₁.GetTrueBag f.entry)) (some g₂)
  dag₁ : BagDag f g₁
  true₁ : g₁.GetTrueBag = g₀.GetTrueBag
  frame : ∀ {γ : Type} (field : PhiRegsBBBagNode β → γ), Preceding.PresFree field →
    Succeeding.SucsFree field → ∀ b, field (g₂.node b) = field (g₀.node b)
  bag_num : g₂.bag_num = g₀.bag_num
  pres : Preceded g₀ g₂
  sucs : ∀ b, g₀.GetTrueBag b = b → ∀ er,
    Widest (ShownAfter g₀ b er) ((g₂.node b).sucs_ld_rmp er)

theorem traversals_halt (order : PtrOrder β) (h : LoopFree f g₀)
    (hreach : ∀ b, Reach f.Edge f.entry b) : ∃ g₁ g₂, Traversed f order g₀ g₁ g₂ := by
  obtain ⟨g₁, hg₁, hpre⟩ := Preceding.preceding_halts h order hreach
  obtain ⟨htrue, hdag⟩ := h.toBagDag.of_frame
    (hpre.frame (·.converted_bag) fun _ _ _ => rfl) (hpre.frame (·.children) fun _ _ _ => rfl)
    (hpre.frame (·.parents) fun _ _ _ => rfl) hpre.bag_num
  obtain ⟨g₂, hg₂, hsuc⟩ := Succeeding.succeeding_halts hdag order hreach
  have hmem : ∀ b, b ∈ (Finset.univ.filter fun b => g₀.GetTrueBag b = b) ↔ g₀.GetTrueBag b = b :=
    fun b => by rw [Finset.mem_filter, and_iff_right (Finset.mem_univ b)]
  -- the second traversal does not touch what the first one wrote
  have hown : ∀ (own : PhiRegsBBBagNode β → EcvRegMap) (b : β) (er : EcvReg),
      g₀.OwnBefore f b own er = fun erc => ∃ a, Relation.TransGen g₀.Child a b ∧
        own (g₀.node a) er = some erc := by
    intro own b er
    rw [h.toBagDag.child_eq]
    rfl
  have hshown : ∀ b er, ShownAfter g₁ b er = ShownAfter g₀ b er := by
    intro b er
    unfold ShownAfter
    rw [hdag.child_eq, h.toBagDag.child_eq, BagGraph.Edge, BagGraph.Edge, htrue]
    simp only [hpre.frame (·.sucs_ld_rmp) fun _ _ _ => rfl,
      hpre.frame (·.own_ld_rmp) fun _ _ _ => rfl, hpre.frame (·.children) fun _ _ _ => rfl]
  refine ⟨g₁, g₂, hg₁, hg₂, hdag, htrue, fun field hp hs b => ?_, ?_, ⟨?_, ?_⟩, ?_⟩
  · rw [hsuc.frame field hs, hpre.frame field hp]
  · rw [hsuc.bag_num, hpre.bag_num]
  · intro b hb er
    rw [hsuc.frame (·.pres_ld_rmp) fun _ _ => rfl, ← hown]
    exact hpre.ld b ((hmem b).mpr hb) er
  · intro b hb er
    rw [hsuc.frame (·.pres_str_rmp) fun _ _ => rfl, ← hown]
    exact hpre.str b ((hmem b).mpr hb) er
  · intro b hb er
    have hb₁ : g₁.GetTrueBag b = b := by rwa [htrue]
    rw [← hshown]
    refine (hsuc.ld b ?_ er).congr fun erc => hdag.shownAfter_iff hb₁
    rw [htrue]
    exact (hmem b).mpr hb

/-! ### The exact condition -/

/-- The bags without children start with all their own loads. -/
def ChildlessLoads (g₀ : BagGraph β) : Prop :=
  ∀ b, g₀.GetTrueBag b = b → (g₀.node b).children = ∅ →
    (g₀.node b).own_ld_rmp = (g₀.node b).sucs_ld_rmp

theorem LoopFree.own_of_shown (h : LoopFree f g₀) {b : β} {er : EcvReg} {erc : ERC}
    (hb : ShownAfter g₀ b er erc) :
    ∃ erc', (∃ d, Relation.ReflTransGen g₀.Child b d ∧ (g₀.node d).own_ld_rmp er = some erc') ∧
      (erc' = erc ∨ ERCSize erc < ERCSize erc') := by
  obtain ⟨d, hbd, hsucs | ⟨-, hown⟩⟩ := hb
  · rw [h.sucs_ld] at hsucs
    obtain ⟨erc', hown, hle⟩ := h.own_self d er erc hsucs
    exact ⟨erc', ⟨d, hbd, hown⟩, hle⟩
  · exact ⟨erc, ⟨d, hbd, hown⟩, .inl rfl⟩

omit [DecidableEq β] in
theorem childless_path {b d : β} (hb : (g₀.node b).children = ∅) :
    Relation.ReflTransGen g₀.Child b d ↔ d = b := by
  constructor
  · intro hbd
    rcases Relation.ReflTransGen.cases_head hbd with rfl | ⟨c, ⟨-, hc⟩, -⟩
    · rfl
    · rw [hb] at hc
      cases hc
  · rintro rfl
    exact .refl

theorem Traversed.childless (ht : Traversed f order g₀ g₁ g) (hsuc : Succeeded g₀ g) :
    ChildlessLoads g₀ := by
  intro b hb hnone
  funext er
  -- the bag itself is all there is from it on
  have hown : Widest (fun erc => (g₀.node b).own_ld_rmp er = some erc)
      ((g.node b).sucs_ld_rmp er) := by
    refine (hsuc b hb er).congr fun erc => ?_
    simp only [childless_path hnone, exists_eq_left]
  have hshown : Widest (fun erc => (g₀.node b).sucs_ld_rmp er = some erc)
      ((g.node b).sucs_ld_rmp er) := by
    refine (ht.sucs b hb er).congr fun erc => ?_
    simp only [ShownAfter, childless_path hnone, exists_eq_left, hnone, ne_eq, not_true,
      false_and, or_false]
  rw [← widest_unique hown, ← widest_unique hshown]

theorem Traversed.succeeded (ht : Traversed f order g₀ g₁ g) (h : LoopFree f g₀)
    (hloads : ChildlessLoads g₀) : Succeeded g₀ g := by
  intro b hb er
  refine (ht.sucs b hb er).restrict ?_ fun erc => h.own_of_shown
  rintro erc ⟨d, hbd, hown⟩
  refine ⟨d, hbd, ?_⟩
  by_cases hnone : (g₀.node d).children = ∅
  · rw [← hloads d (h.child_true hb hbd) hnone]
    exact .inl hown
  · exact .inr ⟨hnone, hown⟩

/-- What is left of the closed form when the traversals are known. -/
theorem Traversed.loads_iff (ht : Traversed f order g₀ g₁ g) (h : LoopFree f g₀)
    (hreach : ∀ b, Reach f.Edge f.entry b) : ClosedForm f order g₀ ↔ Succeeded g₀ g := by
  constructor
  · rintro ⟨g₁', g', l₁, l₂, ⟨n₁, hn₁, -⟩, ⟨n₂, hn₂, -⟩, -, -, -, hsuc⟩
    have hg₁ : g₁' = g₁ :=
      Option.some.inj (Machine.halts_unique ⟨n₁, hn₁⟩ ht.preceding)
    subst hg₁
    have hg : g' = g := Option.some.inj (Machine.halts_unique ⟨n₂, hn₂⟩ ht.succeeding)
    rwa [← hg]
  · intro hsuc
    obtain ⟨l₁, hl₁, hall₁⟩ := Preceding.visits order h hreach ht.preceding
    obtain ⟨l₂, hl₂, hall₂⟩ := Succeeding.visits order ht.dag₁ hreach ht.succeeding
    refine ⟨g₁, g, l₁, l₂, hl₁, hl₂, hall₁, ?_, ht.pres, hsuc⟩
    unfold VisitsAll at hall₂ ⊢
    rwa [ht.true₁] at hall₂

/-- **The traversals leave the closed form exactly when the bags without children start
with all their own loads.** -/
theorem closedForm_iff (f : BlockGraph β) (order : PtrOrder β) (uninit : β → Bool)
    (hreach : ∀ b, Reach f.Edge f.entry b)
    (hg : Machine.Halts (RemoveLoop.step order) (RemoveLoop.start f order uninit) (some g₀)) :
    ClosedForm f order g₀ ↔ ChildlessLoads g₀ := by
  have h := RemoveLoop.loopFree_of_halts hreach hg
  obtain ⟨g₁, g₂, ht⟩ := traversals_halt order h hreach
  rw [ht.loads_iff h hreach]
  exact ⟨ht.childless, ht.succeeded h⟩

theorem closedForm_iff_endless :
    ∃ g₀, Machine.Halts (RemoveLoop.step byNumber)
        (RemoveLoop.start endlessLoop byNumber fun _ => false) (some g₀) ∧
      (ClosedForm endlessLoop byNumber g₀ ↔ ChildlessLoads g₀) := by
  obtain ⟨g₀, hg₀, -⟩ :=
    RemoveLoop.removeLoop_halts endlessLoop byNumber (fun _ => false) endlessLoop_reach
  exact ⟨g₀, hg₀, closedForm_iff endlessLoop byNumber (fun _ => false) endlessLoop_reach hg₀⟩

/-- The bag of the endless loop starts with the loads of one of its two blocks. -/
theorem closedForm_fails : ¬ ∀ g₀,
    Machine.Halts (RemoveLoop.step byNumber)
        (RemoveLoop.start endlessLoop byNumber fun _ => false) (some g₀) →
      ClosedForm endlessLoop byNumber g₀ := by
  intro hall
  obtain ⟨g₀, hg₀, h⟩ :=
    RemoveLoop.removeLoop_halts endlessLoop byNumber (fun _ => false) endlessLoop_reach
  obtain ⟨g₁, g, ht⟩ := traversals_halt byNumber h endlessLoop_reach
  have hloads := ht.childless ((ht.loads_iff h endlessLoop_reach).mp (hall g₀ hg₀))
  have hb := h.getTrueBag_idem 1
  -- both blocks of the loop are in this bag, and no edge leaves it
  have hin : ∀ x, g₀.GetTrueBag x = g₀.GetTrueBag 1 ↔ x = 1 ∨ x = 2 := by
    intro x
    rw [h.true_eq_iff, endlessLoop_mutual]
  have hnone : (g₀.node (g₀.GetTrueBag 1)).children = ∅ := by
    refine Finset.eq_empty_of_forall_notMem fun c hc => ?_
    obtain ⟨hne, u, v, -, rfl, huv⟩ := (h.children _ hb c).mp hc
    exact hne ((hin v).mpr (endlessLoop_target huv)).symm
  have hown := hloads _ hb hnone
  rw [h.sucs_ld] at hown
  have hld : ∀ x er, (x = 1 ∨ x = 2) → (∃ erc, endlessLoop.bb_ld_r_mp x er = some erc) →
      (endlessLoop.bb_ld_r_mp (g₀.GetTrueBag 1) er).isSome = true := by
    rintro x er hx ⟨erc, hload⟩
    rw [← hown]
    exact (h.own_ld _ hb er).isSome_iff.mpr ⟨erc, x, (hin x).mpr hx, hload⟩
  -- `X1` is read in the first block only, and `X0` in the second only
  rcases (hin _).mp hb with hrep | hrep
  · have := hld 2 ⟨.General, 0⟩ (.inr rfl) ⟨.RegX, rfl⟩
    rw [hrep] at this
    cases this
  · have := hld 1 ⟨.General, 1⟩ (.inl rfl) ⟨.RegX, rfl⟩
    rw [hrep] at this
    cases this

end Elfconv
