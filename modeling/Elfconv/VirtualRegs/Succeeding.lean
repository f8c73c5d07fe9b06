/-
Elfconv/VirtualRegs/Succeeding.lean

`GetSucceedingVirtualRegsBags` visits the bags in an order of the edges back from the last.

A bag that cannot be finished yet goes back on the stack, below its unfinished children.
What is collected for a bag are the registers that are read in the bags from it on, with a
reservation: the loads that the bag starts with, those of the block it is named after,
always count, and its own loads when it has a child (`Succeeding.Shown`).
-/
import Elfconv.Lib.PostOrder
import Elfconv.VirtualRegs.Preceding

namespace Elfconv

open Component

variable {β : Type} [Fintype β] [DecidableEq β] {f : BlockGraph β} {g : BagGraph β}

namespace Succeeding

/-- A class of a read in the bag that the traversal takes into account. -/
def Shown (g : BagGraph β) (f : BlockGraph β) (b : β) (er : EcvReg) (erc : ERC) : Prop :=
  (g.node b).sucs_ld_rmp er = some erc ∨
    (∃ c, g.Edge f b c) ∧ (g.node b).own_ld_rmp er = some erc

/-- The classes of the reads from the bag on. -/
def ClassAfter (g : BagGraph β) (f : BlockGraph β) (b : β) (er : EcvReg) (erc : ERC) : Prop :=
  ∃ a, Reach (g.Edge f) b a ∧ Shown g f a er erc

/-- A field that the traversal does not touch. -/
def SucsFree {γ : Type} (field : PhiRegsBBBagNode β → γ) : Prop :=
  ∀ n ld, field { n with sucs_ld_rmp := ld } = field n

/-- The succeeding registers of the bags in `fins` are those read from them on. -/
structure SucsDone (f : BlockGraph β) (g₀ : BagGraph β) (fins : Finset β) (g : BagGraph β) :
    Prop where
  frame : ∀ {γ : Type} (field : PhiRegsBBBagNode β → γ), SucsFree field →
    ∀ b, field (g.node b) = field (g₀.node b)
  bag_num : g.bag_num = g₀.bag_num
  ld : ∀ b ∈ fins, ∀ er, Widest (ClassAfter g₀ f b er) ((g.node b).sucs_ld_rmp er)
  rest : ∀ b ∉ fins, (g.node b).sucs_ld_rmp = (g₀.node b).sucs_ld_rmp

/-- The invariant of the second pass: a bag is finished after its children and counts those that
are. -/
structure SucceedingInv (f : BlockGraph β) (g₀ : BagGraph β) (s : SucceedingState β) : Prop where
  done : SucsDone f g₀ s.fins s.graph
  fins_true : ∀ b ∈ s.fins, g₀.GetTrueBag b = b
  stack_true : ∀ b ∈ s.bag_stack, g₀.GetTrueBag b = b
  closed : ∀ b ∈ s.fins, ∀ c, g₀.Edge f b c → c ∈ s.fins
  count : ∀ b, g₀.GetTrueBag b = b →
    s.fin_chn_nummp.count b = ((g₀.node b).children ∩ s.fins).card
  entries : ∀ b, (s.fin_chn_nummp b).isSome → g₀.GetTrueBag b = b
  fins_entries : ∀ b ∈ s.fins, (s.fin_chn_nummp b).isSome
  root : g₀.GetTrueBag f.entry ∈ s.fins ∨ g₀.GetTrueBag f.entry ∈ s.bag_stack

variable {order : PtrOrder β} {g₀ : BagGraph β} {s : SucceedingState β} {t_bg : β}
  {rest : List β}

theorem classAfter_iff (h : BagDag f g₀) (ht : g₀.GetTrueBag t_bg = t_bg) {er : EcvReg}
    {erc : ERC} :
    ClassAfter g₀ f t_bg er erc ↔
      (g₀.node t_bg).sucs_ld_rmp er = some erc ∨
        ∃ c ∈ order.iter (g₀.node t_bg).children,
          ClassAfter g₀ f c er erc ∨ (g₀.node t_bg).own_ld_rmp er = some erc := by
  have hchild : ∀ c, c ∈ order.iter (g₀.node t_bg).children ↔ g₀.Edge f t_bg c :=
    fun c => PtrOrder.mem_iter.trans (h.children t_bg ht c)
  simp only [hchild]
  constructor
  · rintro ⟨a, hta, ha⟩
    rcases Relation.ReflTransGen.cases_head hta with rfl | ⟨c, htc, hca⟩
    · exact ha.imp_right fun ⟨⟨c, hc⟩, hclass⟩ => ⟨c, hc, .inr hclass⟩
    · exact .inr ⟨c, htc, .inl ⟨a, hca, ha⟩⟩
  · rintro (hld | ⟨c, htc, ⟨a, hca, ha⟩ | hclass⟩)
    · exact ⟨t_bg, .refl, .inl hld⟩
    · exact ⟨a, hca.head htc, ha⟩
    · exact ⟨t_bg, .refl, .inr ⟨⟨c, htc⟩, hclass⟩⟩

theorem SucsDone.finish (h : BagDag f g₀) (hd : SucsDone f g₀ s.fins s.graph)
    (ht : g₀.GetTrueBag t_bg = t_bg) (hnot : t_bg ∉ s.fins)
    (hchildren : ∀ c ∈ (g₀.node t_bg).children, c ∈ s.fins) :
    SucsDone f g₀ (insert t_bg s.fins) (finish order s.graph t_bg) := by
  have hch : (s.graph.node t_bg).children = (g₀.node t_bg).children :=
    hd.frame (·.children) (fun _ _ => rfl) t_bg
  refine ⟨fun field hf b => ?_, hd.bag_num, fun b hb er => ?_, fun b hb => ?_⟩
  · rw [Succeeding.finish, BagGraph.modify_field field fun n => hf n _, hd.frame field hf]
  · rw [Succeeding.finish, BagGraph.modify_node]
    split
    · rename_i hbt
      subst hbt
      have hown : Widest (fun erc => (g₀.node b).own_ld_rmp er = some erc)
          ((s.graph.node b).own_ld_rmp er) := by
        rw [hd.frame (·.own_ld_rmp) fun _ _ => rfl]
        exact widest_self _
      have hself : Widest (fun erc => (g₀.node b).sucs_ld_rmp er = some erc)
          ((s.graph.node b).sucs_ld_rmp er) := by
        rw [hd.rest b hnot]
        exact widest_self _
      -- the widest class over the children, each of which shows its own loads besides what comes
      -- later
      have hmerged := Widest.mergeEach (order.iter (g₀.node b).children) hself
        (fun c hc => hd.ld c (hchildren c (PtrOrder.mem_iter.mp hc)) er) fun _ _ => hown
      rw [hch]
      exact hmerged.congr fun erc => (classAfter_iff h ht).symm
    · rename_i hbt
      exact hd.ld b ((Finset.mem_insert.mp hb).resolve_left hbt) er
  · rw [Finset.mem_insert, not_or] at hb
    rw [Succeeding.finish, BagGraph.modify_node, if_neg hb.1]
    exact hd.rest b hb.2

/-! ### What one iteration preserves -/

theorem SucceedingInv.count_of_ready (h : BagDag f g₀) (hi : SucceedingInv f g₀ s)
    (ht : g₀.GetTrueBag t_bg = t_bg) :
    (g₀.node t_bg).children.card = s.fin_chn_nummp.count t_bg ↔
      ∀ c, g₀.Edge f t_bg c → c ∈ s.fins := by
  rw [hi.count t_bg ht]
  constructor
  · intro hcard c hc
    exact subset_of_card_inter hcard ((h.children t_bg ht c).mpr hc)
  · intro hall
    have : (g₀.node t_bg).children ∩ s.fins = (g₀.node t_bg).children :=
      Finset.inter_eq_left.mpr fun c hc => hall c ((h.children t_bg ht c).mp hc)
    rw [this]

/-- A finished bag leaves the stack. -/
theorem SucceedingInv.drop (hi : SucceedingInv f g₀ s) (hs : s.bag_stack = t_bg :: rest)
    (hfin : t_bg ∈ s.fins) : SucceedingInv f g₀ { s with bag_stack := rest } where
  done := hi.done
  fins_true := hi.fins_true
  stack_true b hb := hi.stack_true b (hs ▸ List.mem_cons_of_mem t_bg hb)
  closed := hi.closed
  count := hi.count
  entries := hi.entries
  fins_entries := hi.fins_entries
  root := by
    refine hi.root.elim .inl fun hroot => ?_
    rw [hs] at hroot
    rcases List.mem_cons.mp hroot with hroot | hroot
    · exact .inl (hroot ▸ hfin)
    · exact .inr hroot

omit [Fintype β] in
theorem isSome_insertZero {mp : Nummp β} {b c : β} :
    (mp.insertZero b c).isSome ↔ c = b ∨ (mp c).isSome := by
  unfold Nummp.insertZero
  rw [Function.update_apply]
  split
  · rename_i h
    exact iff_of_true rfl (.inl h)
  · rename_i h
    exact (or_iff_right h).symm

omit [Fintype β] in
theorem isSome_incrementAll {mp : Nummp β} {bags : List β} {c : β} :
    (mp.incrementAll bags c).isSome ↔ c ∈ bags ∨ (mp c).isSome := by
  induction bags generalizing mp with
  | nil => simp [Nummp.incrementAll]
  | cons b bags ih =>
      have hb : (mp.increment b c).isSome ↔ c = b ∨ (mp c).isSome := by
        unfold Nummp.increment
        rw [Function.update_apply]
        split
        · rename_i h
          exact iff_of_true rfl (.inl h)
        · rename_i h
          exact (or_iff_right h).symm
      rw [Nummp.incrementAll, List.foldl_cons, ← Nummp.incrementAll, ih, hb, List.mem_cons]
      tauto

/-- The bag on top of the stack has all its children finished. -/
theorem SucceedingInv.finish (h : BagDag f g₀) (order : PtrOrder β) (hi : SucceedingInv f g₀ s)
    (hs : s.bag_stack = t_bg :: rest) (hnot : t_bg ∉ s.fins)
    (hall : ∀ c, g₀.Edge f t_bg c → c ∈ s.fins) :
    SucceedingInv f g₀
      { graph := Succeeding.finish order s.graph t_bg
        bag_stack := rest
        fin_chn_nummp := (s.fin_chn_nummp.insertZero t_bg).incrementAll
          (order.iter (s.graph.node t_bg).parents)
        fins := insert t_bg s.fins } := by
  have ht := hi.stack_true t_bg (hs ▸ List.mem_cons_self)
  have hparents : ∀ p, p ∈ order.iter (s.graph.node t_bg).parents ↔ g₀.Edge f p t_bg := by
    intro p
    rw [PtrOrder.mem_iter, hi.done.frame (·.parents) fun _ _ => rfl]
    exact h.parents t_bg ht p
  constructor
  · exact hi.done.finish h ht hnot fun c hc => hall c ((h.children t_bg ht c).mp hc)
  · intro b hb
    rcases Finset.mem_insert.mp hb with rfl | hb
    · exact ht
    · exact hi.fins_true b hb
  · exact fun b hb => hi.stack_true b (hs ▸ List.mem_cons_of_mem t_bg hb)
  · intro b hb c hc
    rcases Finset.mem_insert.mp hb with rfl | hb
    · exact Finset.mem_insert_of_mem (hall c hc)
    · exact Finset.mem_insert_of_mem (hi.closed b hb c hc)
  · intro b hb
    -- the counter of a parent goes up by the child that was finished
    rw [Nummp.count_incrementAll (order.nodup_iter _), Nummp.count_insertZero, hi.count b hb,
      card_inter_insert hnot]
    exact congrArg _ (if_congr ((hparents b).trans (h.children b hb t_bg).symm) rfl rfl)
  · intro b hb
    rw [isSome_incrementAll, hparents, isSome_insertZero] at hb
    rcases hb with hb | rfl | hb
    · exact (h.edge_true hb).1
    · exact ht
    · exact hi.entries b hb
  · intro b hb
    rw [isSome_incrementAll, isSome_insertZero]
    exact .inr ((Finset.mem_insert.mp hb).imp_right (hi.fins_entries b))
  · -- the entry stays on the stack until it is finished itself
    rcases hi.root with hroot | hroot
    · exact .inl (Finset.mem_insert_of_mem hroot)
    · rw [hs] at hroot
      rcases List.mem_cons.mp hroot with hroot | hroot
      · exact .inl (hroot ▸ Finset.mem_insert_self _ _)
      · exact .inr hroot

/-- The unfinished children go on the stack, above their parent. -/
theorem SucceedingInv.push (hi : SucceedingInv f g₀ s) (hs : s.bag_stack = t_bg :: rest)
    (children : List β) (hchildren : ∀ c ∈ children, g₀.GetTrueBag c = c) :
    SucceedingInv f g₀
      { s with
        bag_stack := children ++ t_bg :: rest
        fin_chn_nummp := s.fin_chn_nummp.insertZero t_bg } where
  done := hi.done
  fins_true := hi.fins_true
  stack_true b hb := by
    rcases List.mem_append.mp hb with hb | hb
    · exact hchildren b hb
    · exact hi.stack_true b (hs ▸ hb)
  closed := hi.closed
  count b hb := by
    rw [Nummp.count_insertZero]
    exact hi.count b hb
  entries b hb := by
    rcases isSome_insertZero.mp hb with rfl | hb
    · exact hi.stack_true b (hs ▸ List.mem_cons_self)
    · exact hi.entries b hb
  fins_entries b hb := isSome_insertZero.mpr (.inr (hi.fins_entries b hb))
  root := hi.root.imp_right fun hroot => List.mem_append_right _ (hs ▸ hroot)

/-- **An iteration goes on with the invariant and a smaller measure, unless the stack is
empty.** -/
theorem step_spec (h : BagDag f g₀) (order : PtrOrder β) (hi : SucceedingInv f g₀ s) :
    s.bag_stack = [] ∧
        step order s =
          .inr
            (if s.fins.card = s.fin_chn_nummp.size ∧ s.fins.card = s.graph.bag_num then
              some s.graph
            else none) ∨
      ∃ s', step order s = .inl s' ∧ SucceedingInv f g₀ s' ∧
        PostOrder.Smaller (PostOrder.measure (g₀.Edge f) s'.fins s'.bag_stack)
          (PostOrder.measure (g₀.Edge f) s.fins s.bag_stack) := by
  rcases hs : s.bag_stack with - | ⟨t_bg, rest⟩
  · exact .inl ⟨rfl, by simp only [step, hs]⟩
  · refine .inr ?_
    have ht := hi.stack_true t_bg (hs ▸ List.mem_cons_self)
    have hchildren : (s.graph.node t_bg).children = (g₀.node t_bg).children :=
      hi.done.frame (·.children) (fun _ _ => rfl) t_bg
    by_cases hfin : t_bg ∈ s.fins
    · refine ⟨_, by simp only [step, hs, if_pos hfin], hi.drop hs hfin, ?_⟩
      exact PostOrder.smaller_drop hfin
    · by_cases hready : (s.graph.node t_bg).children.card =
          (s.fin_chn_nummp.insertZero t_bg).count t_bg
      · have hall : ∀ c, g₀.Edge f t_bg c → c ∈ s.fins := by
          rw [hchildren, Nummp.count_insertZero] at hready
          exact (hi.count_of_ready h ht).mp hready
        refine ⟨_, by simp only [step, hs, if_neg hfin, if_pos hready],
          hi.finish h order hs hfin hall, PostOrder.smaller_finish hfin _⟩
      · have hnew : ∀ c, c ∈ ((order.iter (s.graph.node t_bg).children).filter
            (· ∉ s.fins)).reverse ↔ g₀.Edge f t_bg c ∧ c ∉ s.fins := by
          intro c
          rw [List.mem_reverse, List.mem_filter, PtrOrder.mem_iter, hchildren,
            h.children t_bg ht, decide_eq_true_eq]
        refine ⟨_, by simp only [step, hs, if_neg hfin, if_neg hready],
          hi.push hs _ fun c hc => (h.edge_true ((hnew c).mp hc).1).2, ?_⟩
        refine PostOrder.smaller_push h.acyclic hfin (fun c hc => (hnew c).mp hc) fun hnil => ?_
        -- all children are finished otherwise
        refine hready ?_
        rw [hchildren, Nummp.count_insertZero]
        refine (hi.count_of_ready h ht).mpr fun c hc => ?_
        by_contra hcfin
        have hmem := (hnew c).mpr ⟨hc, hcfin⟩
        rw [hnil] at hmem
        cases hmem

/-! ### The result -/

theorem succeedingInv_start (h : BagDag f g₀) :
    SucceedingInv f g₀ (start g₀ (g₀.GetTrueBag f.entry)) := by
  refine ⟨⟨fun _ _ _ => rfl, rfl, ?_, fun _ _ => rfl⟩, ?_, fun b hb => ?_, ?_,
    fun b _ => ?_, fun b hb => ?_, ?_, .inr (List.mem_singleton.mpr rfl)⟩
  · simp [start]
  · simp [start]
  · rw [List.mem_singleton.mp hb, h.getTrueBag_idem]
  · simp [start]
  · simp [start, Nummp.count]
  · cases hb
  · simp [start]

/-- With an empty stack every bag is finished. -/
theorem SucceedingInv.fins_eq (hi : SucceedingInv f g₀ s)
    (hreach : ∀ b, Reach f.Edge f.entry b) (hs : s.bag_stack = []) :
    s.fins = Finset.univ.filter fun b => g₀.GetTrueBag b = b := by
  have hroot : g₀.GetTrueBag f.entry ∈ s.fins := by
    refine hi.root.resolve_right ?_
    rw [hs]
    exact List.not_mem_nil
  have hpath : ∀ b, Reach (g₀.Edge f) (g₀.GetTrueBag f.entry) b → b ∈ s.fins := by
    intro b hb
    induction hb with
    | refl => exact hroot
    | tail _ hstep ih => exact hi.closed _ ih _ hstep
  ext b
  rw [Finset.mem_filter, and_iff_right (Finset.mem_univ b)]
  refine ⟨hi.fins_true b, fun hb => ?_⟩
  rw [← hb]
  exact hpath _ (reach_between (hreach b))

/-- **The traversal stops, fails no check and gives every bag the registers shown from it
on.** -/
theorem succeeding_halts (h : BagDag f g₀) (order : PtrOrder β)
    (hreach : ∀ b, Reach f.Edge f.entry b) :
    ∃ g, Machine.Halts (step order) (start g₀ (g₀.GetTrueBag f.entry)) (some g) ∧
      SucsDone f g₀ (Finset.univ.filter fun b => g₀.GetTrueBag b = b) g := by
  have hstep : ∀ s s', SucceedingInv f g₀ s → step order s = .inl s' →
      SucceedingInv f g₀ s' ∧
        PostOrder.Smaller (PostOrder.measure (g₀.Edge f) s'.fins s'.bag_stack)
          (PostOrder.measure (g₀.Edge f) s.fins s.bag_stack) := by
    intro s s' hi hstep
    rcases step_spec h order hi with ⟨-, he⟩ | ⟨s'', he, hi', hlt⟩
    · rw [he] at hstep
      cases hstep
    · rw [he] at hstep
      cases hstep
      exact ⟨hi', hlt⟩
  have hstop : ∀ s r, SucceedingInv f g₀ s → step order s = .inr r →
      ∃ g, r = some g ∧ SucsDone f g₀ (Finset.univ.filter fun b => g₀.GetTrueBag b = b) g := by
    intro s r hi hstep
    rcases step_spec h order hi with ⟨hs, he⟩ | ⟨s'', he, -, -⟩
    · have hfins := hi.fins_eq hreach hs
      -- the bags with an entry are the finished ones
      have hsize : s.fin_chn_nummp.size = s.fins.card := by
        refine congrArg Finset.card ?_
        ext b
        rw [Finset.mem_filter, and_iff_right (Finset.mem_univ b)]
        refine ⟨fun hb => ?_, hi.fins_entries b⟩
        rw [hfins, Finset.mem_filter]
        exact ⟨Finset.mem_univ b, hi.entries b hb⟩
      rw [he, if_pos ⟨hsize.symm, by rw [hfins, hi.done.bag_num, h.bag_num]⟩] at hstep
      cases hstep
      exact ⟨_, rfl, hfins ▸ hi.done⟩
    · rw [he] at hstep
      cases hstep
  obtain ⟨r, hr, g, rfl, hg⟩ := Machine.halts_of_measure PostOrder.Smaller
    PostOrder.smaller_wf (fun s => PostOrder.measure (g₀.Edge f) s.fins s.bag_stack) hstep hstop
    (succeedingInv_start h)
  exact ⟨g, hr, hg⟩

end Succeeding

end Elfconv
