/-
Elfconv/VirtualRegs/Preceding.lean

The graph of the bags is acyclic, and `GetPrecedingVirtualRegsBags` visits it in an order
of its edges.

A bag is finished when as many of its parents are finished as it has.  The queue holds all
bags that could be finished (`PrecedingInv.ready`), so when it is empty every bag is, and
what was merged into a bag are the own registers of its strict ancestors (`PresDone`).
-/
import Elfconv.VirtualRegs.Derived
import Elfconv.VirtualRegs.RemoveLoop
import Mathlib.Data.Fintype.EquivFin

namespace Elfconv

open Component

variable {β : Type} [Fintype β] [DecidableEq β] {f : BlockGraph β} {g : BagGraph β}

/-! ### The graph of the bags -/

/-- There is an edge from bag `a` to bag `b`. -/
abbrev BagGraph.Edge (g : BagGraph β) (f : BlockGraph β) : β → β → Prop :=
  Between f.Edge g.GetTrueBag

/-- Bag `a` is a strict ancestor of bag `b`. -/
abbrev BagGraph.Before (g : BagGraph β) (f : BlockGraph β) : β → β → Prop :=
  Relation.TransGen (g.Edge f)

namespace BagDag

variable {a b : β}

theorem component (h : BagDag f g) (b : β) : Mutual f.Edge b (g.GetTrueBag b) :=
  (h.true_eq_iff _ _).mp (h.getTrueBag_idem b).symm

theorem edge_true (h : BagDag f g) (hab : g.Edge f a b) :
    g.GetTrueBag a = a ∧ g.GetTrueBag b = b := by
  obtain ⟨-, u, v, rfl, rfl, -⟩ := hab
  exact ⟨h.getTrueBag_idem u, h.getTrueBag_idem v⟩

theorem reach_of_before (h : BagDag f g) (hab : g.Before f a b) : Reach f.Edge a b :=
  reach_of_between h.component hab.to_reflTransGen

/-- The graph of the bags has no cycle. -/
theorem acyclic (h : BagDag f g) (a : β) : ¬ g.Before f a a := by
  intro hcycle
  obtain ⟨b, hab, hba⟩ := Relation.TransGen.head'_iff.mp hcycle
  have hmutual : Mutual f.Edge a b :=
    ⟨reach_of_between_edge h.component hab, reach_of_between h.component hba⟩
  have heq := (h.true_eq_iff a b).mpr hmutual
  rw [(h.edge_true hab).1, (h.edge_true hab).2] at heq
  exact hab.1 heq

theorem before_wf (h : BagDag f g) : WellFounded (g.Before f) := by
  have : IsTrans β (g.Before f) := ⟨fun _ _ _ => Relation.TransGen.trans⟩
  have : Std.Irrefl (g.Before f) := ⟨h.acyclic⟩
  exact Finite.wellFounded_of_trans_of_irrefl _

omit [DecidableEq β] in
/-- Every bag but that of the entry has a parent. -/
theorem exists_parent (hreach : ∀ b, Reach f.Edge f.entry b) {b : β}
    (hb : g.GetTrueBag b = b) (hne : b ≠ g.GetTrueBag f.entry) : ∃ p, g.Edge f p b := by
  have hpath : Reach (g.Edge f) (g.GetTrueBag f.entry) (g.GetTrueBag b) :=
    reach_between (hreach b)
  rw [hb] at hpath
  rcases Relation.ReflTransGen.cases_tail hpath with heq | ⟨p, -, hp⟩
  · exact absurd heq hne
  · exact ⟨p, hp⟩

end BagDag

/-! ### Counters -/

namespace Nummp

variable {mp : Nummp β} {b c : β}

omit [Fintype β] in
theorem count_insertZero : (mp.insertZero b).count c = mp.count c := by
  unfold insertZero count
  rw [Function.update_apply]
  split
  · rename_i h
    rw [h]
    rfl
  · rfl

omit [Fintype β] in
theorem count_increment : (mp.increment b).count c = mp.count c + if c = b then 1 else 0 := by
  unfold increment count
  rw [Function.update_apply]
  split
  · rename_i h
    rw [h]
    rfl
  · rfl

omit [Fintype β] in
theorem count_incrementAll {bags : List β} (hnodup : bags.Nodup) :
    (mp.incrementAll bags).count c = mp.count c + if c ∈ bags then 1 else 0 := by
  induction bags generalizing mp with
  | nil => simp [incrementAll]
  | cons b bags ih =>
      obtain ⟨hb, hbags⟩ := List.nodup_cons.mp hnodup
      rw [incrementAll, List.foldl_cons, ← incrementAll, ih hbags, count_increment]
      by_cases hcb : c = b
      · subst hcb
        rw [if_pos rfl, if_neg hb, if_pos List.mem_cons_self]
      · rw [if_neg hcb, Nat.add_zero]
        simp only [List.mem_cons, hcb, false_or]

end Nummp

omit [Fintype β] in
theorem PtrOrder.nodup_iter (order : PtrOrder β) (s : Finset β) : (order.iter s).Nodup :=
  order.nodup.filter _

omit [Fintype β] in
/-- A bag counts one more finished neighbour when one of them is finished. -/
theorem card_inter_insert {s fins : Finset β} {t : β} (ht : t ∉ fins) :
    (s ∩ insert t fins).card = (s ∩ fins).card + if t ∈ s then 1 else 0 := by
  split
  · rename_i hts
    rw [Finset.inter_insert_of_mem hts, Finset.card_insert_of_notMem]
    exact fun h => ht (Finset.mem_inter.mp h).2
  · rename_i hts
    rw [Finset.inter_insert_of_notMem hts, Nat.add_zero]

omit [Fintype β] in
theorem subset_of_card_inter {s fins : Finset β} (h : s.card = (s ∩ fins).card) : s ⊆ fins := by
  have := Finset.eq_of_subset_of_card_le Finset.inter_subset_left h.le
  exact Finset.inter_eq_left.mp this

/-! ### The traversal -/

/-- The classes of a register in the own maps of the strict ancestors of the bag. -/
def BagGraph.OwnBefore (g : BagGraph β) (f : BlockGraph β) (b : β)
    (own : PhiRegsBBBagNode β → EcvRegMap) (er : EcvReg) (erc : ERC) : Prop :=
  ∃ a, g.Before f a b ∧ own (g.node a) er = some erc

namespace Preceding

/-- A field that the traversal does not touch. -/
def PresFree {γ : Type} (field : PhiRegsBBBagNode β → γ) : Prop :=
  ∀ n ld str, field { n with pres_ld_rmp := ld, pres_str_rmp := str } = field n

/-- The preceding registers of the bags in `fins` are those of their strict ancestors. -/
structure PresDone (f : BlockGraph β) (g₀ : BagGraph β) (fins : Finset β) (g : BagGraph β) :
    Prop where
  frame : ∀ {γ : Type} (field : PhiRegsBBBagNode β → γ), PresFree field →
    ∀ b, field (g.node b) = field (g₀.node b)
  bag_num : g.bag_num = g₀.bag_num
  ld : ∀ b ∈ fins, ∀ er, Widest (g₀.OwnBefore f b (·.own_ld_rmp) er) ((g.node b).pres_ld_rmp er)
  str : ∀ b ∈ fins, ∀ er,
    Widest (g₀.OwnBefore f b (·.own_str_rmp) er) ((g.node b).pres_str_rmp er)
  rest : ∀ b ∉ fins, ∀ er,
    (g.node b).pres_ld_rmp er = none ∧ (g.node b).pres_str_rmp er = none

/-- The invariant of the first pass: a bag is finished after its parents and counts those that are.
-/
structure PrecedingInv (f : BlockGraph β) (g₀ : BagGraph β) (s : PrecedingState β) : Prop where
  done : PresDone f g₀ s.fins s.graph
  fins_true : ∀ b ∈ s.fins, g₀.GetTrueBag b = b
  queue_true : ∀ b ∈ s.bag_queue, g₀.GetTrueBag b = b
  closed : ∀ b ∈ s.fins, ∀ p, g₀.Edge f p b → p ∈ s.fins
  count : ∀ b, g₀.GetTrueBag b = b →
    s.fin_pars_nummp.count b = ((g₀.node b).parents ∩ s.fins).card
  ready : ∀ b, g₀.GetTrueBag b = b → b ∉ s.fins → (∀ p, g₀.Edge f p b → p ∈ s.fins) →
    b ∈ s.bag_queue

variable {order : PtrOrder β} {g₀ : BagGraph β} {s : PrecedingState β} {t_bg : β}
  {rest : List β}

/-- The classes before a bag are those of its parents and before them. -/
theorem ownBefore_iff (h : BagDag f g₀) (ht : g₀.GetTrueBag t_bg = t_bg)
    {own : PhiRegsBBBagNode β → EcvRegMap} {er : EcvReg} {erc : ERC} :
    g₀.OwnBefore f t_bg own er erc ↔
      ∃ p ∈ order.iter (g₀.node t_bg).parents,
        g₀.OwnBefore f p own er erc ∨ own (g₀.node p) er = some erc := by
  constructor
  · rintro ⟨a, hab, ha⟩
    obtain ⟨p, hap, hp⟩ := Relation.TransGen.tail'_iff.mp hab
    refine ⟨p, PtrOrder.mem_iter.mpr ((h.parents t_bg ht p).mpr hp), ?_⟩
    rcases Relation.reflTransGen_iff_eq_or_transGen.mp hap with rfl | hap
    · exact .inr ha
    · exact .inl ⟨a, hap, ha⟩
  · rintro ⟨p, hp, hclass⟩
    have hedge := (h.parents t_bg ht p).mp (PtrOrder.mem_iter.mp hp)
    rcases hclass with ⟨a, hap, ha⟩ | ha
    · exact ⟨a, hap.tail hedge, ha⟩
    · exact ⟨p, .single hedge, ha⟩

theorem widest_mergeEach (h : BagDag f g₀) (ht : g₀.GetTrueBag t_bg = t_bg)
    {own : PhiRegsBBBagNode β → EcvRegMap} {er : EcvReg} {m : EcvRegMap} {pres : β → EcvRegMap}
    (hnone : m er = none)
    (hpres : ∀ p ∈ (g₀.node t_bg).parents, Widest (g₀.OwnBefore f p own er) (pres p er)) :
    Widest (g₀.OwnBefore f t_bg own er)
      (m.mergeEach (order.iter (g₀.node t_bg).parents) pres (fun p => own (g₀.node p)) er) := by
  have hmerged := Widest.mergeEach (order.iter (g₀.node t_bg).parents) (hnone ▸ widest_none)
    (fun p hp => hpres p (PtrOrder.mem_iter.mp hp))
    fun p _ => widest_self (own (g₀.node p) er)
  refine hmerged.congr fun erc => ?_
  rw [false_or, ← ownBefore_iff h ht]

/-- The bag that is finished gets the registers of its parents and their ancestors. -/
theorem PresDone.finish (h : LoopFree f g₀) (hd : PresDone f g₀ s.fins s.graph)
    (ht : g₀.GetTrueBag t_bg = t_bg) (hnot : t_bg ∉ s.fins)
    (hparents : ∀ p ∈ (g₀.node t_bg).parents, p ∈ s.fins) :
    PresDone f g₀ (insert t_bg s.fins) (finish order s.graph t_bg) := by
  -- the parents are those of the start, and all of them are done
  have hpar : (s.graph.node t_bg).parents = (g₀.node t_bg).parents :=
    hd.frame (·.parents) (fun _ _ _ => rfl) t_bg
  refine ⟨fun field hf b => ?_, hd.bag_num, fun b hb er => ?_, fun b hb er => ?_,
    fun b hb er => ?_⟩
  · rw [Preceding.finish, BagGraph.modify_field field fun n => hf n _ _, hd.frame field hf]
  · rw [Preceding.finish, BagGraph.modify_node]
    split
    · rename_i hbt
      subst hbt
      have hown : (fun p => (s.graph.node p).own_ld_rmp) = fun p => (g₀.node p).own_ld_rmp :=
        funext fun p => hd.frame (·.own_ld_rmp) (fun _ _ _ => rfl) p
      rw [hpar, hown]
      exact widest_mergeEach h.toBagDag ht (hd.rest b hnot er).1
        fun p hp => hd.ld p (hparents p hp) er
    · rename_i hbt
      exact hd.ld b ((Finset.mem_insert.mp hb).resolve_left hbt) er
  · rw [Preceding.finish, BagGraph.modify_node]
    split
    · rename_i hbt
      subst hbt
      have hown : (fun p => (s.graph.node p).own_str_rmp) = fun p => (g₀.node p).own_str_rmp :=
        funext fun p => hd.frame (·.own_str_rmp) (fun _ _ _ => rfl) p
      rw [hpar, hown]
      exact widest_mergeEach h.toBagDag ht (hd.rest b hnot er).2
        fun p hp => hd.str p (hparents p hp) er
    · rename_i hbt
      exact hd.str b ((Finset.mem_insert.mp hb).resolve_left hbt) er
  · rw [Finset.mem_insert, not_or] at hb
    rw [Preceding.finish, BagGraph.modify_node, if_neg hb.1]
    exact hd.rest b hb.2 er

/-- The unfinished bags, and the queue. -/
def measure (s : PrecedingState β) : Nat × Nat :=
  (Fintype.card β - s.fins.card, s.bag_queue.length)

/-- An unfinished bag whose parents are finished counts all of them. -/
theorem PrecedingInv.count_of_ready (h : BagDag f g₀) (hi : PrecedingInv f g₀ s)
    (ht : g₀.GetTrueBag t_bg = t_bg) :
    (g₀.node t_bg).parents.card = s.fin_pars_nummp.count t_bg ↔
      ∀ p, g₀.Edge f p t_bg → p ∈ s.fins := by
  rw [hi.count t_bg ht]
  constructor
  · intro hcard p hp
    exact subset_of_card_inter hcard ((h.parents t_bg ht p).mpr hp)
  · intro hall
    have : (g₀.node t_bg).parents ∩ s.fins = (g₀.node t_bg).parents :=
      Finset.inter_eq_left.mpr fun p hp => hall p ((h.parents t_bg ht p).mp hp)
    rw [this]

/-- A bag that is finished, or cannot be, leaves the queue. -/
theorem PrecedingInv.drop (hi : PrecedingInv f g₀ s) (hs : s.bag_queue = t_bg :: rest)
    (nummp : Nummp β) (hnummp : ∀ b, nummp.count b = s.fin_pars_nummp.count b)
    (hdrop : t_bg ∈ s.fins ∨ ¬ ∀ p, g₀.Edge f p t_bg → p ∈ s.fins) :
    PrecedingInv f g₀ { s with bag_queue := rest, fin_pars_nummp := nummp } where
  done := hi.done
  fins_true := hi.fins_true
  queue_true b hb := hi.queue_true b (hs ▸ List.mem_cons_of_mem t_bg hb)
  closed := hi.closed
  count b hb := (hnummp b).trans (hi.count b hb)
  ready b hb hfin hall := by
    have hmem := hi.ready b hb hfin hall
    rw [hs] at hmem
    refine (List.mem_cons.mp hmem).resolve_left ?_
    rintro rfl
    exact hdrop.elim hfin fun hnot => hnot hall

/-- The next bag is finished. -/
theorem PrecedingInv.finish (h : LoopFree f g₀) (order : PtrOrder β) (hi : PrecedingInv f g₀ s)
    (hs : s.bag_queue = t_bg :: rest) (hnot : t_bg ∉ s.fins)
    (hall : ∀ p, g₀.Edge f p t_bg → p ∈ s.fins) :
    PrecedingInv f g₀
      { graph := Preceding.finish order s.graph t_bg
        bag_queue :=
          rest ++ (order.iter (s.graph.node t_bg).children).filter (· ∉ insert t_bg s.fins)
        fin_pars_nummp := (s.fin_pars_nummp.insertZero t_bg).incrementAll
          (order.iter (s.graph.node t_bg).children)
        fins := insert t_bg s.fins } := by
  have ht := hi.queue_true t_bg (hs ▸ List.mem_cons_self)
  have hchildren : ∀ c, c ∈ order.iter (s.graph.node t_bg).children ↔ g₀.Edge f t_bg c := by
    intro c
    rw [PtrOrder.mem_iter, hi.done.frame (·.children) fun _ _ _ => rfl]
    exact h.children t_bg ht c
  constructor
  · exact PresDone.finish h hi.done ht hnot fun p hp => hall p ((h.parents t_bg ht p).mp hp)
  · intro b hb
    rcases Finset.mem_insert.mp hb with rfl | hb
    · exact ht
    · exact hi.fins_true b hb
  · intro b hb
    rcases List.mem_append.mp hb with hb | hb
    · exact hi.queue_true b (hs ▸ List.mem_cons_of_mem t_bg hb)
    · exact (h.edge_true ((hchildren b).mp (List.mem_of_mem_filter hb))).2
  · intro b hb p hp
    rcases Finset.mem_insert.mp hb with rfl | hb
    · exact Finset.mem_insert_of_mem (hall p hp)
    · exact Finset.mem_insert_of_mem (hi.closed b hb p hp)
  · intro b hb
    -- the counter of a child goes up by the parent that was finished
    rw [Nummp.count_incrementAll (order.nodup_iter _), Nummp.count_insertZero, hi.count b hb,
      card_inter_insert hnot]
    exact congrArg _ (if_congr ((hchildren b).trans (h.parents b hb t_bg).symm) rfl rfl)
  · intro b hb hfin hready
    rw [Finset.mem_insert, not_or] at hfin
    by_cases hbt : g₀.Edge f t_bg b
    · refine List.mem_append_right _ (List.mem_filter.mpr ⟨(hchildren b).mpr hbt, ?_⟩)
      simpa using hfin
    · -- nothing has changed for a bag that is no child
      have hold : ∀ p, g₀.Edge f p b → p ∈ s.fins := by
        intro p hp
        refine (Finset.mem_insert.mp (hready p hp)).resolve_left ?_
        rintro rfl
        exact hbt hp
      have hmem := hi.ready b hb hfin.2 hold
      rw [hs] at hmem
      exact List.mem_append_left _ ((List.mem_cons.mp hmem).resolve_left hfin.1)

/-- **An iteration goes on with the invariant and a smaller measure, unless the queue is
empty.** -/
theorem step_spec (h : LoopFree f g₀) (order : PtrOrder β) (hi : PrecedingInv f g₀ s) :
    s.bag_queue = [] ∧
        step order s = .inr (if s.fins.card = s.graph.bag_num then some s.graph else none) ∨
      ∃ s', step order s = .inl s' ∧ PrecedingInv f g₀ s' ∧
        Prod.Lex (· < ·) (· < ·) (measure s') (measure s) := by
  rcases hs : s.bag_queue with - | ⟨t_bg, rest⟩
  · exact .inl ⟨rfl, by simp only [step, hs]⟩
  · refine .inr ?_
    have ht := hi.queue_true t_bg (hs ▸ List.mem_cons_self)
    have hparents : (s.graph.node t_bg).parents = (g₀.node t_bg).parents :=
      hi.done.frame (·.parents) (fun _ _ _ => rfl) t_bg
    have hshorter : rest.length < s.bag_queue.length := by
      rw [hs]
      exact Nat.lt_succ_self _
    by_cases hfin : t_bg ∈ s.fins
    · exact ⟨_, by simp only [step, hs, if_pos hfin],
        hi.drop hs s.fin_pars_nummp (fun _ => rfl) (.inl hfin), .right _ hshorter⟩
    -- a bag whose parents are all done is finished; any other is dropped, and its last parent puts
    -- it in the queue again
    · by_cases hready : (s.graph.node t_bg).parents.card =
          (s.fin_pars_nummp.insertZero t_bg).count t_bg
      · have hall : ∀ p, g₀.Edge f p t_bg → p ∈ s.fins := by
          rw [hparents, Nummp.count_insertZero] at hready
          exact (hi.count_of_ready h.toBagDag ht).mp hready
        refine ⟨_, by simp only [step, hs, if_neg hfin, if_pos hready],
          hi.finish h order hs hfin hall, .left _ _ ?_⟩
        have hcard : (insert t_bg s.fins).card ≤ Fintype.card β := Finset.card_le_univ _
        rw [Finset.card_insert_of_notMem hfin] at hcard
        rw [Finset.card_insert_of_notMem hfin]
        omega
      · refine ⟨_, by simp only [step, hs, if_neg hfin, if_neg hready],
          hi.drop hs (s.fin_pars_nummp.insertZero t_bg) (fun _ => Nummp.count_insertZero)
            (.inr fun hall => hready ?_), .right _ hshorter⟩
        rw [hparents, Nummp.count_insertZero]
        exact (hi.count_of_ready h.toBagDag ht).mpr hall

theorem precedingInv_start (h : LoopFree f g₀) (hreach : ∀ b, Reach f.Edge f.entry b) :
    PrecedingInv f g₀ (start g₀ (g₀.GetTrueBag f.entry)) := by
  refine ⟨⟨fun _ _ _ => rfl, rfl, ?_, ?_, fun b _ er => h.pres b er⟩, ?_, fun b hb => ?_, ?_,
    fun b _ => ?_, fun b hb _ hall => ?_⟩
  · simp [start]
  · simp [start]
  · simp [start]
  · rw [List.mem_singleton.mp hb, h.getTrueBag_idem]
  · simp [start]
  · simp [start, Nummp.count]
  · -- a bag without parents is that of the entry
    refine List.mem_singleton.mpr ?_
    by_contra hne
    obtain ⟨p, hp⟩ := BagDag.exists_parent hreach hb hne
    exact absurd (hall p hp) (Finset.notMem_empty p)

/-- With an empty queue every bag is finished. -/
theorem PrecedingInv.fins_eq (h : BagDag f g₀) (hi : PrecedingInv f g₀ s)
    (hs : s.bag_queue = []) : s.fins = Finset.univ.filter fun b => g₀.GetTrueBag b = b := by
  have hall : ∀ b, g₀.GetTrueBag b = b → b ∈ s.fins := by
    intro b
    -- induction along the edges: the parents are finished
    induction b using h.before_wf.induction with
    | h b ih =>
        intro hb
        by_contra hfin
        have := hi.ready b hb hfin fun p hp => ih p (.single hp) (h.edge_true hp).1
        rw [hs] at this
        cases this
  ext b
  rw [Finset.mem_filter, and_iff_right (Finset.mem_univ b)]
  exact ⟨hi.fins_true b, hall b⟩

/-- **The traversal stops, fails no check and gives every bag the registers of its strict
ancestors.** -/
theorem preceding_halts (h : LoopFree f g₀) (order : PtrOrder β)
    (hreach : ∀ b, Reach f.Edge f.entry b) :
    ∃ g, Machine.Halts (step order) (start g₀ (g₀.GetTrueBag f.entry)) (some g) ∧
      PresDone f g₀ (Finset.univ.filter fun b => g₀.GetTrueBag b = b) g := by
  have hstep : ∀ s s', PrecedingInv f g₀ s → step order s = .inl s' →
      PrecedingInv f g₀ s' ∧ Prod.Lex (· < ·) (· < ·) (measure s') (measure s) := by
    intro s s' hi hstep
    rcases step_spec h order hi with ⟨-, he⟩ | ⟨s'', he, hi', hlt⟩
    · rw [he] at hstep
      cases hstep
    · rw [he] at hstep
      cases hstep
      exact ⟨hi', hlt⟩
  have hstop : ∀ s r, PrecedingInv f g₀ s → step order s = .inr r →
      ∃ g, r = some g ∧ PresDone f g₀ (Finset.univ.filter fun b => g₀.GetTrueBag b = b) g := by
    intro s r hi hstep
    rcases step_spec h order hi with ⟨hs, he⟩ | ⟨s'', he, -, -⟩
    · have hfins := hi.fins_eq h.toBagDag hs
      rw [he, if_pos (by rw [hfins, hi.done.bag_num, h.bag_num])] at hstep
      cases hstep
      exact ⟨_, rfl, hfins ▸ hi.done⟩
    · rw [he] at hstep
      cases hstep
  obtain ⟨r, hr, g, rfl, hg⟩ := Machine.halts_of_measure _
    (WellFounded.prod_lex Nat.lt_wfRel.wf Nat.lt_wfRel.wf) measure hstep hstop
    (precedingInv_start h hreach)
  exact ⟨g, hr, hg⟩

end Preceding

end Elfconv
