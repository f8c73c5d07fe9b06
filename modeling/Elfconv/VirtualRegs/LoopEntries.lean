/-
Elfconv/VirtualRegs/LoopEntries.lean

Which block gives a component its bag.

`RemoveLoop` comes to a component at a block to which an edge leads from another component, or
at the first block of the function.  From then on every path that it takes through the
component comes by this block (`Through`), so the other bags are merged into its bag, and never
the other way round.

The paths on the stack are snapshots, and a bag on one of them may have been merged since.  It
was searched again then, and what it leads to stands in the log before the entry with the path
(`staleNeeds`).  So when that entry is taken from the stack, the component is one bag.
-/
import Elfconv.VirtualRegs.RemoveLoop

namespace Elfconv

open Component

variable {β : Type} [Fintype β] [DecidableEq β] {f : BlockGraph β} {order : PtrOrder β}

omit [Fintype β] [DecidableEq β] in
/-- The function starts at the block, or an edge leads to it from another component. -/
def BlockGraph.Entered (f : BlockGraph β) (b : β) : Prop :=
  b = f.entry ∨ ∃ a, f.Edge a b ∧ ¬ Mutual f.Edge a b

namespace RemoveLoop

open BagGraph

variable {s s' : RemoveLoopState β} {fin fin' : List β} {log log' up down top : List (LogEntry β)}
  {e : SearchEntry β} {rest : List (SearchEntry β)} {x c : β}

/-! ### One bag -/

/-- **A component is one bag when a bag of it stands in the log before all entries that are
left.** -/
theorem LoopInv.collapsed (h : LoopInv f s fin (up ++ down)) (hup : ∀ e, .pending e ∉ up) {m : β}
    (hm : m ∈ fin ∨ ∃ i ∈ up, LogEntry.bag s.graph.GetTrueBag i = m) {b : β}
    (hb : Mutual f.Edge b m) : s.graph.GetTrueBag b = m := by
  have hall : ∃ i ∈ fin.map LogEntry.expanded ++ up, LogEntry.bag s.graph.GetTrueBag i = m := by
    rcases hm with hm | ⟨i, hi, him⟩
    · exact ⟨.expanded m, List.mem_append_left _ (List.mem_map_of_mem hm), rfl⟩
    · exact ⟨i, List.mem_append_right _ hi, him⟩
  have hnone : ∀ e, .pending e ∉ fin.map LogEntry.expanded ++ up := fun e he =>
    (List.mem_append.mp he).elim (pending_notMem_fin fin e) (hup e)
  -- an expanded bag is its own
  have htrue : s.graph.GetTrueBag m = m := by
    obtain ⟨i, hi, him⟩ := hall
    cases i with
    | pending e => exact absurd hi (hnone e)
    | expanded y =>
        rw [LogEntry.bag] at him
        subst him
        apply h.partition.true_iff.mp
        apply h.expanded_true
        rw [← List.append_assoc]
        exact List.mem_append_left _ hi
  have hsettled := h.settled
  rw [InOrder, ← List.append_assoc, settled_append] at hsettled
  have hto : Reach (Between f.Edge s.graph.GetTrueBag) m (s.graph.GetTrueBag b) := by
    rw [← htrue]
    exact reach_between hb.2
  have hback : Reach (Between f.Edge s.graph.GetTrueBag) (s.graph.GetTrueBag b) m := by
    rw [← htrue]
    exact reach_between hb.1
  exact (hsettled.1.antisymm (LogEntry.needs_of_expanded _ _ hnone) hall hto hback).symm

/-! ### The phases of the search of a component -/

/-- No bag of the component of `x` was searched. -/
structure Unentered (f : BlockGraph β) (x : β) (s : RemoveLoopState β) (fin : List β)
    (log : List (LogEntry β)) : Prop where
  own_bag : ∀ b, Mutual f.Edge b x → s.graph.GetTrueBag b = b
  unsearched : ∀ b, .expanded b ∈ fin.map LogEntry.expanded ++ log → ¬ Mutual f.Edge b x
  outside : ∀ e ∈ s.bag_stack, ∀ p ∈ e.pre_path, ¬ Mutual f.Edge p x
  entered : ∀ e ∈ s.bag_stack, Mutual f.Edge e.target x → f.Entered e.target

/-- The path to the target comes to the component of `x` at block `c`, and to none of its blocks
twice; all of them count as visited. -/
structure Through (f : BlockGraph β) (x c : β) (e : SearchEntry β) : Prop where
  root : (∃ newer older, e.pre_path = newer ++ c :: older ∧ ∀ p ∈ older, ¬ Mutual f.Edge p x) ∨
    e.target = c ∧ ∀ p ∈ e.pre_path, ¬ Mutual f.Edge p x
  once : e.pre_path.Pairwise fun newer older => Mutual f.Edge newer x → newer ≠ older
  visited : ∀ p ∈ e.pre_path, Mutual f.Edge p x → p ∈ e.visited

/-- The bags of the component that took in a bag of the path of an entry. -/
def staleNeeds (f : BlockGraph β) (x : β) (rep : β → β) : LogEntry β → β → Prop
  | .pending e, b => ∃ p ∈ e.pre_path, Mutual f.Edge p x ∧ rep p ≠ p ∧ rep p = b
  | .expanded _, _ => False

/-- The search is in the component of `x`, which it came to at `c`: `top` is the log since. -/
structure Within (f : BlockGraph β) (x c : β) (s : RemoveLoopState β) (fin : List β)
    (top : List (LogEntry β)) : Prop where
  own_bag : s.graph.GetTrueBag c = c
  stands : c ∈ fin ∨ ∃ i ∈ top, LogEntry.bag s.graph.GetTrueBag i = c
  through : ∀ e, .pending e ∈ top → Through f x c e
  stale : Settled (staleNeeds f x s.graph.GetTrueBag) (LogEntry.bag s.graph.GetTrueBag)
    (· ∈ fin) top

/-- How far the search has come with the loop of `x`: not there yet, on its path, or done with it.
-/
inductive Phase (f : BlockGraph β) (x : β) (s : RemoveLoopState β) (fin : List β)
    (log : List (LogEntry β)) : Prop
  | unentered : Unentered f x s fin log → Phase f x s fin log
  | within (c : β) (top bottom : List (LogEntry β)) : f.Entered c → Mutual f.Edge c x →
      log = top ++ bottom → Within f x c s fin top → Phase f x s fin log
  | collapsed (c : β) : f.Entered c → (∀ b, Mutual f.Edge b x → s.graph.GetTrueBag b = c) →
      Phase f x s fin log

/-! ### What an iteration does to the phase -/

theorem mutual_rep {g : BagGraph β} (h : Partition f g) {b : β} :
    Mutual f.Edge (g.GetTrueBag b) x ↔ Mutual f.Edge b x :=
  ⟨(h.component b).trans, (h.component b).symm.trans⟩

omit [Fintype β] [DecidableEq β] in
/-- The block is on the path once. -/
theorem Through.older_eq (h : Through f x c e) (hcx : Mutual f.Edge c x)
    {newer older newer' older' : List β}
    (hl : e.pre_path = newer ++ c :: older) (hl' : e.pre_path = newer' ++ c :: older') :
    older = older' := by
  have honce := h.once
  rw [hl, List.pairwise_append, List.pairwise_cons] at honce
  obtain ⟨-, ⟨holder, -⟩, hnewer⟩ := honce
  refine ((List.append_cons_inj_of_notMem ?_ ?_).mp (hl.symm.trans hl')).2.2
  · exact fun hc => hnewer c hc c List.mem_cons_self hcx rfl
  · exact fun hc => holder c hc hcx rfl

omit [Fintype β] [DecidableEq β] in
/-- No bag on the paths to the children of the target is stale when none on its own path is. -/
theorem settled_children {rep : β → β} {base : β → Prop} {es : List (SearchEntry β)} {y : β}
    {pre_path : List β} (hy : rep y = y) (hes : ∀ e' ∈ es, e'.pre_path = y :: pre_path)
    (hfresh : ∀ p ∈ pre_path, Mutual f.Edge p x → rep p = p) :
    Settled (staleNeeds f x rep) (LogEntry.bag rep) base
      (es.map .pending ++ [y].map .expanded) := by
  refine settled_of_base fun i hi b hb => ?_
  cases i with
  | expanded y => exact absurd hb id
  | pending e' =>
      have he' : e' ∈ es := by simpa using hi
      obtain ⟨p, hp, hpx, hstale, -⟩ := hb
      rw [hes e' he'] at hp
      rcases List.mem_cons.mp hp with rfl | hp
      · exact absurd hy hstale
      · exact absurd (hfresh p hp hpx) hstale

omit [Fintype β] in
/-- The paths to the children of the target come through the block as well. -/
theorem Through.child {rep : β → β} {e' : SearchEntry β} (ht : Through f x c e) (hc : rep c = c)
    (hfresh : ∀ p ∈ e.pre_path, Mutual f.Edge p x → rep p = p)
    (hunvisited : rep e.target ∉ e.visited.image rep)
    (hpath : e'.pre_path = rep e.target :: e.pre_path)
    (hvisits : e'.visited = insert (rep e.target) (e.visited.image rep)) : Through f x c e' := by
  have hvisited : ∀ p ∈ e.pre_path, Mutual f.Edge p x → p ∈ e.visited.image rep :=
    fun p hp hpx => Finset.mem_image.mpr ⟨p, ht.visited p hp hpx, hfresh p hp hpx⟩
  refine ⟨.inl ?_, ?_, fun p hp hpx => ?_⟩
  · rw [hpath]
    rcases ht.root with ⟨newer, older, hroot, holder⟩ | ⟨htarget, hout⟩
    · exact ⟨rep e.target :: newer, older, by rw [hroot, List.cons_append], holder⟩
    · exact ⟨[], e.pre_path, by rw [htarget, hc, List.nil_append], hout⟩
  · rw [hpath]
    refine List.pairwise_cons.mpr ⟨fun p hp hpx heq => ?_, ht.once⟩
    exact hunvisited (heq ▸ hvisited p hp (heq ▸ hpx))
  · rw [hpath] at hp
    rw [hvisits]
    rcases List.mem_cons.mp hp with rfl | hp
    · exact Finset.mem_insert_self _ _
    · exact Finset.mem_insert_of_mem (hvisited p hp hpx)

/-- **The block that the component was entered at is not merged**, and what is left of the path
still comes through it. -/
theorem Closed.through {g g' : BagGraph β} {path' : List β} {visited' : Finset β}
    (hc : Closed f (g.GetTrueBag e.target) g e.pre_path (e.visited.image g.GetTrueBag) g' path'
      visited') (hg : Partition f g) (ht : Through f x c e) (hcx : Mutual f.Edge c x)
    (htrue : g.GetTrueBag c = c)
    (hfresh : ∀ p ∈ e.pre_path, Mutual f.Edge p x → g.GetTrueBag p = p) :
    g'.GetTrueBag c = c ∧ (∀ p ∈ path', Mutual f.Edge p x → g'.GetTrueBag p = p) ∧
      Through f x c ⟨g.GetTrueBag e.target, path', visited'.erase (g.GetTrueBag e.target)⟩ := by
  obtain ⟨dropped, q, hpath, hq, hdrop, hsame⟩ := hc.dropped
  have honce := ht.once
  rw [hpath, List.pairwise_append, List.pairwise_cons] at honce
  obtain ⟨-, ⟨honceq, -⟩, honcedrop⟩ := honce
  have hmemdrop : ∀ p ∈ dropped, p ∈ e.pre_path := fun p hp => hpath ▸ List.mem_append_left _ hp
  have hmemq : q ∈ e.pre_path := hpath ▸ List.mem_append_right _ List.mem_cons_self
  have hmempath : ∀ p ∈ path', p ∈ e.pre_path := fun p hp =>
    hpath ▸ List.mem_append_right _ (List.mem_cons_of_mem q hp)
  generalize hy : g.GetTrueBag e.target = y at *
  -- a bag of the component is merged only when it is taken from the path
  have hkeep : ∀ p, Mutual f.Edge p x → g.GetTrueBag p = p → p ∉ dropped →
      g'.GetTrueBag p = p := by
    intro p hpx hp hnot
    rcases hsame p with h | ⟨d, hd, hdp⟩
    · exact h.trans hp
    · have hdx : Mutual f.Edge d x := by
        rw [← mutual_rep hg, hdp]
        exact (mutual_rep hg).mpr hpx
      rw [hp, hfresh d (hmemdrop d hd) hdx] at hdp
      exact absurd (hdp ▸ hd) hnot
  have hqx : Mutual f.Edge y x ↔ Mutual f.Edge q x := by
    rw [← hq]
    exact mutual_rep hc.partition
  have hqy : Mutual f.Edge q x → q = y := by
    intro h
    rw [← hq]
    exact (hkeep q h (hfresh q hmemq h) fun hd => honcedrop q hd q List.mem_cons_self h rfl).symm
  have hcdrop : c ∉ dropped := by
    intro hcd
    have hyx : Mutual f.Edge y x := by
      rw [← (hdrop c hcd).2]
      exact (mutual_rep hc.partition).mpr hcx
    rcases ht.root with ⟨newer, older, hroot, holder⟩ | ⟨-, hout⟩
    · -- the target would stand before the block on the path
      obtain ⟨d₁, d₂, hsplit⟩ := List.append_of_mem hcd
      have hsplit : e.pre_path = d₁ ++ c :: (d₂ ++ q :: path') := by
        rw [hpath, hsplit, List.append_assoc, List.cons_append]
      apply holder q _ (hqx.mp hyx)
      rw [ht.older_eq hcx hroot hsplit]
      exact List.mem_append_right _ List.mem_cons_self
    · exact hout c (hmemdrop c hcd) hcx
  have hrest : ∀ p ∈ path', Mutual f.Edge p x → g'.GetTrueBag p = p := fun p hp hpx =>
    hkeep p hpx (hfresh p (hmempath p hp) hpx) fun hd =>
      honcedrop p hd p (List.mem_cons_of_mem q hp) hpx rfl
  refine ⟨hkeep c hcx htrue hcdrop, hrest, ?_, ht.once.sublist hc.suffix.sublist,
    fun p hp hpx => ?_⟩
  · by_cases hyc : y = c
    · -- the path is back at the block
      have hqc : q = c := (hqy (hqx.mp (hyc ▸ hcx))).trans hyc
      refine .inr ⟨hyc, ?_⟩
      rcases ht.root with ⟨newer, older, hroot, holder⟩ | ⟨-, hout⟩
      · rw [hqc] at hpath
        rwa [ht.older_eq hcx hpath hroot]
      · exact absurd (hqc ▸ hcx) (hout q hmemq)
    · rcases ht.root with ⟨newer, older, hroot, holder⟩ | ⟨htc, -⟩
      · have hcpath : c ∈ dropped ++ q :: path' := by
          rw [← hpath, hroot]
          exact List.mem_append_right _ List.mem_cons_self
        rcases List.mem_append.mp hcpath with h | h
        · exact absurd h hcdrop
        · rcases List.mem_cons.mp h with rfl | h
          · exact absurd (hqy hcx).symm hyc
          · obtain ⟨newer', older', hsplit⟩ := List.append_of_mem h
            have hroot' : e.pre_path = (dropped ++ q :: newer') ++ c :: older' := by
              rw [hpath, hsplit, List.append_assoc, List.cons_append]
            exact .inl ⟨newer', older', hsplit, ht.older_eq hcx hroot' hroot ▸ holder⟩
      · rw [htc, htrue] at hy
        exact absurd hy.symm hyc
  · refine Finset.mem_erase.mpr ⟨?_, hc.still_visited p ?_ (hrest p hp hpx)⟩
    · rintro rfl
      have hqp := hqx.mp hpx
      exact honceq p hp hqp (hqy hqp)
    · rw [Finset.mem_image]
      exact ⟨p, ht.visited p (hmempath p hp) hpx, hfresh p (hmempath p hp) hpx⟩

section Iteration

variable (h : LoopInv f s fin (up ++ .pending e :: down)) (hs : s.bag_stack = e :: rest)
  (hi : Iteration f order s fin e rest up down s' fin' log')

include h hi in
/-- One bag stays one bag. -/
theorem Iteration.collapsed (hc : ∀ b, Mutual f.Edge b x → s.graph.GetTrueBag b = c)
    {b : β} (hb : Mutual f.Edge b x) : s'.graph.GetTrueBag b = c := by
  cases hi with
  | skip _ => exact hc b hb
  | finish => exact hc b hb
  | expand es _ _ => exact hc b hb
  | close g' path' visited' keep hfin hvisited hclosed hpending hexpanded =>
      obtain ⟨F, hF, hmoved⟩ := hclosed.merged
      rw [getTrueBag_markLoop, hF, Function.comp_apply, hc b hb]
      refine (hmoved c).elim id fun hm => ?_
      -- the target is of the component, so it is the one bag
      rw [hm.1, ← h.partition.getTrueBag_idem e.target]
      apply hc
      have hcx : Mutual f.Edge c x := by
        rw [← hc b hb]
        exact (mutual_rep h.partition).mpr hb
      exact hm.2.symm.trans hcx

include h hs hi in
/-- The search comes to the component at the top of the stack, or stays outside. -/
theorem Unentered.iteration (hu : Unentered f x s fin (up ++ .pending e :: down)) :
    Phase f x s' fin' log' := by
  have hrest : ∀ e' ∈ rest, e' ∈ s.bag_stack := fun e' he' => hs ▸ List.mem_cons_of_mem e he'
  have he : e ∈ s.bag_stack := hs ▸ List.mem_cons_self
  have hexpanded : ∀ b, .expanded b ∈ fin.map LogEntry.expanded ++ (up ++ down) →
      ¬ Mutual f.Edge b x := by
    intro b hb
    apply hu.unsearched
    simp only [List.mem_append, List.mem_cons] at hb ⊢
    tauto
  -- the first block that is searched
  have hfirst : Mutual f.Edge (s.graph.GetTrueBag e.target) x →
      s.graph.GetTrueBag e.target = e.target ∧ f.Entered (s.graph.GetTrueBag e.target) := by
    intro hy
    have hy := (mutual_rep h.partition).mp hy
    have htrue := hu.own_bag _ hy
    exact ⟨htrue, htrue.symm ▸ hu.entered e he hy⟩
  cases hi with
  | skip _ =>
      exact .unentered ⟨hu.own_bag, hexpanded, fun e' he' => hu.outside e' (hrest e' he'),
        fun e' he' => hu.entered e' (hrest e' he')⟩
  | finish =>
      by_cases hy : Mutual f.Edge (s.graph.GetTrueBag e.target) x
      · refine .within _ [] _ (hfirst hy).2 hy rfl ⟨h.partition.getTrueBag_idem _, ?_,
          fun e' he' => absurd he' List.not_mem_nil, trivial⟩
        exact .inl (List.mem_append_right _ (List.mem_singleton_self _))
      · refine .unentered ⟨hu.own_bag, fun b hb => ?_, fun e' he' => hu.outside e' (hrest e' he'),
          fun e' he' => hu.entered e' (hrest e' he')⟩
        rw [List.map_append, List.append_assoc, List.mem_append] at hb
        rcases hb with hb | hb
        · exact hexpanded b (List.mem_append_left _ hb)
        · rcases List.mem_cons.mp hb with hb | hb
          · cases hb
            exact hy
          · exact hexpanded b (List.mem_append_right _ hb)
  | expand es hvisited hes =>
      by_cases hy : Mutual f.Edge (s.graph.GetTrueBag e.target) x
      · -- the block is the first on the paths to its children
        refine .within _ (es.map .pending ++ [s.graph.GetTrueBag e.target].map .expanded)
          (up ++ down) (hfirst hy).2 hy rfl
          ⟨h.partition.getTrueBag_idem _, .inr ⟨.expanded _, List.mem_append_right _
            (List.mem_singleton_self _), rfl⟩, fun e' he' => ?_, ?_⟩
        · have he' : e' ∈ es := by simpa using he'
          obtain ⟨-, hpath, hvisits⟩ := hes e' he'
          have hout := hu.outside e he
          refine ⟨.inl ⟨[], e.pre_path, hpath, hout⟩, ?_, fun p hp hpx => ?_⟩
          · rw [hpath]
            refine List.pairwise_cons.mpr ⟨fun p hp _ heq => hout p hp (heq ▸ hy), ?_⟩
            exact List.pairwise_of_forall_mem_list fun p hp _ _ hpx => absurd hpx (hout p hp)
          · rw [hpath] at hp
            rcases List.mem_cons.mp hp with rfl | hp
            · rw [hvisits]
              exact Finset.mem_insert_self _ _
            · exact absurd hpx (hout p hp)
        · exact settled_children (h.partition.getTrueBag_idem _) (fun e' he' => (hes e' he').2.1)
            fun p hp hpx => absurd hpx (hu.outside e he p hp)
      · refine .unentered ⟨hu.own_bag, fun b hb => ?_, fun e' he' => ?_, fun e' he' hx => ?_⟩
        · simp only [List.mem_append, List.mem_map, List.mem_singleton] at hb
          rcases hb with ⟨b', hb', hbb⟩ | (⟨e', -, he'⟩ | ⟨b', rfl, hbb⟩) | hb
          · exact hexpanded b (List.mem_append_left _ (hbb ▸ List.mem_map_of_mem hb'))
          · cases he'
          · cases hbb
            exact hy
          · exact hexpanded b (List.mem_append_right _ (List.mem_append.mpr hb))
        · rcases List.mem_append.mp he' with he' | he'
          · rw [(hes e' he').2.1]
            intro p hp
            rcases List.mem_cons.mp hp with rfl | hp
            · exact hy
            · exact hu.outside e he p hp
          · exact hu.outside e' (hrest e' he')
        · rcases List.mem_append.mp he' with he' | he'
          · -- an edge leads from the bag to a block of the component
            obtain ⟨⟨c', hc', hcc⟩, -, hne⟩ := mem_newChildren.mp (hes e' he').1
            have hidem := h.partition.getTrueBag_idem e.target
            rcases h.partition.child_sound _ c' hc' with hrep | hrep
            · rw [hidem, hcc] at hrep
              exact absurd hrep.symm hne
            · obtain ⟨-, u, v, hu', hv, huv⟩ := hrep
              rw [hidem] at hu'
              rw [hcc] at hv
              have hvx : Mutual f.Edge v x := (mutual_rep h.partition).mp (hv.symm ▸ hx)
              rw [← hv, hu.own_bag v hvx]
              refine .inr ⟨u, huv, fun huv' => hy ?_⟩
              rw [← hu']
              exact (mutual_rep h.partition).mpr (huv'.trans hvx)
          · exact hu.entered e' (hrest e' he') hx
  | close g' path' visited' keep hfin hvisited hclosed hpending hkeep =>
      -- a path that is back in the component would have been there before
      have hy : ¬ Mutual f.Edge (s.graph.GetTrueBag e.target) x := by
        intro hy
        obtain ⟨v, hv, hvy⟩ := Finset.mem_image.mp hvisited
        obtain ⟨p, hp, hpv⟩ := (h.entries e he).on_path v hv
        apply hu.outside e he p hp
        rw [← mutual_rep h.partition, hpv, hvy]
        exact hy
      obtain ⟨F, hF, hmoved⟩ := hclosed.merged
      refine .unentered ⟨fun b hb => ?_, fun b hb => ?_, fun e' he' => ?_, fun e' he' hx => ?_⟩
      · rw [getTrueBag_markLoop, hF, Function.comp_apply, hu.own_bag b hb]
        exact (hmoved b).resolve_right fun hm => hy (hm.2.symm.trans hb)
      · apply hexpanded
        simp only [List.mem_append, List.mem_cons, List.mem_filter, reduceCtorEq, false_or] at hb ⊢
        tauto
      · rcases List.mem_cons.mp he' with rfl | he'
        · exact fun p hp => hu.outside e he p (hclosed.suffix.subset hp)
        · exact hu.outside e' (hrest e' he')
      · rcases List.mem_cons.mp he' with rfl | he'
        · exact absurd hx hy
        · exact hu.entered e' (hrest e' he') hx

/-- **The next entry of the stack is of the component, with no stale bag on its path, or the
component is one bag.** -/
theorem Within.settle {bottom : List (LogEntry β)}
    (h : LoopInv f s fin (up ++ .pending e :: down)) (hup : up.filterMap LogEntry.entry? = [])
    (hlog : up ++ .pending e :: down = top ++ bottom) (hw : Within f x c s fin top)
    (hcx : Mutual f.Edge c x) :
    (∀ b, Mutual f.Edge b x → s.graph.GetTrueBag b = c) ∨
      ∃ down₁, top = up ++ .pending e :: down₁ ∧ down = down₁ ++ bottom ∧
        ∀ p ∈ e.pre_path, Mutual f.Edge p x → s.graph.GetTrueBag p = p := by
  have hnone : ∀ e', .pending e' ∉ up := fun e' he' =>
    Option.some_ne_none e' (List.filterMap_eq_nil_iff.mp hup _ he')
  -- the log since the block has no entry that is left
  have hdone (hempty : ∀ e', .pending e' ∉ top) : ∀ b, Mutual f.Edge b x →
      s.graph.GetTrueBag b = c := by
    rw [hlog] at h
    exact fun b hb => h.collapsed hempty hw.stands (hb.trans hcx.symm)
  rcases List.append_eq_append_iff.mp hlog with ⟨as, htop, has⟩ | ⟨bs, hbs, -⟩
  · rcases as with - | ⟨i, down₁⟩
    · rw [List.append_nil] at htop
      exact .inl (hdone (htop ▸ hnone))
    · obtain ⟨rfl, rfl⟩ := List.cons.inj has
      by_cases hfresh : ∀ p ∈ e.pre_path, Mutual f.Edge p x → s.graph.GetTrueBag p = p
      · exact .inr ⟨down₁, htop, rfl, hfresh⟩
      · left
        push Not at hfresh
        obtain ⟨p, hp, hpx, hstale⟩ := hfresh
        have hsettled := hw.stale
        rw [htop, settled_append] at hsettled
        have hm := hsettled.2.1 _ ⟨p, hp, hpx, hstale, rfl⟩
        have hmx := (mutual_rep (x := x) h.partition).mpr hpx
        have hall : ∀ b, Mutual f.Edge b x → s.graph.GetTrueBag b = s.graph.GetTrueBag p :=
          fun b hb => h.collapsed hnone hm (hb.trans hmx.symm)
        intro b hb
        rw [hall b hb, ← hall c hcx, hw.own_bag]
  · refine .inl (hdone fun e' he' => hnone e' ?_)
    rw [hbs]
    exact List.mem_append_left _ he'

include h hi in
/-- The search goes on in the component, by paths that come through the block. -/
theorem Within.iteration {down₁ bottom : List (LogEntry β)}
    (hw : Within f x c s fin (up ++ .pending e :: down₁)) (hdown : down = down₁ ++ bottom)
    (hcx : Mutual f.Edge c x)
    (hfresh : ∀ p ∈ e.pre_path, Mutual f.Edge p x → s.graph.GetTrueBag p = p) :
    ∃ top' bottom', log' = top' ++ bottom' ∧ Within f x c s' fin' top' := by
  have ht := hw.through e (List.mem_append_right _ List.mem_cons_self)
  have hidem := h.partition.getTrueBag_idem
  have hold : ∀ i ∈ up ++ down₁, i ∈ up ++ .pending e :: down₁ := by
    intro i hi
    simp only [List.mem_append, List.mem_cons] at hi ⊢
    exact hi.imp_right .inr
  -- the block stands in the log without the entry, unless the entry is its own
  have hstands : c ∈ fin ∨ c = s.graph.GetTrueBag e.target ∨
      ∃ i ∈ up ++ down₁, LogEntry.bag s.graph.GetTrueBag i = c := by
    refine hw.stands.imp_right ?_
    rintro ⟨i, hi, hic⟩
    rcases List.mem_append.mp hi with hi | hi
    · exact .inr ⟨i, List.mem_append_left _ hi, hic⟩
    · rcases List.mem_cons.mp hi with rfl | hi
      · exact .inl hic.symm
      · exact .inr ⟨i, List.mem_append_right _ hi, hic⟩
  subst hdown
  cases hi with
  | skip hfin =>
      refine ⟨up ++ down₁, bottom, (List.append_assoc _ _ _).symm, hw.own_bag, ?_,
        fun e' he' => hw.through e' (hold _ he'), hw.stale.erase (.inl hfin)⟩
      rcases hstands with hc | hc | hc
      · exact .inl hc
      · exact .inl (hc ▸ hfin)
      · exact .inr hc
  | finish =>
      have hfin : s.graph.GetTrueBag e.target ∈ fin ++ [s.graph.GetTrueBag e.target] :=
        List.mem_append_right _ (List.mem_singleton_self _)
      refine ⟨up ++ down₁, bottom, (List.append_assoc _ _ _).symm, hw.own_bag, ?_,
        fun e' he' => hw.through e' (hold _ he'),
        (hw.stale.mono fun b hb => List.mem_append_left _ hb).erase (.inl hfin)⟩
      rcases hstands with hc | hc | hc
      · exact .inl (List.mem_append_left _ hc)
      · exact .inl (hc ▸ hfin)
      · exact .inr hc
  | expand es hvisited hes =>
      refine ⟨es.map .pending ++ [s.graph.GetTrueBag e.target].map .expanded ++ (up ++ down₁),
        bottom, by simp only [List.append_assoc], hw.own_bag, ?_, fun e' he' => ?_, ?_⟩
      · rcases hstands with hc | hc | ⟨i, hi, hic⟩
        · exact .inl hc
        · refine .inr ⟨.expanded (s.graph.GetTrueBag e.target), ?_, hc.symm⟩
          exact List.mem_append_left _ (List.mem_append_right _ (List.mem_singleton_self _))
        · exact .inr ⟨i, List.mem_append_right _ hi, hic⟩
      · rcases List.mem_append.mp he' with he' | he'
        · have he' : e' ∈ es := by simpa using he'
          exact ht.child hw.own_bag hfresh hvisited (hes e' he').2.1 (hes e' he').2.2
        · exact hw.through e' (hold _ he')
      · rw [settled_append]
        refine ⟨settled_children (hidem _) (fun e' he' => (hes e' he').2.1) hfresh, ?_⟩
        refine (hw.stale.mono fun b hb => .inl hb).erase (.inl (.inr ?_))
        exact ⟨.expanded _, List.mem_append_right _ (List.mem_singleton_self _), rfl⟩
  | close g' path' visited' keep hfin hvisited hclosed hpending hkeep =>
      obtain ⟨hc', hrest, ht'⟩ := hclosed.through h.partition ht hcx hw.own_bag hfresh
      obtain ⟨F, hF, hmoved⟩ := hclosed.merged
      have hrep : ∀ b, g'.GetTrueBag b = F (s.graph.GetTrueBag b) := fun b => by rw [hF]; rfl
      have hFc : F c = c := by rw [← hw.own_bag, ← hrep, hc', hw.own_bag]
      have hy : g'.GetTrueBag (s.graph.GetTrueBag e.target) = s.graph.GetTrueBag e.target :=
        hclosed.partition.true_iff.mp hclosed.target
      -- the expanded bags that are taken from the log are those that were merged
      have hexpanded : ∀ z, .expanded z ∈ up ++ .pending e :: down₁ →
          (keep (.expanded z) = false ↔ F z = s.graph.GetTrueBag e.target) := by
        intro z hz
        have htrue : s.graph.GetTrueBag z = z := by
          apply h.partition.true_iff.mp
          apply h.expanded_true
          simp only [List.mem_append, List.mem_cons] at hz ⊢
          tauto
        rw [hkeep z, hrep, htrue]
        simp only [List.mem_append, List.mem_cons, reduceCtorEq, false_or] at hz ⊢
        tauto
      have hbag : ∀ i ∈ up ++ .pending e :: down₁, keep i = true →
          LogEntry.bag g'.GetTrueBag i = F (LogEntry.bag s.graph.GetTrueBag i) := by
        intro i hi hk
        cases i with
        | pending e' => exact hrep _
        | expanded z =>
            refine ((hmoved z).resolve_right fun hm => ?_).symm
            rw [(hexpanded z hi).mpr hm.1] at hk
            cases hk
      have hout : ∀ i ∈ up ++ .pending e :: down₁, keep i = false →
          F (LogEntry.bag s.graph.GetTrueBag i) = s.graph.GetTrueBag e.target := by
        intro i hi hk
        cases i with
        | pending e' =>
            rw [hpending] at hk
            cases hk
        | expanded z => exact (hexpanded z hi).mp hk
      refine ⟨.pending ⟨s.graph.GetTrueBag e.target, path', visited'.erase
        (s.graph.GetTrueBag e.target)⟩ :: (up.filter keep ++ down₁.filter keep), bottom.filter keep,
        by simp only [List.filter_append, List.cons_append, List.append_assoc], ?_, ?_,
        fun e' he' => ?_, fun b hb => ?_, ?_⟩
      · rw [getTrueBag_markLoop, hc']
      · rw [getTrueBag_markLoop]
        rcases hstands with hc | hc | ⟨i, hi, hic⟩
        · exact .inl hc
        · exact .inr ⟨_, List.mem_cons_self, hy.trans hc.symm⟩
        · right
          cases hk : keep i with
          | true =>
              refine ⟨i, List.mem_cons_of_mem _ ?_, by rw [hbag i (hold i hi) hk, hic, hFc]⟩
              rw [← List.filter_append]
              exact List.mem_filter.mpr ⟨hi, hk⟩
          | false =>
              have hmerged := hout i (hold i hi) hk
              rw [hic, hFc] at hmerged
              exact ⟨_, List.mem_cons_self, hy.trans hmerged.symm⟩
      · rcases List.mem_cons.mp he' with he' | he'
        · cases he'
          exact ht'
        · rw [← List.filter_append] at he'
          exact hw.through e' (hold _ (List.mem_of_mem_filter he'))
      · -- nothing on the path that is left was merged
        obtain ⟨p, hp, hpx, hstale, -⟩ := hb
        rw [getTrueBag_markLoop] at hstale
        exact absurd (hrest p hp hpx) hstale
      · have hcollapsed : Settled (staleNeeds f x g'.GetTrueBag) (LogEntry.bag g'.GetTrueBag)
            (fun b => b ∈ fin ∨ s.graph.GetTrueBag e.target = b)
            ((up ++ .pending e :: down₁).filter keep) := by
          refine hw.stale.collapse F keep _ hbag (fun b hb => ?_)
            (fun i hi hk => .inr (hout i hi hk).symm) fun i hi hk b' hb' => ?_
          · rcases hmoved b with hb' | hb'
            · exact .inl (hb'.symm ▸ hb)
            · exact .inr hb'.1.symm
          · -- a bag that is stale was so before, or went into the target now
            cases i with
            | expanded z => exact absurd hb' id
            | pending e' =>
                obtain ⟨p, hp, hpx, hstale, rfl⟩ := hb'
                by_cases hsp : s.graph.GetTrueBag p = p
                · rw [hrep, hsp] at hstale ⊢
                  exact .inl (.inr ((hmoved p).resolve_left hstale).1.symm)
                · exact .inr ⟨_, (hrep p).symm, p, hp, hpx, hsp, rfl⟩
        rw [List.filter_append, List.filter_cons_of_pos (hpending e)] at hcollapsed
        rw [getTrueBag_markLoop]
        refine (hcollapsed.erase (.inl (.inr ?_))).mono fun b hb => ?_
        · rw [LogEntry.bag, hrep]
          exact ((hmoved _).elim id And.left).symm
        · exact hb.imp_right fun hb => hy.trans hb

end Iteration

/-- **A step keeps the phases.** -/
theorem Phase.step (h : LoopInv f s fin log) (hp : Phase f x s fin log)
    (hstep : step order s = .inl s') :
    ∃ fin' log', LoopInv f s' fin' log' ∧ Phase f x s' fin' log' := by
  obtain ⟨e, rest, up, down, hs, rfl, hup, -, fin', log', hi, hinv⟩ := h.iteration hstep
  refine ⟨fin', log', hinv, ?_⟩
  cases hp with
  | unentered hu => exact hu.iteration h hs hi
  | within c top bottom hentered hcx hlog hw =>
      rcases hw.settle h hup hlog hcx with hc | ⟨down₁, rfl, hdown, hfresh⟩
      · exact .collapsed c hentered fun b hb => hi.collapsed h hc hb
      · obtain ⟨top', bottom', hlog', hw'⟩ := hw.iteration h hi hdown hcx hfresh
        exact .within c top' bottom' hentered hcx hlog' hw'
  | collapsed c hentered hc => exact .collapsed c hentered fun b hb => hi.collapsed h hc hb

theorem phase_start (f : BlockGraph β) (order : PtrOrder β) (uninit : β → Bool) (x : β) :
    Phase f x (start f order uninit) [] [.pending ⟨f.entry, [], ∅⟩] := by
  have hpart := partition_init f order uninit
  refine .unentered ⟨fun b _ => ?_, fun b hb => ?_, fun e he => ?_, fun e he _ => ?_⟩
  · apply hpart.true_iff.mp
    exact linkAll_field (·.converted_bag) (fun _ _ _ => rfl) _
  · simp at hb
  · rw [List.mem_singleton.mp he]
    exact fun p hp => absurd hp List.not_mem_nil
  · rw [List.mem_singleton.mp he]
    exact .inl rfl

/-- With an empty stack the component is one bag, of the block that it was entered at. -/
theorem Phase.entered (h : LoopInv f s fin log) (hp : Phase f x s fin log) (hs : s.bag_stack = [])
    (hreach : ∀ b, Reach f.Edge f.entry b) : f.Entered (s.graph.GetTrueBag x) := by
  have hempty := h.expanded_of_empty hs
  cases hp with
  | unentered hu =>
      obtain ⟨i, hi, hix⟩ := h.settled.closed_reach (LogEntry.needs_of_expanded _ _ hempty) h.entry
        (reach_between (hreach x))
      cases i with
      | pending e => exact absurd hi (hempty e)
      | expanded y =>
          refine absurd ?_ (hu.unsearched y hi)
          rw [LogEntry.bag] at hix
          rw [hix]
          exact (h.partition.component x).symm
  | within c top bottom hentered hcx hlog hw =>
      rw [hlog] at h hempty
      have hc := h.collapsed (fun e he => hempty e (List.mem_append_right _
        (List.mem_append_left _ he))) hw.stands hcx.symm
      rwa [hc]
  | collapsed c hentered hc => rwa [hc x (.refl x)]

/-- **Every bag is that of a block at which its component is entered.** -/
theorem entered_getTrueBag {uninit : β → Bool} {g : BagGraph β}
    (hreach : ∀ b, Reach f.Edge f.entry b)
    (hg : Machine.Halts (RemoveLoop.step order) (start f order uninit) (some g)) (b : β) :
    f.Entered (g.GetTrueBag b) := by
  refine Machine.inv_of_halts
    (I := fun s => ∃ fin log, LoopInv f s fin log ∧ Phase f b s fin log)
    (Q := fun r => ∀ g, r = some g → f.Entered (g.GetTrueBag b))
    (fun s s' ⟨fin, log, h, hp⟩ hstep => hp.step h hstep) (fun s r ⟨fin, log, h, hp⟩ hstep => ?_)
    ⟨_, _, loopInv_start f order uninit, phase_start f order uninit b⟩ hg g rfl
  rcases step_spec order h with ⟨hs, he⟩ | ⟨s'', he, -, -⟩
  · rw [he] at hstep
    cases hstep
    intro g hg
    cases hg
    have hentered := hp.entered h hs hreach
    unfold GetTrueBag at hentered ⊢
    rwa [converted_bag_updateFamilies]
  · rw [he] at hstep
    cases hstep

end RemoveLoop

end Elfconv
