/-
Elfconv/VirtualRegs/LoopMarks.lean

Which bags `RemoveLoop` marks as loops.

A bag is marked where a path has come back to it.  By then it stands for several blocks
(`Shared`), also where nothing is merged because the last bag of the path has become the
target before; so a block that only branches to itself is no loop.  The mark of the other bags
is what the memory held when they were made.
-/
import Elfconv.VirtualRegs.RemoveLoop

namespace Elfconv

open Component

variable {β : Type} [Fintype β] [DecidableEq β] {f : BlockGraph β} {g : BagGraph β}
  {order : PtrOrder β} {uninit : β → Bool}

/-- The bag stands for several blocks. -/
def BagGraph.Shared (g : BagGraph β) (b : β) : Prop := ∃ a, a ≠ b ∧ g.GetTrueBag a = b

/-- Block `b` is in a loop of several blocks. -/
def BlockGraph.InLoop (f : BlockGraph β) (b : β) : Prop := ∃ a, a ≠ b ∧ Mutual f.Edge a b

namespace RemoveLoop

open BagGraph

variable {s s' : RemoveLoopState β} {fin : List β} {log : List (LogEntry β)}

/-- The bags that are marked.  A path that ends in its target has a shared bag there. -/
structure Marked (uninit : β → Bool) (s : RemoveLoopState β) : Prop where
  marks : ∀ b, (s.graph.node b).is_loop = true →
    uninit b = true ∨ s.graph.Shared (s.graph.GetTrueBag b)
  kept : ∀ b, uninit b = true → (s.graph.node b).is_loop = true
  heads : ∀ e ∈ s.bag_stack, e.target ∈ e.pre_path.head? →
    s.graph.Shared (s.graph.GetTrueBag e.target)

omit [DecidableEq β] in
/-- The graph is as it was, and so are the entries that are left. -/
theorem Marked.of_stack (hm : Marked uninit s) (hgraph : s'.graph = s.graph)
    (hheads : ∀ e ∈ s'.bag_stack, e ∈ s.bag_stack ∨ e.target ∉ e.pre_path.head?) :
    Marked uninit s' := by
  refine ⟨?_, ?_, fun e he hhead => ?_⟩
  · rw [hgraph]
    exact hm.marks
  · rw [hgraph]
    exact hm.kept
  · rw [hgraph]
    exact hm.heads e ((hheads e he).resolve_right fun h => h hhead) hhead

section Closed

variable {target_bag : β} {path path' : List β} {visited visited' : Finset β} {g' : BagGraph β}

/-- A shared bag stays shared, also when it is merged. -/
theorem Closed.shared (hc : Closed f target_bag g path visited g' path' visited')
    (hg : Partition f g) {b : β} (h : g.Shared (g.GetTrueBag b)) : g'.Shared (g'.GetTrueBag b) := by
  obtain ⟨F, hF, hmoved⟩ := hc.merged
  obtain ⟨a, hne, ha⟩ := h
  rw [hF]
  show ∃ a, a ≠ F (g.GetTrueBag b) ∧ g'.GetTrueBag a = F (g.GetTrueBag b)
  rw [hF]
  rcases hmoved (g.GetTrueBag b) with hb | hb
  · rw [hb]
    refine ⟨a, hne, ?_⟩
    show F (g.GetTrueBag a) = _
    rw [ha, hb]
  · by_cases hsame : g.GetTrueBag b = F (g.GetTrueBag b)
    · refine ⟨a, hsame ▸ hne, ?_⟩
      show F (g.GetTrueBag a) = _
      rw [ha]
    · refine ⟨g.GetTrueBag b, hsame, ?_⟩
      show F (g.GetTrueBag (g.GetTrueBag b)) = _
      rw [hg.getTrueBag_idem]

/-- Merging changes the number of bags only when the target gets another block. -/
theorem Closed.shared_of_lt (hc : Closed f target_bag g path visited g' path' visited')
    (hg : Partition f g) (hlt : g'.bag_num < g.bag_num) : g'.Shared target_bag := by
  obtain ⟨F, hF, hmoved⟩ := hc.merged
  by_contra hnot
  have hid : ∀ b, F (g.GetTrueBag b) = g.GetTrueBag b := by
    intro b
    refine (hmoved _).elim id fun hb => ?_
    by_contra hne
    apply hnot
    refine ⟨g.GetTrueBag b, fun h => hne (hb.1.trans h.symm), ?_⟩
    rw [hF]
    show F (g.GetTrueBag (g.GetTrueBag b)) = _
    rw [hg.getTrueBag_idem]
    exact hb.1
  have htrue : g'.GetTrueBag = g.GetTrueBag := by
    rw [hF]
    exact funext hid
  rw [hg.bag_num, hc.partition.bag_num] at hlt
  simp only [hg.true_iff, hc.partition.true_iff, htrue, lt_self_iff_false] at hlt

end Closed

/-- **The bag that a path has come back to is shared.** -/
theorem Marked.shared_target {e : SearchEntry β} {path' : List β} {visited visited' : Finset β}
    {g' : BagGraph β} (hm : Marked uninit s) (hg : Partition f s.graph) (he : e ∈ s.bag_stack)
    (hc : Closed f (s.graph.GetTrueBag e.target) s.graph e.pre_path visited g' path' visited') :
    g'.Shared (s.graph.GetTrueBag e.target) := by
  rcases hc.progress with hlt | ⟨rfl, -, q, hq, hqt⟩
  · exact hc.shared_of_lt hg hlt
  · by_cases hqe : q = e.target
    · apply hm.heads e he
      rw [hq, hqe]
      rfl
    · -- one of the two blocks is not the bag
      by_cases hqb : q = s.graph.GetTrueBag e.target
      · exact ⟨e.target, fun h => hqe (hqb.trans h.symm), rfl⟩
      · exact ⟨q, hqb, hqt⟩

theorem Marked.close {e : SearchEntry β} {rest : List (SearchEntry β)} {path' : List β}
    {visited visited' : Finset β} {g' : BagGraph β} (hm : Marked uninit s)
    (hg : Partition f s.graph) (hs : s.bag_stack = e :: rest)
    (hc : Closed f (s.graph.GetTrueBag e.target) s.graph e.pre_path visited g' path' visited') :
    Marked uninit { s with
      graph := g'.markLoop (s.graph.GetTrueBag e.target)
      bag_stack := ⟨s.graph.GetTrueBag e.target, path',
        visited'.erase (s.graph.GetTrueBag e.target)⟩ :: rest } := by
  have hshared := hm.shared_target hg (hs ▸ List.mem_cons_self) hc
  have htrue : g'.GetTrueBag (s.graph.GetTrueBag e.target) = s.graph.GetTrueBag e.target :=
    hc.partition.true_iff.mp hc.target
  -- the bag at which the path closes is marked, and now has several blocks
  refine ⟨fun b hb => ?_, fun b hb => ?_, fun e' he' hhead => ?_⟩
  · rw [is_loop_markLoop] at hb
    simp only [Shared, getTrueBag_markLoop]
    split at hb
    · rename_i heq
      rw [heq, htrue]
      exact .inr hshared
    · rw [hc.is_loop] at hb
      exact (hm.marks b hb).imp_right (hc.shared hg)
  · rw [is_loop_markLoop]
    split
    · rfl
    · rw [hc.is_loop]
      exact hm.kept b hb
  · simp only [Shared, getTrueBag_markLoop]
    rcases List.mem_cons.mp he' with rfl | he'
    · rw [htrue]
      exact hshared
    · exact hc.shared hg (hm.heads e' (hs ▸ List.mem_cons_of_mem e he') hhead)

/-- **A step keeps the marks.** -/
theorem Marked.step (hm : Marked uninit s) (h : LoopInv f s fin log)
    (hstep : step order s = .inl s') : Marked uninit s' := by
  obtain ⟨e, rest, up, down, hs, -, -, -, fin', log', hi, -⟩ := h.iteration hstep
  have hrest : ∀ e' ∈ rest, e' ∈ s.bag_stack := fun e' he' => hs ▸ List.mem_cons_of_mem e he'
  cases hi with
  | skip _ => exact hm.of_stack rfl fun e' he' => .inl (hrest e' he')
  | finish => exact hm.of_stack rfl fun e' he' => .inl (hrest e' he')
  | expand es _ hes =>
      refine hm.of_stack rfl fun e' he' => ?_
      rcases List.mem_append.mp he' with he' | he'
      · -- a child is not its parent
        obtain ⟨htarget, hpath, -⟩ := hes e' he'
        obtain ⟨-, -, hne⟩ := mem_newChildren.mp htarget
        rw [hpath]
        exact .inr fun hhead => hne (Option.some.inj hhead).symm
      · exact .inl (hrest e' he')
  | close g' path' visited' keep _ _ hc _ _ => exact hm.close h.partition hs hc

theorem marked_start (f : BlockGraph β) (order : PtrOrder β) (uninit : β → Bool) :
    Marked uninit (start f order uninit) := by
  have hloop : ∀ b, ((BagGraph.init f order uninit).node b).is_loop = uninit b := fun b =>
    linkAll_field (·.is_loop) (fun _ _ _ => rfl) _
  refine ⟨fun b hb => .inl ((hloop b).symm.trans hb), fun b hb => (hloop b).trans hb, ?_⟩
  intro e he hhead
  rw [List.mem_singleton.mp he] at hhead
  cases hhead

/-- **The marks at the end**: the bags of several blocks, and those that had one at first. -/
theorem is_loop_iff (hreach : ∀ b, Reach f.Edge f.entry b)
    (hg : Machine.Halts (RemoveLoop.step order) (start f order uninit) (some g)) (b : β) :
    (g.node (g.GetTrueBag b)).is_loop = true ↔ f.InLoop b ∨ uninit b = true := by
  have hfree := loopFree_of_halts hreach hg
  have hend : ∃ s : RemoveLoopState β, Marked uninit s ∧ g = updateFamilies s.graph := by
    have hrule := Machine.inv_of_halts
      (I := fun s => (∃ fin log, LoopInv f s fin log) ∧ Marked uninit s)
      (Q := fun r => ∀ g, r = some g → ∃ s, Marked uninit s ∧ g = updateFamilies s.graph)
      (fun s s' ⟨⟨fin, log, h⟩, hm⟩ hstep => ?_) (fun s r ⟨⟨fin, log, h⟩, hm⟩ hstep => ?_)
      ⟨⟨_, _, loopInv_start f order uninit⟩, marked_start f order uninit⟩ hg
    · exact hrule g rfl
    · refine ⟨?_, hm.step h hstep⟩
      rcases step_spec order h with ⟨-, he⟩ | ⟨s'', he, hinv, -⟩
      · rw [he] at hstep
        cases hstep
      · rw [he] at hstep
        cases hstep
        exact hinv
    · rcases step_spec order h with ⟨-, he⟩ | ⟨s'', he, -, -⟩
      · rw [he] at hstep
        cases hstep
        exact fun g hg => ⟨s, hm, (Option.some.inj hg).symm⟩
      · rw [he] at hstep
        cases hstep
  obtain ⟨s, hm, rfl⟩ := hend
  have htrue : (updateFamilies s.graph).GetTrueBag = s.graph.GetTrueBag := by
    unfold GetTrueBag
    rw [converted_bag_updateFamilies]
  have hloop : ∀ b, ((updateFamilies s.graph).node b).is_loop = (s.graph.node b).is_loop := fun b =>
    updateFamilies_field (·.is_loop) (fun _ _ _ => rfl) _ b
  have hidem := hfree.getTrueBag_idem b
  have hsame := hfree.true_eq_iff
  -- a block alone in its component is its own bag
  have hself : ¬ f.InLoop b → (updateFamilies s.graph).GetTrueBag b = b := by
    intro hnot
    by_contra hne
    exact hnot ⟨_, hne, (hsame _ b).mp hidem⟩
  constructor
  · intro hb
    by_cases hin : f.InLoop b
    · exact .inl hin
    · rw [hself hin, hloop] at hb
      refine (hm.marks b hb).symm.imp_left fun ⟨a, hne, ha⟩ => ?_
      rw [← htrue, hself hin] at hne ha
      exact ⟨a, hne, (hsame a b).mp (ha.trans (hself hin).symm)⟩
  · rintro (⟨a, hne, hab⟩ | hb)
    · have heq := (hsame a b).mpr hab
      by_cases hb : (updateFamilies s.graph).GetTrueBag b = b
      · rw [← heq]
        apply hfree.is_loop
        rw [heq, hb]
        exact hne.symm
      · exact hfree.is_loop b hb
    · by_cases hbag : (updateFamilies s.graph).GetTrueBag b = b
      · rw [hbag, hloop]
        exact hm.kept b hb
      · exact hfree.is_loop b hbag

end RemoveLoop

end Elfconv
