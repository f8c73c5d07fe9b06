/-
Elfconv/Lib/FlowGraph.lean

Control flow graphs that keep the predecessors of a node beside the successors.

`Exact` says that the two agree.  A graph is built by `branch`, which gives a node its
successors, and an edge is split by `split`, which puts a new node on it; both keep the two
sides in agreement.

A graph with nodes on its edges has the paths of the graph without them (`paths_iff`): it is
enough that every node on an edge leads to one old node only, and that the successors of the
old nodes are the old ones once each new node is replaced by the one it leads to.
-/
import Mathlib.Data.Finset.Erase
import Mathlib.Data.Finset.Insert
import Mathlib.Data.List.Chain
import Mathlib.Logic.Function.Basic

universe u v

/-- The successors of each node, in order, and the set of its predecessors. -/
structure FlowGraph (α : Type u) where
  succs : α → List α
  preds : α → Finset α

namespace FlowGraph

section Edges

variable {α : Type u} [DecidableEq α] {g : FlowGraph α} {a b p q r x : α} {targets : List α}

/-- The predecessors are the nodes with an edge to the node. -/
def Exact (g : FlowGraph α) : Prop := ∀ a b, a ∈ g.preds b ↔ b ∈ g.succs a

/-- A graph without edges. -/
def empty : FlowGraph α := ⟨fun _ => [], fun _ => ∅⟩

omit [DecidableEq α] in
theorem exact_empty : (empty : FlowGraph α).Exact := fun _ _ =>
  iff_of_false (Finset.notMem_empty _) List.not_mem_nil

/-- The node `a` gets its successors, and is saved as a predecessor of each. -/
def branch (g : FlowGraph α) (a : α) (targets : List α) : FlowGraph α where
  succs := Function.update g.succs a targets
  preds := fun b => if b ∈ targets then insert a (g.preds b) else g.preds b

/-- A branch adds its block to the predecessors of its targets. -/
theorem mem_preds_branch :
    x ∈ (g.branch a targets).preds b ↔ (b ∈ targets ∧ x = a) ∨ x ∈ g.preds b := by
  show x ∈ (if b ∈ targets then insert a (g.preds b) else g.preds b) ↔ _
  by_cases hb : b ∈ targets
  · simp [hb]
  · simp [hb]

/-- Successors and predecessors still agree behind the branch of a block that had none. -/
theorem Exact.branch (h : g.Exact) (ha : g.succs a = []) : (g.branch a targets).Exact := by
  intro x b
  rw [mem_preds_branch, h x b]
  show _ ↔ b ∈ Function.update g.succs a targets x
  by_cases hx : x = a
  · subst hx
    simp [ha]
  · simp [hx]

/-- The node `r` on the edges from `p` to `q`. -/
def split (g : FlowGraph α) (p q r : α) : FlowGraph α where
  succs := Function.update (g.branch r [q]).succs p
    (((g.branch r [q]).succs p).map fun x => if x = q then r else x)
  preds := Function.update
    (Function.update (g.branch r [q]).preds q (((g.branch r [q]).preds q).erase p)) r {p}

/-- The new block goes on to the old target. -/
theorem succs_split_self (hrp : r ≠ p) : (g.split p q r).succs r = [q] := by
  show Function.update (Function.update g.succs r [q]) p _ r = _
  rw [Function.update_of_ne hrp, Function.update_self]

/-- The source of the edge goes to the new block. -/
theorem succs_split_pred (hrp : r ≠ p) :
    (g.split p q r).succs p = (g.succs p).map fun x => if x = q then r else x := by
  simp only [split]
  rw [Function.update_self]
  show (Function.update g.succs r [q] p).map _ = _
  rw [Function.update_of_ne hrp.symm]

theorem succs_split_of_ne (hxp : x ≠ p) (hxr : x ≠ r) : (g.split p q r).succs x = g.succs x := by
  show Function.update (Function.update g.succs r [q]) p _ x = _
  rw [Function.update_of_ne hxp, Function.update_of_ne hxr]

theorem preds_split_self : (g.split p q r).preds r = {p} := by
  simp only [split, Function.update_self]

/-- The new block is a predecessor in the place of the source. -/
theorem preds_split_succ (hrq : r ≠ q) :
    (g.split p q r).preds q = (insert r (g.preds q)).erase p := by
  simp only [split]
  rw [Function.update_of_ne hrq.symm, Function.update_self]
  exact congrArg (Finset.erase · p) (if_pos List.mem_cons_self)

theorem preds_split_of_ne (hxq : x ≠ q) (hxr : x ≠ r) : (g.split p q r).preds x = g.preds x := by
  simp only [split]
  rw [Function.update_of_ne hxr, Function.update_of_ne hxq]
  exact if_neg fun h => hxq (List.mem_singleton.mp h)

/-- The new node is on no edge yet. -/
structure New (g : FlowGraph α) (r : α) : Prop where
  succs : g.succs r = []
  preds : g.preds r = ∅

omit [DecidableEq α] in
/-- A new block has no predecessors. -/
theorem New.not_mem (h : g.New r) (hg : g.Exact) (a : α) : r ∉ g.succs a := fun hr => by
  have := (hg a r).mpr hr
  rw [h.preds] at this
  exact absurd this (Finset.notMem_empty a)

omit [DecidableEq α] in
/-- A new block is not the source of an edge. -/
theorem New.ne_pred (h : g.New r) (hg : g.Exact) (hpq : p ∈ g.preds q) : r ≠ p := by
  rintro rfl
  have := (hg r q).mp hpq
  rw [h.succs] at this
  exact absurd this List.not_mem_nil

omit [DecidableEq α] in
/-- A new block is not the target of an edge. -/
theorem New.ne_succ (h : g.New r) (hpq : p ∈ g.preds q) : r ≠ q := by
  rintro rfl
  rw [h.preds] at hpq
  exact absurd hpq (Finset.notMem_empty p)

/-- The new node takes the place of `q` among the successors. -/
theorem count_split_new (hrp : r ≠ p) (hr : r ∉ g.succs p) :
    ((g.split p q r).succs p).count r = (g.succs p).count q := by
  rw [succs_split_pred hrp]
  generalize g.succs p = l at hr
  induction l with
  | nil => rfl
  | cons x l ih =>
      rw [List.mem_cons, not_or] at hr
      rw [List.map_cons, List.count_cons, List.count_cons, ih hr.2]
      by_cases hx : x = q
      · simp [hx]
      · simp [hx, Ne.symm hr.1]

/-- The edges to the other nodes stay. -/
theorem count_split_of_ne (har : a ≠ r) (hrp : r ≠ p) (hxq : x ≠ q) (hxr : x ≠ r) :
    ((g.split p q r).succs a).count x = (g.succs a).count x := by
  by_cases hap : a = p
  · subst hap
    rw [succs_split_pred hrp]
    induction g.succs a with
    | nil => rfl
    | cons y l ih =>
        rw [List.map_cons, List.count_cons, List.count_cons, ih]
        by_cases hy : y = q
        · simp [hy, Ne.symm hxq, Ne.symm hxr]
        · simp [hy]
  · rw [succs_split_of_ne hap har]

/-- Successors and predecessors still agree when an edge is split. -/
theorem Exact.split (h : g.Exact) (hpq : p ∈ g.preds q) (hr : g.New r) : (g.split p q r).Exact := by
  have hrp := hr.ne_pred h hpq
  have hrq := hr.ne_succ hpq
  intro a b
  by_cases har : a = r
  · -- the new node leads to `q` alone
    subst har
    rw [succs_split_self hrp, List.mem_singleton]
    by_cases hbr : b = a
    · subst hbr
      rw [preds_split_self, Finset.mem_singleton]
      exact iff_of_false hrp hrq
    · by_cases hbq : b = q
      · subst hbq
        rw [preds_split_succ hrq]
        exact iff_of_true (Finset.mem_erase.mpr ⟨hrp, Finset.mem_insert_self _ _⟩) rfl
      · rw [preds_split_of_ne hbq hbr, h, hr.succs]
        exact iff_of_false List.not_mem_nil hbq
  · by_cases hap : a = p
    · -- the edges of `p` to `q` go to the new node
      subst hap
      rw [succs_split_pred hrp]
      by_cases hbr : b = r
      · subst hbr
        rw [preds_split_self, Finset.mem_singleton]
        refine iff_of_true rfl (List.mem_map.mpr ⟨q, (h a q).mp hpq, if_pos rfl⟩)
      · by_cases hbq : b = q
        · subst hbq
          rw [preds_split_succ hrq]
          refine iff_of_false (Finset.notMem_erase a _) fun hmem => ?_
          obtain ⟨x, -, hx⟩ := List.mem_map.mp hmem
          split at hx
          · exact hbr hx.symm
          · rename_i hne
            exact hne hx
        · rw [preds_split_of_ne hbq hbr, h, List.mem_map]
          constructor
          · exact fun hb => ⟨b, hb, if_neg hbq⟩
          · rintro ⟨x, hx, hxb⟩
            split at hxb
            · exact absurd hxb.symm hbr
            · exact hxb ▸ hx
    · -- another node keeps its successors
      rw [succs_split_of_ne hap har]
      by_cases hbr : b = r
      · subst hbr
        rw [preds_split_self, Finset.mem_singleton]
        exact iff_of_false hap (hr.not_mem h a)
      · by_cases hbq : b = q
        · subst hbq
          rw [preds_split_succ hrq, Finset.mem_erase, Finset.mem_insert, ← h]
          exact ⟨fun hb => hb.2.resolve_left har, fun hb => ⟨hap, .inr hb⟩⟩
        · rw [preds_split_of_ne hbq hbr, h]

end Edges

/-! ### Paths -/

section Paths

variable {α : Type u} {β : Type v} {g : FlowGraph α} {old : β → List β} {emb : β → α}
  {old? : α → Option β} {target : α → β}

/-- The graph is an old one with new nodes on its edges: each new node in it leads to one old
node, its target. -/
structure OnEdges (g : FlowGraph α) (old : β → List β) (emb : β → α) (old? : α → Option β)
    (target : α → β) : Prop where
  old_emb : ∀ b, old? (emb b) = some b
  emb_old : ∀ x b, old? x = some b → x = emb b
  target_emb : ∀ b, target (emb b) = b
  succs_emb : ∀ a, (g.succs (emb a)).map target = old a
  succs_new : ∀ x, old? x = none → ∀ y ∈ g.succs x, y = emb (target x)
  leads : ∀ a, ∀ x ∈ g.succs (emb a), old? x = none → emb (target x) ∈ g.succs x

/-- A path of the old graph goes through the nodes on its edges. -/
theorem OnEdges.exists_path (h : OnEdges g old emb old? target) (a : β) (l : List β)
    (hl : List.IsChain (fun a b => b ∈ old a) (a :: l)) :
    ∃ l', List.IsChain (fun x y => y ∈ g.succs x) (emb a :: l') ∧ l'.filterMap old? = l := by
  induction l generalizing a with
  | nil => exact ⟨[], List.isChain_singleton _, rfl⟩
  | cons b l ih =>
      rw [List.isChain_cons_cons] at hl
      obtain ⟨l', hl', hold⟩ := ih b hl.2
      have hb := hl.1
      rw [← h.succs_emb] at hb
      obtain ⟨x, hx, rfl⟩ := List.mem_map.mp hb
      cases ho : old? x with
      | some c =>
          obtain rfl := h.emb_old x c ho
          rw [h.target_emb] at hl' ⊢
          refine ⟨emb c :: l', List.isChain_cons_cons.mpr ⟨hx, hl'⟩, ?_⟩
          rw [List.filterMap_cons, h.old_emb, hold]
      | none =>
          refine ⟨x :: emb (target x) :: l', ?_, ?_⟩
          · exact List.isChain_cons_cons.mpr ⟨hx,
              List.isChain_cons_cons.mpr ⟨h.leads a x hx ho, hl'⟩⟩
          · rw [List.filterMap_cons, ho, List.filterMap_cons, h.old_emb, hold]

/-- What is left of a path when the new nodes are left out is a path, from the target of a
new node if it starts with one. -/
theorem OnEdges.isChain_old (h : OnEdges g old emb old? target) (x : α) (l' : List α)
    (hl : List.IsChain (fun x y => y ∈ g.succs x) (x :: l')) :
    List.IsChain (fun a b => b ∈ old a) (l'.filterMap old?) ∧
      ∀ b ∈ (l'.filterMap old?).head?, match old? x with
        | some a => b ∈ old a
        | none => b = target x := by
  induction l' generalizing x with
  | nil => exact ⟨List.isChain_nil, fun b hb => nomatch hb⟩
  | cons y l' ih =>
      rw [List.isChain_cons_cons] at hl
      obtain ⟨hchain, hhead⟩ := ih y hl.2
      have hy := hl.1
      rw [List.filterMap_cons]
      cases hyo : old? y with
      | some c =>
          obtain rfl := h.emb_old y c hyo
          rw [hyo] at hhead
          refine ⟨List.isChain_cons.mpr ⟨hhead, hchain⟩, fun b hb => ?_⟩
          obtain rfl : c = b := Option.some.inj hb
          cases hxo : old? x with
          | some a =>
              obtain rfl := h.emb_old x a hxo
              show c ∈ old a
              rw [← h.succs_emb]
              exact List.mem_map.mpr ⟨emb c, hy, h.target_emb c⟩
          | none =>
              show c = target x
              have := congrArg target (h.succs_new x hxo _ hy)
              rwa [h.target_emb, h.target_emb] at this
      | none =>
          rw [hyo] at hhead
          refine ⟨hchain, fun b hb => ?_⟩
          obtain rfl := hhead b hb
          cases hxo : old? x with
          | some a =>
              obtain rfl := h.emb_old x a hxo
              show target y ∈ old a
              rw [← h.succs_emb]
              exact List.mem_map.mpr ⟨y, hy, rfl⟩
          | none =>
              -- no new node leads to a new node
              have := h.succs_new x hxo y hy
              rw [this, h.old_emb] at hyo
              cases hyo

/-- **The paths through the old nodes are those of the old graph.** -/
theorem OnEdges.paths_iff (h : OnEdges g old emb old? target) (l : List β) :
    List.IsChain (fun a b => b ∈ old a) l ↔
      ∃ l', List.IsChain (fun x y => y ∈ g.succs x) l' ∧ l'.filterMap old? = l := by
  constructor
  · intro hl
    cases l with
    | nil => exact ⟨[], List.isChain_nil, rfl⟩
    | cons a l =>
        obtain ⟨l', hl', hold⟩ := h.exists_path a l hl
        refine ⟨emb a :: l', hl', ?_⟩
        rw [List.filterMap_cons, h.old_emb, hold]
  · rintro ⟨l', hl', rfl⟩
    cases l' with
    | nil => exact List.isChain_nil
    | cons x l' =>
        obtain ⟨hchain, hhead⟩ := h.isChain_old x l' hl'
        rw [List.filterMap_cons]
        cases hx : old? x with
        | none => exact hchain
        | some a =>
            rw [hx] at hhead
            exact List.isChain_cons.mpr ⟨hhead, hchain⟩

end Paths

end FlowGraph
