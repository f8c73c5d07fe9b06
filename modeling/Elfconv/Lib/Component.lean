/-
Elfconv/Lib/Component.lean

Strongly connected components, and the graph of the classes of a partition.

A map `rep` names each class of nodes by one of its members.  `Between E rep` has an edge
from one class to another wherever a member of the first has an edge to a member of the
second.  Classes that lie in components and whose graph has no cycle are the components:
`rep_eq_iff`.

`Settled` describes the log of a search.  Every entry of the log stands for a node, and the
nodes that an entry needs stand before it in the log.  Where every entry needs the successors
of its node, the log is closed under successors and no node of it lies on a cycle.
-/
import Mathlib.Data.List.Induction
import Mathlib.Logic.Relation
import Mathlib.Tactic.Common

namespace Component

universe u v

variable {α : Type u}

/-! ### Components -/

/-- There is a path from `a` to `b`. -/
abbrev Reach (E : α → α → Prop) : α → α → Prop := Relation.ReflTransGen E

/-- The two nodes are in one component. -/
def Mutual (E : α → α → Prop) (a b : α) : Prop := Reach E a b ∧ Reach E b a

/-- Some member of class `a` has an edge to a member of class `b`. -/
def Between (E : α → α → Prop) (rep : α → α) (a b : α) : Prop :=
  a ≠ b ∧ ∃ u v, rep u = a ∧ rep v = b ∧ E u v

variable {E : α → α → Prop} {rep : α → α} {a b c : α}

theorem Mutual.refl (a : α) : Mutual E a a := ⟨.refl, .refl⟩

theorem Mutual.symm (h : Mutual E a b) : Mutual E b a := ⟨h.2, h.1⟩

theorem Mutual.trans (h : Mutual E a b) (h' : Mutual E b c) : Mutual E a c :=
  ⟨h.1.trans h'.1, h'.2.trans h.2⟩

/-- A path of nodes is a path of classes. -/
theorem reach_between (h : Reach E a b) : Reach (Between E rep) (rep a) (rep b) := by
  induction h with
  | refl => exact .refl
  | tail _ hstep ih =>
      rename_i u v _
      by_cases hne : rep u = rep v
      · rwa [← hne]
      · exact ih.tail ⟨hne, u, v, rfl, rfl, hstep⟩

/-- An edge between classes is a path of nodes, when the classes lie in components. -/
theorem reach_of_between_edge (hrep : ∀ a, Mutual E a (rep a)) (h : Between E rep a b) :
    Reach E a b := by
  obtain ⟨-, u, v, rfl, rfl, hedge⟩ := h
  exact ((hrep u).2.tail hedge).trans (hrep v).1

/-- A path between representatives is a path between their components. -/
theorem reach_of_between (hrep : ∀ a, Mutual E a (rep a)) (h : Reach (Between E rep) a b) :
    Reach E a b := by
  induction h with
  | refl => exact .refl
  | tail _ hstep ih => exact ih.trans (reach_of_between_edge hrep hstep)

/-- **Classes in components without a cycle between them are the components.** -/
theorem rep_eq_iff (hrep : ∀ a, Mutual E a (rep a))
    (hacyclic : ∀ a b, Reach (Between E rep) (rep a) (rep b) →
      Reach (Between E rep) (rep b) (rep a) → rep a = rep b) :
    rep a = rep b ↔ Mutual E a b := by
  constructor
  · intro h
    have hb := (hrep b).symm
    rw [← h] at hb
    exact (hrep a).trans hb
  · intro h
    exact hacyclic a b (reach_between h.1) (reach_between h.2)

/-- Merged by `f`, the classes of an edge are one class or have an edge again. -/
theorem Between.collapse (h : Between E rep a b) (f : α → α) :
    f a = f b ∨ Between E (f ∘ rep) (f a) (f b) := by
  obtain ⟨-, u, v, rfl, rfl, hedge⟩ := h
  exact or_iff_not_imp_left.mpr fun hne => ⟨hne, u, v, rfl, rfl, hedge⟩

/-- An edge between collapsed classes comes from one between the finer ones. -/
theorem between_collapse {f : α → α} (h : Between E (f ∘ rep) a b) :
    ∃ a' b', f a' = a ∧ f b' = b ∧ Between E rep a' b' := by
  obtain ⟨hne, u, v, rfl, rfl, hedge⟩ := h
  exact ⟨rep u, rep v, rfl, rfl, fun e => hne (congrArg f e), u, v, rfl, rfl, hedge⟩

/-! ### Logs -/

variable {ι : Type v} {need : ι → α → Prop} {node : ι → α} {base : α → Prop}

/-- What an entry needs is in `base` or stands before it. -/
def Settled (need : ι → α → Prop) (node : ι → α) : (α → Prop) → List ι → Prop
  | _, [] => True
  | base, i :: log =>
      (∀ b, need i b → base b) ∧ Settled need node (fun b => base b ∨ node i = b) log

/-- More may be taken for granted. -/
theorem Settled.mono {log : List ι} {base' : α → Prop} (h : Settled need node base log)
    (hbase : ∀ b, base b → base' b) : Settled need node base' log := by
  induction log generalizing base base' with
  | nil => trivial
  | cons i log ih =>
      refine ⟨fun b hb => hbase b (h.1 b hb), ih h.2 fun b hb => ?_⟩
      exact hb.imp_left (hbase b)

/-- The first part of a log is granted to the second. -/
theorem settled_append {log log' : List ι} :
    Settled need node base (log ++ log') ↔
      Settled need node base log ∧
        Settled need node (fun b => base b ∨ ∃ i ∈ log, node i = b) log' := by
  induction log generalizing base with
  | nil => simp [Settled]
  | cons i log ih =>
      rw [List.cons_append, Settled, Settled, ih, and_assoc]
      simp only [List.mem_cons, exists_eq_or_imp, or_assoc]

/-- An entry may be taken out when its node stands elsewhere before it. -/
theorem Settled.erase {log log' : List ι} {i : ι}
    (h : Settled need node base (log ++ i :: log'))
    (hi : base (node i) ∨ ∃ j ∈ log, node j = node i) :
    Settled need node base (log ++ log') := by
  rw [settled_append] at h ⊢
  refine ⟨h.1, h.2.2.mono ?_⟩
  rintro b (hb | rfl)
  · exact hb
  · exact hi

/-- Where the needs are in `base`, the order is free. -/
theorem settled_of_base {log : List ι} (h : ∀ i ∈ log, ∀ b, need i b → base b) :
    Settled need node base log := by
  induction log generalizing base with
  | nil => trivial
  | cons i log ih =>
      exact ⟨h i List.mem_cons_self,
        ih fun j hj b hb => .inl (h j (List.mem_cons_of_mem i hj) b hb)⟩

/-- The log stays settled when classes are merged by `f` and entries are taken out whose
nodes stand before it. -/
theorem Settled.collapse {log : List ι} {need' : ι → α → Prop} {node' : ι → α}
    (h : Settled need node base log) (f : α → α) (keep : ι → Bool) (base' : α → Prop)
    (hnode : ∀ i ∈ log, keep i = true → node' i = f (node i))
    (hbase : ∀ b, base b → base' (f b))
    (hout : ∀ i ∈ log, keep i = false → base' (f (node i)))
    (hneed : ∀ i ∈ log, keep i = true → ∀ b', need' i b' →
      base' b' ∨ ∃ b, f b = b' ∧ need i b) :
    Settled need' node' base' (log.filter keep) := by
  induction log generalizing base base' with
  | nil => trivial
  | cons i log ih =>
      have htail : ∀ {j}, j ∈ log → j ∈ i :: log := List.mem_cons_of_mem i
      have hih : ∀ {base₂ : α → Prop}, (∀ b, base' b → base₂ b) →
          (∀ b, base b ∨ node i = b → base₂ (f b)) →
          Settled need' node' base₂ (log.filter keep) :=
        fun hle hbase => ih h.2 _ (fun j hj => hnode j (htail hj)) hbase
          (fun j hj hk => hle _ (hout j (htail hj) hk))
          fun j hj hk b' hb' => (hneed j (htail hj) hk b' hb').imp_left (hle b')
      -- an item that is kept moves with `f`; one that is not joins the base
      by_cases hkeep : keep i = true
      · rw [List.filter_cons_of_pos hkeep]
        refine ⟨fun b' hb' => ?_, hih (fun b hb => .inl hb) ?_⟩
        · rcases hneed i List.mem_cons_self hkeep b' hb' with hb' | ⟨b, rfl, hb⟩
          · exact hb'
          · exact hbase b (h.1 b hb)
        · rintro b (hb | rfl)
          · exact .inl (hbase b hb)
          · exact .inr (hnode i List.mem_cons_self hkeep)
      · rw [List.filter_cons_of_neg hkeep]
        refine hih (fun b hb => hb) ?_
        rintro b (hb | rfl)
        · exact hbase b hb
        · exact hout i List.mem_cons_self (by simpa using hkeep)

section Closed

variable {log : List ι} (hfull : ∀ i ∈ log, ∀ b, E (node i) b → need i b)

include hfull

/-- Where all successors are needed, the log holds the successors of its nodes. -/
theorem Settled.closed (h : Settled need node base log) {i : ι} (hi : i ∈ log)
    (hb : E (node i) b) : base b ∨ ∃ j ∈ log, node j = b := by
  induction log generalizing base with
  | nil => cases hi
  | cons j log ih =>
      rcases List.mem_cons.mp hi with rfl | hi
      · exact .inl (h.1 b (hfull i List.mem_cons_self b hb))
      · have hlog : ∀ k ∈ log, ∀ b, E (node k) b → need k b :=
          fun k hk => hfull k (List.mem_cons_of_mem j hk)
        rcases ih hlog h.2 hi with (hb | rfl) | hb
        · exact .inl hb
        · exact .inr ⟨j, List.mem_cons_self, rfl⟩
        · obtain ⟨k, hk, hkb⟩ := hb
          exact .inr ⟨k, List.mem_cons_of_mem j hk, hkb⟩

/-- A full log is closed under paths. -/
theorem Settled.closed_reach (h : Settled need node (fun _ => False) log)
    (ha : ∃ i ∈ log, node i = a) (hab : Reach E a b) : ∃ i ∈ log, node i = b := by
  induction hab with
  | refl => exact ha
  | tail _ hstep ih =>
      obtain ⟨i, hi, rfl⟩ := ih
      exact (h.closed hfull hi hstep).resolve_left id

/-- **Where all successors are needed, no node of the log lies on a cycle.** -/
theorem Settled.acyclic (h : Settled need node (fun _ => False) log)
    (ha : ∃ i ∈ log, node i = a) : ¬ Relation.TransGen E a a := by
  -- induction on the log from its end: the last node leads only to nodes before it
  induction log using List.reverseRecOn with
  | nil =>
      obtain ⟨i, hi, -⟩ := ha
      cases hi
  | append_singleton log j ih =>
      have hlog := (settled_append.mp h).1
      have hfulllog : ∀ i ∈ log, ∀ b, E (node i) b → need i b :=
        fun i hi => hfull i (List.mem_append_left _ hi)
      by_cases hin : ∃ i ∈ log, node i = a
      · exact ih hfulllog hlog hin
      · obtain ⟨i, hi, rfl⟩ := ha
        have hij : i = j := by
          rcases List.mem_append.mp hi with hi | hi
          · exact absurd ⟨i, hi, rfl⟩ hin
          · exact List.mem_singleton.mp hi
        subst hij
        intro hcycle
        obtain ⟨b, hb, hback⟩ := Relation.TransGen.head'_iff.mp hcycle
        have hmem := ((settled_append.mp h).2.1 b (hfull i hi b hb)).resolve_left id
        exact hin (hlog.closed_reach hfulllog hmem hback)

/-- A full log has no two nodes on a cycle. -/
theorem Settled.antisymm (h : Settled need node (fun _ => False) log)
    (ha : ∃ i ∈ log, node i = a) (hab : Reach E a b) (hba : Reach E b a) : a = b := by
  rcases Relation.reflTransGen_iff_eq_or_transGen.mp hab with heq | htrans
  · exact heq.symm
  · exact absurd (htrans.trans_left hba) (h.acyclic hfull ha)

end Closed

end Component
