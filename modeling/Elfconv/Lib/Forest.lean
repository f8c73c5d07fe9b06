/-
Elfconv/Lib/Forest.lean

Forests of pointers.

Every element points to another one or to itself; an element that points to itself is a
root.  The map is `Grounded` when every chain of pointers ends in a root.  On a finite type
the root of an element is found in as many steps as there are elements.

`redirect` is the union of two trees: a root is made to point to another root.
-/
import Mathlib.Data.Fintype.Pigeonhole
import Mathlib.Logic.Function.Iterate
import Mathlib.Tactic.Common

namespace Forest

universe u

variable {α : Type u}

/-- Every chain of pointers ends in a root. -/
def Grounded (next : α → α) : Prop := ∀ a, ∃ n, next (next^[n] a) = next^[n] a

/-- The end of the chain from `a`. -/
def root [Fintype α] (next : α → α) (a : α) : α := next^[Fintype.card α] a

variable {next : α → α}

theorem grounded_id : Grounded (id : α → α) := fun _ => ⟨0, rfl⟩

/-- Beyond a fixed point the iteration stands still. -/
theorem iterate_of_le {a : α} {n k : Nat} (h : next (next^[n] a) = next^[n] a) (hk : n ≤ k) :
    next^[k] a = next^[n] a := by
  obtain ⟨j, rfl⟩ := Nat.exists_eq_add_of_le hk
  rw [Nat.add_comm, Function.iterate_add_apply, Function.iterate_fixed h]

/-- A chain that comes back to an element is at a root. -/
theorem fixed_of_cycle (hg : Grounded next) {a : α} {k : Nat} (h : next^[k + 1] a = a) :
    next a = a := by
  obtain ⟨n, hn⟩ := hg a
  have hround : next^[(k + 1) * n] a = a := by
    rw [Function.iterate_mul]
    exact Function.iterate_fixed h n
  have hend : next^[(k + 1) * n] a = next^[n] a :=
    iterate_of_le hn (Nat.le_mul_of_pos_left n (Nat.succ_pos k))
  have ha : a = next^[n] a := hround.symm.trans hend
  rw [ha, hn]

variable [Fintype α]

/-- Some element among the first ones of a chain is a root. -/
theorem next_root (hg : Grounded next) (a : α) : next (root next a) = root next a := by
  obtain ⟨i, j, hij, heq⟩ := Fintype.exists_ne_map_eq_of_card_lt
    (fun i : Fin (Fintype.card α + 1) => next^[i.val] a) (by simp)
  -- the chain meets one element twice
  have key : ∀ i j : Fin (Fintype.card α + 1), i < j → next^[i.val] a = next^[j.val] a →
      next (root next a) = root next a := by
    intro i j hlt heq
    obtain ⟨k, hk⟩ := Nat.exists_eq_add_of_lt (Fin.lt_def.mp hlt)
    have hcycle : next^[k + 1] (next^[i.val] a) = next^[i.val] a := by
      rw [← Function.iterate_add_apply, heq]
      exact congrArg (fun n => next^[n] a) (by omega)
    have hfix := fixed_of_cycle hg hcycle
    have hroot : root next a = next^[i.val] a := iterate_of_le hfix (by omega)
    rw [hroot, hfix]
  rcases lt_or_gt_of_ne hij with hlt | hlt
  · exact key i j hlt heq
  · exact key j i hlt heq.symm

/-- Any root on the chain is the root. -/
theorem root_eq (hg : Grounded next) {a r : α} {n : Nat} (h : next^[n] a = r)
    (hr : next r = r) : root next a = r := by
  have hn : next (next^[n] a) = next^[n] a := by rw [h, hr]
  have hroot : next (next^[Fintype.card α] a) = next^[Fintype.card α] a := next_root hg a
  rcases Nat.le_total n (Fintype.card α) with hle | hle
  · rw [root, iterate_of_le hn hle, h]
  · rw [root, ← iterate_of_le hroot hle, h]

/-- A fixed point is its own root. -/
theorem root_of_fixed {a : α} (h : next a = a) : root next a = a := Function.iterate_fixed h _

/-- A root is its own root. -/
theorem root_root (hg : Grounded next) (a : α) : root next (root next a) = root next a :=
  root_of_fixed (next_root hg a)

/-- The fixed points are the roots. -/
theorem fixed_iff_root (hg : Grounded next) {a : α} : next a = a ↔ root next a = a :=
  ⟨root_of_fixed, fun h => by rw [← h]; exact next_root hg a⟩

variable [DecidableEq α] {m t : α}

omit [Fintype α] in
/-- The chain of `a` after `m` was made to point to `t`. -/
theorem iterate_redirect (hm : next m = m) (n : Nat) (a : α)
    (h : next (next^[n] a) = next^[n] a) :
    ∃ k, (Function.update next m t)^[k] a = if next^[n] a = m then t else next^[n] a := by
  induction n generalizing a with
  | zero =>
      by_cases ha : a = m
      · exact ⟨1, by simp [ha]⟩
      · exact ⟨0, by simp [ha]⟩
  | succ n ih =>
      by_cases ha : a = m
      · refine ⟨1, ?_⟩
        rw [ha, Function.iterate_fixed hm, if_pos rfl, Function.iterate_one,
          Function.update_self]
      · obtain ⟨k, hk⟩ := ih (next a) (by simpa using h)
        refine ⟨k + 1, ?_⟩
        rw [Function.iterate_succ_apply, Function.update_of_ne ha, hk,
          Function.iterate_succ_apply]

/-- **Union**: the tree of `m` joins the tree of `t`. -/
theorem redirect (hg : Grounded next) (hm : next m = m) (ht : next t = t) (hne : m ≠ t) :
    Grounded (Function.update next m t) ∧
      ∀ a, root (Function.update next m t) a = if root next a = m then t else root next a := by
  have hfix : ∀ a, Function.update next m t (if root next a = m then t else root next a) =
      if root next a = m then t else root next a := by
    intro a
    split
    · rw [Function.update_of_ne hne.symm, ht]
    · rename_i h
      rw [Function.update_of_ne h, next_root hg a]
  have hchain : ∀ a, ∃ k, (Function.update next m t)^[k] a =
      if root next a = m then t else root next a :=
    fun a => iterate_redirect hm _ a (next_root hg a)
  have hg' : Grounded (Function.update next m t) := by
    intro a
    obtain ⟨k, hk⟩ := hchain a
    exact ⟨k, by rw [hk, hfix a]⟩
  refine ⟨hg', fun a => ?_⟩
  obtain ⟨k, hk⟩ := hchain a
  exact root_eq hg' hk (hfix a)

end Forest
