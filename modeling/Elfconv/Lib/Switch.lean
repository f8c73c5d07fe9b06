/-
Elfconv/Lib/Switch.lean

A C `switch` statement with fall-through, over any monad.

The statement is the list of its labelled arms in source order.  An arm runs its
body and, when it has no `break`, goes on with the arm after it, whatever the
label of that arm is.  `runSwitch` looks for the first arm with the wanted label
and runs from there; a label that no arm has goes to the default.

The fact a client needs is `runSwitch_eq_bodyOf`: a label whose arm ends in `break`
runs its own body and nothing else, and `bodyOf_induction` carries a property of all
arms over to the selected one.
-/
import Mathlib.Data.List.Nodup
import Mathlib.Tactic.Common

namespace Switch

universe u v

variable {κ : Type v} [DecidableEq κ] {m : Type u → Type u} [Monad m]

/-- One arm: the `case` label, the statements up to the next label, and whether
these statements end in `break`. -/
structure Arm (κ : Type v) (m : Type u → Type u) where
  label : κ
  body : m PUnit
  breaks : Bool

/-- Run from the head of the list: arms without `break` fall through. -/
def runFrom : List (Arm κ m) → m PUnit
  | [] => pure PUnit.unit
  | a :: rest =>
      if a.breaks then a.body else do
        a.body
        runFrom rest

/-- Jump to the arm labelled `n` and run from it; `default` if there is none. -/
def runSwitch (default : m PUnit) (n : κ) : List (Arm κ m) → m PUnit
  | [] => default
  | a :: rest => if a.label = n then runFrom (a :: rest) else runSwitch default n rest

/-- The body that belongs to label `n` alone, `default` if there is none. -/
def bodyOf (default : m PUnit) (n : κ) : List (Arm κ m) → m PUnit
  | [] => default
  | a :: rest => if a.label = n then a.body else bodyOf default n rest

/-- The labels whose arm does not end in `break`. -/
def fallLabels (arms : List (Arm κ m)) : List κ :=
  (arms.filter fun a => !a.breaks).map Arm.label

omit [DecidableEq κ] in
/-- An arm with a break is run alone. -/
theorem runFrom_cons_break {a : Arm κ m} {rest : List (Arm κ m)} (h : a.breaks = true) :
    runFrom (a :: rest) = a.body := by
  simp [runFrom, h]

omit [DecidableEq κ] [Monad m] in
/-- An arm whose label is not among the fall-through labels ends in `break`. -/
theorem breaks_of_not_mem_fallLabels {a : Arm κ m} {arms : List (Arm κ m)} (ha : a ∈ arms)
    (h : a.label ∉ fallLabels arms) : a.breaks = true := by
  by_contra hb
  exact h (List.mem_map.mpr ⟨a, List.mem_filter.mpr ⟨ha, by simpa using hb⟩, rfl⟩)

/-- **Dispatch is exact on arms that break**: a label that is not among the
fall-through labels runs its own body (or the default) and nothing else. -/
theorem runSwitch_eq_bodyOf {default : m PUnit} {n : κ} :
    ∀ {arms : List (Arm κ m)}, n ∉ fallLabels arms →
      runSwitch default n arms = bodyOf default n arms
  | [], _ => rfl
  | a :: rest, h => by
      by_cases hn : a.label = n
      · have hb : a.breaks = true :=
          breaks_of_not_mem_fallLabels List.mem_cons_self (hn ▸ h)
        simp [runSwitch, bodyOf, hn, runFrom_cons_break hb]
      · have hrest : n ∉ fallLabels rest := by
          intro hmem
          refine h ?_
          obtain ⟨b, hb, rfl⟩ := List.mem_map.mp hmem
          have hb' := List.mem_filter.mp hb
          exact List.mem_map.mpr
            ⟨b, List.mem_filter.mpr ⟨List.mem_cons_of_mem _ hb'.1, hb'.2⟩, rfl⟩
        simp [runSwitch, bodyOf, hn, runSwitch_eq_bodyOf hrest]

omit [Monad m] in
/-- A property of all arm bodies and of the default holds of the selected body. -/
theorem bodyOf_induction {P : m PUnit → Prop} {default : m PUnit} {n : κ}
    (hd : P default) : ∀ {arms : List (Arm κ m)}, (∀ a ∈ arms, a.label = n → P a.body) →
      P (bodyOf default n arms)
  | [], _ => hd
  | a :: rest, h => by
      by_cases hn : a.label = n
      · simpa [bodyOf, hn] using h a List.mem_cons_self hn
      · simpa [bodyOf, hn] using
          bodyOf_induction hd fun b hb => h b (List.mem_cons_of_mem _ hb)

end Switch
