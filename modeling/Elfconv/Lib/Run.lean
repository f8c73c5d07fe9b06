/-
Elfconv/Lib/Run.lean

Runs of a labelled transition system, and properties of whole runs.

A run is the list of its steps, each a label and the state it leads to.
`Throughout P` says that `P` holds of every state of a run, `Along C` that every step
satisfies `C` in the state it is taken from.

`throughout_iff_along` is the rule for a condition that decides a property step by
step: if, under an invariant, a step keeps `P` exactly when it satisfies `C`, and a step
that satisfies `C` keeps the invariant, then `P` holds throughout a run exactly when `C`
holds along it.
-/
import Mathlib.Tactic.Common

namespace Run

universe u v

variable {σ : Type u} {α : Type v} (step : σ → α → σ → Prop)

/-- `run` is a run from `s`. -/
def IsRun : σ → List (α × σ) → Prop
  | _, [] => True
  | s, (a, s') :: rest => step s a s' ∧ IsRun s' rest

/-- `P` holds of `s` and of every state of the run. -/
def Throughout (P : σ → Prop) (s : σ) (run : List (α × σ)) : Prop :=
  P s ∧ ∀ p ∈ run, P p.2

/-- Every step satisfies `C`, in the state it is taken from. -/
def Along (C : σ → α → Prop) : σ → List (α × σ) → Prop
  | _, [] => True
  | s, (a, s') :: rest => C s a ∧ Along C s' rest

/-- The state a run ends in. -/
def final : σ → List (α × σ) → σ
  | s, [] => s
  | _, (_, s') :: rest => final s' rest

variable {step}

/-- A property throughout a run, by its first step. -/
theorem throughout_cons {P : σ → Prop} {s s' : σ} {a : α} {rest : List (α × σ)} :
    Throughout P s ((a, s') :: rest) ↔ P s ∧ Throughout P s' rest := by
  simp [Throughout]

/-- What holds throughout holds at the end. -/
theorem final_of_throughout {P : σ → Prop} {run : List (α × σ)} {s : σ}
    (h : Throughout P s run) : P (final s run) := by
  induction run generalizing s with
  | nil => exact h.1
  | cons _ _ ih => exact ih (throughout_cons.mp h).2

/-- An invariant of the steps holds throughout every run. -/
theorem throughout_of_step {P : σ → Prop} (hstep : ∀ s a s', P s → step s a s' → P s') :
    ∀ {run : List (α × σ)} {s : σ}, P s → IsRun step s run → Throughout P s run
  | [], _, hs, _ => ⟨hs, by simp⟩
  | (a, s') :: rest, s, hs, hrun =>
      throughout_cons.mpr
        ⟨hs, throughout_of_step hstep (hstep s a s' hs hrun.1) hrun.2⟩

/-- **A stepwise condition decides a property of runs.** -/
theorem throughout_iff_along {I P : σ → Prop} {C : σ → α → Prop}
    (hP : ∀ s a s', I s → P s → step s a s' → (P s' ↔ C s a))
    (hI : ∀ s a s', I s → P s → C s a → step s a s' → I s') :
    ∀ {run : List (α × σ)} {s : σ}, I s → P s → IsRun step s run →
      (Throughout P s run ↔ Along C s run)
  | [], s, _, hs, _ => by simp [Throughout, Along, hs]
  | (a, s') :: rest, s, hi, hs, hrun => by
      obtain ⟨hstep, hrest⟩ := hrun
      rw [throughout_cons]
      constructor
      · rintro ⟨-, hall⟩
        have hc : C s a := (hP s a s' hi hs hstep).mp hall.1
        exact ⟨hc, (throughout_iff_along hP hI (hI s a s' hi hs hc hstep) hall.1 hrest).mp hall⟩
      · rintro ⟨hc, hrestC⟩
        have hs' : P s' := (hP s a s' hi hs hstep).mpr hc
        exact ⟨hs, (throughout_iff_along hP hI (hI s a s' hi hs hc hstep) hs' hrest).mpr hrestC⟩

end Run
