/-
Elfconv/Lib/Machine.lean

Deterministic machines that may run forever.

A machine is a function `step : σ → σ ⊕ ρ`: it goes on to a state or it stops with a
result.  `run n` is `n` steps with fuel, and `Halts step s r` says that enough fuel gives
the result `r`.

Three rules are all a client needs.  `inv_of_reached` is invariance: what the steps keep holds
in every state of a run.  `inv_of_halts` is partial correctness: an invariant of the steps
holds in the state the machine stops in.  `halts_of_measure` is total correctness: an
invariant under which every step makes a measure smaller.

A step may be labelled with the element it visits.  `visits_of_halts` is the rule for a
machine that keeps the set of the visited elements: it visits no element twice.

A measure may be a list of numbers, compared from the first one on (`Decreases`).
-/
import Mathlib.Data.Finset.Insert
import Mathlib.Logic.Relation
import Mathlib.Order.WellFounded
import Mathlib.Tactic.Common

namespace Machine

universe u v w

variable {σ : Type u} {ρ : Type v} (step : σ → σ ⊕ ρ)

/-- At most `n` steps; `none` when they are not enough. -/
def run : Nat → σ → Option ρ
  | 0, _ => none
  | n + 1, s =>
      match step s with
      | .inl s' => run n s'
      | .inr r => some r

/-- Enough fuel gives the result `r`. -/
def Halts (s : σ) (r : ρ) : Prop := ∃ n, run step n s = some r

variable {step}

/-- A step that goes on takes one of the fuel. -/
theorem run_succ_of_inl {s s' : σ} (h : step s = .inl s') (n : Nat) :
    run step (n + 1) s = run step n s' := by
  simp only [run, h]

/-- A step that stops gives the result. -/
theorem run_succ_of_inr {s : σ} {r : ρ} (h : step s = .inr r) (n : Nat) :
    run step (n + 1) s = some r := by
  simp only [run, h]

/-- More fuel does not change a result. -/
theorem run_mono {n k : Nat} {s : σ} {r : ρ} (h : run step n s = some r) :
    run step (n + k) s = some r := by
  induction n generalizing s with
  | zero => cases h
  | succ n ih =>
      rw [show n + 1 + k = n + k + 1 by omega]
      rcases hs : step s with s' | r'
      · rw [run_succ_of_inl hs] at h ⊢
        exact ih h
      · rw [run_succ_of_inr hs] at h ⊢
        exact h

/-- A machine has one result. -/
theorem halts_unique {s : σ} {r r' : ρ} (h : Halts step s r) (h' : Halts step s r') :
    r = r' := by
  obtain ⟨n, hn⟩ := h
  obtain ⟨k, hk⟩ := h'
  have e : run step (n + k) s = some r := run_mono hn
  have e' : run step (n + k) s = some r' := by
    rw [Nat.add_comm]
    exact run_mono hk
  exact Option.some.inj (e.symm.trans e')

/-- A step before a run that halts. -/
theorem Halts.of_step {s s' : σ} {r : ρ} (h : step s = .inl s') (h' : Halts step s' r) :
    Halts step s r := by
  obtain ⟨n, hn⟩ := h'
  exact ⟨n + 1, by rw [run_succ_of_inl h, hn]⟩

theorem Halts.of_stop {s : σ} {r : ρ} (h : step s = .inr r) : Halts step s r :=
  ⟨1, run_succ_of_inr h 0⟩

/-- **Partial correctness.** -/
theorem inv_of_halts {I : σ → Prop} {Q : ρ → Prop}
    (hstep : ∀ s s', I s → step s = .inl s' → I s')
    (hstop : ∀ s r, I s → step s = .inr r → Q r) {s : σ} {r : ρ} (hs : I s)
    (h : Halts step s r) : Q r := by
  obtain ⟨n, hn⟩ := h
  induction n generalizing s with
  | zero => cases hn
  | succ n ih =>
      rcases e : step s with s' | r'
      · rw [run_succ_of_inl e] at hn
        exact ih (hstep s s' hs e) hn
      · rw [run_succ_of_inr e] at hn
        cases hn
        exact hstop s _ hs e

variable (step) in
/-- The states a run goes through. -/
def Reached : σ → σ → Prop := Relation.ReflTransGen fun s s' => step s = .inl s'

/-- **Invariance.** -/
theorem inv_of_reached {I : σ → Prop} (hstep : ∀ s s', I s → step s = .inl s' → I s') {s s' : σ}
    (hs : I s) (h : Reached step s s') : I s' := by
  induction h with
  | refl => exact hs
  | tail _ e ih => exact hstep _ _ ih e

/-- **Total correctness.** -/
theorem halts_of_measure {α : Type w} (lt : α → α → Prop) (hlt : WellFounded lt)
    {I : σ → Prop} {Q : ρ → Prop} (μ : σ → α)
    (hstep : ∀ s s', I s → step s = .inl s' → I s' ∧ lt (μ s') (μ s))
    (hstop : ∀ s r, I s → step s = .inr r → Q r) {s : σ} (hs : I s) :
    ∃ r, Halts step s r ∧ Q r := by
  induction h : μ s using hlt.induction generalizing s with
  | h m ih =>
      rcases e : step s with s' | r
      · obtain ⟨hs', hdec⟩ := hstep s s' hs e
        obtain ⟨r, hr, hq⟩ := ih (μ s') (h ▸ hdec) hs' rfl
        exact ⟨r, .of_step e hr, hq⟩
      · exact ⟨r, .of_stop e, hstop s r hs e⟩

/-- Some measure of the list is smaller, and those before it are equal. -/
def Decreases : List (σ → Nat) → σ → σ → Prop
  | [], _, _ => False
  | μ :: measures, s', s => μ s' < μ s ∨ μ s' = μ s ∧ Decreases measures s' s

/-- The measures, taken in their order, cannot decrease forever. -/
theorem decreases_wf (measures : List (σ → Nat)) : WellFounded (Decreases measures) := by
  induction measures with
  | nil => exact ⟨fun s => ⟨s, fun _ h => h.elim⟩⟩
  | cons μ measures ih =>
      have hlex := (Nat.lt_wfRel.wf.prod_lex ih).onFun (f := fun s => (μ s, s))
      apply Subrelation.wf _ hlex
      rintro s' s (h | ⟨h, h'⟩)
      · exact .left _ _ h
      · show Prod.Lex _ _ (μ s', s') (μ s, s)
        rw [h]
        exact .right _ h'

/-! ### Visits -/

variable {α : Type w}

variable (step) in
/-- The elements that at most `n` steps visit. -/
def trace (label : σ → Option α) : Nat → σ → List α
  | 0, _ => []
  | n + 1, s =>
      match step s with
      | .inl s' => (label s).toList ++ trace label n s'
      | .inr _ => []

variable (step) in
/-- The run to the result `r` visits the elements of `l`, in this order. -/
def Visits (label : σ → Option α) (s : σ) (r : ρ) (l : List α) : Prop :=
  ∃ n, run step n s = some r ∧ trace step label n s = l

/-- A step adds the element it visits to the visited ones. -/
def Adds [DecidableEq α] (label : Option α) (done done' : Finset α) : Prop :=
  match label with
  | none => done' = done
  | some a => a ∉ done ∧ done' = insert a done

/-- **A machine that keeps the visited elements visits each of them once.** -/
theorem visits_of_halts [DecidableEq α] {label : σ → Option α} {done : σ → Finset α}
    {I : σ → Prop} {Q : Finset α → Prop}
    (hstep : ∀ s s', I s → step s = .inl s' → I s' ∧ Adds (label s) (done s) (done s'))
    (hstop : ∀ s r, I s → step s = .inr r → Q (done s)) {s : σ} {r : ρ} (hs : I s)
    (h : Halts step s r) :
    ∃ l, Visits step label s r l ∧ l.Nodup ∧ (∀ a ∈ l, a ∉ done s) ∧
      ∃ fin, Q fin ∧ ∀ a, a ∈ fin ↔ a ∈ done s ∨ a ∈ l := by
  obtain ⟨n, hn⟩ := h
  -- on the turns until the machine stops; the rest of the run has its own list
  induction n generalizing s with
  | zero => cases hn
  | succ n ih =>
      rcases e : step s with s' | r'
      · rw [run_succ_of_inl e] at hn
        obtain ⟨hs', hadds⟩ := hstep s s' hs e
        obtain ⟨l, ⟨k, hk, htrace⟩, hnodup, hnew, fin, hfin, hmem⟩ := ih hs' hn
        refine ⟨(label s).toList ++ l, ⟨k + 1, by rw [run_succ_of_inl e, hk], ?_⟩, ?_⟩
        · simp only [trace, e, htrace]
        · cases hlabel : label s with
          | none =>
              rw [hlabel, Adds] at hadds
              rw [hadds] at hnew hmem
              exact ⟨hnodup, hnew, fin, hfin, hmem⟩
          | some a =>
              rw [hlabel, Adds] at hadds
              obtain ⟨ha, hadds⟩ := hadds
              rw [hadds] at hnew hmem
              simp only [Finset.mem_insert, not_or] at hnew
              refine ⟨List.nodup_cons.mpr ⟨fun hal => (hnew a hal).1 rfl, hnodup⟩, ?_, fin, hfin,
                fun b => ?_⟩
              · rintro b hb
                rcases List.mem_cons.mp hb with rfl | hb
                · exact ha
                · exact (hnew b hb).2
              · rw [hmem, Finset.mem_insert, Option.toList_some, List.singleton_append,
                  List.mem_cons, or_assoc, or_left_comm]
      · rw [run_succ_of_inr e] at hn
        refine ⟨[], ⟨1, (run_succ_of_inr e 0).trans hn, by simp only [trace, e]⟩,
          List.nodup_nil, fun a ha => absurd ha List.not_mem_nil, done s, hstop s r' hs e, ?_⟩
        intro a
        rw [or_iff_left List.not_mem_nil]

end Machine
