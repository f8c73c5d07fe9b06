/-
Elfconv/Lib/Simulation.lean

Simulation between two deterministic machines with the same results.

`Simulates R step₁ step₂` says that, between related states, a step of the first machine
is one or more steps of the second, and that a stop of the first is a stop of the second
with the same result, possibly later.  Since both machines are deterministic and no step is
matched by none, the simulation works in both directions: `reached` carries runs of the
first machine over to the second, and `halts_iff` says that the two machines stop from
related states with the same results, and so also run forever from the same states.
-/
import Elfconv.Lib.Machine

namespace Machine

universe u v w

variable {σ : Type u} {τ : Type v} {ρ : Type w} {step : σ → σ ⊕ ρ}

/-! ### Runs of at least one step -/

variable (step) in
/-- The states a run goes through after its start. -/
def Reached₁ : σ → σ → Prop := Relation.TransGen fun s s' => step s = .inl s'

/-- One or more steps are steps. -/
theorem Reached₁.reached {s s' : σ} (h : Reached₁ step s s') : Reached step s s' :=
  Relation.TransGen.to_reflTransGen h

/-- Steps before a run that halts. -/
theorem Halts.of_reached {s s' : σ} {r : ρ} (h : Reached step s s') (h' : Halts step s' r) :
    Halts step s r := by
  induction h using Relation.ReflTransGen.head_induction_on with
  | refl => exact h'
  | head hstep _ ih => exact .of_step hstep ih

/-- A step uses up fuel. -/
theorem run_of_step {n : Nat} {s s' : σ} {r : ρ} (hstep : step s = .inl s')
    (h : run step n s = some r) : ∃ k < n, run step k s' = some r := by
  cases n with
  | zero => cases h
  | succ n => exact ⟨n, n.lt_succ_self, (run_succ_of_inl hstep n).symm.trans h⟩

/-- After one or more steps less of the run is left. -/
theorem run_of_reached₁ {n : Nat} {s s' : σ} {r : ρ} (hs : Reached₁ step s s')
    (h : run step n s = some r) : ∃ k < n, run step k s' = some r := by
  induction hs with
  | single hstep => exact run_of_step hstep h
  | tail _ hstep ih =>
      obtain ⟨k, hk, hrun⟩ := ih
      obtain ⟨j, hj, hrun⟩ := run_of_step hstep hrun
      exact ⟨j, hj.trans hk, hrun⟩

/-! ### Simulations -/

/-- The second machine does what the first one does, in at least as many steps. -/
structure Simulates (R : σ → τ → Prop) (step₁ : σ → σ ⊕ ρ) (step₂ : τ → τ ⊕ ρ) : Prop where
  step : ∀ {s t s'}, R s t → step₁ s = .inl s' → ∃ t', Reached₁ step₂ t t' ∧ R s' t'
  stop : ∀ {s t r}, R s t → step₁ s = .inr r → Halts step₂ t r

variable {R : σ → τ → Prop} {step₁ : σ → σ ⊕ ρ} {step₂ : τ → τ ⊕ ρ}

/-- From `t`, the second machine gets to where the step `x` of the first one leads. -/
def Follows (R : σ → τ → Prop) (step₂ : τ → τ ⊕ ρ) (t : τ) (x : σ ⊕ ρ) : Prop :=
  match x with
  | .inl s' => ∃ t', Reached step₂ t t' ∧ R s' t'
  | .inr r => Halts step₂ t r

theorem Follows.refl {s : σ} {t : τ} (h : R s t) : Follows R step₂ t (.inl s) :=
  ⟨t, .refl, h⟩

/-- The other machine stops with the same result. -/
theorem Follows.of_stop {t : τ} {r : ρ} (h : step₂ t = .inr r) :
    Follows R step₂ t (.inr r) :=
  Halts.of_stop h

/-- The other machine may take a step more. -/
theorem Follows.of_step {t t' : τ} {x : σ ⊕ ρ} (hstep : step₂ t = .inl t')
    (h : Follows R step₂ t' x) : Follows R step₂ t x := by
  rcases x with s' | r
  · obtain ⟨t'', ht'', hr⟩ := h
    exact ⟨t'', .head hstep ht'', hr⟩
  · exact Halts.of_step hstep h

/-- Machines that follow each other step by step simulate each other. -/
theorem Simulates.of_follows (h : ∀ s t, R s t →
    (∃ t', step₂ t = .inl t' ∧ Follows R step₂ t' (step₁ s)) ∨
      ∃ r, step₁ s = .inr r ∧ step₂ t = .inr r) : Simulates R step₁ step₂ where
  step {s t s'} hst hs := by
    rcases h s t hst with ⟨t', ht', hf⟩ | ⟨r, hr, -⟩
    · rw [hs] at hf
      obtain ⟨t'', ht'', hr⟩ := hf
      exact ⟨t'', .head' ht' ht'', hr⟩
    · rw [hs] at hr
      cases hr
  stop {s t r} hst hs := by
    rcases h s t hst with ⟨t', ht', hf⟩ | ⟨r', hr', ht⟩
    · rw [hs] at hf
      exact .of_step ht' hf
    · cases hs.symm.trans hr'
      exact .of_stop ht

/-- **Runs carry over.** -/
theorem Simulates.reached (h : Simulates R step₁ step₂) {s s' : σ} {t : τ} (hst : R s t)
    (hs : Reached step₁ s s') : ∃ t', Reached step₂ t t' ∧ R s' t' := by
  induction hs with
  | refl => exact ⟨t, .refl, hst⟩
  | tail _ hstep ih =>
      obtain ⟨t₁, ht₁, hr⟩ := ih
      obtain ⟨t₂, ht₂, hr⟩ := h.step hr hstep
      exact ⟨t₂, ht₁.trans ht₂.reached, hr⟩

/-- The other machine halts with the same result. -/
theorem Simulates.halts (h : Simulates R step₁ step₂) {s : σ} {t : τ} {r : ρ} (hst : R s t)
    (hs : Halts step₁ s r) : Halts step₂ t r := by
  obtain ⟨n, hn⟩ := hs
  induction n generalizing s t with
  | zero => cases hn
  | succ n ih =>
      rcases e : step₁ s with s' | r'
      · rw [run_succ_of_inl e] at hn
        obtain ⟨t', ht', hr⟩ := h.step hst e
        exact .of_reached ht'.reached (ih hr hn)
      · rw [run_succ_of_inr e] at hn
        cases hn
        exact h.stop hst e

/-- **The machines stop with the same results.** -/
theorem Simulates.halts_iff (h : Simulates R step₁ step₂) {s : σ} {t : τ} (hst : R s t)
    (r : ρ) : Halts step₁ s r ↔ Halts step₂ t r := by
  refine ⟨h.halts hst, fun ht => ?_⟩
  obtain ⟨n, hn⟩ := ht
  -- on the steps the second machine has left
  induction n using Nat.strongRecOn generalizing s t with
  | ind n ih =>
      rcases e : step₁ s with s' | r'
      · obtain ⟨t', ht', hr⟩ := h.step hst e
        obtain ⟨k, hk, hrun⟩ := run_of_reached₁ ht' hn
        exact .of_step e (ih k hk hr hrun)
      · have hr : r' = r := halts_unique (h.stop hst e) ⟨n, hn⟩
        exact hr ▸ .of_stop e

end Machine
