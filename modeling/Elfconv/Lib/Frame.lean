/-
Elfconv/Lib/Frame.lean

Relational frames for programs with a state and an exception.

A program is a `StateT σ (Except ε)` action.  `Framed R p` says that every run
of `p` that returns relates the state before to the state after by `R`.  For a
preorder `R` the property is compositional: it holds of `pure` and of a failure,
and it is kept by `bind`.  A program is then framed because its primitives are,
and no run of the whole program has to be computed.

Nothing here knows about a particular state: `σ`, `ε` and `R` are parameters.
-/
import Mathlib.Order.Defs.Unbundled
import Mathlib.Tactic.Common

namespace Frame

universe u

variable {σ ε : Type u} {α β : Type u}

/-- Every returning run of `p` relates its first state to its last by `R`. -/
def Framed (R : σ → σ → Prop) (p : StateT σ (Except ε) α) : Prop :=
  ∀ s a s', p s = .ok (a, s') → R s s'

/-- Read a function of the state. -/
def reads (g : σ → α) : StateT σ (Except ε) α := fun s => .ok (g s, s)

/-- Update the state, returning a value. -/
def updates (u : σ → α × σ) : StateT σ (Except ε) α := fun s => .ok (u s)

section Rules

variable {R : σ → σ → Prop}

/-- Inversion of a sequential composition that returns. -/
theorem bind_ok {p : StateT σ (Except ε) α} {f : α → StateT σ (Except ε) β}
    {s s' : σ} {b : β} (h : (p >>= f) s = .ok (b, s')) :
    ∃ a m, p s = .ok (a, m) ∧ f a m = .ok (b, s') := by
  rcases e : p s with err | ⟨a, m⟩
  · simp [bind, StateT.bind, Except.bind, e] at h
  · refine ⟨a, m, rfl, ?_⟩
    simpa [bind, StateT.bind, Except.bind, e] using h

/-- A sequence goes on from where its first part ended. -/
theorem bind_run {p : StateT σ (Except ε) α} {s m : σ} {a : α} (h : p s = .ok (a, m))
    (f : α → StateT σ (Except ε) β) : (p >>= f) s = f a m := by
  show (p s >>= fun r => f r.1 r.2) = f a m
  rw [h]
  rfl

/-- A composition returns exactly when both parts do. -/
theorem bind_ok_iff {p : StateT σ (Except ε) α} {f : α → StateT σ (Except ε) β}
    {s s' : σ} {b : β} :
    (p >>= f) s = .ok (b, s') ↔ ∃ a m, p s = .ok (a, m) ∧ f a m = .ok (b, s') := by
  refine ⟨bind_ok, ?_⟩
  rintro ⟨a, m, h₁, h₂⟩
  simpa [bind, StateT.bind, Except.bind, h₁] using h₂

theorem framed_pure [Std.Refl R] (a : α) :
    Framed R (pure a : StateT σ (Except ε) α) := by
  intro s b s' h
  have hpair : (a, s) = (b, s') := Except.ok.inj h
  have hstate : s = s' := congrArg Prod.snd hpair
  exact hstate ▸ Std.Refl.refl s

/-- An error changes no state that is returned. -/
theorem framed_throw (e : ε) :
    Framed R (throw e : StateT σ (Except ε) α) := by
  intro s b s' h
  simp [throw, throwThe, MonadExceptOf.throw, StateT.lift, bind, Except.bind] at h

/-- A sequence of framed parts is framed. -/
theorem framed_bind [IsTrans σ R] {p : StateT σ (Except ε) α}
    {f : α → StateT σ (Except ε) β} (hp : Framed R p) (hf : ∀ a, Framed R (f a)) :
    Framed R (p >>= f) := by
  intro s b s' h
  obtain ⟨a, m, h₁, h₂⟩ := bind_ok h
  exact trans_of R (hp s a m h₁) (hf a m b s' h₂)

/-- An action that leaves the state alone may come before any framed action. -/
theorem framed_after {p : StateT σ (Except ε) α} {f : α → StateT σ (Except ε) β}
    (hp : Framed Eq p) (hf : ∀ a, Framed R (f a)) : Framed R (p >>= f) := by
  intro s b s' h
  obtain ⟨a, m, h₁, h₂⟩ := bind_ok h
  cases hp s a m h₁
  exact hf a s b s' h₂

/-- Both branches are framed. -/
theorem framed_ite {c : Prop} [Decidable c] {p q : StateT σ (Except ε) α}
    (hp : Framed R p) (hq : Framed R q) : Framed R (if c then p else q) := by
  split
  · exact hp
  · exact hq

/-- Reading changes nothing. -/
theorem framed_reads [Std.Refl R] (g : σ → α) :
    Framed R (reads g : StateT σ (Except ε) α) := by
  intro s b s' h
  obtain ⟨-, rfl⟩ : g s = b ∧ s = s' := by simpa [reads] using h
  exact Std.Refl.refl _

/-- An update is framed as soon as the updated state is related to the old one. -/
theorem framed_updates {u : σ → α × σ} (h : ∀ s, R s (u s).2) :
    Framed R (updates u : StateT σ (Except ε) α) := by
  intro s b s' hr
  have e : u s = (b, s') := by simpa [updates] using hr
  simpa [e] using h s

end Rules

end Frame
