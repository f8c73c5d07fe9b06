/-
Elfconv/VirtualRegs/RegMap.lean

`EcvRegMap<ERC>`: the registers of a set, each with one class.

Wherever two such maps are merged, an entry gives way to a wider one.  `Widest P` says of
an entry that its class is the widest of those that satisfy `P`, and that there is no entry
when no class does; merges keep such descriptions.
-/
import Elfconv.VirtualRegs.Reg

namespace Elfconv

/-- `EcvRegMap`: the class a register is accessed by, if it is. -/
abbrev EcvRegMap := EcvReg → Option ERC

namespace EcvRegMap

/-- The register has an entry. -/
def contains (m : EcvRegMap) (er : EcvReg) : Bool := (m er).isSome

/-- The entries of `m'` are inserted, or replace narrower ones. -/
def merge (m m' : EcvRegMap) : EcvRegMap := fun er =>
  match m er, m' er with
  | none, new => new
  | some erc, none => some erc
  | some erc, some new => if ERCSize erc < ERCSize new then some new else some erc

/-- Two maps of each bag of a set are merged, one bag after the other. -/
def mergeEach {β : Type} (m : EcvRegMap) (bags : List β) (fst snd : β → EcvRegMap) : EcvRegMap :=
  bags.foldl (fun m b => (m.merge (fst b)).merge (snd b)) m

end EcvRegMap

/-- The widest of the classes that satisfy `P`. -/
def Widest (P : ERC → Prop) : Option ERC → Prop
  | none => ∀ erc, ¬ P erc
  | some erc => P erc ∧ ∀ erc', P erc' → ERCSize erc' ≤ ERCSize erc

variable {P Q : ERC → Prop} {o : Option ERC} {m m' : EcvRegMap} {er : EcvReg}

theorem Widest.congr (h : Widest P o) (hPQ : ∀ erc, P erc ↔ Q erc) : Widest Q o := by
  have : P = Q := funext fun erc => propext (hPQ erc)
  rwa [← this]

theorem Widest.isSome_iff (h : Widest P o) : o.isSome = true ↔ ∃ erc, P erc := by
  cases o with
  | none => exact iff_of_false Bool.false_ne_true fun ⟨erc, herc⟩ => h erc herc
  | some erc => exact iff_of_true rfl ⟨erc, h.1⟩

theorem widest_self (o : Option ERC) : Widest (fun erc => o = some erc) o := by
  cases o with
  | none => exact fun _ h => nomatch h
  | some erc =>
      refine ⟨rfl, fun erc' h => ?_⟩
      cases h
      exact Nat.le_refl _

theorem widest_none : Widest (fun _ => False) none := fun _ => id

theorem widest_unique {o o' : Option ERC} (h : Widest (fun erc => o = some erc) o') : o' = o := by
  cases o' with
  | some erc => exact h.1.symm
  | none =>
      cases o with
      | none => rfl
      | some erc => exact absurd rfl (h erc)

/-- Classes that are left out make no difference when each has a strictly wider one. -/
theorem Widest.restrict (h : Widest P o) (hQP : ∀ erc, Q erc → P erc)
    (hPQ : ∀ erc, P erc → ∃ erc', Q erc' ∧ (erc' = erc ∨ ERCSize erc < ERCSize erc')) :
    Widest Q o := by
  cases o with
  | none => exact fun erc herc => h erc (hQP erc herc)
  | some erc =>
      refine ⟨?_, fun erc' herc' => h.2 erc' (hQP erc' herc')⟩
      obtain ⟨erc', herc', rfl | hlt⟩ := hPQ erc h.1
      · exact herc'
      · exact absurd (h.2 erc' (hQP erc' herc')) (Nat.not_le_of_lt hlt)

/-- The widest of the widest classes. -/
theorem Widest.flatten {ι : Type} {S : ι → Prop} {R : ι → ERC → Prop} {own : ι → Option ERC}
    (hown : ∀ i, S i → Widest (R i) (own i))
    (h : Widest (fun erc => ∃ i, S i ∧ own i = some erc) o) :
    Widest (fun erc => ∃ i, S i ∧ R i erc) o := by
  -- every class is below one that is kept
  have hle : ∀ erc, (∃ i, S i ∧ R i erc) →
      ∃ erc', (∃ i, S i ∧ own i = some erc') ∧ ERCSize erc ≤ ERCSize erc' := by
    rintro erc ⟨i, hi, hR⟩
    have hw := hown i hi
    cases ho : own i with
    | none =>
        rw [ho] at hw
        exact absurd hR (hw erc)
    | some erc' =>
        rw [ho] at hw
        exact ⟨erc', ⟨i, hi, ho⟩, hw.2 erc hR⟩
  cases o with
  | none =>
      intro erc herc
      obtain ⟨erc', h', -⟩ := hle erc herc
      exact h erc' h'
  | some erc =>
      obtain ⟨⟨i, hi, ho⟩, hmax⟩ := h
      have hw := hown i hi
      rw [ho] at hw
      refine ⟨⟨i, hi, hw.1⟩, fun erc' herc' => ?_⟩
      obtain ⟨erc'', h'', hle'⟩ := hle erc' herc'
      exact Nat.le_trans hle' (hmax erc'' h'')

/-- A merge keeps the class of an entry or makes it strictly wider. -/
theorem EcvRegMap.merge_keeps {erc : ERC} (m' : EcvRegMap) (h : m er = some erc) :
    ∃ erc', m.merge m' er = some erc' ∧ (erc' = erc ∨ ERCSize erc < ERCSize erc') := by
  unfold EcvRegMap.merge
  rw [h]
  rcases m' er with - | new
  · exact ⟨erc, rfl, .inl rfl⟩
  · by_cases hlt : ERCSize erc < ERCSize new
    · exact ⟨new, if_pos hlt, .inr hlt⟩
    · exact ⟨erc, if_neg hlt, .inl rfl⟩

theorem Widest.merge (h : Widest P (m er)) (h' : Widest Q (m' er)) :
    Widest (fun erc => P erc ∨ Q erc) (m.merge m' er) := by
  unfold EcvRegMap.merge
  rcases hm : m er with - | erc <;> rcases hm' : m' er with - | new <;>
    rw [hm] at h <;> rw [hm'] at h'
  · exact fun erc => not_or.mpr ⟨h erc, h' erc⟩
  · exact ⟨.inr h'.1, fun erc herc => herc.elim (fun e => absurd e (h erc)) (h'.2 erc)⟩
  · exact ⟨.inl h.1, fun erc herc => herc.elim (h.2 erc) fun e => absurd e (h' erc)⟩
  · -- the wider of the two bounds both
    by_cases hlt : ERCSize erc < ERCSize new
    · simp only [if_pos hlt]
      refine ⟨.inr h'.1, fun c hc => hc.elim (fun e => ?_) (h'.2 c)⟩
      exact Nat.le_trans (h.2 c e) (Nat.le_of_lt hlt)
    · simp only [if_neg hlt]
      refine ⟨.inl h.1, fun c hc => hc.elim (h.2 c) fun e => ?_⟩
      exact Nat.le_trans (h'.2 c e) (Nat.le_of_not_lt hlt)

theorem Widest.mergeEach {β : Type} {R S : β → ERC → Prop} {fst snd : β → EcvRegMap}
    (bags : List β) (h : Widest P (m er)) (hfst : ∀ b ∈ bags, Widest (R b) (fst b er))
    (hsnd : ∀ b ∈ bags, Widest (S b) (snd b er)) :
    Widest (fun erc => P erc ∨ ∃ b ∈ bags, R b erc ∨ S b erc) (m.mergeEach bags fst snd er) := by
  induction bags generalizing m P with
  | nil => exact h.congr fun erc => by simp
  | cons b bags ih =>
      rw [EcvRegMap.mergeEach, List.foldl_cons]
      have hb := (h.merge (hfst b List.mem_cons_self)).merge (hsnd b List.mem_cons_self)
      refine (ih hb (fun c hc => hfst c (List.mem_cons_of_mem b hc))
        fun c hc => hsnd c (List.mem_cons_of_mem b hc)).congr fun erc => ?_
      simp only [List.mem_cons, exists_eq_or_imp, or_assoc]

end Elfconv
