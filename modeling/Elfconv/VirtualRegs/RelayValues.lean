/-
Elfconv/VirtualRegs/RelayValues.lean

Where the values of the relay blocks come from.

A relay block has a register from a phi node, or it loads the register; then the block before
it neither derives nor writes the register, so there is nothing that the load could miss
(`RelayInv`).  That needs the values the blocks have from lifting: no block loses one.
-/
import Elfconv.VirtualRegs.PhiEnds

namespace Elfconv

variable {β : Type} [DecidableEq β] {f : LiftedCFG β} {s s' : PhiState β}

namespace PhiState

open BB

/-- The relay block has a phi node for the register, or one is under construction. -/
def HasSource (s : PhiState β) (n : Nat) (er : EcvReg) : Prop :=
  (∃ φ ∈ s.phis (.relay n), φ.er = er) ∨ ∃ φ ∈ s.stack, φ.bb = .relay n ∧ φ.er = er

/-- No block before the relay block derives the register or has it from lifting. -/
def Untouched (f : LiftedCFG β) (s : PhiState β) (n : Nat) (er : EcvReg) : Prop :=
  ∀ p ∈ s.graph.preds (.relay n), er ∉ s.drvd f p ∧
    ∀ c, p = .orig c → f.r_fresh_inst_mp c er = false

/-- Where a relay block has a value, it has a phi node for it or loads it for a reason. -/
structure RelayInv (f : LiftedCFG β) (s : PhiState β) : Prop where
  fresh : ∀ c er, f.r_fresh_inst_mp c er = true →
    (s.r_fresh_inst_mp (.orig c) er).isSome = true
  source : ∀ n, n < s.relay_bb_num → ∀ er, (s.r_fresh_inst_mp (.relay n) er).isSome = true →
    s.HasSource n er ∨ s.Untouched f n er

omit [DecidableEq β] in
/-- The graph is as it was; what a relay block has now it had before, or it has a phi node. -/
theorem RelayInv.of_keeps (hs : s.RelayInv f) (hk : Keeps s s')
    (hsource : ∀ n er, s.HasSource n er → s'.HasSource n er)
    (hfresh : ∀ n er, (s'.r_fresh_inst_mp (.relay n) er).isSome = true →
      (s.r_fresh_inst_mp (.relay n) er).isSome = true ∨ s'.HasSource n er) :
    s'.RelayInv f where
  fresh := fun c er h => hk.fresh _ _ (hs.fresh c er h)
  source := by
    intro n hn er h
    rw [hk.num] at hn
    rcases hfresh n er h with h | h
    · refine (hs.source n hn er h).imp (hsource n er) fun hu => ?_
      unfold Untouched
      rw [hk.graph]
      intro p hp
      rw [hk.drvd]
      exact hu p hp
    · exact .inl h

omit [DecidableEq β] in
theorem HasSource.of_stack {n : Nat} {er : EcvReg} (h : s.HasSource n er)
    (hphis : s'.phis = s.phis)
    (hstack : ∀ φ ∈ s.stack, ∃ φ' ∈ s'.stack, φ'.bb = φ.bb ∧ φ'.er = φ.er) :
    s'.HasSource n er := by
  unfold HasSource
  rw [hphis]
  refine h.imp_right fun ⟨φ, hφ, hbb, her⟩ => ?_
  obtain ⟨φ', hφ', hbb', her'⟩ := hstack φ hφ
  exact ⟨φ', hφ', hbb'.trans hbb, her'.trans her⟩

omit [DecidableEq β] in
theorem RelayInv.addIncoming {φ : OpenPhi β} {stack : List (OpenPhi β)} (hs : s.RelayInv f)
    (hstack : s.stack = φ :: stack) (v : DrvdValue β) : (s.addIncoming v).RelayInv f := by
  have hsame := exists_stack_addIncoming hstack v
  have hk : Keeps s (s.addIncoming v) := by
    rw [addIncoming_cons hstack]
    exact ⟨rfl, rfl, rfl, fun _ _ => id⟩
  apply hs.of_keeps hk
  · intro n er h
    apply h.of_stack _ hsame
    rw [addIncoming_cons hstack]
  · intro n er h
    rw [addIncoming_cons hstack] at h
    exact .inl h

/-- A register that a block has now it had before, or it is the one that was inserted. -/
theorem known_of_insertFresh {b b' : BB β} {er er' : EcvReg}
    (h : ((s.insertFresh b er).r_fresh_inst_mp b' er').isSome = true) :
    (s.r_fresh_inst_mp b' er').isSome = true ∨ b' = b ∧ er' = er := by
  have h : (if b' = b ∧ er' = er then _ else s.r_fresh_inst_mp b' er').isSome = true := h
  split at h
  · rename_i hb
    exact .inr hb
  · exact .inl h

theorem RelayInv.newPhi (hs : s.RelayInv f) (b : BB β) (er : EcvReg) :
    (s.newPhi b er).RelayInv f := by
  have hk : Keeps s (s.newPhi b er) := ⟨rfl, rfl, rfl, (keeps_insertFresh s b er).fresh⟩
  apply hs.of_keeps hk
  · exact fun n er' h => h.of_stack rfl fun φ hφ => ⟨φ, List.mem_cons_of_mem _ hφ, rfl, rfl⟩
  · intro n er' h
    refine (known_of_insertFresh h).imp_right ?_
    rintro ⟨rfl, rfl⟩
    exact .inr ⟨_, List.mem_cons_self, rfl, rfl⟩

theorem RelayInv.insertFresh_orig (hs : s.RelayInv f) (c : β) (er : EcvReg) :
    (s.insertFresh (.orig c) er).RelayInv f := by
  apply hs.of_keeps (keeps_insertFresh s _ er)
  · exact fun n er' => id
  · intro n er' h
    rcases known_of_insertFresh h with h | ⟨hn, -⟩
    · exact .inl h
    · exact absurd hn.symm (orig_ne_relay c n)

theorem RelayInv.closePhi {φ : OpenPhi β} {stack : List (OpenPhi β)} (hs : s.RelayInv f)
    (hstack : s.stack = φ :: stack) : (s.closePhi φ stack).RelayInv f := by
  have hk : Keeps s (s.closePhi φ stack) := ⟨rfl, rfl, rfl, fun _ _ => id⟩
  apply hs.of_keeps hk
  · rintro n er (⟨ψ, hψ, rfl⟩ | ⟨ψ, hψ, hbb, rfl⟩)
    · refine .inl ⟨ψ, ?_, rfl⟩
      show ψ ∈ Function.update s.phis φ.bb (φ.toPHINode :: s.phis φ.bb) (.relay n)
      by_cases hn : .relay n = φ.bb
      · rw [hn, Function.update_self]
        exact List.mem_cons_of_mem _ (hn ▸ hψ)
      · rwa [Function.update_of_ne hn]
    · rw [hstack] at hψ
      rcases List.mem_cons.mp hψ with rfl | hψ
      · refine .inl ⟨ψ.toPHINode, ?_, rfl⟩
        show _ ∈ Function.update s.phis ψ.bb (ψ.toPHINode :: s.phis ψ.bb) (.relay n)
        rw [hbb, Function.update_self]
        exact List.mem_cons_self
      · exact .inr ⟨ψ, hψ, hbb, rfl⟩
  · exact fun n er h => .inl h

theorem RelayInv.finishPhi {φ : OpenPhi β} {stack : List (OpenPhi β)} (hs : s.RelayInv f)
    (hstack : s.stack = φ :: stack) : (s.finishPhi φ stack).RelayInv f := by
  have hclose := hs.closePhi hstack
  cases stack with
  | nil => exact hclose
  | cons ψ stack =>
      have hadded : ((s.closePhi φ (ψ :: stack)).insertAdded φ.bb φ.er).RelayInv f :=
        ⟨hclose.fresh, hclose.source⟩
      exact hadded.addIncoming rfl _

theorem RelayInv.finishBlock (hs : s.RelayInv f) (c : β) :
    (s.finishBlock f (.orig c)).RelayInv f := by
  have hne : ∀ n, (BB.relay n : BB β) ≠ .orig c := fun n => (orig_ne_relay c n).symm
  refine ⟨fun a er h => ?_, fun n hn er h => ?_⟩
  · show (Function.update s.r_fresh_inst_mp (.orig c) _ (.orig a) er).isSome = true
    have hknown := hs.fresh a er h
    by_cases ha : BB.orig a = .orig c
    · rw [ha] at hknown ⊢
      rw [Function.update_self, if_pos (.inr (.inr hknown))]
      rfl
    · rwa [Function.update_of_ne ha]
  · simp only [PhiState.finishBlock, Function.update_of_ne (hne n)] at h
    exact hs.source n hn er h

/-- **The relay block loads what the block before it does not touch.** -/
theorem RelayInv.relayed {p q : β} (hs : s.RelayInv f) (hg : s.GraphInv f) :
    (PhiState.relayed f s p q).RelayInv f := by
  refine ⟨fun c er h => known_relayed (orig_ne_relay c _) (hs.fresh c er h), fun n hn er h => ?_⟩
  rcases Nat.lt_succ_iff_lt_or_eq.mp hn with hn | rfl
  -- a relay block that was there keeps its phi nodes and its predecessor
  · have hne : (BB.relay n : BB β) ≠ .relay s.relay_bb_num := fun h => hn.ne (BB.relay.inj h)
    have hnq : (BB.relay n : BB β) ≠ .orig q := (orig_ne_relay q n).symm
    rw [fresh_relayed_of_ne hne] at h
    have hphis : (PhiState.relayed f s p q).phis (.relay n) = s.phis (.relay n) := by
      simp only [PhiState.relayed, insertRelay]
      rw [Function.update_of_ne hne, Function.update_of_ne hnq]
    have hpreds : (PhiState.relayed f s p q).graph.preds (.relay n) = s.graph.preds (.relay n) :=
      FlowGraph.preds_split_of_ne hnq hne
    unfold HasSource Untouched
    rw [hphis, hpreds]
    refine (hs.source n hn er h).imp id fun hu x hx => ?_
    rw [drvd_relayed_of_ne (hg.pred_ne hx)]
    exact hu x hx
  · -- the new relay block: a value it passes on is a phi node of it or comes with the predecessor
    simp only [PhiState.relayed, insertRelay, Function.update_self] at h
    split at h
    · rename_i hmem
      rcases hmem with hmem | hmem
      · obtain ⟨φ, hφ, rfl⟩ := List.mem_map.mp hmem
        refine .inl (.inl ⟨φ, ?_, rfl⟩)
        simp only [PhiState.relayed, insertRelay, Function.update_self]
        exact hφ
      · obtain ⟨hunknown, hp⟩ := of_decide_eq_true (List.mem_filter.mp hmem).2
        right
        intro x hx
        have hx : x ∈ (s.graph.split (.orig p) (.orig q) (.relay s.relay_bb_num)).preds
          (.relay s.relay_bb_num) := hx
        rw [FlowGraph.preds_split_self, Finset.mem_singleton] at hx
        subst hx
        refine ⟨?_, fun c hc => ?_⟩
        · rw [drvd_relayed_of_ne (orig_ne_relay p _)]
          exact hp
        · obtain rfl := BB.orig.inj hc
          rw [← Bool.not_eq_true]
          intro hfresh
          have hknown := hs.fresh p er hfresh
          rw [Option.isNone_iff_eq_none.mp hunknown] at hknown
          exact Bool.false_ne_true hknown
    · exact absurd h Bool.false_ne_true

/-- **A turn keeps the sources of the relay blocks.** -/
theorem Turn.relayInv (h : Turn f s s') (hs : s.RunInv f) (hr : s.RelayInv f) :
    s'.RelayInv f := by
  obtain ⟨hinv, hcur⟩ := hs
  cases h with
  | known hstack => exact hr.addIncoming hstack _
  | nested => exact hr.newPhi _ _
  | relay hstack => exact (hr.relayed hinv.graph).addIncoming hstack _
  | @load φ stack t_bb hstack hpred _ hder _ hdrvd =>
      cases t_bb with
      | orig c => exact (hr.insertFresh_orig c φ.er).addIncoming hstack _
      | relay n =>
          rw [hinv.graph.drvd_relay ((hinv.graph.exact _ _).mp hpred)] at hdrvd
          exact absurd hder hdrvd
  | phi hstack => exact hr.finishPhi hstack
  | added => exact ⟨hr.fresh, hr.source⟩
  | @main b er regs hstack hc =>
      have hr' : RelayInv f { s with cur := some (b, regs) } := ⟨hr.fresh, hr.source⟩
      exact hr'.newPhi b er
  | block _ hc =>
      obtain ⟨-, c, rfl, -⟩ := hcur _ _ hc
      exact hr.finishBlock c
  | drop => exact ⟨hr.fresh, hr.source⟩
  | take => exact ⟨hr.fresh, hr.source⟩

theorem relayInv_start (f : LiftedCFG β) : (start f).RelayInv f where
  fresh := by
    intro c er h
    show (if f.r_fresh_inst_mp c er = true then _ else _ : Option (DrvdValue β)).isSome = true
    rw [if_pos h]
    rfl
  source := fun n hn => absurd hn (Nat.not_lt_zero n)

/-- At the end the relay blocks have phi nodes or load what is untouched. -/
theorem relayInv_of_halts {order : AddrOrder β}
    (h : Machine.Halts (PhiState.step f · order) (start f) (some s)) : s.RelayInv f := by
  have hrule := Machine.inv_of_halts
    (I := fun s : PhiState β => s.RunInv f ∧ s.RelayInv f)
    (Q := fun r => ∀ s, r = some s → s.RelayInv f) (fun s s' ⟨hs, hr⟩ hstep => ?_)
    (fun s r ⟨hs, hr⟩ hstep => ?_) ⟨runInv_start f, relayInv_start f⟩ h
  · exact hrule s rfl
  · rcases hs.step_turn order with ⟨s'', hs'', hturn⟩ | ⟨hstop, -⟩
    · obtain rfl := Sum.inl.inj (hs''.symm.trans hstep)
      exact ⟨hturn.runInv hs, hturn.relayInv hs hr⟩
    · cases hstop.symm.trans hstep
  · rcases hs.step_turn order with ⟨s'', hs'', -⟩ | ⟨hstop, -⟩
    · cases hs''.symm.trans hstep
    · intro s' hs'
      rw [← Sum.inr.inj (hstop.symm.trans hstep)] at hs'
      rw [← Option.some.inj hs']
      exact hr

end PhiState

end Elfconv
