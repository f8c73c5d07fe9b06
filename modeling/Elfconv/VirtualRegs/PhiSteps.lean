/-
Elfconv/VirtualRegs/PhiSteps.lean

The steps of the phi pass of `OptimizeVirtualRegsUsage`.

`Turn` says once what a step can do: the open phi node gets a value that is known or loaded, or
one from a relay block, or a phi node of the parent is opened for it; a phi node is finished; the
next register or block is taken.  No check stops the pass (`RunInv.step_turn`), and every turn
keeps the invariant.
-/
import Elfconv.VirtualRegs.RelayBlock

namespace Elfconv

variable {β : Type} [DecidableEq β] {f : LiftedCFG β} {s s' : PhiState β}

namespace PhiState

open BB

/-! ### What a step does -/

/-- What a turn of the pass can do, with what held before it. -/
inductive Turn (f : LiftedCFG β) (s : PhiState β) : PhiState β → Prop
  | known {φ : OpenPhi β} {stack : List (OpenPhi β)} {t_bb : BB β} {v : DrvdValue β} :
      s.stack = φ :: stack → t_bb ∈ s.graph.preds φ.bb → t_bb ∉ φ.blocks →
      s.r_fresh_inst_mp t_bb φ.er = some v → Turn f s (s.addIncoming v)
  | nested {φ : OpenPhi β} {stack : List (OpenPhi β)} {t_bb : BB β} :
      s.stack = φ :: stack → t_bb ∈ s.graph.preds φ.bb → t_bb ∉ φ.blocks →
      s.r_fresh_inst_mp t_bb φ.er = none → φ.er ∈ s.drvd f t_bb →
      Turn f s (s.newPhi t_bb φ.er)
  | relay {φ : OpenPhi β} {stack : List (OpenPhi β)} {p q : β} :
      s.stack = φ :: stack → φ.bb = .orig q → .orig p ∉ φ.blocks → s.RelayEdge f p q →
      s.r_fresh_inst_mp (.orig p) φ.er = none → φ.er ∉ s.drvd f (.orig p) →
      Turn f s ((relayed f s p q).addIncoming ⟨φ.er, .relay s.relay_bb_num⟩)
  | load {φ : OpenPhi β} {stack : List (OpenPhi β)} {t_bb : BB β} :
      s.stack = φ :: stack → t_bb ∈ s.graph.preds φ.bb → t_bb ∉ φ.blocks → φ.er ∈ s.drvd f φ.bb →
      s.r_fresh_inst_mp t_bb φ.er = none → φ.er ∉ s.drvd f t_bb →
      Turn f s ((s.insertFresh t_bb φ.er).addIncoming ⟨φ.er, t_bb⟩)
  | phi {φ : OpenPhi β} {stack : List (OpenPhi β)} :
      s.stack = φ :: stack → s.graph.preds φ.bb \ φ.blocks.toFinset = ∅ →
      Turn f s (s.finishPhi φ stack)
  | added {b : BB β} {er : EcvReg} {regs : List EcvReg} :
      s.stack = [] → s.cur = some (b, er :: regs) → s.added_r_phi_mp b er = true →
      Turn f s { s with cur := some (b, regs) }
  | main {b : BB β} {er : EcvReg} {regs : List EcvReg} :
      s.stack = [] → s.cur = some (b, er :: regs) →
      Turn f s (newPhi { s with cur := some (b, regs) } b er)
  | block {b : BB β} : s.stack = [] → s.cur = some (b, []) → Turn f s (s.finishBlock f b)
  | drop {b : BB β} {queue : List (BB β)} :
      s.stack = [] → s.cur = none → s.phi_bb_queue = b :: queue →
      b ∈ s.finished ∨ b.isRelay = true → Turn f s { s with phi_bb_queue := queue }
  | take {c : β} {queue : List (BB β)} :
      s.stack = [] → s.cur = none → s.phi_bb_queue = .orig c :: queue → .orig c ∉ s.finished →
      Turn f s { s with phi_bb_queue := queue, cur := some (.orig c, s.drvd f (.orig c)) }

/-- Nothing is left to do. -/
structure Idle (s : PhiState β) : Prop where
  stack : s.stack = []
  cur : s.cur = none
  queue : s.phi_bb_queue = []

/-- **`GetDrvdValue` gives a value or opens a phi node**; neither check stops it. -/
theorem PhiInv.getDrvdValue {φ : OpenPhi β} {stack : List (OpenPhi β)} {t_bb : BB β}
    (hs : s.PhiInv f) (hstack : s.stack = φ :: stack) (hpred : t_bb ∈ s.graph.preds φ.bb)
    (hnew : t_bb ∉ φ.blocks) : ∃ s', s.getDrvdValue f φ t_bb = some s' ∧ Turn f s s' := by
  have hφ : φ ∈ s.stack := hstack ▸ List.mem_cons_self
  have hder := (hs.stack.opens φ hφ).drvd
  unfold PhiState.getDrvdValue
  cases hfresh : s.r_fresh_inst_mp t_bb φ.er with
  | some v => exact ⟨_, rfl, .known hstack hpred hnew hfresh⟩
  | none =>
      by_cases hdrvd : φ.er ∈ s.drvd f t_bb
      · refine ⟨s.newPhi t_bb φ.er, ?_, .nested hstack hpred hnew hfresh hdrvd⟩
        show (if _ then _ else _) = _
        rw [if_pos hdrvd]
      · by_cases hneed : s.relayNeeded f t_bb φ.er = true
        -- neither of the two checks fails: no phi node of the block waits for this predecessor, and
        -- the relay block loads the register
        · have hopen : ¬ (s.stack.any fun ψ => ψ.bb = φ.bb ∧ t_bb ∈ ψ.blocks) = true := by
            rw [List.any_eq_true]
            rintro ⟨ψ, hψ, h⟩
            rw [decide_eq_true_eq] at h
            exact hnew (hs.stack.eq_of_bb hψ hφ h.1 ▸ h.2)
          have hload : φ.er ∈ s.relayLoads f t_bb φ.bb :=
            List.mem_filter.mpr ⟨hder, decide_eq_true ⟨hfresh ▸ rfl, hdrvd⟩⟩
          obtain ⟨p, q, rfl, hq, he⟩ := hs.relayEdge hφ hpred hfresh hdrvd hneed
          refine ⟨_, ?_, .relay hstack hq hnew he hfresh hdrvd⟩
          show (if _ then _ else if _ then if _ then _ else if _ then _ else _ else _) = _
          rw [if_neg hdrvd, if_pos hneed, if_neg hopen, if_pos hload, hq]
          rfl
        · refine ⟨(s.insertFresh t_bb φ.er).addIncoming ⟨φ.er, t_bb⟩, ?_,
            .load hstack hpred hnew hder hfresh hdrvd⟩
          show (if _ then _ else if _ then _ else _) = _
          rw [if_neg hdrvd, if_neg hneed]

/-! ### The invariant of the pass -/

/-- The block that is worked on. -/
def CurInv (f : LiftedCFG β) (s : PhiState β) : Prop :=
  ∀ b regs, s.cur = some (b, regs) →
    b ∉ s.finished ∧ ∃ c, b = .orig c ∧ ∀ er ∈ regs, er ∈ f.drvd_rmp c

/-- What holds in every state of the pass. -/
structure RunInv (f : LiftedCFG β) (s : PhiState β) : Prop where
  phiInv : s.PhiInv f
  curInv : s.CurInv f

/-- **A step is a turn**, and the pass stops when nothing is left to do. -/
theorem RunInv.step_turn (hs : s.RunInv f) (order : AddrOrder β) :
    (∃ s', s.step f order = .inl s' ∧ Turn f s s') ∨
      s.step f order = .inr (some s) ∧ s.Idle := by
  obtain ⟨hinv, hcur⟩ := hs
  -- an open phi node goes first, then the block at hand, then the queue
  cases hstack : s.stack with
  | cons φ stack =>
      cases hfirst : order.first (s.graph.preds φ.bb \ φ.blocks.toFinset) with
      | some par_bb =>
          have hmem := order.first_mem hfirst
          rw [Finset.mem_sdiff, List.mem_toFinset] at hmem
          obtain ⟨s', hs', hturn⟩ := hinv.getDrvdValue hstack hmem.1 hmem.2
          refine .inl ⟨s', ?_, hturn⟩
          simp only [PhiState.step, hstack, hfirst, hs']
      | none =>
          refine .inl ⟨_, ?_, .phi hstack (order.eq_empty_of_first hfirst)⟩
          simp only [PhiState.step, hstack, hfirst]
  | nil =>
      cases hc : s.cur with
      | some c =>
          obtain ⟨b, regs⟩ := c
          cases regs with
          | nil =>
              refine .inl ⟨_, ?_, .block hstack hc⟩
              simp only [PhiState.step, hstack, hc]
          | cons er regs =>
              by_cases hadded : s.added_r_phi_mp b er = true
              · refine .inl ⟨_, ?_, .added hstack hc hadded⟩
                simp only [PhiState.step, hstack, hc, hadded, if_true]
              · refine .inl ⟨_, ?_, .main hstack hc⟩
                simp only [PhiState.step, hstack, hc, hadded]
                rfl
      | none =>
          cases hqueue : s.phi_bb_queue with
          | nil =>
              refine .inr ⟨?_, hstack, hc, hqueue⟩
              simp only [PhiState.step, hstack, hc, hqueue]
          | cons b queue =>
              by_cases hb : b ∈ s.finished ∨ b.isRelay = true
              · refine .inl ⟨_, ?_, .drop hstack hc hqueue hb⟩
                simp only [PhiState.step, hstack, hc, hqueue]
                rw [if_pos hb]
              · cases b with
                | relay n => exact absurd (.inr rfl) hb
                | orig c =>
                    refine .inl ⟨_, ?_, .take hstack hc hqueue fun h => hb (.inl h)⟩
                    simp only [PhiState.step, hstack, hc, hqueue]
                    rw [if_neg hb]

omit [DecidableEq β] in
theorem cur_addIncoming (s : PhiState β) (v : DrvdValue β) : (s.addIncoming v).cur = s.cur := by
  unfold PhiState.addIncoming
  split <;> rfl

omit [DecidableEq β] in
theorem finished_addIncoming (s : PhiState β) (v : DrvdValue β) :
    (s.addIncoming v).finished = s.finished := by
  unfold PhiState.addIncoming
  split <;> rfl

theorem PhiInv.finishBlock (hs : s.PhiInv f) (b : BB β) : (s.finishBlock f b).PhiInv f := by
  have hk : Keeps s (s.finishBlock f b) := by
    refine ⟨rfl, rfl, rfl, fun b' er h => ?_⟩
    show (Function.update s.r_fresh_inst_mp b _ b' er).isSome = true
    by_cases hb : b' = b
    · subst hb
      rw [Function.update_self, if_pos (.inr (.inr h))]
      rfl
    · rw [Function.update_of_ne hb]
      exact h
  apply hk.phiInv hs ?_ hs.phis (hk.stackInv hs.stack rfl)
  intro b' er v h
  have h : Function.update s.r_fresh_inst_mp b _ b' er = some v := h
  by_cases hb : b' = b
  · subst hb
    rw [Function.update_self] at h
    split at h
    · rw [← Option.some.inj h]
    · cases h
  · rw [Function.update_of_ne hb] at h
    exact hs.parent b' er v h

/-- The phi node of the block that is worked on; no other is open. -/
theorem PhiInv.newPhi_main {c : β} {er : EcvReg} (hs : s.PhiInv f) (hstack : s.stack = [])
    (her : er ∈ f.drvd_rmp c) : (s.newPhi (.orig c) er).PhiInv f := by
  apply hs.newPhi
  · show er ∈ f.drvd_rmp (s.bb_regs_bag_map (.orig c))
    rw [hs.graph.bag_orig]
    exact her
  · rw [hstack]
    exact fun φ hφ => absurd hφ List.not_mem_nil
  · rw [hstack]
    exact fun φ hφ => absurd hφ List.not_mem_nil
  · exact fun n hn => absurd hn (orig_ne_relay c n)
  · rw [hstack]
    exact fun φ hφ => nomatch hφ

theorem Turn.phiInv (h : Turn f s s') (hs : s.RunInv f) : s'.PhiInv f := by
  obtain ⟨hinv, hcur⟩ := hs
  cases h with
  | known hstack hpred hnew hfresh =>
      obtain rfl := hinv.parent _ _ _ hfresh
      exact hinv.addIncoming hstack hpred hnew (hfresh ▸ rfl)
  | nested hstack hpred hnew hfresh hdrvd => exact hinv.newPhi_nested hstack hpred hnew hfresh hdrvd
  | relay hstack hq hnew he hfresh hp => exact he.phiInv hinv hstack hq hnew hfresh hp
  | load hstack hpred hnew =>
      exact (hinv.insertFresh _ _).addIncoming hstack hpred hnew (insertFresh_self s _ _)
  | phi hstack hall => exact hinv.finishPhi hstack hall
  | added => exact hinv.of_eq rfl rfl rfl rfl rfl rfl
  | @main b er regs hstack hc =>
      obtain ⟨-, c, rfl, hregs⟩ := hcur _ _ hc
      have hinv' : PhiInv f { s with cur := some (.orig c, regs) } :=
        hinv.of_eq rfl rfl rfl rfl rfl rfl
      exact hinv'.newPhi_main hstack (hregs er List.mem_cons_self)
  | block => exact hinv.finishBlock _
  | drop => exact hinv.of_eq rfl rfl rfl rfl rfl rfl
  | take => exact hinv.of_eq rfl rfl rfl rfl rfl rfl

omit [DecidableEq β] in
theorem CurInv.of_eq (hs : s.CurInv f) (hcur : s'.cur = s.cur) (hfin : s'.finished = s.finished) :
    s'.CurInv f := by
  unfold CurInv
  rw [hcur, hfin]
  exact hs

omit [DecidableEq β] in
theorem CurInv.tail {b : BB β} {er : EcvReg} {regs : List EcvReg} (hs : s.CurInv f)
    (hc : s.cur = some (b, er :: regs)) (hcur : s'.cur = some (b, regs))
    (hfin : s'.finished = s.finished) : s'.CurInv f := by
  intro b' regs' h
  rw [hcur] at h
  obtain ⟨rfl, rfl⟩ := Prod.mk.inj (Option.some.inj h)
  obtain ⟨hb, c, hc, hregs⟩ := hs _ _ hc
  exact ⟨hfin ▸ hb, c, hc, fun er' her => hregs er' (List.mem_cons_of_mem er her)⟩

theorem Turn.curInv (h : Turn f s s') (hs : s.RunInv f) : s'.CurInv f := by
  obtain ⟨hinv, hcur⟩ := hs
  cases h with
  | known => exact hcur.of_eq (cur_addIncoming _ _) (finished_addIncoming _ _)
  | nested => exact hcur.of_eq rfl rfl
  | relay =>
      exact CurInv.of_eq (s := relayed f s _ _) hcur (cur_addIncoming _ _)
        (finished_addIncoming _ _)
  | load =>
      exact CurInv.of_eq (s := s.insertFresh _ _) hcur (cur_addIncoming _ _)
        (finished_addIncoming _ _)
  | @phi φ stack =>
      cases stack with
      | nil => exact hcur.of_eq rfl rfl
      | cons ψ stack => exact hcur.of_eq (cur_addIncoming _ _) (finished_addIncoming _ _)
  | added _ hc => exact hcur.tail hc rfl rfl
  | main _ hc => exact hcur.tail hc rfl rfl
  | block => exact fun b regs h => nomatch h
  | drop => exact hcur.of_eq rfl rfl
  | @take c queue _ _ _ hfin =>
      intro b regs h
      obtain ⟨rfl, rfl⟩ := Prod.mk.inj (Option.some.inj h)
      refine ⟨hfin, c, rfl, fun er her => ?_⟩
      have her : er ∈ f.drvd_rmp (s.bb_regs_bag_map (.orig c)) := her
      rwa [hinv.graph.bag_orig] at her

/-- **A turn keeps the invariant.** -/
theorem Turn.runInv (h : Turn f s s') (hs : s.RunInv f) : s'.RunInv f :=
  ⟨h.phiInv hs, h.curInv hs⟩

theorem RunInv.of_step {order : AddrOrder β} (hs : s.RunInv f) (h : s.step f order = .inl s') :
    s'.RunInv f := by
  rcases hs.step_turn order with ⟨s'', hs'', hturn⟩ | ⟨hstop, -⟩
  · obtain rfl := Sum.inl.inj (hs''.symm.trans h)
    exact hturn.runInv hs
  · cases hstop.symm.trans h

/-! ### The start -/

/-- The blocks get their branches one after the other. -/
theorem exact_foldl_branch (l : List β) (g : FlowGraph (BB β)) (hg : g.Exact) (hl : l.Nodup)
    (hsuccs : ∀ b ∈ l, g.succs (.orig b) = []) :
    (l.foldl (fun g b => g.branch (.orig b) ((f.terminator b).successors.map .orig)) g).Exact := by
  induction l generalizing g with
  | nil => exact hg
  | cons b l ih =>
      rw [List.nodup_cons] at hl
      apply ih _ (hg.branch (hsuccs b List.mem_cons_self)) hl.2
      intro c hc
      have hcb : (BB.orig c : BB β) ≠ .orig b := fun h => hl.1 (BB.orig.inj h ▸ hc)
      exact (Function.update_of_ne hcb ..).trans (hsuccs c (List.mem_cons_of_mem b hc))

theorem succs_foldl_branch (l : List β) (g : FlowGraph (BB β)) (x : BB β)
    (hx : ∀ b ∈ l, x ≠ .orig b) :
    (l.foldl (fun g b => g.branch (.orig b) ((f.terminator b).successors.map .orig)) g).succs x =
      g.succs x := by
  induction l generalizing g with
  | nil => rfl
  | cons b l ih =>
      rw [List.foldl_cons, ih _ fun c hc => hx c (List.mem_cons_of_mem b hc)]
      exact Function.update_of_ne (hx b List.mem_cons_self) ..

theorem succs_foldl_branch_mem (l : List β) (g : FlowGraph (BB β)) (a : β) (ha : a ∈ l)
    (hl : l.Nodup) :
    (l.foldl (fun g b => g.branch (.orig b) ((f.terminator b).successors.map .orig)) g).succs
      (.orig a) = (f.terminator a).successors.map .orig := by
  induction l generalizing g with
  | nil => exact absurd ha List.not_mem_nil
  | cons b l ih =>
      rw [List.nodup_cons] at hl
      rw [List.foldl_cons]
      rcases List.mem_cons.mp ha with rfl | ha
      · rw [succs_foldl_branch l _ _
          fun c hc (h : BB.orig a = .orig c) => hl.1 (BB.orig.inj h ▸ hc)]
        exact Function.update_self ..
      · exact ih _ ha hl.2

theorem exact_graph (f : LiftedCFG β) : f.graph.Exact :=
  exact_foldl_branch f.blocks _ FlowGraph.exact_empty f.nodup fun _ _ => rfl

theorem succs_graph (f : LiftedCFG β) (a : β) :
    f.graph.succs (.orig a) = (f.terminator a).successors.map .orig :=
  succs_foldl_branch_mem f.blocks _ a (f.complete a) f.nodup

/-- No relay block is there yet. -/
theorem new_graph (f : LiftedCFG β) (n : Nat) : f.graph.New (.relay n) := by
  have hsuccs : f.graph.succs (.relay n) = [] :=
    succs_foldl_branch f.blocks _ _ fun b _ => (orig_ne_relay b n).symm
  refine ⟨hsuccs, Finset.eq_empty_of_forall_notMem fun a ha => ?_⟩
  have ha := (exact_graph f _ _).mp ha
  cases a with
  | orig a =>
      rw [succs_graph] at ha
      obtain ⟨b, -, hb⟩ := List.mem_map.mp ha
      exact orig_ne_relay b n hb
  | relay m =>
      have hm : f.graph.succs (.relay m) = [] :=
        succs_foldl_branch f.blocks _ _ fun b _ => (orig_ne_relay b m).symm
      rw [hm] at ha
      exact absurd ha List.not_mem_nil

theorem runInv_start (f : LiftedCFG β) : (start f).RunInv f := by
  refine ⟨⟨?_, ?_, ?_, ?_, ?_⟩, fun b regs h => nomatch h⟩
  · refine ⟨exact_graph f, fun b => rfl, fun a => ?_, fun n hn => ?_, fun n _ => new_graph f n⟩
    · show (f.graph.succs (.orig a)).map _ = _
      rw [succs_graph, List.map_map]
      exact List.map_id _
    · exact absurd hn (Nat.not_lt_zero n)
  · intro b er v h
    have h : (if b.orig?.any (f.r_fresh_inst_mp · er) = true then some ⟨er, b⟩ else none) =
        some v :=
      h
    split at h
    · rw [← Option.some.inj h]
    · cases h
  · exact fun n hn => absurd hn (Nat.not_lt_zero n)
  · exact fun b φ hφ => absurd hφ List.not_mem_nil
  · refine ⟨?_, List.nodup_nil, ?_, List.isChain_nil⟩
    · exact fun φ hφ => absurd hφ List.not_mem_nil
    · exact fun φ hφ => absurd hφ List.not_mem_nil

end PhiState

end Elfconv
