/-
Elfconv/VirtualRegs/PhiEnds.lean

The phi pass of `OptimizeVirtualRegsUsage` ends, with a phi node for each register that a block
derives.

A relay block takes an edge of the function away, and no other turn adds one.  Among the turns
that insert no relay block those that finish a block are as many as there are blocks, and
between them the queue and the registers of the block get shorter; what is left is the
recursion, in which each value is found once.

A block whose branch leads into a relay block is not followed through it: the block behind the
relay block was queued when the relay block was inserted (`Covered`).
-/
import Elfconv.VirtualRegs.PhiSteps
import Mathlib.Data.Finset.Prod

namespace Elfconv

variable {β : Type} [DecidableEq β] {f : LiftedCFG β} {s s' : PhiState β}

namespace PhiState

open BB

/-! ### What is left to do -/

/-- The edges without a relay block. -/
def edgesLeft (f : LiftedCFG β) (s : PhiState β) : Nat :=
  ((f.blocks.toFinset ×ˢ f.blocks.toFinset).filter fun e =>
    0 < (s.graph.succs (.orig e.1)).count (.orig e.2)).card

/-- The blocks that are not finished. -/
def blocksLeft (f : LiftedCFG β) (s : PhiState β) : Nat :=
  (f.blocks.toFinset.filter fun b => .orig b ∉ s.finished).card

/-- The registers of the block that is worked on. -/
def regsLeft (s : PhiState β) : Nat :=
  match s.cur with
  | none => 0
  | some (_, regs) => regs.length + 1

/-- The blocks that are there. -/
def allBlocks (f : LiftedCFG β) (s : PhiState β) : Finset (BB β) :=
  f.blocks.toFinset.image .orig ∪ (Finset.range s.relay_bb_num).image .relay

/-- The registers that some block derives. -/
def drvdRegs (f : LiftedCFG β) : Finset EcvReg := (f.blocks.flatMap f.drvd_rmp).toFinset

/-- The registers that have no value in a block. -/
def valuesLeft (f : LiftedCFG β) (s : PhiState β) : Nat :=
  ((s.allBlocks f ×ˢ drvdRegs f).filter fun p => s.r_fresh_inst_mp p.1 p.2 = none).card

/-- The values that the open phi nodes wait for. -/
def incomingLeft (s : PhiState β) : Nat :=
  (s.stack.map fun φ => (s.graph.preds φ.bb \ φ.blocks.toFinset).card + 1).sum

/-- What gets smaller, the coarsest first. -/
def measures (f : LiftedCFG β) : List (PhiState β → Nat) :=
  [edgesLeft f, blocksLeft f, fun s => s.phi_bb_queue.length, regsLeft, valuesLeft f, incomingLeft]

/-- One element less has the property. -/
theorem card_filter_lt {α : Type} {l : Finset α} {P Q : α → Prop} [DecidablePred P]
    [DecidablePred Q] (hPQ : ∀ x ∈ l, P x → Q x) {a : α} (ha : a ∈ l) (hQ : Q a) (hP : ¬ P a) :
    (l.filter P).card < (l.filter Q).card := by
  apply Finset.card_lt_card
  rw [Finset.ssubset_iff_of_subset]
  · exact ⟨a, Finset.mem_filter.mpr ⟨ha, hQ⟩, fun h => hP (Finset.mem_filter.mp h).2⟩
  · intro x hx
    have hx := Finset.mem_filter.mp hx
    exact Finset.mem_filter.mpr ⟨hx.1, hPQ x hx.1 hx.2⟩

omit [DecidableEq β] in
theorem mem_drvdRegs {b : BB β} {er : EcvReg} (her : er ∈ s.drvd f b) : er ∈ drvdRegs f :=
  List.mem_toFinset.mpr (List.mem_flatMap.mpr ⟨_, f.complete _, her⟩)

theorem GraphInv.mem_allBlocks {a b : BB β} (hg : s.GraphInv f) (h : a ∈ s.graph.preds b) :
    a ∈ s.allBlocks f := by
  cases a with
  | orig a =>
      exact Finset.mem_union_left _
        (Finset.mem_image_of_mem _ (List.mem_toFinset.mpr (f.complete a)))
  | relay n =>
      have hn := hg.lt_of_succ ((hg.exact _ _).mp h)
      exact Finset.mem_union_right _ (Finset.mem_image_of_mem _ (Finset.mem_range.mpr hn))

/-- The open phi node waits for one value less. -/
theorem incomingLeft_addIncoming {φ : OpenPhi β} {stack : List (OpenPhi β)} {v : DrvdValue β}
    (hstack : s.stack = φ :: stack) (hv : v.getParent ∈ s.graph.preds φ.bb)
    (hnew : v.getParent ∉ φ.blocks) : incomingLeft (s.addIncoming v) < incomingLeft s := by
  rw [addIncoming_cons hstack]
  simp only [incomingLeft, hstack, List.map_cons, List.sum_cons]
  have hlt : (s.graph.preds φ.bb \ (φ.toPHINode.addIncoming v).blocks.toFinset).card <
      (s.graph.preds φ.bb \ φ.blocks.toFinset).card := by
    apply Finset.card_lt_card
    rw [blocks_addIncoming, Finset.ssubset_iff_of_subset]
    · refine ⟨v.getParent, ?_, ?_⟩
      · rw [Finset.mem_sdiff, List.mem_toFinset]
        exact ⟨hv, hnew⟩
      · rw [Finset.mem_sdiff, List.mem_toFinset]
        exact fun h => h.2 (List.mem_append_right _ (List.mem_singleton_self _))
    · apply Finset.sdiff_subset_sdiff (Finset.Subset.refl _)
      intro x hx
      rw [List.mem_toFinset] at hx ⊢
      exact List.mem_append_left _ hx
  omega

/-- A register that had no value in a block has one. -/
theorem valuesLeft_insertFresh {b : BB β} {er : EcvReg} (hb : b ∈ s.allBlocks f)
    (her : er ∈ drvdRegs f) (hfresh : s.r_fresh_inst_mp b er = none) :
    valuesLeft f (s.insertFresh b er) < valuesLeft f s := by
  apply card_filter_lt (a := (b, er)) _ (Finset.mem_product.mpr ⟨hb, her⟩) hfresh
  · intro h
    have := insertFresh_self s b er
    rw [h] at this
    exact Bool.false_ne_true this
  · rintro ⟨b', er'⟩ - h
    by_contra hne
    have := (keeps_insertFresh s b er).fresh b' er' (Option.isSome_iff_ne_none.mpr hne)
    rw [h] at this
    exact Bool.false_ne_true this

theorem mem_succs_relayed {p q a b : β} :
    .orig b ∈ (relayed f s p q).graph.succs (.orig a) ↔
      .orig b ∈ s.graph.succs (.orig a) ∧ ¬ (a = p ∧ b = q) := by
  by_cases hap : a = p
  · subst hap
    show .orig b ∈ (s.graph.split _ _ _).succs _ ↔ _
    rw [FlowGraph.succs_split_pred (orig_ne_relay a _).symm, List.mem_map]
    constructor
    · rintro ⟨x, hx, h⟩
      split at h
      · exact absurd h.symm (orig_ne_relay b _)
      · rename_i hxq
        subst h
        exact ⟨hx, fun h => hxq (congrArg BB.orig h.2)⟩
    · rintro ⟨hb, hne⟩
      exact ⟨.orig b, hb, if_neg fun h => hne ⟨rfl, BB.orig.inj h⟩⟩
  · show .orig b ∈ (s.graph.split _ _ _).succs _ ↔ _
    rw [FlowGraph.succs_split_of_ne (fun h => hap (BB.orig.inj h)) (orig_ne_relay a _)]
    exact ⟨fun h => ⟨h, fun h => hap h.1⟩, And.left⟩

theorem RelayEdge.edgesLeft {p q : β} (he : s.RelayEdge f p q) :
    edgesLeft f (relayed f s p q) < edgesLeft f s := by
  have hmem : (p, q) ∈ f.blocks.toFinset ×ˢ f.blocks.toFinset :=
    Finset.mem_product.mpr ⟨List.mem_toFinset.mpr (f.complete p),
      List.mem_toFinset.mpr (f.complete q)⟩
  apply card_filter_lt _ hmem
  · show 0 < (s.graph.succs (.orig p)).count (.orig q)
    rw [he.count]
    exact Nat.one_pos
  · exact fun h => (mem_succs_relayed.mp (List.count_pos_iff.mp h)).2 ⟨rfl, rfl⟩
  · exact fun x _ h => List.count_pos_iff.mpr (mem_succs_relayed.mp (List.count_pos_iff.mp h)).1

theorem blocksLeft_finishBlock {c : β} (hc : .orig c ∉ s.finished) :
    blocksLeft f (s.finishBlock f (.orig c)) < blocksLeft f s := by
  apply card_filter_lt _ (List.mem_toFinset.mpr (f.complete c)) hc
  · exact fun h => h (Finset.mem_insert_self _ _)
  · exact fun x _ h h' => h (Finset.mem_insert_of_mem h')

theorem incomingLeft_finishPhi {φ : OpenPhi β} {stack : List (OpenPhi β)} (hs : s.PhiInv f)
    (hstack : s.stack = φ :: stack) : incomingLeft (s.finishPhi φ stack) < incomingLeft s := by
  have hpop : incomingLeft (s.closePhi φ stack) < incomingLeft s := by
    simp only [incomingLeft, hstack, List.map_cons, List.sum_cons]
    exact Nat.lt_add_of_pos_left (Nat.succ_pos _)
  cases stack with
  | nil => exact hpop
  | cons ψ stack =>
      have hnested := hs.stack.nested
      rw [hstack, List.isChain_cons] at hnested
      have hψ := hnested.1 ψ rfl
      exact (incomingLeft_addIncoming rfl hψ.1 hψ.2).trans hpop

omit [DecidableEq β] in
theorem regsLeft_tail {b : BB β} {er : EcvReg} {regs : List EcvReg}
    (hc : s.cur = some (b, er :: regs)) (hcur : s'.cur = some (b, regs)) :
    regsLeft s' < regsLeft s := by
  simp only [regsLeft, hc, hcur]
  exact Nat.lt_succ_self _

/-- **Every turn leaves less to do.** -/
theorem Turn.decreases (h : Turn f s s') (hs : s.RunInv f) :
    Machine.Decreases (measures f) s' s := by
  obtain ⟨hinv, hcur⟩ := hs
  -- each turn lowers one measure and leaves those before it as they are
  cases h with
  | @known φ stack t_bb v hstack hpred hnew hfresh =>
      obtain rfl := hinv.parent _ _ _ hfresh
      have hlt := incomingLeft_addIncoming (v := ⟨φ.er, t_bb⟩) hstack hpred hnew
      rw [addIncoming_cons hstack] at hlt ⊢
      exact .inr ⟨rfl, .inr ⟨rfl, .inr ⟨rfl, .inr ⟨rfl, .inr ⟨rfl, .inl hlt⟩⟩⟩⟩⟩
  | nested hstack hpred hnew hfresh hdrvd =>
      have hlt :=
        valuesLeft_insertFresh (hinv.graph.mem_allBlocks hpred) (mem_drvdRegs hdrvd) hfresh
      exact .inr ⟨rfl, .inr ⟨rfl, .inr ⟨rfl, .inr ⟨rfl, .inl hlt⟩⟩⟩⟩
  | @relay φ stack p q hstack hq hnew he =>
      have hlt := he.edgesLeft
      rw [addIncoming_cons (s := relayed f s p q) hstack]
      exact .inl hlt
  | load hstack hpred hnew hdrvd hfresh =>
      have hlt :=
        valuesLeft_insertFresh (hinv.graph.mem_allBlocks hpred) (mem_drvdRegs hdrvd) hfresh
      rw [addIncoming_cons (s := s.insertFresh _ _) hstack]
      exact .inr ⟨rfl, .inr ⟨rfl, .inr ⟨rfl, .inr ⟨rfl, .inl hlt⟩⟩⟩⟩
  | @phi φ stack hstack hall =>
      have hlt := incomingLeft_finishPhi hinv hstack
      cases stack with
      | nil => exact .inr ⟨rfl, .inr ⟨rfl, .inr ⟨rfl, .inr ⟨rfl, .inr ⟨rfl, .inl hlt⟩⟩⟩⟩⟩
      | cons ψ stack => exact .inr ⟨rfl, .inr ⟨rfl, .inr ⟨rfl, .inr ⟨rfl, .inr ⟨rfl, .inl hlt⟩⟩⟩⟩⟩
  | added hstack hc => exact .inr ⟨rfl, .inr ⟨rfl, .inr ⟨rfl, .inl (regsLeft_tail hc rfl)⟩⟩⟩
  | main hstack hc => exact .inr ⟨rfl, .inr ⟨rfl, .inr ⟨rfl, .inl (regsLeft_tail hc rfl)⟩⟩⟩
  | block hstack hc =>
      obtain ⟨hfin, c, rfl, -⟩ := hcur _ _ hc
      exact .inr ⟨rfl, .inl (blocksLeft_finishBlock hfin)⟩
  | @drop b queue hstack hc hqueue =>
      have hlt : queue.length < s.phi_bb_queue.length := by
        rw [hqueue]
        exact Nat.lt_succ_self _
      exact .inr ⟨rfl, .inr ⟨rfl, .inl hlt⟩⟩
  | @take c queue hstack hc hqueue =>
      have hlt : queue.length < s.phi_bb_queue.length := by
        rw [hqueue]
        exact Nat.lt_succ_self _
      exact .inr ⟨rfl, .inr ⟨rfl, .inl hlt⟩⟩

/-! ### What has been done -/

/-- The block has been worked off, or will be. -/
def Pending (s : PhiState β) (c : β) : Prop :=
  .orig c ∈ s.finished ∨ .orig c ∈ s.phi_bb_queue ∨ ∃ regs, s.cur = some (.orig c, regs)

/-- The block has a phi node for the register. -/
def HasPhi (s : PhiState β) (c : β) (er : EcvReg) : Prop := ∃ φ ∈ s.phis (.orig c), φ.er = er

/-- Every block is reached in the end, and has its phi nodes once it is finished. -/
structure Covered (f : LiftedCFG β) (s : PhiState β) : Prop where
  entry : s.Pending f.entry
  succs : ∀ a, .orig a ∈ s.finished → ∀ c ∈ (f.terminator a).successors, s.Pending c
  relays : ∀ n, n < s.relay_bb_num → s.Pending (s.bb_regs_bag_map (.relay n))
  phis : ∀ a, .orig a ∈ s.finished → ∀ er ∈ f.drvd_rmp a, s.HasPhi a er
  added : ∀ a er, s.added_r_phi_mp (.orig a) er = true → s.HasPhi a er
  cur : ∀ c regs, s.cur = some (.orig c, regs) → ∀ er ∈ f.drvd_rmp c,
    er ∈ regs ∨ s.HasPhi c er ∨ ∃ φ ∈ s.stack, φ.bb = .orig c ∧ φ.er = er

/-- No block is forgotten and no phi node taken away. -/
structure Onward (s s' : PhiState β) : Prop where
  pending : ∀ c, s.Pending c → s'.Pending c
  phis : ∀ c er, s.HasPhi c er → s'.HasPhi c er

omit [DecidableEq β] in
theorem Covered.of_onward (hs : s.Covered f) (h : Onward s s') (hfin : s'.finished = s.finished)
    (hrelays : ∀ n, n < s'.relay_bb_num → s'.Pending (s'.bb_regs_bag_map (.relay n)))
    (hadded : ∀ a er, s'.added_r_phi_mp (.orig a) er = true → s'.HasPhi a er)
    (hcur : ∀ c regs, s'.cur = some (.orig c, regs) → ∀ er ∈ f.drvd_rmp c,
      er ∈ regs ∨ s'.HasPhi c er ∨ ∃ φ ∈ s'.stack, φ.bb = .orig c ∧ φ.er = er) :
    s'.Covered f where
  entry := h.pending _ hs.entry
  succs := by
    rw [hfin]
    exact fun a ha c hc => h.pending c (hs.succs a ha c hc)
  relays := hrelays
  phis := by
    rw [hfin]
    exact fun a ha er her => h.phis a er (hs.phis a ha er her)
  added := hadded
  cur := hcur

omit [DecidableEq β] in
/-- The recursion goes on: the phi nodes that wait are still there. -/
theorem Covered.of_stack (hs : s.Covered f) (hfin : s'.finished = s.finished)
    (hqueue : s'.phi_bb_queue = s.phi_bb_queue) (hc : s'.cur = s.cur) (hphis : s'.phis = s.phis)
    (hnum : s'.relay_bb_num = s.relay_bb_num) (hbag : s'.bb_regs_bag_map = s.bb_regs_bag_map)
    (hadded : s'.added_r_phi_mp = s.added_r_phi_mp)
    (hstack : ∀ φ ∈ s.stack, ∃ φ' ∈ s'.stack, φ'.bb = φ.bb ∧ φ'.er = φ.er) : s'.Covered f := by
  have h : Onward s s' := by
    refine ⟨fun c => ?_, fun c er => ?_⟩
    · unfold Pending
      rw [hfin, hqueue, hc]
      exact id
    · unfold HasPhi
      rw [hphis]
      exact id
  refine hs.of_onward h hfin ?_ ?_ ?_
  · rw [hnum, hbag]
    exact fun n hn => h.pending _ (hs.relays n hn)
  · rw [hadded]
    exact fun a er ha => h.phis a er (hs.added a er ha)
  · rw [hc]
    intro c regs hcur er her
    rcases hs.cur c regs hcur er her with hmem | hphi | ⟨φ, hφ, hbb, hφer⟩
    · exact .inl hmem
    · exact .inr (.inl (h.phis c er hphi))
    · obtain ⟨φ', hφ', hbb', her'⟩ := hstack φ hφ
      exact .inr (.inr ⟨φ', hφ', hbb'.trans hbb, her'.trans hφer⟩)

omit [DecidableEq β] in
theorem exists_stack_addIncoming {φ : OpenPhi β} {stack : List (OpenPhi β)}
    (hstack : s.stack = φ :: stack) (v : DrvdValue β) :
    ∀ ψ ∈ s.stack, ∃ ψ' ∈ (s.addIncoming v).stack, ψ'.bb = ψ.bb ∧ ψ'.er = ψ.er := by
  rw [addIncoming_cons hstack, hstack]
  intro ψ hψ
  rcases List.mem_cons.mp hψ with rfl | hψ
  · exact ⟨_, List.mem_cons_self, rfl, rfl⟩
  · exact ⟨ψ, List.mem_cons_of_mem _ hψ, rfl, rfl⟩

omit [DecidableEq β] in
theorem Covered.addIncoming {φ : OpenPhi β} {stack : List (OpenPhi β)} (hs : s.Covered f)
    (hstack : s.stack = φ :: stack) (v : DrvdValue β) : (s.addIncoming v).Covered f := by
  have hsame := exists_stack_addIncoming hstack v
  rw [addIncoming_cons hstack] at hsame ⊢
  exact hs.of_stack rfl rfl rfl rfl rfl rfl rfl hsame

/-- The block behind the relay block is queued. -/
theorem Covered.relayed {p q : β} (hs : s.Covered f) (hg : s.GraphInv f) :
    (relayed f s p q).Covered f := by
  have h : Onward s (PhiState.relayed f s p q) := by
    refine ⟨fun c hc => ?_, fun c er hphi => ?_⟩
    · exact hc.imp_right (Or.imp_left fun hq => List.mem_append_left _ hq)
    · obtain ⟨φ, hφ, rfl⟩ := hphi
      by_cases hcq : BB.orig c = .orig q
      · refine ⟨φ.redirect (.orig p) (.relay s.relay_bb_num), ?_, rfl⟩
        rw [phis_relayed, if_pos hcq]
        exact List.mem_map_of_mem (hcq ▸ hφ)
      · refine ⟨φ, ?_, rfl⟩
        rwa [phis_relayed, if_neg hcq]
  refine hs.of_onward h rfl (fun n hn => ?_) ?_ ?_
  · rcases Nat.lt_succ_iff_lt_or_eq.mp hn with hn | rfl
    · rw [bag_relayed_of_ne fun h => hn.ne (BB.relay.inj h)]
      exact h.pending _ (hs.relays n hn)
    · rw [bag_relayed_self, hg.bag_orig]
      exact .inr (.inl (List.mem_append_right _ (List.mem_singleton_self _)))
  · exact fun a er ha => h.phis a er (hs.added a er ha)
  · intro c regs hcur er her
    rcases hs.cur c regs hcur er her with hmem | hphi | hstack
    · exact .inl hmem
    · exact .inr (.inl (h.phis c er hphi))
    · exact .inr (.inr hstack)

/-- The finished phi node is one of its block. -/
theorem Covered.closePhi {φ : OpenPhi β} {stack : List (OpenPhi β)} (hs : s.Covered f)
    (hstack : s.stack = φ :: stack) :
    (s.closePhi φ stack).Covered f ∧
      ∀ c, φ.bb = .orig c → (s.closePhi φ stack).HasPhi c φ.er := by
  have hnew : ∀ c, φ.bb = .orig c → (s.closePhi φ stack).HasPhi c φ.er := by
    intro c hc
    refine ⟨φ.toPHINode, ?_, rfl⟩
    show _ ∈ Function.update s.phis φ.bb _ (.orig c)
    rw [hc, Function.update_self]
    exact List.mem_cons_self
  have h : Onward s (s.closePhi φ stack) := by
    refine ⟨fun c hc => hc, fun c er hphi => ?_⟩
    obtain ⟨ψ, hψ, rfl⟩ := hphi
    refine ⟨ψ, ?_, rfl⟩
    show _ ∈ Function.update s.phis φ.bb (φ.toPHINode :: s.phis φ.bb) (.orig c)
    by_cases hc : BB.orig c = φ.bb
    · rw [hc, Function.update_self]
      exact List.mem_cons_of_mem _ (hc ▸ hψ)
    · rwa [Function.update_of_ne hc]
  refine ⟨hs.of_onward h rfl ?_ ?_ ?_, hnew⟩
  · exact fun n hn => h.pending _ (hs.relays n hn)
  · exact fun a er ha => h.phis a er (hs.added a er ha)
  -- a register that waited for the open phi node has it now
  · intro c regs hcur er her
    rcases hs.cur c regs hcur er her with hmem | hphi | ⟨ψ, hψ, hbb, hψer⟩
    · exact .inl hmem
    · exact .inr (.inl (h.phis c er hphi))
    · rw [hstack] at hψ
      rcases List.mem_cons.mp hψ with rfl | hψ
      · exact .inr (.inl (hψer ▸ hnew c hbb))
      · exact .inr (.inr ⟨ψ, hψ, hbb, hψer⟩)

theorem Covered.finishPhi {φ : OpenPhi β} {stack : List (OpenPhi β)} (hs : s.Covered f)
    (hstack : s.stack = φ :: stack) : (s.finishPhi φ stack).Covered f := by
  obtain ⟨hclose, hnew⟩ := hs.closePhi hstack
  cases stack with
  | nil => exact hclose
  | cons ψ stack =>
      have hadded : ((s.closePhi φ (ψ :: stack)).insertAdded φ.bb φ.er).Covered f := by
        refine hclose.of_onward ⟨fun _ => id, fun _ _ => id⟩ rfl hclose.relays ?_ hclose.cur
        intro a er ha
        have ha : (if BB.orig a = φ.bb ∧ er = φ.er then true else s.added_r_phi_mp (.orig a) er) =
          true := ha
        split at ha
        · rename_i h
          rw [h.2]
          exact hnew a h.1.symm
        · exact hclose.added a er ha
      exact hadded.addIncoming rfl _

/-- The block is worked off: its phi nodes are there, and its successors are queued. -/
theorem Covered.finishBlock {c : β} (hs : s.Covered f) (hg : s.GraphInv f) (hstack : s.stack = [])
    (hc : s.cur = some (.orig c, [])) : (s.finishBlock f (.orig c)).Covered f := by
  have hpending : ∀ a, s.Pending a → (s.finishBlock f (.orig c)).Pending a := by
    rintro a (hfin | hqueue | ⟨regs, hcur⟩)
    · exact .inl (Finset.mem_insert_of_mem hfin)
    · exact .inr (.inl (List.mem_append_left _ hqueue))
    · rw [hc] at hcur
      obtain rfl := BB.orig.inj (Prod.mk.inj (Option.some.inj hcur)).1
      exact .inl (Finset.mem_insert_self _ _)
  refine ⟨hpending _ hs.entry, fun a ha b hb => ?_, fun n hn => hpending _ (hs.relays n hn),
    fun a ha er her => ?_, hs.added, fun b regs h => nomatch h⟩
  · rcases Finset.mem_insert.mp ha with h | ha
    · rw [BB.orig.inj h, ← hg.hops] at hb
      obtain ⟨x, hx, rfl⟩ := List.mem_map.mp hb
      cases x with
      | orig b =>
          rw [hg.bag_orig]
          exact .inr (.inl (List.mem_append_right _ hx))
      | relay n =>
          -- the block behind it is there since the relay block is
          have hn : n < s.relay_bb_num := by
            by_contra hn
            exact (hg.new n (Nat.le_of_not_lt hn)).not_mem hg.exact _ hx
          exact hpending _ (hs.relays n hn)
    · exact hpending b (hs.succs a ha b hb)
  · rcases Finset.mem_insert.mp ha with h | ha
    · obtain rfl := BB.orig.inj h
      rcases hs.cur a [] hc er her with hmem | hphi | ⟨φ, hφ, -⟩
      · exact absurd hmem List.not_mem_nil
      · exact hphi
      · rw [hstack] at hφ
        exact absurd hφ List.not_mem_nil
    · exact hs.phis a ha er her

omit [DecidableEq β] in
/-- The register at the front of the list is no longer left. -/
theorem Covered.tail {c : β} {er : EcvReg} {regs : List EcvReg} (hs : s.Covered f)
    (hc : s.cur = some (.orig c, er :: regs)) (hstack : s.stack = [])
    (stack : List (OpenPhi β)) (fresh : BB β → EcvReg → Option (DrvdValue β))
    (hdone : s.HasPhi c er ∨ ∃ φ ∈ stack, φ.bb = .orig c ∧ φ.er = er) :
    Covered f { s with cur := some (.orig c, regs), r_fresh_inst_mp := fresh, stack := stack } := by
  have hpending : ∀ a, s.Pending a → Pending { s with
      cur := some (.orig c, regs), r_fresh_inst_mp := fresh, stack := stack } a := by
    rintro a (hfin | hqueue | ⟨regs', hcur⟩)
    · exact .inl hfin
    · exact .inr (.inl hqueue)
    · rw [hc] at hcur
      exact .inr (.inr ⟨regs, by rw [← (Prod.mk.inj (Option.some.inj hcur)).1]⟩)
  refine hs.of_onward ⟨hpending, fun _ _ => id⟩ rfl
    (fun n hn => hpending _ (hs.relays n hn)) hs.added fun b regs' h er' her' => ?_
  obtain ⟨hb, rfl⟩ := Prod.mk.inj (Option.some.inj h)
  obtain rfl := BB.orig.inj hb
  rcases hs.cur c _ hc er' her' with hmem | hphi | ⟨φ, hφ, -⟩
  · rcases List.mem_cons.mp hmem with rfl | hmem
    · exact .inr hdone
    · exact .inl hmem
  · exact .inr (.inl hphi)
  · rw [hstack] at hφ
    exact absurd hφ List.not_mem_nil

/-- **A turn forgets nothing.** -/
theorem Turn.covered (h : Turn f s s') (hs : s.RunInv f) (hcov : s.Covered f) : s'.Covered f := by
  obtain ⟨hinv, hcur⟩ := hs
  -- one case for each way a turn goes; the last two take a block from the queue
  cases h with
  | known hstack => exact hcov.addIncoming hstack _
  | nested hstack =>
      exact hcov.of_stack rfl rfl rfl rfl rfl rfl rfl fun φ hφ =>
        ⟨φ, List.mem_cons_of_mem _ hφ, rfl, rfl⟩
  | relay hstack => exact (hcov.relayed hinv.graph).addIncoming hstack _
  | @load φ stack t_bb hstack =>
      have hfresh : (s.insertFresh t_bb φ.er).Covered f :=
        hcov.of_stack rfl rfl rfl rfl rfl rfl rfl fun φ hφ => ⟨φ, hφ, rfl, rfl⟩
      exact hfresh.addIncoming hstack _
  | phi hstack => exact hcov.finishPhi hstack
  | added hstack hc hadded =>
      obtain ⟨-, c, rfl, -⟩ := hcur _ _ hc
      exact hcov.tail hc hstack _ _ (.inl (hcov.added _ _ hadded))
  | main hstack hc =>
      obtain ⟨-, c, rfl, -⟩ := hcur _ _ hc
      exact hcov.tail hc hstack _ _ (.inr ⟨_, List.mem_cons_self, rfl, rfl⟩)
  | block hstack hc =>
      obtain ⟨-, c, rfl, -⟩ := hcur _ _ hc
      exact hcov.finishBlock hinv.graph hstack hc
  | @drop b queue hstack hc hqueue hb =>
      have hpending : ∀ c, s.Pending c → Pending { s with phi_bb_queue := queue } c := by
        rintro c (hfin | hq | hc)
        · exact .inl hfin
        · rw [hqueue] at hq
          rcases List.mem_cons.mp hq with rfl | hq
          · exact .inl (hb.resolve_right Bool.false_ne_true)
          · exact .inr (.inl hq)
        · exact .inr (.inr hc)
      exact hcov.of_onward ⟨hpending, fun _ _ => id⟩ rfl (fun n hn => hpending _ (hcov.relays n hn))
        hcov.added hcov.cur
  | @take c queue hstack hc hqueue hfin =>
      have hpending : ∀ a, s.Pending a → Pending { s with
          phi_bb_queue := queue, cur := some (.orig c, s.drvd f (.orig c)) } a := by
        rintro a (hfin | hq | ⟨regs, hcur⟩)
        · exact .inl hfin
        · rw [hqueue] at hq
          rcases List.mem_cons.mp hq with h | hq
          · rw [BB.orig.inj h]
            exact .inr (.inr ⟨_, rfl⟩)
          · exact .inr (.inl hq)
        · rw [hc] at hcur
          cases hcur
      refine hcov.of_onward ⟨hpending, fun _ _ => id⟩ rfl
        (fun n hn => hpending _ (hcov.relays n hn)) hcov.added fun b regs h er her => ?_
      obtain ⟨hb, rfl⟩ := Prod.mk.inj (Option.some.inj h)
      obtain rfl := BB.orig.inj hb
      refine .inl ?_
      show er ∈ f.drvd_rmp (s.bb_regs_bag_map (.orig c))
      rwa [hinv.graph.bag_orig]

theorem covered_start (f : LiftedCFG β) : (start f).Covered f where
  entry := .inr (.inl (List.mem_singleton_self _))
  succs := fun _ ha => absurd ha (Finset.notMem_empty _)
  relays := fun n hn => absurd hn (Nat.not_lt_zero n)
  phis := fun _ ha => absurd ha (Finset.notMem_empty _)
  added := fun _ _ h => absurd h Bool.false_ne_true
  cur := fun _ _ h => nomatch h

/-! ### The end -/

/-- **The pass ends.** -/
theorem halts (f : LiftedCFG β) (order : AddrOrder β) :
    ∃ s, Machine.Halts (PhiState.step f · order) (start f) (some s) ∧ s.RunInv f ∧ s.Covered f ∧
      s.Idle := by
  have hstep : ∀ s s' : PhiState β, s.RunInv f ∧ s.Covered f → s.step f order = .inl s' →
      (s'.RunInv f ∧ s'.Covered f) ∧ Machine.Decreases (measures f) s' s := by
    rintro s s' ⟨hinv, hcov⟩ h
    rcases hinv.step_turn order with ⟨s'', hs'', hturn⟩ | ⟨hstop, -⟩
    · obtain rfl := Sum.inl.inj (hs''.symm.trans h)
      exact ⟨⟨hturn.runInv hinv, hturn.covered hinv hcov⟩, hturn.decreases hinv⟩
    · cases hstop.symm.trans h
  have hstop : ∀ (s : PhiState β) r, s.RunInv f ∧ s.Covered f → s.step f order = .inr r →
      ∃ s, r = some s ∧ s.RunInv f ∧ s.Covered f ∧ s.Idle := by
    rintro s r ⟨hinv, hcov⟩ h
    rcases hinv.step_turn order with ⟨s'', hs'', -⟩ | ⟨hstop, hidle⟩
    · cases hs''.symm.trans h
    · exact ⟨s, (Sum.inr.inj (hstop.symm.trans h)).symm, hinv, hcov, hidle⟩
  obtain ⟨r, hr, s, rfl, hs⟩ := Machine.halts_of_measure (Machine.Decreases (measures f))
    (Machine.decreases_wf (measures f)) id hstep hstop ⟨runInv_start f, covered_start f⟩
  exact ⟨s, hr, hs⟩

omit [DecidableEq β] in
/-- At the end every block that can be reached is worked off. -/
theorem Covered.finished_of_reach (hs : s.Covered f) (hidle : s.Idle) {c : β}
    (hc : Relation.ReflTransGen (fun a b => b ∈ (f.terminator a).successors) f.entry c) :
    .orig c ∈ s.finished := by
  have hfin : ∀ c, s.Pending c → .orig c ∈ s.finished := by
    rintro c (hfin | hqueue | ⟨regs, hcur⟩)
    · exact hfin
    · rw [hidle.queue] at hqueue
      exact absurd hqueue List.not_mem_nil
    · rw [hidle.cur] at hcur
      cases hcur
  induction hc with
  | refl => exact hfin _ hs.entry
  | tail _ hstep ih => exact hfin _ (hs.succs _ ih _ hstep)

end PhiState

end Elfconv
