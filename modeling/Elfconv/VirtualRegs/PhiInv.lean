/-
Elfconv/VirtualRegs/PhiInv.lean

The invariant of the phi nodes of `OptimizeVirtualRegsUsage`, and the steps that leave the
graph as it is.

A finished phi node has one incoming value for each parent (`Complete`), an open one for a part
of them (`Unfinished`).  The open phi nodes stand for one register and are in different blocks,
as a block has a value of the register from the moment its phi node is opened; each waits for
the one above it (`StackInv`).

A relay block loads what the block before it cannot give, so what it derives it has or finds
there (`PhiInv.feed`).
-/
import Elfconv.VirtualRegs.PhiNodes
import Elfconv.Lib.Component

namespace Elfconv

variable {β : Type} [DecidableEq β] {f : LiftedCFG β} {s s' : PhiState β}

omit [DecidableEq β] in
theorem Terminator.length_successors (t : Terminator β) : t.successors.length ≤ 2 := by
  cases t <;> simp [Terminator.successors]

namespace PhiState

/-! ### The invariant -/

/-- The graph of the blocks, with the relay blocks on its edges. -/
structure GraphInv (f : LiftedCFG β) (s : PhiState β) : Prop where
  exact : s.graph.Exact
  bag_orig : ∀ b, s.bb_regs_bag_map (.orig b) = b
  hops : ∀ a, (s.graph.succs (.orig a)).map s.bb_regs_bag_map = (f.terminator a).successors
  relay : ∀ n, n < s.relay_bb_num → ∃ p q, s.graph.preds (.relay n) = {.orig p} ∧
    s.graph.succs (.relay n) = [.orig q] ∧
    (s.graph.succs (.orig p)).count (.relay n) = 1 ∧ s.bb_regs_bag_map (.relay n) = q ∧
    ∃ c ∈ (f.terminator p).successors, c ≠ q
  new : ∀ n, s.relay_bb_num ≤ n → s.graph.New (.relay n)

/-- A finished phi node of a block. -/
structure Complete (f : LiftedCFG β) (s : PhiState β) (b : BB β) (φ : PHINode β) : Prop where
  drvd : φ.er ∈ s.drvd f b
  nodup : φ.blocks.Nodup
  blocks : ∀ p, p ∈ φ.blocks ↔ p ∈ s.graph.preds b
  values : ∀ i ∈ φ.incoming, i.1 = ⟨φ.er, i.2⟩ ∧ (s.r_fresh_inst_mp i.2 φ.er).isSome = true

/-- A phi node under construction. -/
structure Unfinished (f : LiftedCFG β) (s : PhiState β) (φ : OpenPhi β) : Prop where
  drvd : φ.er ∈ s.drvd f φ.bb
  known : (s.r_fresh_inst_mp φ.bb φ.er).isSome = true
  nodup : φ.blocks.Nodup
  blocks : ∀ p ∈ φ.blocks, p ∈ s.graph.preds φ.bb
  values : ∀ i ∈ φ.incoming, i.1 = ⟨φ.er, i.2⟩ ∧ (s.r_fresh_inst_mp i.2 φ.er).isSome = true
  /-- a relay block has the value from the block before it -/
  fed : ∀ n, φ.bb = .relay n → n < s.relay_bb_num ∧ ∀ p ∈ s.graph.preds φ.bb,
    (s.r_fresh_inst_mp p φ.er).isSome = true ∨ φ.er ∈ s.drvd f p

/-- The recursion: each phi node is a parent of the one below that waits for it. -/
structure StackInv (f : LiftedCFG β) (s : PhiState β) : Prop where
  opens : ∀ φ ∈ s.stack, s.Unfinished f φ
  nodup : (s.stack.map OpenPhi.bb).Nodup
  same : ∀ φ ∈ s.stack, ∀ ψ ∈ s.stack, φ.er = ψ.er
  nested : s.stack.IsChain fun φ ψ => φ.bb ∈ s.graph.preds ψ.bb ∧ φ.bb ∉ ψ.blocks

/-- The invariant of the pass. -/
structure PhiInv (f : LiftedCFG β) (s : PhiState β) : Prop where
  graph : s.GraphInv f
  parent : ∀ b er v, s.r_fresh_inst_mp b er = some v → v = ⟨er, b⟩
  feed : ∀ n, n < s.relay_bb_num → ∀ p ∈ s.graph.preds (.relay n), ∀ er ∈ s.drvd f (.relay n),
    (s.r_fresh_inst_mp (.relay n) er).isSome = true ∨
      (s.r_fresh_inst_mp p er).isSome = true ∨ er ∈ s.drvd f p
  phis : ∀ b, ∀ φ ∈ s.phis b, s.Complete f b φ
  stack : s.StackInv f

/-! ### Steps that leave the graph as it is -/

/-- The graph and the bags are as they were, and no register has lost its value. -/
structure Keeps (s s' : PhiState β) : Prop where
  graph : s'.graph = s.graph
  bag : s'.bb_regs_bag_map = s.bb_regs_bag_map
  num : s'.relay_bb_num = s.relay_bb_num
  fresh : ∀ b er, (s.r_fresh_inst_mp b er).isSome = true →
    (s'.r_fresh_inst_mp b er).isSome = true

omit [DecidableEq β] in
theorem Keeps.drvd (h : Keeps s s') (b : BB β) : s'.drvd f b = s.drvd f b := by
  unfold PhiState.drvd
  rw [h.bag]

omit [DecidableEq β] in
theorem Keeps.complete {b : BB β} {φ : PHINode β} (h : Keeps s s') (hφ : s.Complete f b φ) :
    s'.Complete f b φ where
  drvd := by
    rw [h.drvd]
    exact hφ.drvd
  nodup := hφ.nodup
  blocks := by
    rw [h.graph]
    exact hφ.blocks
  values := fun i hi => ⟨(hφ.values i hi).1, h.fresh _ _ (hφ.values i hi).2⟩

omit [DecidableEq β] in
theorem Keeps.unfinished {φ : OpenPhi β} (h : Keeps s s') (hφ : s.Unfinished f φ) :
    s'.Unfinished f φ where
  drvd := by
    rw [h.drvd]
    exact hφ.drvd
  known := h.fresh _ _ hφ.known
  nodup := hφ.nodup
  blocks := by
    rw [h.graph]
    exact hφ.blocks
  values := fun i hi => ⟨(hφ.values i hi).1, h.fresh _ _ (hφ.values i hi).2⟩
  fed := by
    intro n hn
    rw [h.num, h.graph]
    refine ⟨(hφ.fed n hn).1, fun p hp => ?_⟩
    rw [h.drvd]
    exact ((hφ.fed n hn).2 p hp).imp_left (h.fresh _ _)

theorem Keeps.graphInv (h : Keeps s s') (hs : s.GraphInv f) : s'.GraphInv f := by
  obtain ⟨graph, bag, fresh, added, phis, num, queue, finished, cur, stack⟩ := s
  obtain ⟨graph', bag', fresh', added', phis', num', queue', finished', cur', stack'⟩ := s'
  obtain ⟨rfl, rfl, rfl, -⟩ := h
  exact ⟨hs.exact, hs.bag_orig, hs.hops, hs.relay, hs.new⟩

theorem Keeps.feed (h : Keeps s s') (hs : s.PhiInv f) (n : Nat) (hn : n < s'.relay_bb_num)
    (p : BB β) (hp : p ∈ s'.graph.preds (.relay n)) (er : EcvReg)
    (her : er ∈ s'.drvd f (.relay n)) :
    (s'.r_fresh_inst_mp (.relay n) er).isSome = true ∨
      (s'.r_fresh_inst_mp p er).isSome = true ∨ er ∈ s'.drvd f p := by
  rw [h.num] at hn
  rw [h.graph] at hp
  rw [h.drvd] at her ⊢
  exact (hs.feed n hn p hp er her).imp (h.fresh _ _) (Or.imp_left (h.fresh _ _))

/-- The stack may be replaced together with the finished phi nodes. -/
theorem Keeps.phiInv (h : Keeps s s') (hs : s.PhiInv f)
    (hparent : ∀ b er v, s'.r_fresh_inst_mp b er = some v → v = ⟨er, b⟩)
    (hphis : ∀ b, ∀ φ ∈ s'.phis b, s.Complete f b φ) (hstack : s'.StackInv f) : s'.PhiInv f where
  graph := h.graphInv hs.graph
  parent := hparent
  feed := h.feed hs
  phis := fun b φ hφ => h.complete (hphis b φ hφ)
  stack := hstack

omit [DecidableEq β] in
theorem Keeps.stackInv (h : Keeps s s') (hs : s.StackInv f) (hstack : s'.stack = s.stack) :
    s'.StackInv f where
  opens := by
    rw [hstack]
    exact fun φ hφ => h.unfinished (hs.opens φ hφ)
  nodup := hstack ▸ hs.nodup
  same := hstack ▸ hs.same
  nested := by
    rw [hstack, h.graph]
    exact hs.nested

/-- What changes neither the graph, the values, the phi nodes nor the stack. -/
theorem PhiInv.of_eq (hs : s.PhiInv f) (hgraph : s'.graph = s.graph)
    (hbag : s'.bb_regs_bag_map = s.bb_regs_bag_map) (hnum : s'.relay_bb_num = s.relay_bb_num)
    (hfresh : s'.r_fresh_inst_mp = s.r_fresh_inst_mp) (hphis : s'.phis = s.phis)
    (hstack : s'.stack = s.stack) : s'.PhiInv f := by
  have hkeeps : Keeps s s' := ⟨hgraph, hbag, hnum, fun b er h => hfresh ▸ h⟩
  exact hkeeps.phiInv hs (hfresh ▸ hs.parent) (hphis ▸ hs.phis) (hkeeps.stackInv hs.stack hstack)

/-! ### The stack -/

omit [DecidableEq β] in
theorem blocks_addIncoming (φ : PHINode β) (v : DrvdValue β) :
    (φ.addIncoming v).blocks = φ.blocks ++ [v.getParent] := by
  show (φ.incoming ++ [(v, v.getParent)]).map Prod.snd = _
  rw [List.map_append]
  rfl

omit [DecidableEq β] in
theorem addIncoming_cons {φ : OpenPhi β} {stack : List (OpenPhi β)} (hstack : s.stack = φ :: stack)
    (v : DrvdValue β) : s.addIncoming v = { s with
      stack := { φ with toPHINode := φ.toPHINode.addIncoming v } :: stack } := by
  simp only [PhiState.addIncoming, hstack]

/-- **The open phi node gets a value** from a parent it has none of. -/
theorem PhiInv.addIncoming {φ : OpenPhi β} {stack : List (OpenPhi β)} {b : BB β}
    (hs : s.PhiInv f) (hstack : s.stack = φ :: stack) (hpred : b ∈ s.graph.preds φ.bb)
    (hnew : b ∉ φ.blocks) (hknown : (s.r_fresh_inst_mp b φ.er).isSome = true) :
    (s.addIncoming ⟨φ.er, b⟩).PhiInv f := by
  obtain ⟨hopens, hnodup, hsame, hnested⟩ := hs.stack
  rw [hstack] at hopens hnodup hsame hnested
  rw [List.forall_mem_cons] at hopens
  -- the phi node with one more predecessor
  have hφ : s.Unfinished f { φ with toPHINode := φ.toPHINode.addIncoming ⟨φ.er, b⟩ } := by
    refine ⟨hopens.1.drvd, hopens.1.known, ?_, ?_, ?_, hopens.1.fed⟩
    · show (φ.toPHINode.addIncoming ⟨φ.er, b⟩).blocks.Nodup
      rw [blocks_addIncoming, List.nodup_append]
      refine ⟨hopens.1.nodup, List.nodup_singleton _, fun a ha c hc => ?_⟩
      rw [List.mem_singleton.mp hc]
      rintro rfl
      exact hnew ha
    · show ∀ p ∈ (φ.toPHINode.addIncoming ⟨φ.er, b⟩).blocks, _
      rw [blocks_addIncoming]
      intro p hp
      rcases List.mem_append.mp hp with hp | hp
      · exact hopens.1.blocks p hp
      · rw [List.mem_singleton.mp hp]
        exact hpred
    · intro i hi
      rcases List.mem_append.mp hi with hi | hi
      · exact hopens.1.values i hi
      · rw [List.mem_singleton.mp hi]
        exact ⟨rfl, hknown⟩
  rw [addIncoming_cons hstack]
  have hk : Keeps s { s with
      stack := { φ with toPHINode := φ.toPHINode.addIncoming ⟨φ.er, b⟩ } :: stack } :=
    ⟨rfl, rfl, rfl, fun _ _ => id⟩
  refine hk.phiInv hs hs.parent hs.phis ⟨?_, hnodup, ?_, ?_⟩
  · exact List.forall_mem_cons.mpr ⟨hk.unfinished hφ, fun ψ hψ => hk.unfinished (hopens.2 ψ hψ)⟩
  · -- the register of the phi node is what it was
    intro ψ hψ χ hχ
    have her : ∀ ψ ∈ { φ with toPHINode := φ.toPHINode.addIncoming ⟨φ.er, b⟩ } :: stack,
        ψ.er = φ.er := by
      refine List.forall_mem_cons.mpr ⟨rfl, fun ψ hψ => ?_⟩
      exact hsame ψ (List.mem_cons_of_mem φ hψ) φ List.mem_cons_self
    rw [her ψ hψ, her χ hχ]
  · rw [List.isChain_cons] at hnested ⊢
    exact hnested

omit [DecidableEq β] in
/-- A phi node that waits for a value has a block of its own. -/
theorem StackInv.eq_of_bb {φ ψ : OpenPhi β} (hs : s.StackInv f) (hφ : φ ∈ s.stack)
    (hψ : ψ ∈ s.stack) (h : φ.bb = ψ.bb) : φ = ψ :=
  List.inj_on_of_nodup_map hs.nodup hφ hψ h

theorem keeps_insertFresh (s : PhiState β) (b : BB β) (er : EcvReg) :
    Keeps s (s.insertFresh b er) := by
  refine ⟨rfl, rfl, rfl, fun b' er' h => ?_⟩
  show (if b' = b ∧ er' = er then _ else _ : Option (DrvdValue β)).isSome = true
  split
  · rw [Option.isSome_or, Option.isSome_some, Bool.or_true]
  · exact h

theorem insertFresh_self (s : PhiState β) (b : BB β) (er : EcvReg) :
    ((s.insertFresh b er).r_fresh_inst_mp b er).isSome = true := by
  show (if b = b ∧ er = er then _ else _ : Option (DrvdValue β)).isSome = true
  rw [if_pos ⟨rfl, rfl⟩, Option.isSome_or, Option.isSome_some, Bool.or_true]

theorem PhiInv.parent_insertFresh (hs : s.PhiInv f) (b : BB β) (er : EcvReg) (b' : BB β)
    (er' : EcvReg) (v : DrvdValue β) (h : (s.insertFresh b er).r_fresh_inst_mp b' er' = some v) :
    v = ⟨er', b'⟩ := by
  have h : (if b' = b ∧ er' = er then (s.r_fresh_inst_mp b er).or (some ⟨er, b⟩)
    else s.r_fresh_inst_mp b' er') = some v := h
  split at h
  · rename_i hb
    rcases Option.or_eq_some_iff.mp h with h | ⟨-, h⟩
    · rw [hb.1, hb.2]
      exact hs.parent b er v h
    · rw [← Option.some.inj h, hb.1, hb.2]
  · exact hs.parent b' er' v h

theorem PhiInv.insertFresh (hs : s.PhiInv f) (b : BB β) (er : EcvReg) :
    (s.insertFresh b er).PhiInv f :=
  (keeps_insertFresh s b er).phiInv hs (hs.parent_insertFresh b er) hs.phis
    ((keeps_insertFresh s b er).stackInv hs.stack rfl)

/-- A relay block that is on an edge has been inserted. -/
theorem GraphInv.lt_of_succ {n : Nat} {b : BB β} (hg : s.GraphInv f)
    (h : b ∈ s.graph.succs (.relay n)) : n < s.relay_bb_num := by
  by_contra hn
  rw [(hg.new n (Nat.le_of_not_lt hn)).succs] at h
  exact absurd h List.not_mem_nil

/-- **A phi node is opened.** -/
theorem PhiInv.newPhi {b : BB β} {er : EcvReg} (hs : s.PhiInv f) (hdrvd : er ∈ s.drvd f b)
    (hsame : ∀ φ ∈ s.stack, φ.er = er) (hbb : ∀ φ ∈ s.stack, φ.bb ≠ b)
    (hfed : ∀ n, b = .relay n → n < s.relay_bb_num ∧ ∀ p ∈ s.graph.preds b,
      (s.r_fresh_inst_mp p er).isSome = true ∨ er ∈ s.drvd f p)
    (hnested : ∀ φ ∈ s.stack.head?, b ∈ s.graph.preds φ.bb ∧ b ∉ φ.blocks) :
    (s.newPhi b er).PhiInv f := by
  have hk := keeps_insertFresh s b er
  have hφ : (s.insertFresh b er).Unfinished f ⟨⟨er, []⟩, b⟩ := by
    refine ⟨hdrvd, insertFresh_self s b er, List.nodup_nil, fun p hp => ?_, fun i hi => ?_, ?_⟩
    · exact absurd hp List.not_mem_nil
    · exact absurd hi List.not_mem_nil
    · exact fun n hn => ⟨(hfed n hn).1, fun p hp => ((hfed n hn).2 p hp).imp_left (hk.fresh _ _)⟩
  have hs' := hs.insertFresh b er
  have hk' : Keeps (s.insertFresh b er) (s.newPhi b er) := ⟨rfl, rfl, rfl, fun _ _ => id⟩
  refine hk'.phiInv hs' hs'.parent hs'.phis ⟨?_, ?_, ?_, ?_⟩
  · exact List.forall_mem_cons.mpr
      ⟨hk'.unfinished hφ, fun ψ hψ => hk'.unfinished (hs'.stack.opens ψ hψ)⟩
  · refine List.nodup_cons.mpr ⟨fun hmem => ?_, hs.stack.nodup⟩
    obtain ⟨φ, hφ, hb⟩ := List.mem_map.mp hmem
    exact hbb φ hφ hb
  · have her : ∀ φ ∈ ⟨⟨er, []⟩, b⟩ :: s.stack, φ.er = er :=
      List.forall_mem_cons.mpr ⟨rfl, hsame⟩
    intro φ hφ ψ hψ
    rw [her φ hφ, her ψ hψ]
  · exact List.isChain_cons.mpr ⟨hnested, hs.stack.nested⟩

/-- A parent that derives the register gets a phi node of its own. -/
theorem PhiInv.newPhi_nested {φ : OpenPhi β} {stack : List (OpenPhi β)} {t_bb : BB β}
    (hs : s.PhiInv f) (hstack : s.stack = φ :: stack) (hpred : t_bb ∈ s.graph.preds φ.bb)
    (hnew : t_bb ∉ φ.blocks) (hfresh : s.r_fresh_inst_mp t_bb φ.er = none)
    (hdrvd : φ.er ∈ s.drvd f t_bb) : (s.newPhi t_bb φ.er).PhiInv f := by
  have hφ : φ ∈ s.stack := hstack ▸ List.mem_cons_self
  have hunknown : ¬ (s.r_fresh_inst_mp t_bb φ.er).isSome = true := by
    rw [hfresh]
    exact Bool.false_ne_true
  apply hs.newPhi hdrvd
  · exact fun ψ hψ => hs.stack.same ψ hψ φ hφ
  · -- the block of an open phi node has a value
    rintro ψ hψ rfl
    have := (hs.stack.opens ψ hψ).known
    rw [hs.stack.same ψ hψ φ hφ] at this
    exact hunknown this
  · rintro n rfl
    have hn := hs.graph.lt_of_succ ((hs.graph.exact _ _).mp hpred)
    exact ⟨hn, fun p hp => (hs.feed n hn p hp φ.er hdrvd).resolve_left hunknown⟩
  · rw [hstack]
    intro ψ hψ
    obtain rfl := Option.some.inj hψ
    exact ⟨hpred, hnew⟩

theorem PhiInv.closePhi {φ : OpenPhi β} {stack : List (OpenPhi β)} (hs : s.PhiInv f)
    (hstack : s.stack = φ :: stack) (hall : s.graph.preds φ.bb \ φ.blocks.toFinset = ∅) :
    (s.closePhi φ stack).PhiInv f := by
  obtain ⟨hopens, hnodup, hsame, hnested⟩ := hs.stack
  rw [hstack] at hopens hnodup hsame hnested
  rw [List.forall_mem_cons] at hopens
  rw [List.isChain_cons] at hnested
  have hφ : s.Complete f φ.bb φ.toPHINode := by
    refine ⟨hopens.1.drvd, hopens.1.nodup, fun p => ⟨hopens.1.blocks p, fun hp => ?_⟩,
      hopens.1.values⟩
    rw [Finset.sdiff_eq_empty_iff_subset] at hall
    exact List.mem_toFinset.mp (hall hp)
  have hphis : ∀ b, ∀ ψ ∈ (s.closePhi φ stack).phis b, s.Complete f b ψ := by
    show ∀ b, ∀ ψ ∈ Function.update s.phis φ.bb (φ.toPHINode :: s.phis φ.bb) b, _
    intro b ψ hψ
    by_cases hb : b = φ.bb
    · subst hb
      rw [Function.update_self] at hψ
      rcases List.mem_cons.mp hψ with rfl | hψ
      · exact hφ
      · exact hs.phis φ.bb ψ hψ
    · rw [Function.update_of_ne hb] at hψ
      exact hs.phis b ψ hψ
  have hk : Keeps s (s.closePhi φ stack) := ⟨rfl, rfl, rfl, fun _ _ => id⟩
  apply hk.phiInv hs hs.parent hphis
  exact ⟨fun ψ hψ => hk.unfinished (hopens.2 ψ hψ), (List.nodup_cons.mp hnodup).2, fun ψ hψ χ hχ =>
    hsame ψ (List.mem_cons_of_mem φ hψ) χ (List.mem_cons_of_mem φ hχ), hnested.2⟩

/-- **A phi node is finished** when all parents have given their value. -/
theorem PhiInv.finishPhi {φ : OpenPhi β} {stack : List (OpenPhi β)} (hs : s.PhiInv f)
    (hstack : s.stack = φ :: stack) (hall : s.graph.preds φ.bb \ φ.blocks.toFinset = ∅) :
    (s.finishPhi φ stack).PhiInv f := by
  have hclose := hs.closePhi hstack hall
  cases stack with
  | nil => exact hclose
  | cons ψ stack =>
      -- the phi node below waits for this one
      have hnested := hs.stack.nested
      rw [hstack, List.isChain_cons] at hnested
      have hψ := hnested.1 ψ rfl
      have hadded : ((s.closePhi φ (ψ :: stack)).insertAdded φ.bb φ.er).PhiInv f :=
        hclose.of_eq rfl rfl rfl rfl rfl rfl
      have hφ : φ ∈ s.stack := hstack ▸ List.mem_cons_self
      have her : φ.er = ψ.er :=
        hs.stack.same φ hφ ψ (hstack ▸ List.mem_cons_of_mem φ List.mem_cons_self)
      have hknown : (s.r_fresh_inst_mp φ.bb ψ.er).isSome = true := her ▸ (hs.stack.opens φ hφ).known
      have hinv := hadded.addIncoming rfl hψ.1 hψ.2 hknown
      rw [← her] at hinv
      exact hinv

end PhiState

end Elfconv
