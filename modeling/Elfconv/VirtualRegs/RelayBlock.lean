/-
Elfconv/VirtualRegs/RelayBlock.lean

The relay blocks that `GetDrvdValue` puts on edges of the function.

A relay block is put between two blocks of the function: one that comes from a relay block
finds the register there, or in the block before it.  There is one edge between the two, as the
first one has another successor that does not derive the register.  The phi node that asks has
no value for the edge yet; the finished phi nodes of the block are led through the relay block.
-/
import Elfconv.VirtualRegs.PhiInv

namespace Elfconv

variable {β : Type} [DecidableEq β] {f : LiftedCFG β} {s s' : PhiState β} {p q : β}

omit [DecidableEq β] in
theorem BB.orig_ne_relay (b : β) (n : Nat) : BB.orig b ≠ .relay n := nofun

namespace PhiState

open BB

/-! ### The relay block -/

/-- The blocks that get a relay block between them. -/
structure RelayEdge (f : LiftedCFG β) (s : PhiState β) (p q : β) : Prop where
  pred : .orig p ∈ s.graph.preds (.orig q)
  count : (s.graph.succs (.orig p)).count (.orig q) = 1
  other : ∃ c ∈ (f.terminator p).successors, c ≠ q

/-- A block of the function has two successors at most. -/
theorem GraphInv.length_succs (hg : s.GraphInv f) (p : β) :
    (s.graph.succs (.orig p)).length ≤ 2 := by
  have h := congrArg List.length (hg.hops p)
  rw [List.length_map] at h
  rw [h]
  exact (f.terminator p).length_successors

/-- A relay block derives what the block after it derives. -/
theorem GraphInv.drvd_relay {n : Nat} {b : BB β} (hg : s.GraphInv f)
    (h : b ∈ s.graph.succs (.relay n)) : s.drvd f (.relay n) = s.drvd f b := by
  obtain ⟨p, q, -, hsuccs, -, hbag, -⟩ := hg.relay n (hg.lt_of_succ h)
  rw [hsuccs, List.mem_singleton] at h
  show f.drvd_rmp (s.bb_regs_bag_map (.relay n)) = f.drvd_rmp (s.bb_regs_bag_map b)
  rw [hbag, h, hg.bag_orig]

/-- **A relay block is inserted on an edge of the function.** -/
theorem PhiInv.relayEdge {φ : OpenPhi β} {t_bb : BB β} (hs : s.PhiInv f) (hφ : φ ∈ s.stack)
    (hpred : t_bb ∈ s.graph.preds φ.bb) (hfresh : s.r_fresh_inst_mp t_bb φ.er = none)
    (hdrvd : φ.er ∉ s.drvd f t_bb) (hneed : s.relayNeeded f t_bb φ.er = true) :
    ∃ p q, t_bb = .orig p ∧ φ.bb = .orig q ∧ s.RelayEdge f p q := by
  have hopen := hs.stack.opens φ hφ
  have hsucc := (hs.graph.exact _ _).mp hpred
  have hq : ∃ q, φ.bb = .orig q := by
    cases hbb : φ.bb with
    | orig q => exact ⟨q, rfl⟩
    | relay n =>
        -- the block before a relay block has a value, or derives the register
        rcases (hopen.fed n hbb).2 t_bb hpred with h | h
        · rw [hfresh] at h
          exact absurd h Bool.false_ne_true
        · exact absurd h hdrvd
  obtain ⟨q, hq⟩ := hq
  have hder : φ.er ∈ f.drvd_rmp q := by
    have h : φ.er ∈ f.drvd_rmp (s.bb_regs_bag_map φ.bb) := hopen.drvd
    rwa [hq, hs.graph.bag_orig] at h
  have hp : ∃ p, t_bb = .orig p := by
    cases t_bb with
    | orig p => exact ⟨p, rfl⟩
    | relay n =>
        rw [hs.graph.drvd_relay hsucc] at hdrvd
        exact absurd hopen.drvd hdrvd
  obtain ⟨p, rfl⟩ := hp
  obtain ⟨c, hc, hcder⟩ := List.any_eq_true.mp hneed
  rw [decide_eq_true_eq] at hcder
  have hcq : s.bb_regs_bag_map c ≠ q := by
    intro h
    have hcder : φ.er ∉ f.drvd_rmp (s.bb_regs_bag_map c) := hcder
    exact hcder (h ▸ hder)
  refine ⟨p, q, rfl, hq, hq ▸ hpred, ?_, s.bb_regs_bag_map c, ?_, hcq⟩
  · -- two edges at most, and one of them leads elsewhere
    rw [hq] at hsucc
    have hpos := List.count_pos_iff.mpr hsucc
    have hlt : (s.graph.succs (.orig p)).count (.orig q) < (s.graph.succs (.orig p)).length := by
      refine lt_of_le_of_ne List.count_le_length fun h => ?_
      apply hcq
      rw [← List.count_eq_length.mp h c hc]
      exact hs.graph.bag_orig q
    have := hs.graph.length_succs p
    omega
  · rw [← hs.graph.hops]
    exact List.mem_map_of_mem hc

section

variable (f s p q) in
/-- The state with the relay block between `p` and `q`. -/
def relayed : PhiState β := s.insertRelay f (.orig p) (.orig q)

theorem bag_relayed_self :
    (relayed f s p q).bb_regs_bag_map (.relay s.relay_bb_num) = s.bb_regs_bag_map (.orig q) :=
  Function.update_self ..

theorem bag_relayed_of_ne {b : BB β} (hb : b ≠ .relay s.relay_bb_num) :
    (relayed f s p q).bb_regs_bag_map b = s.bb_regs_bag_map b :=
  Function.update_of_ne hb ..

theorem drvd_relayed_self :
    (relayed f s p q).drvd f (.relay s.relay_bb_num) = s.drvd f (.orig q) :=
  congrArg f.drvd_rmp bag_relayed_self

theorem drvd_relayed_of_ne {b : BB β} (hb : b ≠ .relay s.relay_bb_num) :
    (relayed f s p q).drvd f b = s.drvd f b :=
  congrArg f.drvd_rmp (bag_relayed_of_ne hb)

theorem fresh_relayed_of_ne {b : BB β} (hb : b ≠ .relay s.relay_bb_num) :
    (relayed f s p q).r_fresh_inst_mp b = s.r_fresh_inst_mp b :=
  Function.update_of_ne hb ..

theorem known_relayed {b : BB β} {er : EcvReg} (hb : b ≠ .relay s.relay_bb_num)
    (h : (s.r_fresh_inst_mp b er).isSome = true) :
    ((relayed f s p q).r_fresh_inst_mp b er).isSome = true := by
  rw [fresh_relayed_of_ne hb]
  exact h

/-- The phi nodes of the block behind the relay block take their value from it. -/
theorem phis_relayed (c : β) : (relayed f s p q).phis (.orig c) =
    if BB.orig c = .orig q then
      (s.phis (.orig q)).map fun φ => φ.redirect (.orig p) (.relay s.relay_bb_num)
    else s.phis (.orig c) := by
  simp only [relayed, insertRelay]
  rw [Function.update_of_ne (orig_ne_relay c _)]
  split
  · rename_i hc
    rw [hc, Function.update_self]
  · rename_i hc
    rw [Function.update_of_ne hc]

theorem GraphInv.isNew (hg : s.GraphInv f) : s.graph.New (.relay s.relay_bb_num) :=
  hg.new s.relay_bb_num le_rfl

theorem GraphInv.pred_ne (hg : s.GraphInv f) {a b : BB β} (h : a ∈ s.graph.preds b) :
    a ≠ .relay s.relay_bb_num := (hg.isNew.ne_pred hg.exact h).symm

/-- A relay block on an edge keeps the shape of the graph. -/
theorem RelayEdge.graphInv (he : s.RelayEdge f p q) (hg : s.GraphInv f) :
    (relayed f s p q).GraphInv f := by
  have hnew := hg.isNew
  have hnot : ∀ a, .relay s.relay_bb_num ∉ s.graph.succs a := hnew.not_mem hg.exact
  have hrp := (orig_ne_relay p s.relay_bb_num).symm
  have hrq := (orig_ne_relay q s.relay_bb_num).symm
  refine ⟨hg.exact.split he.pred hnew, fun b => ?_, fun a => ?_, fun n hn => ?_, fun n hn => ?_⟩
  · rw [bag_relayed_of_ne (orig_ne_relay b _)]
    exact hg.bag_orig b
  · have hbag : ∀ x ∈ s.graph.succs (.orig a),
        (relayed f s p q).bb_regs_bag_map x = s.bb_regs_bag_map x := fun x hx =>
      bag_relayed_of_ne fun h => hnot _ (h ▸ hx)
    rw [← hg.hops a]
    -- the relay block stands in for `q` among the successors of `p`, under the same bag
    by_cases hap : a = p
    · subst hap
      show ((s.graph.split _ _ _).succs _).map _ = _
      rw [FlowGraph.succs_split_pred hrp, List.map_map]
      apply List.map_congr_left
      intro x hx
      show (relayed f s a q).bb_regs_bag_map (if x = .orig q then _ else x) = _
      split
      · rename_i hxq
        rw [bag_relayed_self, hxq]
      · exact hbag x hx
    · show ((s.graph.split _ _ _).succs _).map _ = _
      rw [FlowGraph.succs_split_of_ne (fun h => hap (BB.orig.inj h)) (orig_ne_relay a _)]
      exact List.map_congr_left hbag
  · -- an older relay block keeps its one predecessor and its one successor
    rcases Nat.lt_succ_iff_lt_or_eq.mp hn with hn | rfl
    · have hne : (BB.relay n : BB β) ≠ .relay s.relay_bb_num := fun h => hn.ne (BB.relay.inj h)
      obtain ⟨p', q', hpreds, hsuccs, hcount, hbag, hother⟩ := hg.relay n hn
      refine ⟨p', q', ?_, ?_, ?_, ?_, hother⟩
      · exact (FlowGraph.preds_split_of_ne (orig_ne_relay q n).symm hne).trans hpreds
      · exact (FlowGraph.succs_split_of_ne (orig_ne_relay p n).symm hne).trans hsuccs
      · exact (FlowGraph.count_split_of_ne (orig_ne_relay p' _) hrp (orig_ne_relay q n).symm
          hne).trans hcount
      · exact (bag_relayed_of_ne hne).trans hbag
    · refine ⟨p, q, FlowGraph.preds_split_self, FlowGraph.succs_split_self hrp, ?_, ?_, he.other⟩
      · exact (FlowGraph.count_split_new hrp (hnot _)).trans he.count
      · rw [bag_relayed_self]
        exact hg.bag_orig q
  · have hne : (BB.relay n : BB β) ≠ .relay s.relay_bb_num :=
      fun h => (Nat.lt_of_succ_le hn).ne' (BB.relay.inj h)
    have hn' := hg.new n (Nat.le_of_succ_le hn)
    refine ⟨?_, ?_⟩
    · exact (FlowGraph.succs_split_of_ne (orig_ne_relay p n).symm hne).trans hn'.succs
    · exact (FlowGraph.preds_split_of_ne (orig_ne_relay q n).symm hne).trans hn'.preds

/-- Every value still stands in its block. -/
theorem PhiInv.parent_relayed (hs : s.PhiInv f) (b : BB β) (er : EcvReg) (v : DrvdValue β)
    (h : (relayed f s p q).r_fresh_inst_mp b er = some v) : v = ⟨er, b⟩ := by
  by_cases hb : b = .relay s.relay_bb_num
  · subst hb
    simp only [relayed, insertRelay, Function.update_self] at h
    split at h
    · rw [← Option.some.inj h]
    · cases h
  · rw [fresh_relayed_of_ne hb] at h
    exact hs.parent b er v h

/-- The relay block has what the block before it does not give. -/
theorem fresh_relayed_self {er : EcvReg} (hdrvd : er ∈ s.drvd f (.orig q))
    (hfresh : ¬ (s.r_fresh_inst_mp (.orig p) er).isSome = true)
    (hp : er ∉ s.drvd f (.orig p)) :
    ((relayed f s p q).r_fresh_inst_mp (.relay s.relay_bb_num) er).isSome = true := by
  have hload : er ∈ s.relayLoads f (.orig p) (.orig q) := by
    rw [Bool.not_eq_true, Option.isSome_eq_false_iff] at hfresh
    exact List.mem_filter.mpr ⟨hdrvd, decide_eq_true ⟨hfresh, hp⟩⟩
  simp only [relayed, insertRelay, Function.update_self]
  rw [if_pos (.inr hload)]
  rfl

theorem PhiInv.feed_relayed (hs : s.PhiInv f) (n : Nat)
    (hn : n < s.relay_bb_num + 1) (x : BB β)
    (hx : x ∈ (relayed f s p q).graph.preds (.relay n)) (er : EcvReg)
    (her : er ∈ (relayed f s p q).drvd f (.relay n)) :
    ((relayed f s p q).r_fresh_inst_mp (.relay n) er).isSome = true ∨
      ((relayed f s p q).r_fresh_inst_mp x er).isSome = true ∨
      er ∈ (relayed f s p q).drvd f x := by
  rcases Nat.lt_succ_iff_lt_or_eq.mp hn with hn | rfl
  · have hne : (BB.relay n : BB β) ≠ .relay s.relay_bb_num := fun h => hn.ne (BB.relay.inj h)
    have hpreds := FlowGraph.preds_split_of_ne (g := s.graph) (p := .orig p)
      (orig_ne_relay q n).symm hne
    have hx : x ∈ s.graph.preds (.relay n) := hpreds ▸ hx
    have hxne := hs.graph.pred_ne hx
    rw [drvd_relayed_of_ne hne] at her
    rw [fresh_relayed_of_ne hne, fresh_relayed_of_ne hxne, drvd_relayed_of_ne hxne]
    exact hs.feed n hn x hx er her
  · have hx : x ∈ (s.graph.split (.orig p) (.orig q) (.relay s.relay_bb_num)).preds
      (.relay s.relay_bb_num) := hx
    rw [FlowGraph.preds_split_self, Finset.mem_singleton] at hx
    subst hx
    rw [drvd_relayed_self] at her
    rw [fresh_relayed_of_ne (orig_ne_relay p _), drvd_relayed_of_ne (orig_ne_relay p _)]
    by_cases hfresh : (s.r_fresh_inst_mp (.orig p) er).isSome = true
    · exact .inr (.inl hfresh)
    · by_cases hp : er ∈ s.drvd f (.orig p)
      · exact .inr (.inr hp)
      · exact .inl (fresh_relayed_self her hfresh hp)

/-- The relay block takes the place of the parent. -/
theorem preds_relayed : (relayed f s p q).graph.preds (.orig q) =
    (insert (.relay s.relay_bb_num) (s.graph.preds (.orig q))).erase (.orig p) :=
  FlowGraph.preds_split_succ (orig_ne_relay q _).symm

/-- A phi node of the relay block has the value the phi node after it had. -/
theorem complete_relayPhi {φ : PHINode β} {i : DrvdValue β × BB β}
    (hφ : s.Complete f (.orig q) φ) (hi : i ∈ φ.incoming) (hip : i.2 = .orig p) :
    (relayed f s p q).Complete f (.relay s.relay_bb_num) ⟨φ.er, [(i.1, .orig p)]⟩ := by
  refine ⟨?_, List.nodup_singleton _, fun x => ?_, ?_⟩
  · rw [drvd_relayed_self]
    exact hφ.drvd
  · show x ∈ [BB.orig p] ↔ x ∈ (s.graph.split (.orig p) (.orig q) (.relay s.relay_bb_num)).preds
      (.relay s.relay_bb_num)
    rw [FlowGraph.preds_split_self, Finset.mem_singleton, List.mem_singleton]
  · intro j hj
    rw [List.mem_singleton.mp hj]
    have hvalue := hφ.values i hi
    rw [hip] at hvalue
    exact ⟨hvalue.1, known_relayed (orig_ne_relay p _) hvalue.2⟩

/-- The redirected node has a value from the relay block in the place of the parent. -/
theorem blocks_redirect (φ : PHINode β) (t_bb relay_bb : BB β) :
    (φ.redirect t_bb relay_bb).blocks = φ.blocks.map fun x => if x = t_bb then relay_bb else x := by
  show (φ.incoming.map _).map Prod.snd = (φ.incoming.map Prod.snd).map _
  rw [List.map_map, List.map_map]
  apply List.map_congr_left
  intro i _
  show Prod.snd (if i.2 = t_bb then _ else i) = if i.2 = t_bb then relay_bb else i.2
  split <;> rfl

/-- The relay block has the register of a phi node that is led through it. -/
theorem fresh_relayed_phi {φ : PHINode β} {i : DrvdValue β × BB β} (hφ : φ ∈ s.phis (.orig q))
    (hi : i ∈ φ.incoming) (hip : i.2 = .orig p) :
    ((relayed f s p q).r_fresh_inst_mp (.relay s.relay_bb_num) φ.er).isSome = true := by
  have hmem :
      φ.er ∈ ((s.phis (.orig q)).flatMap fun φ => φ.relayPhis (.orig p)).map PHINode.er := by
    refine List.mem_map.mpr ⟨⟨φ.er, [(i.1, .orig p)]⟩, List.mem_flatMap.mpr ⟨φ, hφ, ?_⟩, rfl⟩
    exact List.mem_map_of_mem (List.mem_filter.mpr ⟨hi, decide_eq_true hip⟩)
  simp only [relayed, insertRelay, Function.update_self]
  rw [if_pos (.inl hmem)]
  rfl

/-- A phi node that is led through the relay block has a value for each parent. -/
theorem RelayEdge.complete_redirect {φ : PHINode β} (he : s.RelayEdge f p q) (hg : s.GraphInv f)
    (hmem : φ ∈ s.phis (.orig q)) (hφ : s.Complete f (.orig q) φ) :
    (relayed f s p q).Complete f (.orig q) (φ.redirect (.orig p) (.relay s.relay_bb_num)) := by
  -- the relay block is new, so no predecessor is mistaken for it
  have hblock : ∀ x ∈ φ.blocks, x ≠ .relay s.relay_bb_num := fun x hx =>
    hg.pred_ne ((hφ.blocks x).mp hx)
  refine ⟨?_, ?_, fun x => ?_, ?_⟩
  · rw [drvd_relayed_of_ne (orig_ne_relay q _)]
    exact hφ.drvd
  · rw [blocks_redirect]
    apply List.Nodup.map_on _ hφ.nodup
    intro x hx y hy hxy
    split at hxy
    · split at hxy
      · rename_i h h'
        exact h.trans h'.symm
      · exact absurd hxy.symm (hblock y hy)
    · split at hxy
      · exact absurd hxy (hblock x hx)
      · exact hxy
  · rw [blocks_redirect, preds_relayed, Finset.mem_erase, Finset.mem_insert, List.mem_map,
      ← hφ.blocks]
    constructor
    · rintro ⟨y, hy, rfl⟩
      split
      · exact ⟨(orig_ne_relay p _).symm, .inl rfl⟩
      · rename_i h
        exact ⟨h, .inr hy⟩
    · rintro ⟨hxp, rfl | hx⟩
      · exact ⟨.orig p, (hφ.blocks _).mpr he.pred, if_pos rfl⟩
      · exact ⟨x, hx, if_neg hxp⟩
  · intro i hi
    obtain ⟨j, hj, rfl⟩ := List.mem_map.mp hi
    have hvalue := hφ.values j hj
    split
    · rename_i hjp
      exact ⟨rfl, fresh_relayed_phi (φ := φ) hmem hj hjp⟩
    · have hne := hblock j.2 (List.mem_map_of_mem hj)
      exact ⟨hvalue.1, known_relayed hne hvalue.2⟩

/-- The phi nodes are complete after the relay block is there. -/
theorem RelayEdge.phis (he : s.RelayEdge f p q) (hs : s.PhiInv f) (b : BB β)
    (ψ : PHINode β) (hψ : ψ ∈ (relayed f s p q).phis b) :
    (relayed f s p q).Complete f b ψ := by
  by_cases hb : b = .relay s.relay_bb_num
  · subst hb
    simp only [relayed, insertRelay, Function.update_self] at hψ
    obtain ⟨φ, hφ, hψ⟩ := List.mem_flatMap.mp hψ
    obtain ⟨i, hi, rfl⟩ := List.mem_map.mp hψ
    have hi := List.mem_filter.mp hi
    exact complete_relayPhi (hs.phis _ φ hφ) hi.1 (of_decide_eq_true hi.2)
  · by_cases hbq : b = .orig q
    · subst hbq
      simp only [relayed, insertRelay, Function.update_of_ne hb, Function.update_self] at hψ
      obtain ⟨φ, hφ, rfl⟩ := List.mem_map.mp hψ
      exact he.complete_redirect hs.graph hφ (hs.phis _ φ hφ)
    · simp only [relayed, insertRelay, Function.update_of_ne hb, Function.update_of_ne hbq] at hψ
      have hφ := hs.phis b ψ hψ
      refine ⟨?_, hφ.nodup, fun x => ?_, fun i hi => ?_⟩
      · rw [drvd_relayed_of_ne hb]
        exact hφ.drvd
      · rw [hφ.blocks]
        show _ ↔ x ∈ (s.graph.split _ _ _).preds b
        rw [FlowGraph.preds_split_of_ne hbq hb]
      · have hne := hs.graph.pred_ne ((hφ.blocks i.2).mp (List.mem_map_of_mem hi))
        exact ⟨(hφ.values i hi).1, known_relayed hne (hφ.values i hi).2⟩

/-- The phi nodes under construction, of which the top one asks. -/
theorem PhiInv.stackInv_relayed {φ : OpenPhi β} {stack : List (OpenPhi β)} (hs : s.PhiInv f)
    (hstack : s.stack = φ :: stack) (hφ : φ.bb = .orig q)
    (hnew : .orig p ∉ φ.blocks) : (relayed f s p q).StackInv f := by
  obtain ⟨hopens, hnodup, hsame, hnested⟩ := hs.stack
  have hne : ∀ ψ ∈ s.stack, ψ.bb ≠ .relay s.relay_bb_num := fun ψ hψ h =>
    absurd ((hopens ψ hψ).fed _ h).1 (lt_irrefl _)
  -- the phi nodes below are in other blocks
  have hother : ∀ ψ ∈ stack, ψ.bb ≠ .orig q := by
    rw [hstack] at hnodup
    intro ψ hψ h
    exact (List.nodup_cons.mp hnodup).1 (List.mem_map.mpr ⟨ψ, hψ, h.trans hφ.symm⟩)
  have hpreds : ∀ ψ ∈ stack, (relayed f s p q).graph.preds ψ.bb = s.graph.preds ψ.bb :=
    fun ψ hψ => FlowGraph.preds_split_of_ne (hother ψ hψ)
      (hne ψ (hstack ▸ List.mem_cons_of_mem φ hψ))
  refine ⟨fun ψ hψ => ?_, hnodup, hsame, ?_⟩
  · have hopen := hopens ψ hψ
    have hψne := hne ψ hψ
    refine ⟨?_, ?_, hopen.nodup, ?_, fun i hi => ?_, ?_⟩
    · rw [drvd_relayed_of_ne hψne]
      exact hopen.drvd
    · rw [fresh_relayed_of_ne hψne]
      exact hopen.known
    · intro x hx
      have hψ : ψ ∈ φ :: stack := hstack ▸ hψ
      rcases List.mem_cons.mp hψ with rfl | hψ
      · rw [hφ, preds_relayed, Finset.mem_erase, Finset.mem_insert]
        exact ⟨fun h => hnew (h ▸ hx), .inr (hφ ▸ hopen.blocks x hx)⟩
      · rw [hpreds ψ hψ]
        exact hopen.blocks x hx
    · have hne := hs.graph.pred_ne (hopen.blocks i.2 (List.mem_map_of_mem hi))
      exact ⟨(hopen.values i hi).1, known_relayed hne (hopen.values i hi).2⟩
    · intro n hn
      have hψ : ψ ∈ φ :: stack := hstack ▸ hψ
      rcases List.mem_cons.mp hψ with rfl | hψ
      · exact absurd (hφ.symm.trans hn) (orig_ne_relay q n)
      · refine ⟨Nat.lt_succ_of_lt (hopen.fed n hn).1, fun x hx => ?_⟩
        rw [hpreds ψ hψ] at hx
        rw [fresh_relayed_of_ne (hs.graph.pred_ne hx), drvd_relayed_of_ne (hs.graph.pred_ne hx)]
        exact (hopen.fed n hn).2 x hx
  · show s.stack.IsChain _
    apply hnested.imp_of_mem_tail_imp
    intro ψ χ _ hχ h
    rw [hstack] at hχ
    rw [hpreds χ hχ]
    exact h

/-- **The relay block is inserted, and gives the value.** -/
theorem RelayEdge.phiInv {φ : OpenPhi β} {stack : List (OpenPhi β)} (he : s.RelayEdge f p q)
    (hs : s.PhiInv f) (hstack : s.stack = φ :: stack) (hφ : φ.bb = .orig q)
    (hnew : .orig p ∉ φ.blocks) (hfresh : s.r_fresh_inst_mp (.orig p) φ.er = none)
    (hp : φ.er ∉ s.drvd f (.orig p)) :
    ((relayed f s p q).addIncoming ⟨φ.er, .relay s.relay_bb_num⟩).PhiInv f := by
  have hopen := hs.stack.opens φ (hstack ▸ List.mem_cons_self)
  have hinv : (relayed f s p q).PhiInv f :=
    ⟨he.graphInv hs.graph, hs.parent_relayed, hs.feed_relayed, he.phis hs,
      hs.stackInv_relayed hstack hφ hnew⟩
  apply hinv.addIncoming (φ := φ) hstack
  · rw [hφ, preds_relayed, Finset.mem_erase]
    exact ⟨(orig_ne_relay p _).symm, Finset.mem_insert_self _ _⟩
  · exact fun h => hs.graph.pred_ne (hopen.blocks _ h) rfl
  · refine fresh_relayed_self (hφ ▸ hopen.drvd) ?_ hp
    rw [hfresh]
    exact Bool.false_ne_true

end

end PhiState

end Elfconv
