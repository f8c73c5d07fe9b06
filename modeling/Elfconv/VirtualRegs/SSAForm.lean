/-
Elfconv/VirtualRegs/SSAForm.lean

`GetDrvdValue` and the phi nodes of `OptimizeVirtualRegsUsage` keep the function well formed.

Throughout the pass `bb_parents` holds the predecessors, every relay block is on one edge, and
the paths between the blocks of the function are the old ones (`WellFormed`).  When it ends every
value of a phi node stands in the block its edge comes from.

The parents of a block are a set.  When both targets of a conditional branch are one block
that derives a register, the phi node has one value for two edges.  Where no branch is of this
kind every phi node has a value for each edge (`staysInSSAForm`), and nowhere else
(`singleEdges_of_staysInSSAForm`).
-/
import Elfconv.VirtualRegs.PhiEnds

namespace Elfconv

variable {β : Type} [DecidableEq β] {f : LiftedCFG β} {s s' : PhiState β} {p q : β}

namespace PhiState

open BB

/-! ### The states of the pass -/

/-- The graph of the blocks in a state of the pass. -/
structure WellFormed (f : LiftedCFG β) (s : PhiState β) : Prop where
  parents : ∀ p b, p ∈ s.graph.preds b ↔ b ∈ s.graph.succs p
  relay : ∀ n, n < s.relay_bb_num → ∃ p q, s.graph.preds (.relay n) = {p} ∧
    s.graph.succs (.relay n) = [q] ∧ (s.graph.succs p).count (.relay n) = 1
  paths : ∀ l : List β, l.IsChain (fun a b => b ∈ (f.terminator a).successors) ↔
    ∃ l' : List (BB β), l'.IsChain (fun x y => y ∈ s.graph.succs x) ∧ l'.filterMap BB.orig? = l

theorem GraphInv.onEdges (hg : s.GraphInv f) :
    s.graph.OnEdges (fun a => (f.terminator a).successors) BB.orig BB.orig?
      s.bb_regs_bag_map where
  old_emb := fun _ => rfl
  emb_old := by
    intro x b h
    cases x with
    | orig c => rw [Option.some.inj h]
    | relay n => cases h
  target_emb := hg.bag_orig
  succs_emb := hg.hops
  succs_new := by
    intro x hx y hy
    cases x with
    | orig c => cases hx
    | relay n =>
        obtain ⟨p, q, -, hsuccs, -, hbag, -⟩ := hg.relay n (hg.lt_of_succ hy)
        rw [hsuccs, List.mem_singleton] at hy
        rw [hy, hbag]
  leads := by
    intro a x hx ho
    cases x with
    | orig c => cases ho
    | relay n =>
        have hn : n < s.relay_bb_num := by
          by_contra hn
          exact (hg.new n (Nat.le_of_not_lt hn)).not_mem hg.exact _ hx
        obtain ⟨p, q, -, hsuccs, -, hbag, -⟩ := hg.relay n hn
        rw [hsuccs, hbag]
        exact List.mem_singleton_self _

theorem GraphInv.wellFormed (hg : s.GraphInv f) : s.WellFormed f where
  parents := hg.exact
  relay := fun n hn => by
    obtain ⟨p, q, hpreds, hsuccs, hcount, -⟩ := hg.relay n hn
    exact ⟨.orig p, .orig q, hpreds, hsuccs, hcount⟩
  paths := hg.onEdges.paths_iff

/-- Every phi node has a value for each edge to its block, in the block the edge comes from. -/
structure PhisPerEdge (s : PhiState β) : Prop where
  edges : ∀ b, ∀ φ ∈ s.phis b, ∀ p, φ.blocks.count p = (s.graph.succs p).count b
  available : ∀ b, ∀ φ ∈ s.phis b, ∀ i ∈ φ.incoming, i.1.getParent = i.2

end PhiState

/-- No conditional branch has one block that derives a register as both targets. -/
def LiftedCFG.SingleEdges (f : LiftedCFG β) : Prop :=
  ∀ a b, 1 < (f.terminator a).successors.count b → f.drvd_rmp b = []

namespace PhiState

/-- There is one edge at most to a block that derives a register. -/
theorem GraphInv.count_le (hg : s.GraphInv f) (hf : f.SingleEdges) {b : BB β} {er : EcvReg}
    (her : er ∈ s.drvd f b) (p : BB β) : (s.graph.succs p).count b ≤ 1 := by
  cases b with
  | relay n =>
      by_cases hmem : .relay n ∈ s.graph.succs p
      · have hn : n < s.relay_bb_num := by
          by_contra hn
          exact (hg.new n (Nat.le_of_not_lt hn)).not_mem hg.exact _ hmem
        obtain ⟨p', q, hpreds, -, hcount, -⟩ := hg.relay n hn
        have hp := (hg.exact _ _).mpr hmem
        rw [hpreds, Finset.mem_singleton] at hp
        rw [hp, hcount]
      · rw [List.count_eq_zero.mpr hmem]
        exact Nat.zero_le 1
  | orig q =>
      cases p with
      | relay n =>
          by_cases hn : n < s.relay_bb_num
          · obtain ⟨p, q', -, hsuccs, -⟩ := hg.relay n hn
            rw [hsuccs]
            exact List.count_le_length
          · rw [(hg.new n (Nat.le_of_not_lt hn)).succs]
            exact Nat.zero_le 1
      | orig p =>
          by_contra hcount
          -- the edges are edges of the function
          have hle : (s.graph.succs (.orig p)).count (.orig q) ≤
              ((s.graph.succs (.orig p)).map s.bb_regs_bag_map).count
                (s.bb_regs_bag_map (.orig q)) := List.count_le_count_map ..
          rw [hg.hops, hg.bag_orig] at hle
          have her : er ∈ f.drvd_rmp (s.bb_regs_bag_map (.orig q)) := her
          rw [hg.bag_orig, hf p q (by omega)] at her
          exact absurd her List.not_mem_nil

theorem PhiInv.phisPerEdge (hs : s.PhiInv f) (hf : f.SingleEdges) : s.PhisPerEdge where
  edges := by
    intro b φ hφ p
    have hφ := hs.phis b φ hφ
    by_cases hp : p ∈ φ.blocks
    · have hsucc := (hs.graph.exact _ _).mp ((hφ.blocks p).mp hp)
      rw [List.count_eq_one_of_mem hφ.nodup hp]
      exact le_antisymm (List.count_pos_iff.mpr hsucc) (hs.graph.count_le hf hφ.drvd p)
    · have hsucc : b ∉ s.graph.succs p :=
        fun h => hp ((hφ.blocks p).mpr ((hs.graph.exact _ _).mpr h))
      rw [List.count_eq_zero.mpr hp, List.count_eq_zero.mpr hsucc]
  available := fun b φ hφ i hi => by rw [((hs.phis b φ hφ).values i hi).1]

end PhiState

/-- SSA form is kept: the graph is well formed in every state of the pass, and the phi nodes
have a value for each edge when it ends. -/
def StaysInSSAForm (f : LiftedCFG β) (order : AddrOrder β) : Prop :=
  (∀ s, Machine.Reached (PhiState.step f · order) (.start f) s → s.WellFormed f) ∧
    ∃ s, Machine.Halts (PhiState.step f · order) (.start f) (some s) ∧ s.PhisPerEdge

/-- **SSA form stays well formed** where no branch has both edges to a block that derives a
register. -/
theorem staysInSSAForm (f : LiftedCFG β) (order : AddrOrder β) (hf : f.SingleEdges) :
    StaysInSSAForm f order := by
  constructor
  · intro s hs
    have hinv := Machine.inv_of_reached (fun s s' hs h => hs.of_step h) (PhiState.runInv_start f) hs
    exact hinv.phiInv.graph.wellFormed
  · obtain ⟨s, hs, hinv, -⟩ := PhiState.halts f order
    exact ⟨s, hs, hinv.phiInv.phisPerEdge hf⟩

/-! ### The converse -/

/-- Every block can be reached from the entry. -/
def LiftedCFG.Reachable (f : LiftedCFG β) : Prop :=
  ∀ b, Relation.ReflTransGen (fun a b => b ∈ (f.terminator a).successors) f.entry b

/-- No relay block is put on an edge of a branch that leads to one block only. -/
theorem PhiState.GraphInv.succs_of_both {a b : β} (hg : s.GraphInv f)
    (hboth : ∀ c ∈ (f.terminator a).successors, c = b) :
    ∀ x ∈ s.graph.succs (.orig a), x = .orig b := by
  intro x hx
  have hbag : s.bb_regs_bag_map x = b := by
    apply hboth
    rw [← hg.hops]
    exact List.mem_map_of_mem hx
  cases x with
  | orig c => rw [← hbag, hg.bag_orig]
  | relay n =>
      have hn : n < s.relay_bb_num := by
        by_contra hn
        exact (hg.new n (Nat.le_of_not_lt hn)).not_mem hg.exact _ hx
      obtain ⟨p, q, hpreds, -, -, hq, c, hc, hcq⟩ := hg.relay n hn
      have hp := (hg.exact _ _).mpr hx
      rw [hpreds, Finset.mem_singleton] at hp
      rw [← BB.orig.inj hp] at hc
      exact absurd ((hboth c hc).trans (hbag.symm.trans hq)) hcq

/-- **No other function stays in SSA form** if all its blocks can be reached. -/
theorem singleEdges_of_staysInSSAForm {order : AddrOrder β} (hreach : f.Reachable)
    (h : StaysInSSAForm f order) : f.SingleEdges := by
  intro a b hcount
  obtain ⟨s, hs, hphis⟩ := h.2
  obtain ⟨s', hs', hinv, hcov, hidle⟩ := PhiState.halts f order
  obtain rfl := Option.some.inj (Machine.halts_unique hs hs')
  rw [List.eq_nil_iff_forall_not_mem]
  intro er her
  obtain ⟨φ, hφ, rfl⟩ := hcov.phis b (hcov.finished_of_reach hidle (hreach b)) er her
  have hg := hinv.phiInv.graph
  -- both edges of the branch lead to `b`
  have hlength := (f.terminator a).length_successors
  have hboth : (f.terminator a).successors.count b = (f.terminator a).successors.length :=
    le_antisymm List.count_le_length (hlength.trans hcount)
  have hsuccs := hg.succs_of_both fun c hc => (List.count_eq_length.mp hboth c hc).symm
  have hedges : (s.graph.succs (.orig a)).count (.orig b) = (s.graph.succs (.orig a)).length :=
    List.count_eq_length.mpr fun x hx => (hsuccs x hx).symm
  have hhops := congrArg List.length (hg.hops a)
  rw [List.length_map] at hhops
  -- but the phi node has one value for them
  have hone := List.nodup_iff_count_le_one.mp (hinv.phiInv.phis _ φ hφ).nodup (.orig a)
  rw [hphis.edges _ φ hφ, hedges, hhops, ← hboth] at hone
  exact absurd hcount (Nat.not_lt_of_le hone)

/-! ### Two functions of three blocks -/

/-- The blocks of the samples: the first, one that branches, and the last. -/
inductive ThreeBlocks
  | entry | branch | last
  deriving DecidableEq

namespace ThreeBlocks

/-- The blocks of the function and the relay blocks lie alternately. -/
def order : AddrOrder ThreeBlocks where
  addr
    | .orig .entry => 0
    | .orig .branch => 2
    | .orig .last => 4
    | .relay m => 2 * m + 1
  block a :=
    if a % 2 = 1 then some (.relay (a / 2))
    else if a = 0 then some (.orig .entry)
    else if a = 2 then some (.orig .branch)
    else if a = 4 then some (.orig .last)
    else none
  block_addr b := by
    cases b with
    | orig b => cases b <;> rfl
    | relay m =>
        show (if (2 * m + 1) % 2 = 1 then some (BB.relay ((2 * m + 1) / 2)) else _) = _
        rw [if_pos (by omega), show (2 * m + 1) / 2 = m by omega]

/-- The last two blocks read `X0`. -/
def readsX0 (b : ThreeBlocks) (er : EcvReg) : Bool := b ≠ .entry ∧ er = ⟨.General, 0⟩

/-- The entry leads to a conditional branch. -/
def func (true_bb false_bb : ThreeBlocks) : LiftedCFG ThreeBlocks where
  blocks := [.entry, .branch, .last]
  nodup := by decide
  complete b := by cases b <;> decide
  entry := .entry
  terminator
    | .entry => .br .branch
    | .branch => .condBr true_bb false_bb
    | .last => .ret
  drvd_rmp b := if b = .entry then [] else [⟨.General, 0⟩]
  accessed := readsX0
  r_fresh_inst_mp := readsX0
  fresh_accessed _ _ h := h

/-- Where the two targets differ every register may be derived. -/
theorem singleEdges_func {true_bb false_bb : ThreeBlocks} (h : true_bb ≠ false_bb) :
    (func true_bb false_bb).SingleEdges := by
  intro a b hcount
  cases a with
  | entry =>
      have hnodup : [branch].Nodup := List.nodup_singleton _
      exact absurd (List.nodup_iff_count_le_one.mp hnodup b) (Nat.not_le_of_lt hcount)
  | branch =>
      have hnodup : [true_bb, false_bb].Nodup := List.nodup_cons.mpr
        ⟨fun hmem => h (List.mem_singleton.mp hmem), List.nodup_singleton _⟩
      exact absurd (List.nodup_iff_count_le_one.mp hnodup b) (Nat.not_le_of_lt hcount)
  | last => exact absurd hcount (Nat.not_lt_zero 1)

end ThreeBlocks

/-- The second block is a loop. -/
theorem staysInSSAForm_loop :
    StaysInSSAForm (ThreeBlocks.func .branch .last) ThreeBlocks.order :=
  staysInSSAForm _ _ (ThreeBlocks.singleEdges_func (by decide))

/-- `b.eq` to the next instruction: the phi node of the last block has one value for two edges. -/
theorem not_staysInSSAForm_bothTargets :
    ¬ StaysInSSAForm (ThreeBlocks.func .last .last) ThreeBlocks.order := by
  have hrun : (Machine.run (PhiState.step (ThreeBlocks.func .last .last) · ThreeBlocks.order) 20
      (.start (ThreeBlocks.func .last .last))).any (fun r => r.any fun s =>
        (s.phis (.orig .last)).any fun φ =>
          φ.blocks.count (.orig .branch) ≠ (s.graph.succs (.orig .branch)).count (.orig .last)) =
      true := by
    decide +kernel
  intro h
  generalize hr : Machine.run _ _ _ = r at hrun
  cases r with
  | none => cases hrun
  | some r =>
      obtain ⟨s, hhalts, hs⟩ := h.2
      obtain rfl := Machine.halts_unique ⟨20, hr⟩ hhalts
      obtain ⟨φ, hφ, hne⟩ := List.any_eq_true.mp hrun
      exact of_decide_eq_true hne (hs.edges (.orig .last) φ hφ (.orig .branch))

end Elfconv
